import MachVM.Object
import MachVM.ResidentReach

namespace MachVM

open Mirror

/-- The operations that touch the two totals: those on resident pages, and writing a page to
its pager. -/
inductive TotalsOp
  | page (op : PageOp)
  | pageout (mem : PageId)

def totalsStep (s : VmState) : TotalsOp → Option VmState
  | .page op => pageStep s op
  | .pageout mem => (vmPageoutPage s mem).toOption

/-- What callers owe. A page to be written is not busy, on no queue and in an object that
has a pager. -/
def TotalsPre (s : VmState) : TotalsOp → Prop
  | .page op => PagePre s op
  | .pageout mem => (s.page mem).busy = false ∧ (s.page mem).free = false ∧
      (s.page mem).active = false ∧ (s.page mem).inactive = false ∧ (s.page mem).tabled = true

/-- The steps that keep both totals: pages are not written out, the page to be allocated was
not freed while wired, a new cell is not wired, and no wire count overflows. -/
def TotalsKept (s : VmState) : TotalsOp → Prop
  | .page (.create mem _) => (s.page mem).wireCount = 0
  | .page (.fictitious mem _ _) => (s.page mem).wireCount = 0
  | .page (.alloc _ _ _) => ∀ mem ∈ s.queueFree.getLast?, (s.page mem).wireCount = 0
  | .page (.wire mem) => (s.page mem).wireCount ≠ 65535
  | .page _ => True
  | .pageout _ => False

/-- Runs from a machine on which no page is wired or in the laundry, with steps as allowed. -/
inductive TotalsRun (allowed : VmState → TotalsOp → Prop) : VmState → Prop
  | start (s : VmState) : (∀ p, (s.page p).laundry = false ∧ (s.page p).wireCount = 0) →
      s.laundryCount = 0 → s.wireCount = 0 → TotalsRun allowed s
  | step {s t : VmState} (op : TotalsOp) : TotalsRun allowed s → TotalsPre s op → allowed s op →
      totalsStep s op = some t → TotalsRun allowed t

/-- The pages that are wired, and the total that counts them. -/
def WireExact (s : VmState) : Prop :=
  ∃ q, Mirrors q (fun p => (s.page p).wireCount ≠ 0) ∧ s.wireCount = q.length

def LaundryExact (s : VmState) : Prop :=
  ∃ q, Mirrors q (fun p => (s.page p).laundry = true) ∧ s.laundryCount = q.length

/-- Nothing is in the laundry and the wire total is right. -/
structure TotalsInv (s : VmState) : Prop where
  clean : ∀ p, (s.page p).laundry = false
  laundry : s.laundryCount = 0
  wired : WireExact s

/-- A state that carries the same marks on its pages, and the same totals. -/
structure SameMarks (s t : VmState) : Prop where
  page : ∀ p, (t.page p).wireCount = (s.page p).wireCount ∧ (t.page p).laundry = (s.page p).laundry
  wireCount : t.wireCount = s.wireCount
  laundryCount : t.laundryCount = s.laundryCount

variable {s t u : VmState} {mem : PageId}

theorem SameMarks.refl (s : VmState) : SameMarks s s := ⟨fun _ => ⟨rfl, rfl⟩, rfl, rfl⟩

theorem SameMarks.trans (h : SameMarks s t) (h' : SameMarks t u) : SameMarks s u := by
  refine ⟨?_, h'.wireCount.trans h.wireCount, h'.laundryCount.trans h.laundryCount⟩
  intro p
  exact ⟨(h'.page p).1.trans (h.page p).1, (h'.page p).2.trans (h.page p).2⟩

theorem TotalsInv.congr (h : TotalsInv s) (hs : SameMarks s t) : TotalsInv t := by
  obtain ⟨q, hq, hc⟩ := h.wired
  refine ⟨fun p => (hs.page p).2.trans (h.clean p), hs.laundryCount.trans h.laundry, q, ?_,
    hs.wireCount.trans hc⟩
  apply hq.congr
  intro p
  rw [(hs.page p).1]

theorem SameMarks.of_update {p : VmPage} (hp : t.page = Function.update s.page mem p)
    (hw : p.wireCount = (s.page mem).wireCount) (hl : p.laundry = (s.page mem).laundry)
    (hwc : t.wireCount = s.wireCount) (hlc : t.laundryCount = s.laundryCount) : SameMarks s t := by
  refine ⟨?_, hwc, hlc⟩
  intro x
  rw [hp]
  by_cases hx : x = mem
  · subst hx
    simp [hw, hl]
  · simp [hx]

theorem vmPageInsert_marks {o : ObjId} {off : VmOffset} (hi : vmPageInsert s mem o off = some t) :
    SameMarks s t := by
  obtain ⟨-, hp⟩ := vmPageInsert_page hi
  unfold vmPageInsert at hi
  split at hi
  next => simp at hi
  next =>
    cases Option.some.inj hi
    exact .of_update hp rfl rfl rfl rfl

theorem vmPageRemove_marks (s : VmState) (mem : PageId) : SameMarks s (vmPageRemove s mem) := by
  simp only [vmPageRemove]
  split
  next => exact .of_update rfl rfl rfl rfl rfl
  next => exact .refl s

theorem leaveActive_marks (s : VmState) (mem : PageId) : SameMarks s (leaveActive s mem) :=
  .of_update rfl rfl rfl rfl rfl

theorem leaveInactive_marks (s : VmState) (mem : PageId) : SameMarks s (leaveInactive s mem) :=
  .of_update rfl rfl rfl rfl rfl

theorem enterActive_marks (s : VmState) (mem : PageId) : SameMarks s (enterActive s mem) :=
  .of_update rfl rfl rfl rfl rfl

theorem vmPageQueuesRemove_marks (s : VmState) (mem : PageId) :
    SameMarks s (vmPageQueuesRemove s mem) := by
  have h₁ : SameMarks s (if (s.page mem).active then leaveActive s mem else s) := by
    split
    next => exact leaveActive_marks s mem
    next => exact .refl s
  simp only [vmPageQueuesRemove]
  generalize (if (s.page mem).active then leaveActive s mem else s) = v at h₁ ⊢
  split
  next => exact h₁.trans (leaveInactive_marks v mem)
  next => exact h₁

theorem vmPageActivate_marks (ha : vmPageActivate s mem = some t) : SameMarks s t := by
  have h₁ : SameMarks s (if (s.page mem).inactive then leaveInactive s mem else s) := by
    split
    next => exact leaveInactive_marks s mem
    next => exact .refl s
  simp only [vmPageActivate] at ha
  generalize (if (s.page mem).inactive then leaveInactive s mem else s) = v at ha h₁
  split at ha
  next =>
    split at ha
    next => simp at ha
    next =>
      cases Option.some.inj ha
      exact h₁.trans (enterActive_marks v mem)
  next =>
    cases Option.some.inj ha
    exact h₁

theorem vmPageDeactivate_marks (s : VmState) (mem : PageId) :
    SameMarks s (vmPageDeactivate s mem) := by
  unfold vmPageDeactivate
  split
  next =>
    have h₂ : SameMarks (leaveActive s mem) (enterInactive (leaveActive s mem) mem) :=
      .of_update rfl rfl rfl rfl rfl
    exact (leaveActive_marks s mem).trans h₂
  next => exact .refl s

theorem vmPageFree_marks (hc : ∀ p, (s.page p).laundry = false) (hl : s.laundryCount = 0)
    (hf : vmPageFree s mem = some t) : SameMarks s t := by
  unfold vmPageFree at hf
  split at hf
  next => simp at hf
  next =>
    have h₁ := (vmPageRemove_marks s mem).trans (vmPageQueuesRemove_marks _ mem)
    simp only at hf
    generalize vmPageQueuesRemove (vmPageRemove s mem) mem = v at hf h₁
    have hpage : (pageWakeup (laundryRelease v mem) mem).page = Function.update v.page mem
        { v.page mem with laundry := false, busy := false, wanted := false } := by
      simp [pageWakeup, laundryRelease]
    have h₂ : SameMarks v (pageWakeup (laundryRelease v mem) mem) := by
      refine .of_update hpage rfl ?_ rfl ?_
      · exact ((h₁.page mem).2.trans (hc mem)).symm
      · simp [pageWakeup, laundryRelease, VmState.setPage, h₁.laundryCount.trans hl]
    have h₃ := h₁.trans h₂
    generalize pageWakeup (laundryRelease v mem) mem = w at hf h₃
    have h₄ : SameMarks w (if (w.page mem).absent then
        vmObjectAbsentRelease w (w.page mem).object else w) := by
      split
      next =>
        unfold vmObjectAbsentRelease
        split
        next => exact .refl w
        next => exact ⟨fun _ => ⟨rfl, rfl⟩, rfl, rfl⟩
      next => exact .refl w
    have h₅ := h₃.trans h₄
    generalize (if (w.page mem).absent then vmObjectAbsentRelease w (w.page mem).object else w) = x
      at hf h₅
    split at hf
    next =>
      cases Option.some.inj hf
      exact h₅
    next =>
      cases Option.some.inj hf
      have h₆ : SameMarks x (enterFree x mem) := .of_update rfl rfl rfl rfl rfl
      exact h₅.trans h₆

theorem vmPageInit_marks {o : Option ObjId} {off pa : VmOffset}
    (hl : (s.page mem).laundry = false) (hw : (s.page mem).wireCount = 0)
    (hi : vmPageInit s mem o off pa = some t) : SameMarks s t := by
  have h₁ : SameMarks s (s.setPage mem (vmPageTemplate (s.page mem) pa)) :=
    .of_update rfl hw.symm hl.symm rfl rfl
  cases o with
  | none =>
    cases Option.some.inj hi
    exact h₁
  | some o => exact h₁.trans (vmPageInsert_marks hi)

theorem TotalsInv.init {o : Option ObjId} {off pa : VmOffset} (h : TotalsInv s)
    (hw : (s.page mem).wireCount = 0) (hi : vmPageInit s mem o off pa = some t) : TotalsInv t :=
  h.congr (vmPageInit_marks (h.clean mem) hw hi)

theorem TotalsInv.free (h : TotalsInv s) (hf : vmPageFree s mem = some t) : TotalsInv t :=
  h.congr (vmPageFree_marks h.clean h.laundry hf)

theorem TotalsInv.wire (h : TotalsInv s) (hmax : (s.page mem).wireCount ≠ 65535) :
    TotalsInv (vmPageWire s mem) := by
  have hne : (s.page mem).wireCount + 1 ≠ 0 := by
    intro hz
    apply hmax
    have := congrArg UInt16.toNat hz
    rw [UInt16.toNat_add] at this
    have hlt := (s.page mem).wireCount.toNat_lt
    apply UInt16.toNat_inj.mp
    simp at this ⊢
    omega
  obtain ⟨q, hq, hc⟩ := h.wired
  unfold vmPageWire
  split
  next hz =>
    have hv := vmPageQueuesRemove_marks s mem
    generalize vmPageQueuesRemove s mem = v at hv
    refine ⟨?_, hv.laundryCount.trans h.laundry, q ++ [mem], ?_, ?_⟩
    · intro p
      by_cases hp : p = mem
      · subst hp
        simpa using (hv.page p).2.trans (h.clean p)
      · simpa [hp] using (hv.page p).2.trans (h.clean p)
    · refine hq.append (by simp [hz]) ?_
      intro p
      by_cases hp : p = mem
      · subst hp
        simp [(hv.page p).1, hne]
      · simp [hp, (hv.page p).1]
    · have : (q ++ [mem]).length = q.length + 1 := by simp
      rw [this]
      change s.wireCount + 1 = _
      omega
  next hz =>
    refine ⟨?_, h.laundry, q, ?_, hc⟩
    · intro p
      by_cases hp : p = mem
      · subst hp
        simpa using h.clean p
      · simpa [hp] using h.clean p
    · apply hq.congr
      intro p
      by_cases hp : p = mem
      · subst hp
        simp [hz, hne]
      · simp [hp]

theorem TotalsInv.unwire (h : TotalsInv s) (hw : (s.page mem).wireCount ≠ 0) :
    TotalsInv (vmPageUnwire s mem) := by
  obtain ⟨q, hq, hc⟩ := h.wired
  simp only [vmPageUnwire, setPage_page, Function.update_self]
  split
  next hz =>
    refine ⟨?_, h.laundry, q.erase mem, ?_, ?_⟩
    · intro p
      by_cases hp : p = mem
      · subst hp
        simpa [pageWakeup, enterActive] using h.clean p
      · simpa [pageWakeup, enterActive, hp] using h.clean p
    · apply hq.erase
      intro p
      by_cases hp : p = mem
      · subst hp
        simp [pageWakeup, enterActive, hz]
      · simp [pageWakeup, enterActive, hp]
    · have := hq.length_erase hw
      change s.wireCount - 1 = _
      omega
  next hz =>
    refine ⟨?_, h.laundry, q, ?_, hc⟩
    · intro p
      by_cases hp : p = mem
      · subst hp
        simpa using h.clean p
      · simpa [hp] using h.clean p
    · apply hq.congr
      intro p
      by_cases hp : p = mem
      · subst hp
        simp [hz, hw]
      · simp [hp]

theorem TotalsInv.alloc {o : Option ObjId} {off : VmOffset} {priv : Bool} {m : Option PageId}
    (h : TotalsInv s) (hw : ∀ mem ∈ s.queueFree.getLast?, (s.page mem).wireCount = 0)
    (ha : vmPageAlloc s o off priv = some (t, m)) : TotalsInv t := by
  unfold vmPageAlloc at ha
  split at ha
  next =>
    cases Option.some.inj ha
    exact h
  next mem hmem =>
    split at ha
    next =>
      cases Option.some.inj ha
      exact h
    next =>
      obtain ⟨v, hv, hr⟩ := Option.map_eq_some_iff.mp ha
      cases hr
      have h₁ : TotalsInv { s with
          queueFree := queueRemove s.queueFree mem, freeCount := s.freeCount - 1 } :=
        h.congr ⟨fun _ => ⟨rfl, rfl⟩, rfl, rfl⟩
      exact h₁.init (hw mem hmem) hv

theorem pageStep_totals {op : PageOp} (h : TotalsInv s) (hp : PagePre s op)
    (hk : TotalsKept s (.page op)) (he : pageStep s op = some t) : TotalsInv t := by
  cases op with
  | create mem pa =>
    simp only [pageStep, vmPageCreate] at he
    obtain ⟨v, hv, he⟩ := Option.bind_eq_some_iff.mp he
    exact (h.init hk hv).free he
  | fictitious mem o off =>
    obtain ⟨v, hv, he⟩ := Option.map_eq_some_iff.mp he
    subst he
    exact (h.init hk hv).congr (.of_update rfl rfl rfl rfl rfl)
  | alloc o off priv =>
    obtain ⟨⟨v, m⟩, hv, he⟩ := Option.map_eq_some_iff.mp he
    subst he
    exact h.alloc hk hv
  | insert mem o off => exact h.congr (vmPageInsert_marks he)
  | remove mem =>
    cases Option.some.inj he
    exact h.congr (vmPageRemove_marks s mem)
  | rename mem o off =>
    simp only [pageStep, vmPageRename] at he
    split at he
    next =>
      cases Option.some.inj he
      exact h
    next => exact h.congr ((vmPageRemove_marks s mem).trans (vmPageInsert_marks he))
  | free mem => exact h.free he
  | activate mem => exact h.congr (vmPageActivate_marks he)
  | deactivate mem =>
    cases Option.some.inj he
    exact h.congr (vmPageDeactivate_marks s mem)
  | wire mem =>
    cases Option.some.inj he
    exact h.wire hk
  | unwire mem =>
    cases Option.some.inj he
    exact h.unwire hp.2
  | queuesRemove mem =>
    cases Option.some.inj he
    exact h.congr (vmPageQueuesRemove_marks s mem)

theorem TotalsInv.exact (h : TotalsInv s) : LaundryExact s ∧ WireExact s := by
  refine ⟨⟨[], ?_, by simp [h.laundry]⟩, h.wired⟩
  apply mirrors_nil.congr
  intro p
  simp [h.clean p]

theorem totalsRun_inv (h : TotalsRun TotalsKept s) : TotalsInv s := by
  induction h with
  | start s hp hl hw =>
    refine ⟨fun p => (hp p).1, hl, [], ?_, by simp [hw]⟩
    apply mirrors_nil.congr
    intro p
    simp [(hp p).2]
  | step op _ hp hk he ih =>
    cases op with
    | page op => exact pageStep_totals ih hp hk he
    | pageout mem => exact hk.elim

/-- As long as no page is written out, no page is freed wired and allocated again, and no
wire count overflows, both totals are exact. -/
theorem totalsRun_exact (h : TotalsRun TotalsKept s) : LaundryExact s ∧ WireExact s :=
  (totalsRun_inv h).exact

theorem vmPageoutPage_breaks_laundry (h : TotalsInv s) (he : vmPageoutPage s mem = .ok t) : ¬LaundryExact t := by
  simp only [vmPageoutPage] at he
  obtain ⟨old, -, he⟩ := bind_eq_ok he
  obtain ⟨pager, -, he⟩ := bind_eq_ok he
  obtain ⟨v, hv, he⟩ := bind_eq_ok he
  obtain ⟨w, hw, he⟩ := bind_eq_ok he
  have hnew : SameMarks s (vmObjectAllocate (vmPageRemove s mem) pageSize).1 :=
    (vmPageRemove_marks s mem).trans ⟨fun _ => ⟨rfl, rfl⟩, rfl, rfl⟩
  have hv : SameMarks s v := hnew.trans (vmPageInsert_marks (pageResult_ok hv))
  have hmark : ∀ (v : VmState) (f : VmPage → VmPage), (∀ p, (f p).laundry = p.laundry) →
      (v.page mem).laundry = false ∧ v.laundryCount = 0 →
      ((v.modPage mem f).page mem).laundry = false ∧ (v.modPage mem f).laundryCount = 0 := by
    intro v f hf hv
    rw [VmState.modPage, setPage_page, Function.update_self, hf]
    exact hv
  have hclean := hmark v (fun p => { p with dirty := true, busy := false, wanted := false }) (fun _ => rfl)
    ⟨(hv.page mem).2.trans (h.clean mem), hv.laundryCount.trans h.laundry⟩
  have hw : (w.page mem).laundry = false ∧ w.laundryCount = 0 := by
    split at hw
    next =>
      cases Except.ok.inj hw
      exact hmark _ (fun p => { p with wireCount := p.wireCount + 1 }) (fun _ => rfl) hclean
    next =>
      have hact := vmPageActivate_marks (pageResult_ok hw)
      rw [(hact.page mem).2, hact.laundryCount]
      exact hclean
  cases Except.ok.inj he
  rw [if_neg (by rw [hw.1]; decide)]
  rintro ⟨q, hq, hc⟩
  have hmem := List.length_pos_of_mem ((hq.mem_iff mem).mpr (by simp [VmState.modPage]))
  have hcount := hw.2
  dsimp only at hc
  omega
/-- The first page that is written out ends the exactness of the laundry total. -/
theorem totalsRun_pageout (h : TotalsRun TotalsKept s) (he : totalsStep s (.pageout mem) = some t) :
    ¬LaundryExact t := by
  simp only [totalsStep] at he
  cases hr : vmPageoutPage s mem with
  | error e =>
    rw [hr] at he
    cases he
  | ok v =>
    rw [hr] at he
    cases Option.some.inj he
    exact vmPageoutPage_breaks_laundry (totalsRun_inv h) hr

instance : (s : VmState) → (op : TotalsOp) → Decidable (TotalsPre s op)
  | s, .page op => inferInstanceAs (Decidable (PagePre s op))
  | _, .pageout _ => inferInstanceAs (Decidable (_ ∧ _ ∧ _ ∧ _ ∧ _))

instance : (s : VmState) → (op : TotalsOp) → Decidable (TotalsKept s op)
  | s, .page (.create mem _) => inferInstanceAs (Decidable ((s.page mem).wireCount = 0))
  | s, .page (.fictitious mem _ _) => inferInstanceAs (Decidable ((s.page mem).wireCount = 0))
  | s, .page (.alloc _ _ _) =>
    inferInstanceAs (Decidable (∀ mem ∈ s.queueFree.getLast?, (s.page mem).wireCount = 0))
  | s, .page (.wire mem) => inferInstanceAs (Decidable ((s.page mem).wireCount ≠ 65535))
  | _, .page (.insert ..) | _, .page (.remove _) | _, .page (.rename ..) | _, .page (.free _)
  | _, .page (.activate _) | _, .page (.deactivate _) | _, .page (.unwire _)
  | _, .page (.queuesRemove _) => inferInstanceAs (Decidable True)
  | _, .pageout _ => inferInstanceAs (Decidable False)

/-- Run a list of operations, each checked against what its caller owes and what is allowed. -/
def totalsSteps (allowed : VmState → TotalsOp → Prop) [∀ s op, Decidable (allowed s op)]
    (s : VmState) : List TotalsOp → Option VmState
  | [] => some s
  | op :: ops =>
    if TotalsPre s op ∧ allowed s op then
      (totalsStep s op).bind fun t => totalsSteps allowed t ops
    else none

theorem totalsSteps_run {allowed : VmState → TotalsOp → Prop} [∀ s op, Decidable (allowed s op)]
    {ops : List TotalsOp} (h : TotalsRun allowed s) (he : totalsSteps allowed s ops = some t) :
    TotalsRun allowed t := by
  induction ops generalizing s with
  | nil =>
    cases Option.some.inj he
    exact h
  | cons op ops ih =>
    simp only [totalsSteps] at he
    split at he
    next hp =>
      obtain ⟨u, hu, he⟩ := Option.bind_eq_some_iff.mp he
      exact ih (.step op h hp.1 hp.2 hu) he
    next => simp at he

/-- An internal object that the default pager has taken over. -/
def pagedObject : VmState :=
  { object := fun o => if o = 1 then { pager := some 7, pagerCreated := true }
      else { alive := false, refCount := 0 }
    nextObject := 2 }

theorem pagedObject_run (allowed : VmState → TotalsOp → Prop) : TotalsRun allowed pagedObject :=
  .start pagedObject (fun _ => ⟨rfl, rfl⟩) rfl rfl

/-- Two pages are allocated, one is wired twice and unwired once, the other one freed. -/
theorem pagedObject_exact :
    ∃ t, totalsSteps TotalsKept pagedObject
        [.page (.create 0 0), .page (.create 1 4096), .page (.alloc (some 1) 0 false),
          .page (.alloc (some 1) 4096 false), .page (.wire 0), .page (.wire 0), .page (.unwire 0),
          .page (.free 1)] = some t ∧
      t.wireCount = 1 ∧ LaundryExact t ∧ WireExact t := by
  have hsome : (totalsSteps TotalsKept pagedObject
      [.page (.create 0 0), .page (.create 1 4096), .page (.alloc (some 1) 0 false),
        .page (.alloc (some 1) 4096 false), .page (.wire 0), .page (.wire 0), .page (.unwire 0),
        .page (.free 1)]).map (fun t => t.wireCount) = some 1 := by decide +kernel
  obtain ⟨t, ht, hw⟩ := Option.map_eq_some_iff.mp hsome
  exact ⟨t, ht, hw, totalsRun_exact (totalsSteps_run (pagedObject_run _) ht)⟩

/-- One page is written out. It is in the laundry and wired afterwards, and neither total
says so: the place-holder page takes the laundry count down again. -/
theorem pageout_loses_totals :
    ∃ t, TotalsRun (fun _ _ => True) t ∧ ¬LaundryExact t ∧ ¬WireExact t := by
  have hsome : (totalsSteps (fun _ _ => True) pagedObject
      [.page (.create 0 0), .page (.alloc (some 1) 0 false), .page (.wire 0), .page (.unwire 0),
        .page (.queuesRemove 0), .pageout 0]).map
      (fun t => ((t.page 0).laundry, (t.page 0).wireCount, t.laundryCount, t.wireCount)) =
        some (true, 1, 0, 0) := by decide +kernel
  obtain ⟨t, ht, hv⟩ := Option.map_eq_some_iff.mp hsome
  simp only [Prod.mk.injEq] at hv
  obtain ⟨hl, hw, hlc, hwc⟩ := hv
  refine ⟨t, totalsSteps_run (pagedObject_run _) ht, ?_, ?_⟩
  · rintro ⟨q, hq, hc⟩
    have := List.length_pos_of_mem ((hq.mem_iff 0).mpr hl)
    omega
  · rintro ⟨q, hq, hc⟩
    have := List.length_pos_of_mem ((hq.mem_iff 0).mpr (by rw [hw]; decide))
    omega

end MachVM
