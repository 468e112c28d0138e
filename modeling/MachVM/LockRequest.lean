import MachVM.MemoryObject
import MachVM.PmapEntries

namespace MachVM.LockRequest

open I386 (Pte Frame lowered)

/-- A thread asleep in `vm_fault_page` on a page whose lock keeps its fault out. -/
structure Sleeper where
  thread : Nat
  page : PageId
  faultType : VmProt
  deriving DecidableEq, Repr

structure State where
  vm : VmState
  pmap : I386.State
  asleep : List Sleeper

def frame (p : VmPage) : Frame := p.physAddr.toNat / 4096

namespace State

variable (s : State)

/-- The first half of `PAGE_ASSERT_WAIT`. -/
def markWanted (mem : PageId) : State := { s with vm := s.vm.modPage mem fun p => { p with wanted := true } }

/-- `PAGE_WAKEUP`. -/
def wakeup (mem : PageId) : State where
  vm := pageWakeup s.vm mem
  pmap := s.pmap
  asleep := if (s.vm.page mem).wanted then s.asleep.filter (·.page ≠ mem) else s.asleep

end State

/-- `vm_fault_page` at a page whose lock keeps the fault out: the unlocking is asked for once, and the thread
sleeps. -/
def faultWait (s : State) (x : Sleeper) : State :=
  let s := { s with vm := s.vm.modPage x.page fun p => { p with unlockRequest := x.faultType ||| p.unlockRequest } }
  { s.markWanted x.page with asleep := x :: s.asleep }

/-- `m->page_lock = prot` with the request for it to be unlocked cleared. -/
def relock (prot : VmProt) (p : VmPage) : VmPage := { p with pageLock := prot, unlockRequest := protNone }

/-- What `memory_object_lock_request` does to the lock of a page. -/
def lockPage (s : State) (mem : PageId) (prot : VmProt) : Except I386.Panic State :=
  let p := s.vm.page mem
  (if (p.pageLock ^^^ prot) &&& prot ≠ 0 then
    (I386.pmapPageProtect s.pmap (frame p) (protAll &&& ~~~prot)).map fun q => { s with pmap := q }
  else .ok (s.wakeup mem)).map fun s => { s with vm := s.vm.modPage mem (relock prot) }

/-- The loop of `memory_object_lock_request`, cleaning and flushing nothing. `meanwhile` is what the other threads do
while it sleeps on a page. `none` means that it has not come to its end. -/
def lockLoop (meanwhile : State → State) (o : ObjId) (prot : VmProt) :
    Nat → List VmOffset → State → Option (Except I386.Panic State)
  | _, [], s => some (.ok s)
  | 0, _ :: _, _ => none
  | k + 1, offset :: rest, s =>
    match vmPageLookup s.vm o offset with
    | none => lockLoop meanwhile o prot k rest s
    | some mem =>
      let p := s.vm.page mem
      if p.absent then lockLoop meanwhile o prot k rest s
      else if p.busy || p.wireCount != 0 then
        lockLoop meanwhile o prot k (offset :: rest) (meanwhile (s.markWanted mem))
      else
        match lockPage s mem prot with
        | .error e => some (.error e)
        | .ok t => lockLoop meanwhile o prot k rest t

def memoryObjectLockRequest (meanwhile : State → State) (k : Nat) (s : State) (o : ObjId) (offset : VmOffset)
    (size : VmSize) (prot : VmProt) : Option (Except I386.Panic State) :=
  lockLoop meanwhile o prot k (pageOffsets (offset - (s.vm.object o).pagingOffset) (roundPage size)) s

/-- What an entry lets be done with the page. The processor has no right of its own for execution. -/
def rights (pte : Pte) : VmProt :=
  if pte.valid then
    match pte.prot with
    | .noAccess => protNone
    | .ur => protRead ||| protExecute
    | .krw | .uw => protAll
  else protNone

/-- The mappings of a page have none of the rights. -/
def NoneOf (s : State) (mem : PageId) (prot : VmProt) : Prop :=
  ∀ x pte, s.pmap.mapping x = some pte → pte.pfn = frame (s.vm.page mem) → rights pte &&& prot = 0

/-- What is promised of a page whose lock is changed. -/
structure Granted (prot : VmProt) (mem : PageId) (s : State) : Prop where
  awake : ∀ x ∈ s.asleep, x.page = mem → x.faultType &&& prot ≠ 0
  unmapped : NoneOf s mem prot

/-- The state the page module and the pmap module keep, for a page with a frame of its own. -/
structure Good (mem : PageId) (s : State) : Prop where
  table : TableInv s.vm
  coherent : I386.Coherent s.pmap
  managed : s.pmap.managedPhys (frame (s.vm.page mem)) = true
  apart : ∀ m, (s.vm.page m).tabled = true → m ≠ mem → frame (s.vm.page m) ≠ frame (s.vm.page mem)
  wanted : ∀ x ∈ s.asleep, x.page = mem → (s.vm.page mem).wanted = true

/-- What leaves a page, its sleepers and its mappings as they are. -/
structure Untouched (mem : PageId) (s t : State) : Prop where
  good : Good mem t
  page : t.vm.page mem = s.vm.page mem
  asleep : ∀ x, x.page = mem → (x ∈ t.asleep ↔ x ∈ s.asleep)
  mapping : ∀ x pte, pte.pfn = frame (s.vm.page mem) → (t.pmap.mapping x = some pte ↔ s.pmap.mapping x = some pte)

variable {s t u : State} {mem m : PageId} {prot : VmProt} {o : ObjId} {offset : VmOffset} {size : VmSize} {k : Nat}
  {meanwhile : State → State} {x : Sleeper} {pte : Pte}

theorem Untouched.refl (h : Good mem s) : Untouched mem s s := ⟨h, rfl, fun _ _ => .rfl, fun _ _ _ => .rfl⟩

theorem Untouched.trans (h : Untouched mem s t) (h' : Untouched mem t u) : Untouched mem s u where
  good := h'.good
  page := h'.page.trans h.page
  asleep x hx := (h'.asleep x hx).trans (h.asleep x hx)
  mapping x pte hf := (h'.mapping x pte (by rw [h.page]; exact hf)).trans (h.mapping x pte hf)

theorem Untouched.granted (h : Untouched mem s t) : Granted prot mem t ↔ Granted prot mem s := by
  constructor
  · rintro ⟨ha, hu⟩
    refine ⟨fun x hx hm => ha x ((h.asleep x hm).mpr hx) hm, fun x pte hx hf => hu x pte ?_ (by rw [h.page]; exact hf)⟩
    exact (h.mapping x pte hf).mpr hx
  · rintro ⟨ha, hu⟩
    refine ⟨fun x hx hm => ha x ((h.asleep x hm).mp hx) hm, fun x pte hx hf => ?_⟩
    rw [h.page] at hf
    exact hu x pte ((h.mapping x pte hf).mp hx) hf

theorem modPage_table {s : VmState} {f : VmPage → VmPage} (h : TableInv s)
    (hf : ∀ p, (f p).tabled = p.tabled ∧ (f p).object = p.object ∧ (f p).offset = p.offset) :
    TableInv (s.modPage m f) := by
  refine h.congr (fun p => ?_) rfl rfl fun _ => ⟨rfl, rfl⟩
  by_cases hp : p = m
  · subst hp
    simpa [VmState.modPage, VmState.setPage] using hf (s.page p)
  · simp [VmState.modPage, VmState.setPage, hp]

theorem modPage_page {s : VmState} {f : VmPage → VmPage} (p : PageId) :
    (s.modPage m f).page p = if p = m then f (s.page p) else s.page p := by
  by_cases hp : p = m
  · subst hp
    simp [VmState.modPage, VmState.setPage]
  · simp [VmState.modPage, VmState.setPage, hp]

/-- A change of a page structure that leaves the page where it is. -/
def SameFrame (f : VmPage → VmPage) : Prop := ∀ p,
  (f p).tabled = p.tabled ∧ (f p).object = p.object ∧ (f p).offset = p.offset ∧ (f p).physAddr = p.physAddr

theorem Good.flags {f : VmPage → VmPage} {asleep : List Sleeper} (h : Good mem s)
    (hf : SameFrame f)
    (hw : ∀ x ∈ asleep, x.page = mem → ((s.vm.modPage m f).page mem).wanted = true) :
    Good mem ⟨s.vm.modPage m f, s.pmap, asleep⟩ := by
  have hframe : ∀ p, frame ((s.vm.modPage m f).page p) = frame (s.vm.page p) := by
    intro p
    rw [modPage_page, frame, frame]
    split
    next => rw [(hf _).2.2.2]
    next => rfl
  refine ⟨modPage_table h.table fun p => ⟨(hf p).1, (hf p).2.1, (hf p).2.2.1⟩, h.coherent, ?_, fun p hp hne => ?_, hw⟩
  · rw [hframe]
    exact h.managed
  · rw [hframe, hframe]
    refine h.apart p ?_ hne
    rw [modPage_page] at hp
    split at hp
    next => rw [(hf _).1] at hp; exact hp
    next => exact hp

theorem faultWait_good (h : Good mem s) : Good mem (faultWait s x) := by
  have h₁ : Good mem ⟨s.vm.modPage x.page fun p => { p with unlockRequest := x.faultType ||| p.unlockRequest },
      s.pmap, s.asleep⟩ := by
    refine h.flags (fun _ => ⟨rfl, rfl, rfl, rfl⟩) fun y hy hm => ?_
    rw [modPage_page]
    split
    next => exact h.wanted y hy hm
    next => exact h.wanted y hy hm
  refine h₁.flags (f := fun p => { p with wanted := true }) (fun _ => ⟨rfl, rfl, rfl, rfl⟩) fun y hy hm => ?_
  rw [modPage_page]
  split
  next => rfl
  next hne =>
    obtain rfl | hy := List.mem_cons.mp hy
    · exact absurd hm.symm hne
    · exact h₁.wanted y hy hm

theorem Untouched.flags {f : VmPage → VmPage} {asleep : List Sleeper} (h : Good mem s) (hne : m ≠ mem)
    (hf : SameFrame f)
    (ha : ∀ x, x.page = mem → (x ∈ asleep ↔ x ∈ s.asleep)) :
    Untouched mem s ⟨s.vm.modPage m f, s.pmap, asleep⟩ := by
  have hpage : (s.vm.modPage m f).page mem = s.vm.page mem := by rw [modPage_page, if_neg (Ne.symm hne)]
  refine ⟨h.flags hf fun x hx hm => ?_, hpage, ha, fun _ _ _ => .rfl⟩
  rw [hpage]
  exact h.wanted x ((ha x hm).mp hx) hm

theorem markWanted_untouched (h : Good mem s) (hne : m ≠ mem) : Untouched mem s (s.markWanted m) :=
  .flags h hne (fun _ => ⟨rfl, rfl, rfl, rfl⟩) fun _ _ => .rfl

theorem mem_wakeup (hm : x.page ≠ m) : x ∈ (s.wakeup m).asleep ↔ x ∈ s.asleep := by
  unfold State.wakeup
  dsimp only
  split
  next => simp [hm]
  next => rfl

theorem wakeup_untouched (h : Good mem s) (hne : m ≠ mem) : Untouched mem s (s.wakeup m) :=
  Untouched.flags (f := fun p => { p with busy := false, wanted := false }) h hne (fun _ => ⟨rfl, rfl, rfl, rfl⟩)
    fun _ hx => mem_wakeup (hx ▸ Ne.symm hne)

/-! ### The mappings -/

/-- `pmap_page_protect` is to leave readable only what may be written, and not to take the mappings away. -/
def leavesRead (prot : VmProt) : Prop :=
  protAll &&& ~~~prot = protRead ∨ protAll &&& ~~~prot = protRead ||| protExecute

theorem rights_and (pte : Pte) (prot : VmProt) : rights pte &&& prot = rights pte &&& (protAll &&& prot) := by
  have h : rights pte = rights pte &&& protAll := by
    unfold rights
    split
    next => cases pte.prot <;> decide
    next => decide
  rw [← BitVec.and_assoc, ← h]

theorem and_protAll_eq_zero (h : protAll &&& ~~~prot = protAll) : protAll &&& prot = 0 := by
  have h₁ : protAll &&& prot = protAll &&& ~~~prot &&& prot := by rw [h]
  rw [h₁, BitVec.and_assoc, BitVec.not_and_self]
  simp

variable {q : I386.State} {f : Frame}

theorem pmapPageProtect_rights {s : I386.State} (hc : I386.Coherent s) (hg : s.managedPhys f = true)
    (h : I386.pmapPageProtect s f (protAll &&& ~~~prot) = .ok q) :
    (∀ x pte, q.mapping x = some pte → pte.pfn = f → rights pte &&& prot = 0) ↔
      (leavesRead prot → ∀ x pte, s.mapping x = some pte → pte.pfn = f → rights (lowered x.1 pte) &&& prot = 0) := by
  unfold I386.pmapPageProtect at h
  split at h
  next hl =>
    have hl' : leavesRead prot := hl
    obtain ⟨-, -, hm⟩ := I386.pmapCopyOnWrite_mapping hc h
    constructor
    · intro hr _ x pte hx hf
      refine hr x _ ?_ ((I386.lowered_pfn _ _).trans hf)
      rw [hm, hx, Option.map_some, if_pos hf]
    · intro hr x pte hx hf
      rw [hm] at hx
      obtain ⟨old, hold, rfl⟩ := Option.map_eq_some_iff.mp hx
      by_cases ho : old.pfn = f
      · rw [if_pos ho]
        exact hr hl' x old hold ho
      · rw [if_neg ho] at hf
        exact absurd hf ho
  next hl =>
    refine iff_of_true ?_ fun hl' => absurd hl' hl
    split at h
    next hall =>
      intro x pte _ _
      rw [rights_and, and_protAll_eq_zero hall]
      simp
    next =>
      obtain ⟨-, -, hm⟩ := I386.pmapRemoveAll_mapping hc hg h
      exact fun x pte hx hf => absurd hf ((hm x pte).mp hx).2

theorem pmapPageProtect_other {s : I386.State} {prot : VmProt} (hc : I386.Coherent s)
    (h : I386.pmapPageProtect s f prot = .ok q) :
    I386.Coherent q ∧ q.layout = s.layout ∧
      ∀ x pte, pte.pfn ≠ f → (q.mapping x = some pte ↔ s.mapping x = some pte) := by
  unfold I386.pmapPageProtect at h
  split at h
  next =>
    obtain ⟨hq, hl, hm⟩ := I386.pmapCopyOnWrite_mapping hc h
    refine ⟨hq, hl, fun x pte hne => ?_⟩
    rw [hm]
    cases hx : s.mapping x with
    | none => simp
    | some old =>
      rw [Option.map_some, Option.some.injEq, Option.some.injEq]
      split
      next ho =>
        refine ⟨?_, fun he => absurd (he ▸ ho) hne⟩
        rintro rfl
        exact absurd ((I386.lowered_pfn _ _).trans ho) hne
      next => rfl
  next =>
    split at h
    next =>
      cases Except.ok.inj h
      exact ⟨hc, rfl, fun _ _ _ => .rfl⟩
    next =>
      by_cases hg : s.managedPhys f = true
      · obtain ⟨hq, hl, hm⟩ := I386.pmapRemoveAll_mapping hc hg h
        exact ⟨hq, hl, fun x pte hne => (hm x pte).trans ⟨fun hx => hx.1, fun hx => ⟨hx, hne⟩⟩⟩
      · rw [I386.pmapRemoveAll, if_neg hg] at h
        cases Except.ok.inj h
        exact ⟨hc, rfl, fun _ _ _ => .rfl⟩

/-! ### One page -/

/-- When a request does what it promises: where it takes no right away that the page has not lost yet, nothing maps the
page with one of its rights; where it does, all who sleep on the page are to go on sleeping, and no mapping that stays
has one of its rights. -/
def Grantable (prot : VmProt) (mem : PageId) (s : State) : Prop :=
  if ((s.vm.page mem).pageLock ^^^ prot) &&& prot = 0 then NoneOf s mem prot
  else
    (∀ x ∈ s.asleep, x.page = mem → x.faultType &&& prot ≠ 0) ∧
    (leavesRead prot → ∀ x pte, s.pmap.mapping x = some pte → pte.pfn = frame (s.vm.page mem) →
      rights (lowered x.1 pte) &&& prot = 0)

theorem Untouched.grantable (h : Untouched mem s t) : Grantable prot mem t ↔ Grantable prot mem s := by
  unfold Grantable NoneOf
  rw [h.page]
  by_cases he : ((s.vm.page mem).pageLock ^^^ prot) &&& prot = 0
  · rw [if_pos he, if_pos he]
    exact forall_congr' fun x => forall_congr' fun pte =>
      ⟨fun hh hx hf => hh ((h.mapping x pte hf).mpr hx) hf, fun hh hx hf => hh ((h.mapping x pte hf).mp hx) hf⟩
  · rw [if_neg he, if_neg he]
    refine and_congr (forall_congr' fun x => ?_)
      (forall_congr' fun _ => forall_congr' fun x => forall_congr' fun pte => ?_)
    · exact ⟨fun hh hx hm => hh ((h.asleep x hm).mpr hx) hm, fun hh hx hm => hh ((h.asleep x hm).mp hx) hm⟩
    · exact ⟨fun hh hx hf => hh ((h.mapping x pte hf).mpr hx) hf, fun hh hx hf => hh ((h.mapping x pte hf).mp hx) hf⟩

theorem lockPage_cases (h : lockPage s m prot = .ok t) :
    (((s.vm.page m).pageLock ^^^ prot) &&& prot = 0 ∧
      t = ⟨(s.wakeup m).vm.modPage m (relock prot), s.pmap, (s.wakeup m).asleep⟩) ∨
    (((s.vm.page m).pageLock ^^^ prot) &&& prot ≠ 0 ∧
      ∃ q, I386.pmapPageProtect s.pmap (frame (s.vm.page m)) (protAll &&& ~~~prot) = .ok q ∧
        t = ⟨s.vm.modPage m (relock prot), q, s.asleep⟩) := by
  unfold lockPage at h
  dsimp only at h
  split at h
  next hne =>
    right
    cases hq : I386.pmapPageProtect s.pmap (frame (s.vm.page m)) (protAll &&& ~~~prot) with
    | error e => rw [hq] at h; cases h
    | ok q =>
      rw [hq] at h
      exact ⟨hne, q, rfl, (Except.ok.inj h).symm⟩
  next he => exact .inl ⟨not_not.mp he, (Except.ok.inj h).symm⟩

theorem modPage_frame {s : VmState} {f : VmPage → VmPage} (hf : ∀ p, (f p).physAddr = p.physAddr) (p : PageId) :
    frame ((s.modPage m f).page p) = frame (s.page p) := by
  rw [modPage_page, frame, frame]
  split
  next => rw [hf]
  next => rfl

theorem lockPage_untouched (h : Good mem s) (ht : (s.vm.page m).tabled = true) (hne : m ≠ mem)
    (hl : lockPage s m prot = .ok t) : Untouched mem s t := by
  obtain ⟨-, rfl⟩ | ⟨-, q, hq, rfl⟩ := lockPage_cases hl
  · have h₁ := wakeup_untouched h hne
    exact h₁.trans (.flags h₁.good hne (fun _ => ⟨rfl, rfl, rfl, rfl⟩) fun _ _ => .rfl)
  · obtain ⟨hcq, hlq, hm⟩ := pmapPageProtect_other h.coherent hq
    have hfr := h.apart m ht hne
    have h₁ : Untouched mem s ⟨s.vm, q, s.asleep⟩ := by
      refine ⟨⟨h.table, hcq, ?_, h.apart, h.wanted⟩, rfl, fun _ _ => .rfl, fun x pte hf => hm x pte (hf ▸ Ne.symm hfr)⟩
      rw [I386.State.managedPhys_congr hlq]
      exact h.managed
    exact h₁.trans (.flags h₁.good hne (fun _ => ⟨rfl, rfl, rfl, rfl⟩) fun _ _ => .rfl)

theorem lockPage_right (h : Good mem s) (hl : lockPage s mem prot = .ok t) :
    Good mem t ∧ (Granted prot mem t ↔ Grantable prot mem s) := by
  obtain ⟨he, rfl⟩ | ⟨hne, q, hq, rfl⟩ := lockPage_cases hl
  · have hnone : ∀ x ∈ (s.wakeup mem).asleep, x.page ≠ mem := by
      intro x hx hm
      unfold State.wakeup at hx
      dsimp only at hx
      split at hx
      next => simp [hm] at hx
      next hw => exact hw (h.wanted x hx hm)
    have h₁ : Good mem (s.wakeup mem) :=
      Good.flags (f := fun p => { p with busy := false, wanted := false }) h (fun _ => ⟨rfl, rfl, rfl, rfl⟩)
        fun x hx hm => absurd hm (hnone x hx)
    refine ⟨h₁.flags (fun _ => ⟨rfl, rfl, rfl, rfl⟩) fun x hx hm => absurd hm (hnone x hx), ?_⟩
    have hframe : frame (((s.wakeup mem).vm.modPage mem (relock prot)).page mem) = frame (s.vm.page mem) :=
      (modPage_frame (f := relock prot) (fun _ => rfl) mem).trans
        (modPage_frame (f := fun p => { p with busy := false, wanted := false }) (fun _ => rfl) mem)
    rw [Grantable, if_pos he]
    constructor
    · exact fun hg x pte hx hf => hg.unmapped x pte hx (by rw [hframe]; exact hf)
    · refine fun hn => ⟨fun x hx hm => absurd hm (hnone x hx), fun x pte hx hf => ?_⟩
      rw [hframe] at hf
      exact hn x pte hx hf
  · obtain ⟨hcq, hlq, -⟩ := pmapPageProtect_other h.coherent hq
    have h₁ : Good mem ⟨s.vm, q, s.asleep⟩ := by
      refine ⟨h.table, hcq, ?_, h.apart, h.wanted⟩
      rw [I386.State.managedPhys_congr hlq]
      exact h.managed
    refine ⟨h₁.flags (fun _ => ⟨rfl, rfl, rfl, rfl⟩) fun x hx hm => ?_, ?_⟩
    · rw [modPage_page, if_pos rfl]
      exact h.wanted x hx hm
    · have hframe : frame ((s.vm.modPage mem (relock prot)).page mem) = frame (s.vm.page mem) :=
        modPage_frame (f := relock prot) (fun _ => rfl) mem
      rw [Grantable, if_neg hne, ← pmapPageProtect_rights h.coherent h.managed hq]
      constructor
      · exact fun hg => ⟨hg.awake, fun x pte hx hf => hg.unmapped x pte hx (by rw [hframe]; exact hf)⟩
      · rintro ⟨ha, hr⟩
        refine ⟨ha, fun x pte hx hf => ?_⟩
        rw [hframe] at hf
        exact hr x pte hx hf

/-! ### The request -/

/-- A page of the object that the request finds as it wants it. -/
structure Ready (mem : PageId) (o : ObjId) (s : State) : Prop where
  tabled : (s.vm.page mem).tabled = true
  object : (s.vm.page mem).object = some o
  present : (s.vm.page mem).absent = false
  free : (s.vm.page mem).busy = false
  unwired : (s.vm.page mem).wireCount = 0

theorem Ready.untouched (hr : Ready mem o s) (h : Untouched mem s t) : Ready mem o t := by
  constructor <;> rw [h.page]
  exacts [hr.tabled, hr.object, hr.present, hr.free, hr.unwired]

/-- The other threads leave the page alone. -/
def Leaves (mem : PageId) (meanwhile : State → State) : Prop := ∀ s, Good mem s → Untouched mem s (meanwhile s)

theorem lockLoop_untouched {offsets : List VmOffset} (hm : Leaves mem meanwhile) (h : Good mem s) (hr : Ready mem o s)
    (hn : (s.vm.page mem).offset ∉ offsets) (hrun : lockLoop meanwhile o prot k offsets s = some (.ok t)) :
    Untouched mem s t := by
  induction k generalizing offsets s with
  | zero =>
    cases offsets with
    | nil =>
      cases Except.ok.inj (Option.some.inj hrun)
      exact .refl h
    | cons offset rest => cases hrun
  | succ k ih =>
    cases offsets with
    | nil =>
      cases Except.ok.inj (Option.some.inj hrun)
      exact .refl h
    | cons offset rest =>
      have hne : offset ≠ (s.vm.page mem).offset := fun he => hn (he ▸ List.mem_cons_self)
      have hrest : (s.vm.page mem).offset ∉ rest := fun hh => hn (List.mem_cons_of_mem _ hh)
      rw [lockLoop] at hrun
      split at hrun
      next => exact ih h hr hrest hrun
      next m hl =>
        dsimp only at hrun
        obtain ⟨htab, -, hoff⟩ := (vmPageLookup_eq_some h.table).mp hl
        have hmm : m ≠ mem := by
          rintro rfl
          exact hne hoff.symm
        split at hrun
        next => exact ih h hr hrest hrun
        next =>
          split at hrun
          next =>
            have h₁ := markWanted_untouched h hmm
            have h₂ := h₁.trans (hm _ h₁.good)
            exact h₂.trans (ih h₂.good (hr.untouched h₂) (by rw [h₂.page]; exact hn) hrun)
          next =>
            split at hrun
            next => cases hrun
            next u hu =>
              have h₁ := lockPage_untouched h htab hmm hu
              exact h₁.trans (ih h₁.good (hr.untouched h₁) (by rw [h₁.page]; exact hrest) hrun)

theorem lockPage_ready (hr : Ready mem o s) (hl : lockPage s mem prot = .ok t) :
    Ready mem o t ∧ (t.vm.page mem).offset = (s.vm.page mem).offset := by
  obtain ⟨-, rfl⟩ | ⟨-, q, -, rfl⟩ := lockPage_cases hl
  · have hp : ((s.wakeup mem).vm.modPage mem (relock prot)).page mem =
        relock prot { s.vm.page mem with busy := false, wanted := false } := by
      rw [modPage_page, if_pos rfl]
      simp [State.wakeup, pageWakeup, VmState.setPage]
    refine ⟨⟨?_, ?_, ?_, ?_, ?_⟩, ?_⟩ <;> dsimp only <;> rw [hp]
    exacts [hr.tabled, hr.object, hr.present, rfl, hr.unwired, rfl]
  · have hp : (s.vm.modPage mem (relock prot)).page mem = relock prot (s.vm.page mem) := by
      rw [modPage_page, if_pos rfl]
    refine ⟨⟨?_, ?_, ?_, ?_, ?_⟩, ?_⟩ <;> dsimp only <;> rw [hp]
    exacts [hr.tabled, hr.object, hr.present, hr.free, hr.unwired, rfl]

theorem lockLoop_right {offsets : List VmOffset} (hm : Leaves mem meanwhile) (h : Good mem s) (hr : Ready mem o s)
    (hin : (s.vm.page mem).offset ∈ offsets) (hnd : offsets.Nodup)
    (hrun : lockLoop meanwhile o prot k offsets s = some (.ok t)) : Granted prot mem t ↔ Grantable prot mem s := by
  induction k generalizing offsets s with
  | zero =>
    cases offsets with
    | nil => cases hin
    | cons offset rest => cases hrun
  | succ k ih =>
    cases offsets with
    | nil => cases hin
    | cons offset rest =>
      obtain ⟨hnot, hnd'⟩ := List.nodup_cons.mp hnd
      rw [lockLoop] at hrun
      by_cases ho : offset = (s.vm.page mem).offset
      · -- the turn for the page
        rw [(vmPageLookup_eq_some h.table).mpr ⟨hr.tabled, hr.object, ho.symm⟩] at hrun
        simp only [hr.present, hr.free, hr.unwired, Bool.false_eq_true, if_false, bne_self_eq_false,
          Bool.or_self] at hrun
        split at hrun
        next => cases hrun
        next u hu =>
          obtain ⟨hgu, hiff⟩ := lockPage_right h hu
          obtain ⟨hru, hou⟩ := lockPage_ready hr hu
          rw [← hiff]
          exact (lockLoop_untouched hm hgu hru (by rw [hou, ← ho]; exact hnot) hrun).granted
      · have hrest : (s.vm.page mem).offset ∈ rest := (List.mem_cons.mp hin).resolve_left (Ne.symm ho)
        split at hrun
        next => exact ih h hr hrest hnd' hrun
        next m hl =>
          dsimp only at hrun
          obtain ⟨htab, -, hoff⟩ := (vmPageLookup_eq_some h.table).mp hl
          have hmm : m ≠ mem := by
            rintro rfl
            exact ho hoff.symm
          split at hrun
          next => exact ih h hr hrest hnd' hrun
          next =>
            split at hrun
            next =>
              have h₁ := markWanted_untouched h hmm
              have h₂ := h₁.trans (hm _ h₁.good)
              rw [← h₂.grantable]
              exact ih h₂.good (hr.untouched h₂) (by rw [h₂.page]; exact hin) hnd hrun
            next =>
              split at hrun
              next => cases hrun
              next u hu =>
                have h₁ := lockPage_untouched h htab hmm hu
                rw [← h₁.grantable]
                exact ih h₁.good (hr.untouched h₁) (by rw [h₁.page]; exact hrest) hnd' hrun

theorem pageOffsets_nodup : (pageOffsets offset size).Nodup := by
  refine List.Nodup.map_on ?_ List.nodup_range
  intro i hi j hj he
  have hsize := size.isLt
  have hp : pageSize.toNat = 4096 := rfl
  rw [List.mem_range, hp] at hi hj
  have h₁ := congrArg BitVec.toNat he
  simp only [BitVec.toNat_add, BitVec.toNat_mul, BitVec.toNat_ofNat, hp] at h₁
  omega

/-- A page that the request covers is granted exactly if the request takes no right from it that it still has, or wakes
nobody and takes its mappings away. -/
theorem lockRequest_grants_iff (hm : Leaves mem meanwhile) (h : Good mem s) (hr : Ready mem o s)
    (hcov : (s.vm.page mem).offset ∈ pageOffsets (offset - (s.vm.object o).pagingOffset) (roundPage size))
    (hrun : memoryObjectLockRequest meanwhile k s o offset size prot = some (.ok t)) :
    Granted prot mem t ↔ Grantable prot mem s :=
  lockLoop_right hm h hr hcov pageOffsets_nodup hrun

/-- A machine with one page, in its first object. -/
def onePageVm : VmState := (vmPageInit {} 0 (some 0) 0 16384).getD {}

theorem onePageVm_resident : ResidentInv onePageVm := by
  have h : vmPageInit {} 0 (some 0) 0 16384 = some onePageVm := rfl
  exact vmPageInit_resident (residentInv_start 0 0) rfl rfl rfl rfl (fun x hx => by cases hx; rfl) h

/-- The page is locked, and a thread that wants to read it sleeps on it. -/
def lockedPage (lock : VmProt) : State :=
  faultWait ⟨onePageVm.modPage 0 fun p => { p with busy := false, pageLock := lock }, I386.bootState, []⟩
    ⟨7, 0, protRead⟩

theorem lockedPage_good (lock : VmProt) : Good 0 (lockedPage lock) := by
  have h : Good 0 ⟨onePageVm, I386.bootState, []⟩ := by
    refine ⟨onePageVm_resident.table, (I386.reachable_inv (.start I386.bootState_start)).coherent, rfl,
      fun m hm hne => ?_, fun x hx => by cases hx⟩
    simp [onePageVm, vmPageInit, vmPageInsert, VmState.setPage, VmState.setBucket, VmState.setObject, vmPageTemplate,
      hne] at hm
  exact faultWait_good (h.flags (fun _ => ⟨rfl, rfl, rfl, rfl⟩) fun x hx => by cases hx)

theorem lockedPage_ready (lock : VmProt) : Ready 0 0 (lockedPage lock) := ⟨rfl, rfl, rfl, rfl, rfl⟩

theorem lockedPage_unmapped (lock prot : VmProt) : NoneOf (lockedPage lock) 0 prot := by
  intro x pte hx
  have hb : I386.bootState.mapping x = none := by
    refine I386.State.mapping_eq_none fun pte hp => ?_
    by_cases hk : x.1 = I386.kernelPmap
    · by_cases hi : I386.pdenum x.2 = 1
      · simp [I386.State.pmapPte, I386.bootState, hk, hi] at hp
        rw [← hp]
      · simp [I386.State.pmapPte, I386.bootState, hk, hi] at hp
    · simp [I386.State.pmapPte, I386.bootState, hk] at hp
  exact absurd (hb.symm.trans hx) (by simp)

/-- Of read and write access, read access is granted: the thread is woken up. -/
theorem lockedPage_granted : ∃ t,
    memoryObjectLockRequest id 1 (lockedPage (protRead ||| protWrite)) 0 0 4096 protWrite = some (.ok t) ∧
      Granted protWrite 0 t := by
  have hrun : memoryObjectLockRequest id 1 (lockedPage (protRead ||| protWrite)) 0 0 4096 protWrite =
    some (.ok _) := rfl
  have hleaves : Leaves 0 id := fun s h => .refl h
  refine ⟨_, hrun, (lockRequest_grants_iff hleaves (lockedPage_good _) (lockedPage_ready _) ?_ hrun).mpr ?_⟩
  · decide
  · rw [Grantable, if_pos (by decide)]
    exact lockedPage_unmapped _ _

/-- Read access is granted and write access taken away: the thread sleeps on, and the request for it is forgotten. -/
theorem lockedPage_sleepsOn : ∃ t,
    memoryObjectLockRequest id 1 (lockedPage protRead) 0 0 4096 protWrite = some (.ok t) ∧
      ⟨7, 0, protRead⟩ ∈ t.asleep ∧ (t.vm.page 0).pageLock = protWrite ∧ (t.vm.page 0).unlockRequest = protNone ∧
      ¬Granted protWrite 0 t := by
  refine ⟨_, rfl, List.mem_cons_self, rfl, rfl, fun hg => ?_⟩
  exact absurd (hg.awake _ List.mem_cons_self rfl) (by decide)

end MachVM.LockRequest
