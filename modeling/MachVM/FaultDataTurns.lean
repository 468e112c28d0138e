import MachVM.FaultDataSearch

namespace MachVM
namespace FaultData

variable {w : World} {a : FaultCall} {s₀ s t : VmState} {p : Place} {m first : PageId} {o x b : ObjId}
  {off : VmOffset} {d : PageData} {n length fuel : Nat} {r : Searched} {code : FaultCode}

theorem giveUp_good (h : giveUp a s p code = .ok r) : Good w a s₀ length r := by
  unfold giveUp at h
  cases hu : unlockThings a s p with
  | error e =>
    rw [hu] at h
    cases h
  | ok t =>
    rw [hu] at h
    cases h
    trivial

theorem freeGiveUp_good (h : (pageResult (vmPageFree s m)).bind (fun s => giveUp a s p code) = .ok r) :
    Good w a s₀ length r := by
  cases hf : pageResult (vmPageFree s m) with
  | error e =>
    rw [hf] at h
    cases h
  | ok t =>
    rw [hf] at h
    exact giveUp_good h

/-- The page that is looked at. -/
structure Here (s : VmState) (p : Place) (m : PageId) : Prop where
  tabled : (s.page m).tabled = true
  object : (s.page m).object = some p.object
  offset : (s.page m).offset = p.offset

theorem Where.first_ne (hb : (s.page m).tabled = true → (s.page m).object = some p.object)
    (h : Under a s₀ s length p first) (hne : p.object ≠ a.firstObject) : first ≠ m := by
  rintro rfl
  exact hne (Option.some.inj ((hb h.ours.tabled).symm.trans h.ours.object))

theorem Where.touch (h : Where a s₀ s length p) (hs : ResidentInv s) (ht : Touched s t m p.object)
    (hc : ∀ d, cell t m = some (a.firstObject, a.firstOffset, false, d) ↔
      cell s m = some (a.firstObject, a.firstOffset, false, d)) : Where a s₀ t length p := by
  cases h with
  | top h =>
    refine .top (h.congr ?_)
    have ht' := ht
    rw [h.object] at ht'
    exact ht'.ownData hs hc
  | below first h hne => exact .below first (h.congr (ht.others _ (Where.first_ne ht.before h hne))) hne

theorem Where.sleep (h : Where a s₀ s length p) (hm : Meanwhile w s t m)
    (hb : (s.page m).tabled = true → (s.page m).object = some p.object) : Where a s₀ t length p := by
  cases h with
  | top h => exact .top (h.congr (hm.own _ _))
  | below first h hne =>
    exact .below first (h.congr (hm.held _ (Where.first_ne hb h hne) h.ours.busy)) hne

theorem Where.chain (h : Where a s₀ s length p) (hl : ShadowChain s₀ a.firstObject length) :
    ∃ n, n ≤ length ∧ ShadowChain s₀ p.object n := by
  cases h with
  | top h =>
    rw [h.object]
    exact ⟨length, Nat.le_refl _, hl⟩
  | below first h hne => exact h.chain

theorem flags_touched {f : VmPage → VmPage} (hs : ResidentInv s)
    (hb : (s.page m).tabled = true → (s.page m).object = some o)
    (hf : ∀ y, ((f y).free = y.free ∧ (f y).active = y.active ∧ (f y).inactive = y.inactive ∧
      (f y).wireCount = y.wireCount) ∧ SamePlace y (f y) ∧ (f y).absent = y.absent ∧ (f y).data = y.data) :
    Touched s (s.modPage m f) m o ∧ cell (s.modPage m f) m = cell s m := by
  obtain ⟨hq, hp, ha, hd⟩ := hf (s.page m)
  refine ⟨modPage_touched hs hb hq hp, ?_⟩
  simp only [cell, VmState.modPage, setPage_page, Function.update_self, hp.tabled, hp.object, hp.offset, ha, hd]

theorem waitBusy_good (hw : Calm w) (hk : Kept w a s₀ s) (hp : Where a s₀ s length p)
    (hx : ∀ c, (s₀.object a.firstObject).copy = some c → c ≠ p.object) (hm : Here s p m)
    (hbusy : (s.page m).busy = true) (h : waitBusy w a fuel s p m = .ok r) : Good w a s₀ length r := by
  obtain ⟨ht, hcell⟩ := flags_touched (f := fun x => { x with wanted := true }) hk.resident (fun _ => hm.object)
    fun _ => ⟨⟨rfl, rfl, rfl, rfl⟩, ⟨rfl, rfl, rfl⟩, rfl, rfl⟩
  have hpage : ∀ f : VmPage → VmPage, (s.modPage m f).page m = f (s.page m) := fun f => by
    simp [VmState.modPage]
  simp only [waitBusy] at h
  generalize hs' : s.modPage m (fun x => { x with wanted := true }) = s' at *
  have hk' : Kept w a s₀ s' := by
    refine hk.touch ht hx ?_ fun off _ d => by rw [hcell]
    rw [← hs', hpage]
    intro _ _ hb
    exact absurd (hbusy.symm.trans hb) (by simp)
  have hm' : (s'.page m).tabled = true ∧ (s'.page m).object = some p.object := by
    rw [← hs', hpage]
    exact ⟨hm.tabled, hm.object⟩
  have hmw := hw.block fuel s' m hk'.resident hk'.honest hm'.1
  cases hr : (w.block fuel s' m).2 with
  | awakened =>
    simp only [hr] at h
    cases h
    refine ⟨hk'.sleep hmw ?_, (hp.touch hk.resident ht fun d => by rw [hcell]).sleep hmw fun _ => hm'.2⟩
    intro c hc hcm
    exact hx c hc (Option.some.inj (hcm.symm.trans hm'.2))
  | restart =>
    simp only [hr] at h
    exact giveUp_good h
  | _ =>
    simp only [hr] at h
    exact giveUp_good h

theorem lockedOut_good (hw : Calm w) (hk : Kept w a s₀ s) (hp : Where a s₀ s length p)
    (hx : ∀ c, (s₀.object a.firstObject).copy = some c → c ≠ p.object) (hm : Here s p m)
    (hpresent : (s.page m).absent = false) (h : lockedOut w a fuel s p m = .ok r) : Good w a s₀ length r := by
  simp only [lockedOut] at h
  split at h
  next =>
    split at h
    next => exact giveUp_good h
    next =>
      obtain ⟨ht, hcell⟩ := flags_touched (f := fun x => { x with unlockRequest := a.faultType ||| x.unlockRequest })
        hk.resident (fun _ => hm.object) fun _ => ⟨⟨rfl, rfl, rfl, rfl⟩, ⟨rfl, rfl, rfl⟩, rfl, rfl⟩
      generalize hs' : s.modPage m (fun x => { x with unlockRequest := a.faultType ||| x.unlockRequest }) = s' at *
      have hpage : s'.page m = { s.page m with unlockRequest := a.faultType ||| (s.page m).unlockRequest } := by
        rw [← hs', VmState.modPage, setPage_page, Function.update_self]
      have hk' : Kept w a s₀ s' := by
        refine hk.touch ht hx ?_ fun off _ d => by rw [hcell]
        rw [hpage, hpresent]
        exact fun _ hc => by cases hc
      have hm' : (s'.page m).tabled = true ∧ (s'.page m).object = some p.object := by
        rw [hpage]
        exact ⟨hm.tabled, hm.object⟩
      have hmw := hw.unlockRequest fuel s' m hk'.resident hk'.honest hm'.1
      split at h
      next => exact giveUp_good h
      next =>
        cases h
        refine ⟨hk'.sleep hmw ?_, (hp.touch hk.resident ht fun d => by rw [hcell]).sleep hmw fun _ => hm'.2⟩
        intro c hc hcm
        exact hx c hc (Option.some.inj (hcm.symm.trans hm'.2))
  next => exact giveUp_good h

theorem takePage_page (s : VmState) (m : PageId) : (takePage s m).page =
    Function.update s.page m { s.page m with active := false, inactive := false, busy := true } := by
  simp [takePage, VmState.modPage, vmPageQueuesRemove_page]

theorem takePage_touched (hs : ResidentInv s) (hb : (s.page m).tabled = true → (s.page m).object = some o) :
    Touched s (takePage s m) m o := by
  have hq := queuesRemove_touched hs hb
  exact hq.trans (modPage_touched hq.resident hq.after ⟨rfl, rfl, rfl, rfl⟩ ⟨rfl, rfl, rfl⟩)

theorem usePage_good (hw : Calm w) (hk : Kept w a s₀ s) (hp : Where a s₀ s length p)
    (hx : ∀ c, (s₀.object a.firstObject).copy = some c → c ≠ p.object) (hm : Here s p m)
    (hpresent : (s.page m).absent = false) (h : usePage w a fuel s p m = .ok r) : Good w a s₀ length r := by
  unfold usePage at h
  split at h
  next => exact lockedOut_good hw hk hp hx hm hpresent h
  next =>
    cases h
    have ht := takePage_touched hk.resident fun _ => hm.object
    have hpage := takePage_page s m
    have hself : (takePage s m).page m = { s.page m with active := false, inactive := false, busy := true } := by
      rw [hpage, Function.update_self]
    have hcell : cell (takePage s m) m = cell s m := by simp only [cell, hself]
    have hshown : ownData s p.object p.offset = some (s.page m).data :=
      ownData_cell hk.resident.table (cell_eq_some.mpr ⟨hm.tabled, hm.object, hm.offset, hpresent, rfl⟩)
    have hdata : ((takePage s m).page m).data = (s.page m).data := by rw [hself]
    refine ⟨hk.touch ht hx ?_ fun off _ d => by rw [hcell], ?_, ?_⟩
    · rw [hself]
      simp only [hpresent]
      exact fun _ hc => by cases hc
    · cases hp with
      | top hp =>
        refine .top hp.object ?_ (hp.atHome ?_)
        · constructor <;> rw [hself]
          · exact hm.tabled
          · exact hm.object.trans (congrArg some hp.object)
          · exact hm.offset.trans hp.offset
          · exact hpresent
          · exact ⟨rfl, rfl⟩
        · rw [← hp.object, ← hp.offset, hshown]
          exact fun hc => by cases hc
      | below first hp hne =>
        have hown : ownData s₀ p.object p.offset = some (s.page m).data :=
          (hk.own _ _ fun hc => hne hc.1).symm.trans hshown
        refine .below first hne hx hp.firstM (hp.ours.of_page (ht.others _ (Where.first_ne ht.before hp hne)))
          ?_ ?_ ?_ ?_ ?_ hp.empty (hp.supplied.mpr (.own (by rw [hown]; exact fun hc => by cases hc))) <;> rw [hself]
        · exact hm.tabled
        · exact hm.object
        · exact hpresent
        · exact ⟨rfl, rfl⟩
    · rw [hdata]
      cases hp with
      | top hp =>
        apply hp.shown
        rw [← hp.object, ← hp.offset, hshown]
      | below first hp hne => exact hp.deeper _ (.own ((hk.own _ _ fun hc => hne hc.1).symm.trans hshown))

theorem ownData_unavailable (hk : Kept w a s₀ s) (hm : Here s p m) (ha : (s.page m).absent = true)
    (hb : (s.page m).busy = false) : ownData s p.object p.offset = none := by
  have hno := hk.honest.unavailable m _ hm.tabled hm.object ha hb
  rw [hm.offset] at hno
  rw [ownData_pager hk.resident.table, hno]
  intro q d hq
  obtain ⟨ht, ho, hf, hn, -⟩ := cell_eq_some.mp hq
  have := hk.resident.table.unique q m ht hm.tabled (ho.trans hm.object.symm) (hf.trans hm.offset.symm)
  subst this
  exact absurd (ha.symm.trans hn) (by simp)

theorem claimPage_page (s : VmState) (o : ObjId) (m : PageId) : (claimPage s o m).page =
    Function.update s.page m { s.page m with absent := false, busy := true, active := false, inactive := false } := by
  simp [claimPage, VmState.modPage, vmPageQueuesRemove_page, vmObjectAbsentRelease_page]

theorem claimPage_touched (hs : ResidentInv s) (hb : (s.page m).tabled = true → (s.page m).object = some o) :
    Touched s (claimPage s o m) m o := by
  have h₁ : Touched s (s.modPage m fun x => { x with absent := false, busy := true }) m o :=
    modPage_touched hs hb ⟨rfl, rfl, rfl, rfl⟩ ⟨rfl, rfl, rfl⟩
  have h₂ := h₁.trans (absentRelease_touched h₁.resident h₁.after o)
  exact h₂.trans (queuesRemove_touched h₂.resident h₂.after)

theorem vmPageZeroFill_touched (hs : ResidentInv s) (hb : (s.page m).tabled = true → (s.page m).object = some o) :
    Touched s (vmPageZeroFill s m) m o :=
  modPage_touched hs hb ⟨rfl, rfl, rfl, rfl⟩ ⟨rfl, rfl, rfl⟩

theorem vmPageZeroFill_page (s : VmState) (m : PageId) : (vmPageZeroFill s m).page =
    Function.update s.page m { s.page m with data := zeroPage } := rfl

theorem Kept.fill (h : Kept w a s₀ s) (ht : Touched s t m a.firstObject)
    (hx : ∀ c, (s₀.object a.firstObject).copy = some c → c ≠ a.firstObject) (hm : Ours a t m)
    (hb : (s.page m).tabled = true → (s.page m).offset = a.firstOffset) : Kept w a s₀ t := by
  refine h.touch ht hx ?_ ?_
  · intro _ ha
    exact absurd (hm.present.symm.trans ha) (by simp)
  · intro off hoff d
    constructor
    · intro hc
      obtain ⟨-, -, hf, -⟩ := cell_eq_some.mp hc
      exact absurd ⟨rfl, hf.symm.trans hm.offset⟩ hoff
    · intro hc
      obtain ⟨htab, -, hf, -⟩ := cell_eq_some.mp hc
      exact absurd ⟨rfl, hf.symm.trans (hb htab)⟩ hoff

theorem claimPage_under (hk : Kept w a s₀ s) (hp : AtTop a s₀ s p) (hl : ShadowChain s₀ a.firstObject length)
    (hx : ∀ c, (s₀.object a.firstObject).copy = some c → c ≠ a.firstObject) (hm : Here s p m)
    (ha : (s.page m).absent = true) (hb : (s.page m).busy = false) :
    Kept w a s₀ (claimPage s p.object m) ∧
      Under a s₀ (claimPage s p.object m) length { p with firstM := some m } m := by
  have hpage := claimPage_page s p.object m
  have hours : Ours a (claimPage s p.object m) m := by
    constructor <;> rw [hpage, Function.update_self]
    · exact hm.tabled
    · exact hm.object.trans (congrArg some hp.object)
    · exact hm.offset.trans hp.offset
    · exact ⟨rfl, rfl⟩
  have ht := claimPage_touched (m := m) (o := p.object) hk.resident fun _ => hm.object
  have hnone := ownData_unavailable hk hm ha hb
  rw [hp.object, hp.offset] at hnone
  refine ⟨?_, ⟨rfl, hours, hp.empty hnone, ⟨length, Nat.le_refl _, ?_⟩, ?_, ?_⟩⟩
  · rw [hp.object] at ht hours ⊢
    exact hk.fill ht hx hours fun _ => hm.offset.trans hp.offset
  · rw [hp.object]
    exact hl
  · rw [hp.object, hp.offset]
    exact fun _ => id
  · rw [hp.object, hp.offset]

theorem Under.zeroFill (hk : Kept w a s₀ s) (hu : Under a s₀ s length p first)
    (hx : ∀ c, (s₀.object a.firstObject).copy = some c → c ≠ a.firstObject)
    (hn : ownData s₀ p.object p.offset = none) (hs : (s₀.object p.object).shadow = none) :
    Kept w a s₀ (vmPageZeroFill s first) ∧ Ours a (vmPageZeroFill s first) first ∧
      ((vmPageZeroFill s first).page first).data = zeroPage ∧
      ∀ q : Place, q.object = a.firstObject → q.offset = a.firstOffset → AtTop a s₀ (vmPageZeroFill s first) q := by
  have hpage := vmPageZeroFill_page s first
  have hours : Ours a (vmPageZeroFill s first) first := by
    constructor <;> rw [hpage, Function.update_self]
    · exact hu.ours.tabled
    · exact hu.ours.object
    · exact hu.ours.offset
    · exact hu.ours.busy
    · exact hu.ours.present
    · exact hu.ours.unqueued
  have hdata : ((vmPageZeroFill s first).page first).data = zeroPage := by rw [hpage, Function.update_self]
  have ht := vmPageZeroFill_touched (m := first) (o := a.firstObject) hk.resident fun _ => hu.ours.object
  have hkept := hk.fill ht hx hours fun _ => hu.ours.offset
  obtain ⟨hc, hsup⟩ := hu.bottom hn hs
  refine ⟨hkept, hours, hdata, fun q ho hoff => .of_zero ho hoff ?_ hc hsup⟩
  have := ownData_cell hkept.resident.table hours.cell
  rw [this, hdata]

theorem Kept.freed (hk : Kept w a s₀ s) (hx : ∀ c, (s₀.object a.firstObject).copy = some c → c ≠ x)
    (ha : (s.page m).absent = true) (ht : Touched s t m x) (hu : (t.page m).tabled = false) : Kept w a s₀ t := by
  refine hk.touch ht hx ?_ ?_
  · rw [hu]
    exact fun hc => nomatch hc
  · intro off _ d
    rw [cell_untabled hu]
    constructor
    · exact fun hc => nomatch hc
    · intro hc
      obtain ⟨-, -, -, hpres, -⟩ := cell_eq_some.mp hc
      exact absurd (ha.symm.trans hpres) (by simp)

theorem unavailableBottom_good (hw : Calm w) (hk : Kept w a s₀ s) (hp : Where a s₀ s length p)
    (hc : CopyLinked s₀ a.firstObject) (hl : ShadowChain s₀ a.firstObject length)
    (hm : Here s p m) (ha : (s.page m).absent = true) (hb : (s.page m).busy = false)
    (hs : (s.object p.object).shadow = none) (h : unavailableBottom w a fuel s p m = .ok r) :
    Good w a s₀ length r := by
  have hs₀ : (s₀.object p.object).shadow = none := (hk.links p.object).shadow.symm.trans hs
  have hxf := copy_ne hc hl hl (Nat.le_refl _)
  have hnone := ownData_unavailable hk hm ha hb
  unfold unavailableBottom at h
  split at h
  next ho =>
    cases hp with
    | below first hp hne => exact absurd ho hne
    | top hp =>
      obtain ⟨hk₁, hu⟩ := claimPage_under hk hp hl hxf hm ha hb
      have hno : ownData s₀ p.object p.offset = none := by
        rw [hp.object, hp.offset] at hnone ⊢
        exact hp.empty hnone
      obtain ⟨hk₂, hours, -, htop⟩ := hu.zeroFill hk₁ hxf hno hs₀
      refine usePage_good hw hk₂ (.top (htop p hp.object hp.offset)) ?_ ⟨hours.tabled, ?_, ?_⟩ hours.present h
      · rw [hp.object]
        exact hxf
      · exact hours.object.trans (congrArg some hp.object.symm)
      · exact hours.offset.trans hp.offset.symm
  next ho =>
    cases hp with
    | top hp => exact absurd hp.object ho
    | below first hp hne =>
      obtain ⟨k, hk₁, hchain⟩ := hp.chain
      have hx := copy_ne hc hl hchain hk₁
      have hno : ownData s₀ p.object p.offset = none := (hk.own _ _ fun hc => hne hc.1).symm.trans hnone
      cases hf : vmPageFree s m with
      | none =>
        rw [hf] at h
        cases h
      | some t =>
        rw [hf, hp.firstM] at h
        change usePage w a fuel (vmPageZeroFill (pagingEnd t p.object) first)
          { object := a.firstObject, offset := a.firstOffset } first = .ok r at h
        obtain ⟨ht, hu⟩ := vmPageFree_touched hk.resident (fun _ => hm.object) hf
        have ht' := ht.trans (pagingEnd_touched ht.resident ht.after p.object)
        have hfirst := ht'.others first (Where.first_ne ht.before hp hne)
        have hk' : Kept w a s₀ (pagingEnd t p.object) := hk.freed hx ha ht' hu
        obtain ⟨hk₂, hours, -, htop⟩ := (hp.congr hfirst).zeroFill hk' hxf hno hs₀
        exact usePage_good hw hk₂ (.top (htop _ rfl rfl)) hxf ⟨hours.tabled, hours.object, hours.offset⟩ hours.present h

theorem unavailableShadowed_good (hk : Kept w a s₀ s) (hp : Where a s₀ s length p)
    (hc : CopyLinked s₀ a.firstObject) (hl : ShadowChain s₀ a.firstObject length)
    (hmust : a.mustBeResident = false) (hm : Here s p m) (ha : (s.page m).absent = true)
    (hb : (s.page m).busy = false) (hs : (s.object p.object).shadow = some b)
    (h : unavailableShadowed a s p m b = .ok r) : Good w a s₀ length r := by
  have hs₀ : (s₀.object p.object).shadow = some b := (hk.links p.object).shadow.symm.trans hs
  have hoff := (hk.links p.object).shadowOffset
  have hxf := copy_ne hc hl hl (Nat.le_refl _)
  have hnone := ownData_unavailable hk hm ha hb
  simp only [unavailableShadowed, hmust, Bool.false_eq_true, if_false, hoff] at h
  split at h
  next ho =>
    cases hp with
    | top hp => exact absurd hp.object ho
    | below first hp hne =>
      obtain ⟨k, hk₁, hchain⟩ := hp.chain
      have hx := copy_ne hc hl hchain hk₁
      have hno : ownData s₀ p.object p.offset = none := (hk.own _ _ fun hc => hne hc.1).symm.trans hnone
      have hend := pagingEnd_touched (m := m) hk.resident (fun _ => hm.object) p.object
      cases hf : vmPageFree (pagingEnd s p.object) m with
      | none =>
        rw [hf] at h
        cases h
      | some t =>
        rw [hf] at h
        cases h
        obtain ⟨ht, hu⟩ := vmPageFree_touched hend.resident hend.after hf
        have ht' := hend.trans ht
        have ht₂ := ht'.trans (pagingBegin_touched ht'.resident ht'.after b)
        have hfirst := ht₂.others first (Where.first_ne hend.before hp hne)
        obtain ⟨hunder, hnext⟩ := hp.next hl hno hs₀
        exact ⟨hk.freed hx ha ht₂ hu, .below first (hunder.congr hfirst) hnext⟩
  next ho =>
    have ho : p.object = a.firstObject := by simpa using ho
    cases hp with
    | below first hp hne => exact absurd ho hne
    | top hp =>
      cases h
      have hno : ownData s₀ p.object p.offset = none := by
        rw [hp.object, hp.offset] at hnone ⊢
        exact hp.empty hnone
      obtain ⟨hk₁, hu⟩ := claimPage_under hk hp hl hxf hm ha hb
      obtain ⟨hunder, hnext⟩ := hu.next hl hno hs₀
      have ht := pagingBegin_touched (m := m) hk₁.resident (fun _ => hu.ours.object) b
      exact ⟨hk₁.fill ht hxf (hu.ours.of_page rfl) fun _ => hu.ours.offset, .below m (hunder.congr rfl) hnext⟩

theorem residentPage_good (hw : Calm w) (hk : Kept w a s₀ s) (hp : Where a s₀ s length p)
    (hc : CopyLinked s₀ a.firstObject) (hl : ShadowChain s₀ a.firstObject length)
    (hmust : a.mustBeResident = false) (hm : Here s p m) (h : residentPage w a fuel s p m = .ok r) :
    Good w a s₀ length r := by
  obtain ⟨k, hk₁, hchain⟩ := hp.chain hl
  have hx := copy_ne hc hl hchain hk₁
  unfold residentPage at h
  split at h
  next => exact freeGiveUp_good h
  next =>
    split at h
    next hb => exact waitBusy_good hw hk hp hx hm hb h
    next hb =>
      have hb : (s.page m).busy = false := by simpa using hb
      split at h
      next ha =>
        split at h
        next hs => exact unavailableBottom_good hw hk hp hc hl hm ha hb hs h
        next b hs => exact unavailableShadowed_good hk hp hc hl hmust hm ha hb hs h
      next ha => exact usePage_good hw hk hp hx hm (by simpa using ha) h

theorem moveOn_good (hk : Kept w a s₀ s) (hu : Under a s₀ s length p first)
    (hc : CopyLinked s₀ a.firstObject) (hl : ShadowChain s₀ a.firstObject length)
    (hno : ownData s₀ p.object p.offset = none) (h : moveOn a s p = .ok r) : Good w a s₀ length r := by
  have hxf := copy_ne hc hl hl (Nat.le_refl _)
  have hpaging : ∀ y, Touched s (pagingEnd s y) first a.firstObject := fun y =>
    pagingEnd_touched hk.resident (fun _ => hu.ours.object) y
  unfold moveOn at h
  split at h
  next hs =>
    have hs₀ : (s₀.object p.object).shadow = none := (hk.links p.object).shadow.symm.trans hs
    rw [hu.firstM] at h
    generalize ht : (if p.object = a.firstObject then s else pagingEnd s p.object) = t at h
    cases h
    have hkt : Kept w a s₀ t := by
      rw [← ht]
      split
      next => exact hk
      next => exact hk.fill (hpaging _) hxf (hu.ours.of_page rfl) fun _ => hu.ours.offset
    have hpage : t.page first = s.page first := by
      rw [← ht]
      split <;> rfl
    obtain ⟨hk₂, hours, hdata, -⟩ := (hu.congr hpage).zeroFill hkt hxf hno hs₀
    refine ⟨hk₂, .top rfl hours (.inr (hu.bottom hno hs₀).2), ?_⟩
    rw [hdata]
    exact (hu.bottom hno hs₀).1
  next b hs =>
    have hs₀ : (s₀.object p.object).shadow = some b := (hk.links p.object).shadow.symm.trans hs
    have hoff := (hk.links p.object).shadowOffset
    simp only [hoff] at h
    generalize ht : (if p.object ≠ a.firstObject ∧ a.mustBeResident = false then pagingEnd s p.object else s) = t at h
    cases h
    have hkt : Kept w a s₀ t := by
      rw [← ht]
      split
      next => exact hk.fill (hpaging _) hxf (hu.ours.of_page rfl) fun _ => hu.ours.offset
      next => exact hk
    have hpage : t.page first = s.page first := by
      rw [← ht]
      split <;> rfl
    have hut := hu.congr hpage
    have ht₂ := pagingBegin_touched hkt.resident (fun _ => hut.ours.object) b
    obtain ⟨hunder, hnext⟩ := hut.next hl hno hs₀
    exact ⟨hkt.fill ht₂ hxf (hut.ours.of_page rfl) fun _ => hut.ours.offset, .below first (hunder.congr rfl) hnext⟩

theorem requestPage_good (hw : Calm w) (hk : Kept w a s₀ s) (hp : Where a s₀ s length p)
    (hx : ∀ c, (s₀.object a.firstObject).copy = some c → c ≠ p.object)
    (ht : Touched s t m p.object) (hun : (s.page m).tabled = false) (hm : Here t p m)
    (hbusy : (t.page m).busy = true) (h : requestPage w a fuel t p m = .ok r) : Good w a s₀ length r := by
  simp only [requestPage] at h
  split at h
  next => exact freeGiveUp_good h
  next =>
    generalize hu : (t.modPage m fun x => { x with absent := true }).modObject p.object
      (fun x => { x with absentCount := x.absentCount + 1 }) = u at h
    have hpage : u.page m = { t.page m with absent := true } := by
      rw [← hu]
      simp [VmState.modPage, VmState.modObject, VmState.setObject]
    have htu : Touched s u m p.object := by
      rw [← hu]
      have h₁ : Touched t (t.modPage m fun x => { x with absent := true }) m p.object :=
        modPage_touched ht.resident ht.after ⟨rfl, rfl, rfl, rfl⟩ ⟨rfl, rfl, rfl⟩
      exact (ht.trans h₁).trans (modObject_touched h₁.resident h₁.after (fun _ => ⟨rfl, rfl⟩)
        fun _ => ⟨rfl, rfl, rfl, rfl, rfl, rfl, rfl, id⟩)
    have hcell : ∀ y off d, cell u m = some (y, off, false, d) ↔ cell s m = some (y, off, false, d) := by
      intro y off d
      rw [cell_untabled hun, cell_eq_some, hpage]
      simp
    have hku : Kept w a s₀ u := by
      refine hk.touch htu hx ?_ fun off _ d => hcell _ off d
      rw [hpage]
      exact fun _ _ hb => absurd (hbusy.symm.trans hb) (by simp)
    have hmu : (u.page m).tabled = true ∧ (u.page m).object = some p.object := by
      rw [hpage]
      exact ⟨hm.tabled, hm.object⟩
    have hmw := hw.request fuel u m hku.resident hku.honest hmu.1
    split at h
    next => exact freeGiveUp_good h
    next =>
      cases h
      refine ⟨hku.sleep hmw ?_, (hp.touch hk.resident htu fun d => hcell _ _ d).sleep hmw fun _ => hmu.2⟩
      intro c hc hcm
      exact hx c hc (Option.some.inj (hcm.symm.trans hmu.2))

theorem missingPage_good (hw : Calm w) (hk : Kept w a s₀ s) (hp : Where a s₀ s length p)
    (hc : CopyLinked s₀ a.firstObject) (hl : ShadowChain s₀ a.firstObject length)
    (hmust : a.mustBeResident = false) (hnone : vmPageLookup s p.object p.offset = none)
    (h : missingPage w a fuel s p = .ok r) : Good w a s₀ length r := by
  obtain ⟨k, hk₁, hchain⟩ := hp.chain hl
  have hx := copy_ne hc hl hchain hk₁
  have hpager : ownData s p.object p.offset = pagerHas s p.object p.offset := by
    apply ownData_pager hk.resident.table
    intro q d hq
    have := (lookup_iff_cell hk.resident.table).mpr ⟨_, _, hq⟩
    rw [hnone] at this
    cases this
  simp only [missingPage, hmust, Bool.not_false, Bool.and_true] at h
  generalize hlook : ((s.object p.object).pagerCreated && !w.knownAbsent p.object p.offset) = look at h
  have hno : look = false → ownData s p.object p.offset = none := by
    rintro rfl
    rw [hpager]
    cases hcr : (s.object p.object).pagerCreated with
    | true =>
      rw [hcr] at hlook
      exact hk.honest.known _ _ (by simpa using hlook)
    | false =>
      have : (s.object p.object).pager = none := by
        by_contra hne
        have := hk.honest.created _ hne
        rw [hcr] at this
        cases this
      simp [pagerHas, this]
  split at h
  next hcond =>
    cases hal : vmPageAlloc s (some p.object) p.offset w.vmPrivilege with
    | none =>
      rw [hal] at h
      cases h
    | some v =>
      obtain ⟨t, m⟩ := v
      rw [hal] at h
      cases m with
      | none => exact giveUp_good h
      | some m =>
        obtain ⟨ht, hun, hpage⟩ := vmPageAlloc_touched hk.resident hnone hal
        have hm : Here t p m := by constructor <;> rw [hpage]
        have hbusy : (t.page m).busy = true := by
          rw [hpage]
          rfl
        change (if look = true then requestPage w a fuel t p m else moveOn a t { p with firstM := some m }) = .ok r at h
        split at h
        next => exact requestPage_good hw hk hp hx ht hun hm hbusy h
        next hl' =>
          have hl' : look = false := by simpa using hl'
          rw [hl'] at hcond
          have ho : p.object = a.firstObject := by simpa using hcond
          cases hp with
          | below first hp hne => exact absurd ho hne
          | top hp =>
            have hnn := hno hl'
            rw [hp.object, hp.offset] at hnn
            have hempty := hp.empty hnn
            have hours : Ours a t m := by
              constructor <;> rw [hpage]
              · exact congrArg some hp.object
              · exact hp.offset
              · rfl
              · rfl
              · exact ⟨rfl, rfl⟩
            have hx' := hx
            have ht' := ht
            rw [hp.object] at hx' ht'
            have hkt : Kept w a s₀ t := hk.fill ht' hx' hours fun hc => absurd (hun.symm.trans hc) (by simp)
            refine moveOn_good hkt ⟨rfl, hours, hempty, ⟨length, Nat.le_refl _, ?_⟩, ?_, ?_⟩ hc hl ?_ h
            · rw [hp.object]
              exact hl
            · rw [hp.object, hp.offset]
              exact fun _ => id
            · rw [hp.object, hp.offset]
            · rw [hp.object, hp.offset]
              exact hempty
  next hcond =>
    have hcond : look = false ∧ p.object ≠ a.firstObject := by simpa using hcond
    cases hp with
    | top hp => exact absurd hp.object hcond.2
    | below first hp hne =>
      rw [if_neg hne] at h
      exact moveOn_good hk hp hc hl ((hk.own _ _ fun hc => hne hc.1).symm.trans (hno hcond.1)) h

theorem searchTurn_good (hw : Calm w) (hk : Kept w a s₀ s) (hp : Where a s₀ s length p)
    (hc : CopyLinked s₀ a.firstObject) (hl : ShadowChain s₀ a.firstObject length)
    (hmust : a.mustBeResident = false) (h : searchTurn w a fuel s p = .ok r) : Good w a s₀ length r := by
  unfold searchTurn at h
  split at h
  next m hm =>
    obtain ⟨ht, ho, hoff⟩ := (vmPageLookup_eq_some hk.resident.table).mp hm
    exact residentPage_good hw hk hp hc hl hmust ⟨ht, ho, hoff⟩ h
  next hm => exact missingPage_good hw hk hp hc hl hmust hm h

theorem searchLoop_good (hw : Calm w) (hk : Kept w a s₀ s) (hp : Where a s₀ s length p)
    (hc : CopyLinked s₀ a.firstObject) (hl : ShadowChain s₀ a.firstObject length)
    (hmust : a.mustBeResident = false) (h : searchLoop w a fuel s p = .ok r) : Good w a s₀ length r := by
  induction fuel generalizing s p with
  | zero => cases h
  | succ fuel ih =>
    rw [searchLoop] at h
    cases hr : searchTurn w a fuel s p with
    | error e =>
      rw [hr] at h
      cases h
    | ok r' =>
      rw [hr] at h
      have hgood := searchTurn_good hw hk hp hc hl hmust hr
      cases r' with
      | again s' p' => exact ih hgood.1 hgood.2 h
      | found s' p' m =>
        cases h
        exact hgood
      | failed s' code =>
        cases h
        trivial

end FaultData
end MachVM
