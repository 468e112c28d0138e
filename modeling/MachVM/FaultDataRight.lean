import MachVM.FaultDataCollapse

namespace MachVM
namespace FaultData

/-- The access is for writing. -/
def FaultCall.Writes (a : FaultCall) : Prop := a.faultType &&& protWrite ≠ 0

instance (a : FaultCall) : Decidable a.Writes := inferInstanceAs (Decidable (_ ≠ _))

/-- Where the copy object has what the first object has at the offset. -/
def FaultCall.copyOffset (a : FaultCall) (s : VmState) (c : ObjId) : VmOffset :=
  a.firstOffset - (s.object c).shadowOffset

/-- What a successful call answers with, judged by what the objects had before. -/
structure Right (a : FaultCall) (s₀ t : VmState) (m : PageId) (protection : VmProt) : Prop where
  content : Content s₀ a.firstObject a.firstOffset (t.page m).data
  busy : (t.page m).busy = true
  present : (t.page m).absent = false
  unqueued : (t.page m).active = false ∧ (t.page m).inactive = false
  others : ∀ o, o ≠ a.firstObject → o < s₀.nextObject → (t.object o).alive = true → ∀ off d,
    ownData s₀ o off = some d → ownData t o off = some d
  mine : a.Writes → (t.page m).tabled = true ∧ (t.page m).object = some a.firstObject ∧
    (t.page m).offset = a.firstOffset
  pushed : a.Writes → ∀ c, (s₀.object a.firstObject).copy = some c → ∀ d,
    Content s₀ c (a.copyOffset s₀ c) d → ownData t c (a.copyOffset s₀ c) = some d
  readOnly : (t.page m).object ≠ some a.firstObject ∨ (s₀.object a.firstObject).copy ≠ none ∧ ¬a.Writes →
    protection &&& protWrite = 0

/-- The copy object has the data already, or will be given it: its table does not even know of the page,
and the data is not that of an object below the first one. -/
def CopyKept (a : FaultCall) (s : VmState) : Prop :=
  a.Writes → ∀ c, (s.object a.firstObject).copy = some c →
    ownData s c (a.copyOffset s c) ≠ none ∨ vmPageLookup s c (a.copyOffset s c) = none ∧
      ¬(ownData s a.firstObject a.firstOffset = none ∧ Supplied s a.firstObject a.firstOffset)

variable {w : World} {a : FaultCall} {s₀ s t u : VmState} {p : Place} {m m' q first : PageId} {c o x : ObjId}
  {off : VmOffset} {d : PageData} {prot prot' : VmProt} {top top' : Option PageId} {length fuel : Nat}

theorem Right.of_sight (h : Right a s₀ s m prot) (hs : SameSight s t) (hb : (t.page m).busy = (s.page m).busy)
    (hq : (t.page m).active = (s.page m).active ∧ (t.page m).inactive = (s.page m).inactive) :
    Right a s₀ t m prot where
  content := by rw [(hs.shown m).2]; exact h.content
  busy := hb.trans h.busy
  present := (hs.shown m).1.trans h.present
  unqueued := ⟨hq.1.trans h.unqueued.1, hq.2.trans h.unqueued.2⟩
  others := by
    intro o ho hlt ha off d hd
    rw [hs.ownData]
    exact h.others o ho hlt ((hs.object o).2.2.symm.trans ha) off d hd
  mine := fun hw => ⟨(hs.place m).tabled.trans (h.mine hw).1, (hs.place m).object.trans (h.mine hw).2.1,
    (hs.place m).offset.trans (h.mine hw).2.2⟩
  pushed := fun hw c hc d hd => (hs.ownData _ _).trans (h.pushed hw c hc d hd)
  readOnly := fun hr => h.readOnly (hr.imp_left fun hne => by rw [← (hs.place m).object]; exact hne)

theorem right_sight_iff (hs : SameSight s t) (hb : (t.page m).busy = (s.page m).busy)
    (hq : (t.page m).active = (s.page m).active ∧ (t.page m).inactive = (s.page m).inactive) :
    Right a s₀ t m prot ↔ Right a s₀ s m prot :=
  ⟨fun h => h.of_sight hs.symm hb.symm ⟨hq.1.symm, hq.2.symm⟩, fun h => h.of_sight hs hb hq⟩

theorem faultSuccess_right (a : FaultCall) (s₀ : VmState) (h : faultSuccess w s m top prot = .success t m' top' prot') :
    m' = m ∧ prot' = prot ∧ (Right a s₀ t m' prot' ↔ Right a s₀ s m prot) := by
  unfold faultSuccess at h
  simp only [Fault.success.injEq] at h
  obtain ⟨ht, rfl, rfl, rfl⟩ := h
  refine ⟨rfl, rfl, ?_⟩
  rw [← ht]
  split
  next =>
    apply right_sight_iff
    · exact sight_modPage fun _ => ⟨⟨rfl, rfl, rfl⟩, rfl, rfl⟩
    · simp [VmState.modPage]
    · simp [VmState.modPage]
  next => exact Iff.rfl

theorem right_iff_kept (hk : Kept w a s₀ s) (ho : Ours a s m) (hc : CopyLinked s₀ a.firstObject)
    (hl : ShadowChain s₀ a.firstObject length) (hd : Content s₀ a.firstObject a.firstOffset (s.page m).data)
    (hp : (s₀.object a.firstObject).copy ≠ none ∧ ¬a.Writes → prot &&& protWrite = 0) :
    Right a s₀ s m prot ↔ (a.Writes → ∀ c, (s₀.object a.firstObject).copy = some c →
      ownData s₀ c (a.copyOffset s₀ c) ≠ none) := by
  have hne := copy_ne hc hl hl (Nat.le_refl _)
  have hown : ∀ c, (s₀.object a.firstObject).copy = some c → ∀ off, ownData s c off = ownData s₀ c off :=
    fun c hcopy off => hk.own c off fun h => hne c hcopy h.1
  constructor
  · intro h hw c hcopy
    obtain ⟨d, hd⟩ := (ShadowChain.next (hc.shadow c hcopy) hl).content (a.copyOffset s₀ c)
    rw [← hown c hcopy, h.pushed hw c hcopy d hd]
    exact fun h => nomatch h
  · intro h
    refine ⟨hd, ho.busy, ho.present, ho.unqueued, ?_, fun _ => ⟨ho.tabled, ho.object, ho.offset⟩, ?_, ?_⟩
    · intro o hof _ _ off d hd
      rw [hk.own o off fun h => hof h.1]
      exact hd
    · intro hw c hcopy d hd
      obtain ⟨d', hd'⟩ := Option.ne_none_iff_exists'.mp (h hw c hcopy)
      rw [hown c hcopy, hd', (Content.own hd').unique hd]
    · intro hr
      cases hr with
      | inl hr => exact absurd ho.object hr
      | inr hr => exact hp hr

theorem write_removed (x : VmProt) : x &&& ~~~protWrite &&& protWrite = 0 := by
  rw [BitVec.and_assoc]
  simp [protWrite]

theorem below_read_right (hk : Kept w a s₀ s) (hf : FoundAt a s₀ s p m) (hne : p.object ≠ a.firstObject)
    (hd : Content s₀ a.firstObject a.firstOffset (s.page m).data) (hw : ¬a.Writes) :
    Right a s₀ s m (prot &&& ~~~protWrite) := by
  cases hf with
  | top ho => exact absurd ho hne
  | below first _ _ _ _ _ _ hbusy hpresent hunq _ _ =>
    refine ⟨hd, hbusy, hpresent, hunq, ?_, fun h => absurd h hw, fun h => absurd h hw, fun _ => write_removed prot⟩
    intro o hof _ _ off d hd
    rw [hk.own o off fun h => hof h.1]
    exact hd

theorem vmPageCopy_touched (hs : ResidentInv s) (hb : (s.page m).tabled = true → (s.page m).object = some o)
    (q : PageId) :
    Touched s (vmPageCopy s q m) m o :=
  modPage_touched hs hb ⟨rfl, rfl, rfl, rfl⟩ ⟨rfl, rfl, rfl⟩

theorem vmPageActivate_touched (hs : ResidentInv s) (ht : (s.page m).tabled = true)
    (ho : (s.page m).object = some o) (h : vmPageActivate s m = some t) :
    Touched s t m o ∧ (t.page m).absent = (s.page m).absent ∧ cell t m = cell s m := by
  obtain ⟨hsight, hobj, hnext, f, hf⟩ := vmPageActivate_sight h
  have hfree : (s.page m).free = false := by
    cases hfree : (s.page m).free with
    | false => rfl
    | true => exact absurd ((hs.free_untabled m hfree).symm.trans ht) (by simp)
  refine ⟨⟨vmPageActivate_resident hs hfree h, ?_, hsight.pagerData, hnext, ?_, fun _ => ho, ?_⟩,
    (hsight.shown m).1, ?_⟩
  · intro x
    rw [hobj]
    exact SameLinks.refl _
  · intro p hp
    rw [hf, Function.update_of_ne hp]
  · intro _
    rw [(hsight.place m).object]
    exact ho
  · simp only [cell, (hsight.place m).tabled, (hsight.place m).object, (hsight.place m).offset, (hsight.shown m).1,
      (hsight.shown m).2]

theorem copyUp_right_iff (hk : Kept w a s₀ s) (hf : FoundAt a s₀ s p m) (hne : p.object ≠ a.firstObject)
    (hd : Content s₀ a.firstObject a.firstOffset (s.page m).data) (hc : CopyLinked s₀ a.firstObject)
    (hl : ShadowChain s₀ a.firstObject length) (hw : a.Writes)
    (h : foundBelow w a fuel s p m prot = .ok (.success t m' top prot')) :
    Right a s₀ t m' prot' ↔ ∀ c, (s₀.object a.firstObject).copy = some c →
      ownData s₀ c (a.copyOffset s₀ c) ≠ none := by
  cases hf with
  | top ho => exact absurd ho hne
  | below first _ hx hfirstM hours htab hob hbusy hpresent hunq hempty hsup =>
    have hfm : first ≠ m := by
      rintro rfl
      exact hne (Option.some.inj (hob.symm.trans hours.object))
    have hxf := copy_ne hc hl hl (Nat.le_refl _)
    have hwrite : a.faultType &&& protWrite ≠ 0 := hw
    simp only [foundBelow, if_pos hwrite] at h
    obtain ⟨first', hfirst', h⟩ := bind_eq_ok h
    cases Option.some.inj (hfirstM.symm.trans (pageResult_ok hfirst'))
    obtain ⟨s₂, hact, h⟩ := bind_eq_ok h
    obtain ⟨s₅, hcol, h⟩ := bind_eq_ok h
    have hact := pageResult_ok hact
    -- the data is copied to the page of the first object
    have hcopy := vmPageCopy_touched (m := first) (o := a.firstObject) hk.resident (fun _ => hours.object) m
    have hp₁ : (vmPageCopy s m first).page first = { s.page first with data := (s.page m).data } := by
      simp [vmPageCopy, VmState.modPage]
    have hours₁ : Ours a (vmPageCopy s m first) first := by
      constructor <;> rw [hp₁]
      · exact hours.tabled
      · exact hours.object
      · exact hours.offset
      · exact hours.busy
      · exact hours.present
      · exact hours.unqueued
    have hk₁ := hk.fill hcopy hxf hours₁ fun _ => hours.offset
    have hm₁ : (vmPageCopy s m first).page m = s.page m := hcopy.others m (Ne.symm hfm)
    generalize vmPageCopy s m first = s₁ at hact hk₁ hp₁ hours₁ hm₁
    -- the page it came from is let go
    have htab₁ : (s₁.page m).tabled = true := by rw [hm₁]; exact htab
    have hob₁ : (s₁.page m).object = some p.object := by rw [hm₁]; exact hob
    obtain ⟨htouch, habs, hcell⟩ := vmPageActivate_touched hk₁.resident htab₁ hob₁ hact
    have hwake : Touched s₂ (pageWakeup s₂ m) m p.object :=
      modPage_touched (f := fun y => { y with busy := false, wanted := false }) htouch.resident htouch.after
        ⟨rfl, rfl, rfl, rfl⟩ ⟨rfl, rfl, rfl⟩
    have hgo := htouch.trans hwake
    have hgo := hgo.trans (pagingEnd_touched hgo.resident hgo.after p.object)
    have hgo := hgo.trans (pagingEnd_touched hgo.resident hgo.after a.firstObject)
    have hpage₄ : (pagingEnd (pagingEnd (pageWakeup s₂ m) p.object) a.firstObject).page m =
        { s₂.page m with busy := false, wanted := false } := by
      change (pageWakeup s₂ m).page m = _
      simp [pageWakeup]
    generalize pagingEnd (pagingEnd (pageWakeup s₂ m) p.object) a.firstObject = s₄ at hcol hgo hpage₄
    have hcell₄ : cell s₄ m = cell s₁ m := by
      rw [← hcell]
      simp only [cell, hpage₄]
    have hk₄ : Kept w a s₀ s₄ := by
      refine hk₁.touch hgo hx ?_ fun off _ d => by rw [hcell₄]
      rw [hpage₄]
      intro _ ha
      have : (s₂.page m).absent = false := by
        rw [habs, hm₁]
        exact hpresent
      exact absurd (this.symm.trans ha) (by simp)
    have hfirst₄ : s₄.page first = s₁.page first := hgo.others first hfm
    have hours₄ := hours₁.of_page hfirst₄
    -- the first object is collapsed
    have hchain : ShadowChain s₄ a.firstObject length := hl.congr fun y _ _ _ => (hk₄.links y).shadow
    have hcollapsed := vmObjectCollapse_collapsed hk₄.resident hchain hcol
    have hfirst₅ : s₅.page first = s₄.page first := hcollapsed.pages first hours₄.tabled hours₄.object
    have hours₅ := hours₄.of_page hfirst₅
    have hown : ∀ c, (s₀.object a.firstObject).copy = some c → ∀ off, ownData s₅ c off = ownData s₀ c off := by
      intro c hcp off
      rw [hcollapsed.own c (hxf c hcp) (.inr ((hk₄.links c).shadow.trans (hc.shadow c hcp))) off]
      exact hk₄.own c off fun h => hxf c hcp h.1
    obtain ⟨rfl, rfl, hiff⟩ := faultSuccess_right a s₀ (Except.ok.inj h)
    have hsight : SameSight s₅ (pagingBegin s₅ a.firstObject) := sight_modObject fun _ => ⟨rfl, rfl, rfl⟩
    rw [hiff, right_sight_iff hsight rfl ⟨rfl, rfl⟩]
    constructor
    · intro hr c hcp
      obtain ⟨d, hd⟩ := (ShadowChain.next (hc.shadow c hcp) hl).content (a.copyOffset s₀ c)
      rw [← hown c hcp, hr.pushed hw c hcp d hd]
      exact fun h => by cases h
    · intro hkept
      refine ⟨?_, hours₅.busy, hours₅.present, hours₅.unqueued, ?_,
        fun _ => ⟨hours₅.tabled, hours₅.object, hours₅.offset⟩,
        ?_, ?_⟩
      · rw [hfirst₅, hfirst₄, hp₁]
        exact hd
      · intro o hof _ ha off d hd
        rw [hcollapsed.own o hof (.inl ha) off, hk₄.own o off fun h => hof h.1]
        exact hd
      · intro _ c hcp d hd
        obtain ⟨d', hd'⟩ := Option.ne_none_iff_exists'.mp (hkept c hcp)
        rw [hown c hcp, hd', (Content.own hd').unique hd]
      · intro hr
        cases hr with
        | inl hr => exact absurd hours₅.object hr
        | inr hr => exact absurd hw hr.2

/-- What pushing a page into the copy object does: the copy object has the data, unless it has some of its
own, and nothing else is lost. -/
structure Filled (s t : VmState) (m : PageId) (c : ObjId) (off : VmOffset) : Prop where
  page : t.page m = s.page m
  own : ownData t c off = (ownData s c off).or (some (s.page m).data)
  others : ∀ o x, o < s.nextObject → ¬(o = c ∧ x = off) → ∀ d, ownData s o x = some d → ownData t o x = some d

theorem Filled.right (h : Filled s t m c (a.copyOffset s₀ c)) (hk : Kept w a s₀ s) (ho : Ours a s m)
    (hc : CopyLinked s₀ a.firstObject) (hl : ShadowChain s₀ a.firstObject length)
    (hcopy : (s₀.object a.firstObject).copy = some c)
    (hd : Content s₀ a.firstObject a.firstOffset (s.page m).data) (hw : a.Writes) : Right a s₀ t m prot := by
  have hne := copy_ne hc hl hl (Nat.le_refl _)
  have hours := ho.of_page h.page
  have hown : ∀ o, o ≠ a.firstObject → ∀ off, ownData s o off = ownData s₀ o off :=
    fun o hof off => hk.own o off fun h => hof h.1
  refine ⟨by rw [h.page]; exact hd, hours.busy, hours.present, hours.unqueued, ?_,
    fun _ => ⟨hours.tabled, hours.object, hours.offset⟩, ?_, ?_⟩
  · intro o hof hlt _ off d hd'
    have hs := (hown o hof off).trans hd'
    by_cases hoc : o = c ∧ off = a.copyOffset s₀ c
    · obtain ⟨rfl, rfl⟩ := hoc
      rw [h.own, hs]
      rfl
    · exact h.others o off (Nat.lt_of_lt_of_le hlt hk.next) hoc d hs
  · intro _ c' hcopy' d' hd'
    cases Option.some.inj (hcopy.symm.trans hcopy')
    rw [h.own, hown c (hne c hcopy)]
    cases hd' with
    | own hs => rw [hs]; rfl
    | deeper hn hs hb =>
      cases Option.some.inj ((hc.shadow c hcopy).symm.trans hs)
      have hoff : a.copyOffset s₀ c + (s₀.object c).shadowOffset = a.firstOffset := BitVec.sub_add_cancel _ _
      rw [hoff] at hb
      rw [hn, hd.unique hb]
      rfl
    | zero _ hs => exact absurd ((hc.shadow c hcopy).symm.trans hs) (by simp)
  · intro hr
    cases hr with
    | inl hr => exact absurd hours.object hr
    | inr hr => exact absurd hw hr.2

/-- A new page of the copy object holds the data. -/
structure Entered (s t : VmState) (m q : PageId) (c : ObjId) (off : VmOffset) : Prop where
  resident : ResidentInv t
  next : t.nextObject = s.nextObject
  links : SameLinks (s.object c) (t.object c)
  pagerData : t.pagerData = s.pagerData
  other : q ≠ m
  page : t.page m = s.page m
  tabled : (t.page q).tabled = true
  object : (t.page q).object = some c
  offset : (t.page q).offset = off
  present : (t.page q).absent = false
  data : (t.page q).data = (s.page m).data
  alone : ∀ o x, ¬(o = c ∧ x = off) → ownData t o x = ownData s o x

theorem Entered.filled (h : Entered s t m q c off) (hnone : ownData s c off = none) : Filled s t m c off where
  page := h.page
  own := by
    rw [hnone, Option.none_or, ← h.data]
    exact ownData_cell h.resident.table (cell_eq_some.mpr ⟨h.tabled, h.object, h.offset, h.present, rfl⟩)
  others := fun o x _ hox d hd => (h.alone o x hox).trans hd

theorem Filled.of_sight (h : Filled s t m c off) (hs : SameSight t u) (hp : u.page m = t.page m) : Filled s u m c off :=
  ⟨hp.trans h.page, (hs.ownData _ _).trans h.own,
    fun o x hlt hox d hd => (hs.ownData o x).trans (h.others o x hlt hox d hd)⟩

theorem vmPageoutInitial_filled (h : Entered s t m q c off) (hnone : vmPageLookup s c off = none)
    (hlt : c < s.nextObject) (hp : vmPageoutInitial t q = .ok u) : Filled s u m c off ∧
      (u.object c).core = (t.object c).core := by
  simp only [vmPageoutInitial] at hp
  cases hv : vmPageoutPage t q with
  | error e =>
    rw [hv] at hp
    cases hp
  | ok v =>
    rw [hv] at hp
    have hu : u = { v with pagerData := fun port x => (t.pagerData port x).or (v.pagerData port x) } :=
      (Except.ok.inj hp).symm
    have hul : ∀ o x, vmPageLookup u o x = vmPageLookup v o x := by
      rw [hu]
      exact fun _ _ => rfl
    have hup : u.page = v.page ∧ u.object = v.object := by
      rw [hu]
      exact ⟨rfl, rfl⟩
    have hud : ∀ port x, u.pagerData port x = (t.pagerData port x).or (v.pagerData port x) := by
      rw [hu]
      exact fun _ _ => rfl
    have hpush := vmPageoutPage_pushed h.resident h.object hv
    obtain ⟨pager, hpager, hpd⟩ := hpush.pagerData
    rw [h.offset, h.data] at hpd
    have hown : ∀ o, o < s.nextObject → o ≠ t.nextObject := fun o ho => Nat.ne_of_lt (by rw [h.next]; exact ho)
    have hobj : ∀ o, o < s.nextObject → (u.object o).pager = (t.object o).pager ∧
        (u.object o).pagingOffset = (t.object o).pagingOffset := fun o ho => by
      rw [hup.2]
      exact ⟨core_field VmObject.pager (fun _ => rfl) (hpush.object o (hown o ho)),
        core_field VmObject.pagingOffset (fun _ => rfl) (hpush.object o (hown o ho))⟩
    -- what is looked up elsewhere than at the page's own place
    have hlook : ∀ o x, o < s.nextObject → ¬(o = c ∧ x = off) → vmPageLookup u o x = vmPageLookup t o x := by
      intro o x ho hox
      apply Option.ext
      intro p
      rw [hul, hpush.lookup o x (hown o ho), and_iff_left_iff_imp]
      rintro hl rfl
      obtain ⟨-, hob, hoff⟩ := (vmPageLookup_eq_some h.resident.table).mp hl
      exact hox ⟨Option.some.inj (hob.symm.trans h.object), hoff.symm.trans h.offset⟩
    refine ⟨⟨?_, ?_, ?_⟩, ?_⟩
    · rw [hup.1, hpush.others m (Ne.symm h.other), h.page]
    · have hgone : vmPageLookup u c off = none := by
        rw [hul, Option.eq_none_iff_forall_ne_some]
        intro p hl
        obtain ⟨hl, hpq⟩ := (hpush.lookup c off (hown c hlt) p).mp hl
        obtain ⟨ht, hob, hoff⟩ := (vmPageLookup_eq_some h.resident.table).mp hl
        exact hpq (h.resident.table.unique p q ht h.tabled (hob.trans h.object.symm) (hoff.trans h.offset.symm))
      have hhad : ownData s c off = s.pagerData pager (off + (t.object c).pagingOffset) := by
        have hpager' : (s.object c).pager = some pager := h.links.pager.symm.trans hpager
        simp only [ownData, residentData, hnone, hpager', h.links.pagingOffset, Option.bind_none, Option.none_or,
          Option.bind_some]
      rw [hhad]
      simp only [ownData, residentData, hgone, (hobj c hlt).1, (hobj c hlt).2, hpager, hud, hpd, h.pagerData,
        Option.bind_none, Option.none_or, Option.bind_some, Function.update_self]
    · intro o x ho hox d hd
      rw [← h.alone o x hox] at hd
      have hres : residentData u o x = residentData t o x := by
        simp only [residentData, hlook o x ho hox, hup.1]
        cases hl' : vmPageLookup t o x with
        | none => rfl
        | some p =>
          have hpq : p ≠ q := by
            rintro rfl
            obtain ⟨-, hob, hoff⟩ := (vmPageLookup_eq_some h.resident.table).mp hl'
            exact hox ⟨Option.some.inj (hob.symm.trans h.object), hoff.symm.trans h.offset⟩
          simp only [Option.bind_some, hpush.others p hpq]
      simp only [ownData, hres, (hobj o ho).1, (hobj o ho).2] at hd ⊢
      cases hr : residentData t o x with
      | some d' =>
        rw [hr] at hd
        exact hd
      | none =>
        rw [hr] at hd
        simp only [Option.none_or] at hd ⊢
        obtain ⟨port, hport, hd⟩ := Option.bind_eq_some_iff.mp hd
        rw [hport, Option.bind_some, hud, hd]
        rfl
    · rw [hup.2]
      exact hpush.object c (hown c hlt)

theorem vmPageAlloc_core {priv : Bool} (ha : vmPageAlloc s (some c) off priv = some (t, some q)) (x : ObjId) :
    (t.object x).core = (s.object x).core := by
  unfold vmPageAlloc at ha
  split at ha
  next => simp at ha
  next =>
    split at ha
    next => simp at ha
    next =>
      obtain ⟨v, hv, hr⟩ := Option.map_eq_some_iff.mp ha
      cases hr
      exact (vmPageInsert_objects hv).core x

theorem alloc_entered {priv : Bool} (hs : ResidentInv s) (hm : (s.page m).tabled = true)
    (hnone : vmPageLookup s c off = none) (ha : vmPageAlloc s (some c) off priv = some (t, some q)) :
    Entered s ((vmPageCopy t m q).modPage q fun x => { x with dirty := true }) m q c off := by
  obtain ⟨ht, hun, hpage⟩ := vmPageAlloc_touched hs hnone ha
  have hqm : q ≠ m := by
    rintro rfl
    exact absurd (hun.symm.trans hm) (by simp)
  have hcopy := ht.trans (vmPageCopy_touched ht.resident ht.after m)
  have hdirty : Touched s ((vmPageCopy t m q).modPage q fun x => { x with dirty := true }) q c :=
    hcopy.trans (modPage_touched hcopy.resident hcopy.after ⟨rfl, rfl, rfl, rfl⟩ ⟨rfl, rfl, rfl⟩)
  have hmt : t.page m = s.page m := ht.others m (Ne.symm hqm)
  have hq : ((vmPageCopy t m q).modPage q fun x => { x with dirty := true }).page q =
      { t.page q with data := (s.page m).data, dirty := true } := by
    simp [vmPageCopy, VmState.modPage, hmt]
  generalize (vmPageCopy t m q).modPage q (fun x => { x with dirty := true }) = u at hdirty hq
  rw [hpage] at hq
  have hcell : cell u q = some (c, off, false, (s.page m).data) := by
    apply cell_eq_some.mpr
    rw [hq]
    exact ⟨rfl, rfl, rfl, rfl, rfl⟩
  obtain ⟨htab, hob, hoff, hpres, hdata⟩ := cell_eq_some.mp hcell
  refine ⟨hdirty.resident, hdirty.next, hdirty.links c, hdirty.pagerData, hqm, hdirty.others m (Ne.symm hqm), htab, hob,
    hoff, hpres, hdata, ?_⟩
  intro o x hox
  by_cases hoc : o = c
  · subst hoc
    apply hdirty.ownData hs
    intro d
    rw [cell_untabled hun, hcell]
    constructor
    · intro hc
      simp only [Option.some.injEq, Prod.mk.injEq, true_and] at hc
      exact absurd ⟨rfl, hc.1.symm⟩ hox
    · exact fun hc => by cases hc
  · exact hdirty.ownData_ne hs hoc x

theorem pushPage_filled {still : Bool}
    (h : Entered s ((vmPageCopy t m q).modPage q fun x => { x with dirty := true }) m q c off)
    (hnone : vmPageLookup s c off = none) (hhonest : (s.object c).pager ≠ none → (s.object c).pagerCreated = true)
    (hlt : c < s.nextObject) (hshadow : (s.object c).shadow = some o)
    (hheld : (s.object c).refCount ≠ 1) (hcount : (t.object c).refCount = (s.object c).refCount)
    (hp : pushPage o t m c q = .ok (u, still)) : Filled s u m c off ∧ still = true := by
  simp only [pushPage] at hp
  have hcount' : (((vmPageCopy t m q).modPage q fun x => { x with dirty := true }).object c).refCount =
      (s.object c).refCount := hcount
  generalize hv : (vmPageCopy t m q).modPage q (fun x => { x with dirty := true }) = v at h hp hcount'
  split at hp
  next hcr =>
    cases hact : vmPageActivate v q with
    | none =>
      rw [hact] at hp
      cases hp
    | some v' =>
      rw [hact] at hp
      cases hp
      have hown : ownData s c off = none := by
        have : (s.object c).pager = none := by
          by_contra hne
          have hcr' := hhonest hne
          rw [← h.links.pagerCreated] at hcr'
          exact absurd (hcr'.symm.trans hcr) (by simp)
        simp [ownData, residentData, hnone, this]
      obtain ⟨hsight, -, -, f, hf⟩ := vmPageActivate_sight hact
      refine ⟨((h.filled hown).of_sight hsight ?_).of_sight (sight_modPage
        (f := fun y => { y with busy := false, wanted := false }) fun _ => ⟨⟨rfl, rfl, rfl⟩, rfl, rfl⟩) ?_, rfl⟩
      · rw [hf, Function.update_of_ne (Ne.symm h.other)]
      · simp [pageWakeup, Ne.symm h.other]
  next =>
    generalize hb : v.modPage q (fun x => { x with busy := false }) = b at hp
    have hsight : SameSight v b := by
      rw [← hb]
      exact sight_modPage fun _ => ⟨⟨rfl, rfl, rfl⟩, rfl, rfl⟩
    have hbq : b.page q = { v.page q with busy := false } := by
      rw [← hb]
      simp [VmState.modPage]
    have hbm : b.page m = v.page m := by
      rw [← hb]
      simp [VmState.modPage, Ne.symm h.other]
    have hbo : b.object = v.object ∧ b.nextObject = v.nextObject := by
      rw [← hb]
      exact ⟨rfl, rfl⟩
    have hbr : ResidentInv b := by
      rw [← hb]
      exact h.resident.setPage ⟨rfl, rfl, rfl, rfl⟩ ⟨rfl, rfl, rfl⟩
    have hent : Entered s b m q c off := by
      refine ⟨hbr, hbo.2.trans h.next, by rw [hbo.1]; exact h.links, hsight.pagerData.trans h.pagerData, h.other,
        hbm.trans h.page, ?_, ?_, ?_, ?_, ?_, fun o x hox => (hsight.ownData o x).trans (h.alone o x hox)⟩ <;> rw [hbq]
      · exact h.tabled
      · exact h.object
      · exact h.offset
      · exact h.present
      · exact h.data
    cases hout : vmPageoutInitial b q with
    | error e =>
      rw [hout] at hp
      cases hp
    | ok y =>
      rw [hout] at hp
      cases hp
      obtain ⟨hfilled, hcore⟩ := vmPageoutInitial_filled hent hnone hlt hout
      refine ⟨hfilled, ?_⟩
      have hsh : (u.object c).shadow = some o := by
        rw [core_field VmObject.shadow (fun _ => rfl) hcore, hbo.1, h.links.shadow, hshadow]
      have hr : (u.object c).refCount ≠ 1 := by
        rw [core_field VmObject.refCount (fun _ => rfl) hcore, hbo.1, hcount']
        exact hheld
      simp [hsh, hr]

theorem pushLoop_right_iff (hk : Kept w a s₀ s) (ho : Ours a s m)
    (hhome : ownData s₀ a.firstObject a.firstOffset ≠ none ∨ ¬Supplied s₀ a.firstObject a.firstOffset)
    (hd : Content s₀ a.firstObject a.firstOffset (s.page m).data) (hc : CopyLinked s₀ a.firstObject)
    (hl : ShadowChain s₀ a.firstObject length) (hmust : a.mustBeResident = false)
    (h : pushLoop w a m fuel s prot = .ok (.success t m' top prot')) : Right a s₀ t m' prot' ↔ CopyKept a s₀ := by
  have hcp : (s.object a.firstObject).copy = (s₀.object a.firstObject).copy := (hk.links a.firstObject).copy
  have hne := copy_ne hc hl hl (Nat.le_refl _)
  induction fuel with
  | zero => cases h
  | succ fuel ih =>
    simp only [pushLoop] at h
    cases hcopy : (s.object a.firstObject).copy with
    | none =>
      rw [hcopy] at h
      have hno : (s₀.object a.firstObject).copy = none := hcp.symm.trans hcopy
      obtain ⟨rfl, rfl, hiff⟩ := faultSuccess_right a s₀ (Except.ok.inj h)
      rw [hiff, right_iff_kept hk ho hc hl hd fun hp => absurd hno hp.1]
      constructor
      · intro _ _ c hc'
        rw [hno] at hc'
        cases hc'
      · intro _ _ c hc'
        rw [hno] at hc'
        cases hc'
    | some c =>
      rw [hcopy] at h
      have hcopy₀ : (s₀.object a.firstObject).copy = some c := hcp.symm.trans hcopy
      simp only [hmust, Bool.false_eq_true, if_false] at h
      split at h
      next hread =>
        have hread : ¬a.Writes := fun hw => hw hread
        obtain ⟨rfl, rfl, hiff⟩ := faultSuccess_right a s₀ (Except.ok.inj h)
        rw [hiff, right_iff_kept hk ho hc hl hd fun _ => write_removed prot]
        exact ⟨fun _ hw => absurd hw hread, fun _ hw => absurd hw hread⟩
      next hwrite =>
        have hw : a.Writes := hwrite
        split at h
        next => exact ih h
        next =>
          have hoff : a.firstOffset - ((addRef s c 1).object c).shadowOffset = a.copyOffset s₀ c := by
            have : ((addRef s c 1).object c).shadowOffset = (s.object c).shadowOffset := by
              simp [addRef, modObject_object]
            rw [this, (hk.links c).shadowOffset]
            rfl
          simp only [hoff] at h
          have hlook : vmPageLookup (addRef s c 1) c (a.copyOffset s₀ c) = vmPageLookup s c (a.copyOffset s₀ c) :=
            (sight_addRef s c 1).lookup _ _
          have htable := hk.table c hcopy₀ (a.copyOffset s₀ c)
          split at h
          next q hq =>
            split at h
            next =>
              obtain ⟨s', -, h⟩ := bind_eq_ok h
              cases h
            next =>
              obtain ⟨rfl, rfl, hiff⟩ := faultSuccess_right a s₀ (Except.ok.inj h)
              have hsight : SameSight s (addRef (addRef s c 1) c (-1)) :=
                (sight_addRef s c 1).trans (sight_addRef _ c (-1))
              rw [hiff, right_sight_iff hsight rfl ⟨rfl, rfl⟩, right_iff_kept hk ho hc hl hd fun hp => absurd hw hp.2]
              constructor
              · intro hkept _ c' hc'
                exact .inl (hkept hw c' hc')
              · intro hkept _ c' hc'
                cases Option.some.inj (hcopy₀.symm.trans hc')
                cases hkept hw c hcopy₀ with
                | inl hown => exact hown
                | inr hno =>
                  rw [← hlook, hq, hno.1] at htable
                  cases htable
          next hq =>
            have hnone : vmPageLookup s₀ c (a.copyOffset s₀ c) = none := by
              rw [← hlook, hq] at htable
              cases hl₀ : vmPageLookup s₀ c (a.copyOffset s₀ c) with
              | none => rfl
              | some q =>
                rw [hl₀] at htable
                cases htable
            obtain ⟨⟨s₂, q⟩, hal, h⟩ := bind_eq_ok h
            have hal := pageResult_ok hal
            cases q with
            | none =>
              obtain ⟨s', -, h⟩ := bind_eq_ok h
              cases h
            | some q =>
              obtain ⟨⟨s₃, still⟩, hpush, h⟩ := bind_eq_ok h
              have hres : ResidentInv (addRef s c 1) := hk.resident.modObject fun _ => ⟨rfl, rfl⟩
              have hent := alloc_entered hres ho.tabled hq hal
              have hobj : (addRef s c 1).object c = { s.object c with refCount := (s.object c).refCount + 1 } := by
                simp [addRef, modObject_object]
              have hcount : (s₂.object c).refCount = ((addRef s c 1).object c).refCount :=
                core_field VmObject.refCount (fun _ => rfl) (vmPageAlloc_core hal c)
              obtain ⟨hfilled, rfl⟩ := pushPage_filled (o := a.firstObject) hent hq (by
                  rw [hobj]
                  exact hk.honest.created c) (Nat.lt_of_lt_of_le (hc.known c hcopy₀) hk.next) (by
                  rw [hobj]
                  exact (hk.links c).shadow.trans (hc.shadow c hcopy₀)) (by
                  rw [hobj]
                  have := (hk.links c).held (hc.held c hcopy₀)
                  simp only [ne_eq]
                  omega) hcount hpush
              have hfilled : Filled s s₃ m c (a.copyOffset s₀ c) :=
                ⟨hfilled.page, hfilled.own.trans (by rw [(sight_addRef s c 1).ownData]; rfl), fun o x hlt hox d hd =>
                  hfilled.others o x hlt hox d (((sight_addRef s c 1).ownData o x).trans hd)⟩
              obtain ⟨rfl, rfl, hiff⟩ := faultSuccess_right a s₀ (Except.ok.inj h)
              have hwant : SameSight s₃ (s₃.modPage m' fun x => { x with wanted := false }) :=
                sight_modPage fun _ => ⟨⟨rfl, rfl, rfl⟩, rfl, rfl⟩
              have hsight := hwant.trans (sight_addRef _ c (-1))
              rw [hiff, right_sight_iff hsight (by simp [addRef, VmState.modObject, VmState.setObject, VmState.modPage])
                (by simp [addRef, VmState.modObject, VmState.setObject, VmState.modPage])]
              refine ⟨fun _ _ c' hc' => ?_, fun _ => hfilled.right hk ho hc hl hcopy₀ hd hw⟩
              cases Option.some.inj (hcopy₀.symm.trans hc')
              exact .inr ⟨hnone, fun hboth => hhome.elim (fun hh => hh hboth.1) fun hh => hh hboth.2⟩

theorem vmFaultPage_right_iff (hw : Calm w) (hs : ResidentInv s) (hh : Honest w s)
    (hl : ShadowChain s a.firstObject length) (hc : CopyLinked s a.firstObject) (hmust : a.mustBeResident = false)
    (h : vmFaultPage w a fuel s = .ok (.success t m top prot)) : Right a s t m prot ↔ CopyKept a s := by
  simp only [vmFaultPage] at h
  obtain ⟨r, hr, h⟩ := bind_eq_ok h
  have htop : AtTop a s s { object := a.firstObject, offset := a.firstOffset } :=
    ⟨rfl, rfl, fun d hd => .own hd, id, .inl⟩
  have hgood := searchLoop_good hw (Kept.refl hs hh) (.top htop) hc hl hmust hr
  cases r with
  | again s' p => cases h
  | failed s' r => cases h
  | found s' p m' =>
    obtain ⟨hk, hf, hd⟩ := hgood
    simp only at h
    split at h
    next hne =>
      by_cases hwr : a.Writes
      · obtain ⟨hempty, hsup⟩ :
            ownData s a.firstObject a.firstOffset = none ∧ Supplied s a.firstObject a.firstOffset := by
          cases hf with
          | top ho => exact absurd ho hne
          | below _ _ _ _ _ _ _ _ _ _ hempty hsup => exact ⟨hempty, hsup⟩
        rw [copyUp_right_iff hk hf hne hd hc hl hwr h]
        constructor
        · exact fun hown _ c hcopy => .inl (hown c hcopy)
        · intro hkept c hcopy
          exact (hkept hwr c hcopy).elim id fun hno => absurd ⟨hempty, hsup⟩ hno.2
      · have hread : ¬(a.faultType &&& protWrite ≠ 0) := hwr
        simp only [foundBelow, if_neg hread] at h
        obtain ⟨rfl, rfl, hiff⟩ := faultSuccess_right a s (Except.ok.inj h)
        rw [hiff]
        exact ⟨fun _ h => absurd h hwr, fun _ => below_read_right hk hf hne hd hwr⟩
    next he =>
      cases hf with
      | below _ hne => exact absurd hne he
      | top _ ho hhome => exact pushLoop_right_iff hk ho hhome hd hc hl hmust h

theorem Meanwhile.refl {w : World} {s : VmState} {m : PageId} (hs : ResidentInv s) (hh : Honest w s) :
    Meanwhile w s s m :=
  ⟨hs, hh, fun _ => SameLinks.refl _, rfl, Nat.le_refl _, fun _ _ => rfl, fun _ _ _ => rfl, fun _ _ _ => rfl⟩

theorem Touched.meanwhile {w : World} {s t : VmState} {m : PageId} {o : ObjId} (ht : Touched s t m o)
    (hs : ResidentInv s) (hh : Honest w s) (hc : cell t m = cell s m) (ho : (s.page m).object = some o)
    (ha : (t.page m).absent = false) : Meanwhile w s t m where
  resident := ht.resident
  honest := hh.touch ht fun _ habs => by
    rw [ha] at habs
    cases habs
  links := ht.links
  pagerData := ht.pagerData
  next := Nat.le_of_eq ht.next.symm
  own x off := by
    by_cases hx : x = o
    · subst hx
      exact ht.ownData hs fun d => by rw [hc]
    · exact ht.ownData_ne hs hx off
  held p hp _ := ht.others p hp
  table x off hx := by
    have hne : x ≠ o := fun he => hx (he ▸ ho)
    rw [ht.lookup_ne hs hne]

/-- A world in which a page that has its data is free when the sleep is over, and no message is sent. -/
def serving : World where
  block := fun _ s m =>
    (if (s.page m).absent then s else s.modPage m fun p => { p with busy := false, wanted := false }, .awakened)
  request := fun _ s _ => (s, .interrupted)

theorem serving_calm : Calm serving := by
  refine ⟨fun _ s m hs hh ht => ?_, fun _ _ _ hs hh _ => .refl hs hh, fun _ _ _ hs hh _ => .refl hs hh⟩
  change Meanwhile serving s (if (s.page m).absent then s else _) m
  split
  next => exact .refl hs hh
  next ha =>
    obtain ⟨o, ho⟩ := Option.ne_none_iff_exists'.mp (hs.table.owned m ht)
    obtain ⟨htouch, hcell⟩ := flags_touched (f := fun p => { p with busy := false, wanted := false })
      hs (fun _ => ho) fun _ => ⟨⟨rfl, rfl, rfl, rfl⟩, ⟨rfl, rfl, rfl⟩, rfl, rfl⟩
    refine htouch.meanwhile hs hh hcell ho ?_
    simpa [VmState.modPage] using ha

/-- Object 0 and its copy object 1, which has a pager that has nothing. -/
def twoObjects : VmState where
  object := fun o =>
    if o = 0 then { copy := some 1, temporary := false }
    else if o = 1 then { shadow := some 0, pager := some 9, pagerCreated := true, pagerReady := true }
    else { alive := false, refCount := 0 }
  nextObject := 2

/-- A page of each object is resident. That of the copy object may be one that its pager does not have, and
that of the first object one that another thread has. -/
def onePageEach (absent busy : Bool) : VmState :=
  let s := ((vmPageInit twoObjects 0 (some 0) 0 0).bind fun s => vmPageInit s 1 (some 1) 0 0).getD twoObjects
  (s.modPage 0 fun p => { p with busy := busy, data := 5 }).modPage 1
    fun p => { p with busy := false, absent := absent }

theorem twoObjects_resident : ResidentInv twoObjects := by
  have hobj : ∀ o, (twoObjects.object o).memq = [] ∧ (twoObjects.object o).residentPageCount = 0 := by
    intro o
    simp only [twoObjects]
    split
    next => exact ⟨rfl, rfl⟩
    next => split <;> exact ⟨rfl, rfl⟩
  have hempty : ∀ f : PageId → Prop, (∀ p, ¬f p) → Mirror.Mirrors [] f := fun f hf =>
    ⟨List.nodup_nil, fun p => ⟨fun h => absurd h List.not_mem_nil, fun h => absurd h (hf p)⟩⟩
  have hpage : ∀ p, twoObjects.page p = {} := fun _ => rfl
  refine ⟨⟨hempty _ ?_, hempty _ ?_, hempty _ ?_, rfl, rfl, rfl, ?_, ?_, ?_⟩,
    ⟨fun b => hempty _ ?_, fun o => ?_, fun o => ?_, ?_, ?_⟩, ?_⟩
  case refine_8 => rw [(hobj o).1]; exact hempty _ (by simp [hpage])
  case refine_9 => rw [(hobj o).1, (hobj o).2]; rfl
  all_goals simp [hpage]

theorem onePageEach_resident (absent busy : Bool) : ResidentInv (onePageEach absent busy) := by
  have h₁ := vmPageInit_resident twoObjects_resident rfl rfl rfl rfl (fun x hx => by cases hx; rfl)
    (rfl : vmPageInit twoObjects 0 (some 0) 0 0 = some _)
  have h₂ := vmPageInit_resident h₁ rfl rfl rfl rfl (fun x hx => by cases hx; rfl)
    (rfl : vmPageInit _ 1 (some 1) 0 0 = some _)
  have h₃ : ResidentInv (VmState.modPage _ 0 fun p => { p with busy := busy, data := 5 }) :=
    h₂.setPage ⟨rfl, rfl, rfl, rfl⟩ ⟨rfl, rfl, rfl⟩
  exact h₃.setPage ⟨rfl, rfl, rfl, rfl⟩ ⟨rfl, rfl, rfl⟩

theorem onePageEach_honest (absent busy : Bool) : Honest serving (onePageEach absent busy) := by
  have hno : ∀ o off, pagerHas (onePageEach absent busy) o off = none := by
    intro o off
    simp only [pagerHas]
    cases ((onePageEach absent busy).object o).pager <;> rfl
  refine ⟨?_, fun o off _ => hno o off, fun m o _ _ _ _ => hno o _⟩
  intro o ho
  by_cases h₀ : o = 0
  · subst h₀
    exact absurd rfl ho
  · by_cases h₁ : o = 1
    · subst h₁
      rfl
    · have : (onePageEach absent busy).object o = { alive := false, refCount := 0 } := by
        simp [onePageEach, vmPageInit, vmPageInsert, vmPageTemplate, VmState.setPage, VmState.setObject,
          VmState.setBucket, VmState.modPage, twoObjects, h₀, h₁]
      rw [this] at ho
      exact absurd rfl ho

theorem onePageEach_linked (absent busy : Bool) : CopyLinked (onePageEach absent busy) 0 := by
  constructor
  all_goals
    intro c hc
    cases Option.some.inj (show some 1 = some c from hc)
    cases absent <;> cases busy <;> decide

def writeFault : FaultCall := { firstObject := 0, firstOffset := 0, faultType := protWrite }

/-- The thread waits for the page. Where the copy object has the page, the write is right. -/
theorem onePageEach_right : ∃ t m top prot,
    vmFaultPage serving writeFault 4 (onePageEach false true) = .ok (.success t m top prot) ∧
      Right writeFault (onePageEach false true) t m prot := by
  obtain ⟨t, m, top, prot, h⟩ : ∃ t m top prot,
      vmFaultPage serving writeFault 4 (onePageEach false true) = .ok (.success t m top prot) := ⟨_, _, _, _, rfl⟩
  have hkept : CopyKept writeFault (onePageEach false true) := by
    rintro - c hc
    cases Option.some.inj (show some 1 = some c from hc)
    exact .inl (by decide)
  exact ⟨t, m, top, prot, h, (vmFaultPage_right_iff serving_calm (onePageEach_resident false true)
    (onePageEach_honest false true) (.last rfl) (onePageEach_linked false true) rfl h).mpr hkept⟩

/-- The pager of the copy object has said that it does not have the page. The data is not pushed, and the
copy object shows what is written afterwards. -/
theorem unavailable_not_pushed : ∃ t m top prot,
    vmFaultPage serving writeFault 3 (onePageEach true false) = .ok (.success t m top prot) ∧ Calm serving ∧
      ResidentInv (onePageEach true false) ∧ Honest serving (onePageEach true false) ∧
      ShadowChain (onePageEach true false) 0 0 ∧ CopyLinked (onePageEach true false) 0 ∧
      ¬Right writeFault (onePageEach true false) t m prot := by
  refine ⟨_, _, _, _, rfl, serving_calm, onePageEach_resident true false, onePageEach_honest true false, .last rfl,
    onePageEach_linked true false, ?_⟩
  intro h
  have hc : Content (onePageEach true false) 1 0 5 := .deeper rfl rfl (.own rfl)
  have := h.pushed (by decide) 1 rfl 5 hc
  cases this

end FaultData
end MachVM
