import MachVM.CollapseLoop

namespace MachVM

variable {s t : VmState} {o object : ObjId} {off start endAddr : VmOffset} {d : PageData} {mem : PageId} {n fuel : Nat}

theorem vmObjectCollapse_ok (h : CollapseInv s) (ha : (s.object object).alive = true) (hn : ShadowChain s object n)
    (ht : vmObjectCollapse fuel s object = .ok t) : CollapseInv t ∧ (t.object object).alive = true ∧
      (t.object object).size = (s.object object).size ∧
      ∀ off d, off.toNat < (s.object object).size.toNat → Content s object off d → Content t object off d := by
  induction fuel generalizing s n with
  | zero => cases ht
  | succ fuel ih =>
    obtain ⟨r, hr, hturn⟩ := collapseStep_turned h ha hn
    simp only [vmObjectCollapse, hr] at ht
    cases r with
    | none =>
      cases Except.ok.inj ht
      exact ⟨h, ha, rfl, fun _ _ _ hc => hc⟩
    | some u =>
      have hu := hturn u rfl
      obtain ⟨m, -, hm⟩ := hu.chain
      obtain ⟨hi, hat, hsize, hc⟩ := ih hu.inv hu.alive hm ht
      have hsu := (hu.kept object hu.alive).2
      refine ⟨hi, hat, hsize.trans hsu, fun off d hlt hd => hc off d ?_ (hu.content _ off d hu.alive hlt hd)⟩
      rw [hsu]
      exact hlt

/-! ### `vm_object_page_remove` -/

/-- The pages of a range of an object. -/
def InRemoved (start endAddr off : VmOffset) : Prop := start ≤ off ∧ off < endAddr

theorem cell_page {c : ObjId × VmOffset × Bool × PageData} (h : cell s mem = some c) :
    (s.page mem).tabled = true ∧ c.2.1 = (s.page mem).offset := by
  obtain ⟨ht, -, hf, -⟩ := cell_eq_some.mp (show cell s mem = some (c.1, c.2.1, c.2.2.1, c.2.2.2) from h)
  exact ⟨ht, hf.symm⟩

theorem pageRemove_cells {q : List PageId} (h : ResidentInv s) (hq : q.Nodup)
    (ht : ∀ mem ∈ q, ∃ c, cell s mem = some c) :
    ∃ t, q.foldlM (fun s mem =>
        if start ≤ (s.page mem).offset ∧ (s.page mem).offset < endAddr then pageResult (vmPageFree s mem)
        else Except.ok s) s = .ok t ∧
      ResidentInv t ∧ SameObjects s t ∧
      ∀ mem c, cell t mem = some c ↔ cell s mem = some c ∧ ¬(mem ∈ q ∧ InRemoved start endAddr c.2.1) := by
  induction q generalizing s with
  | nil => exact ⟨s, rfl, h, .refl s, fun mem c => by simp⟩
  | cons mem q ih =>
    obtain ⟨hnot, hq⟩ := List.nodup_cons.mp hq
    obtain ⟨c₀, hc₀⟩ := ht mem List.mem_cons_self
    obtain ⟨htab, hoff⟩ := cell_page hc₀
    -- the turn for the first page
    obtain ⟨u, hu, hres, hsame, hcell⟩ : ∃ u,
        (if start ≤ (s.page mem).offset ∧ (s.page mem).offset < endAddr then pageResult (vmPageFree s mem)
          else Except.ok s) = .ok u ∧ ResidentInv u ∧ SameObjects s u ∧
        ∀ v c, cell u v = some c ↔ cell s v = some c ∧ ¬(v = mem ∧ InRemoved start endAddr c.2.1) := by
      by_cases hin : start ≤ (s.page mem).offset ∧ (s.page mem).offset < endAddr
      · obtain ⟨u, hu⟩ := vmPageFree_tabled h htab
        obtain ⟨hsame, hcell⟩ := vmPageFree_cell h hu
        refine ⟨u, by rw [if_pos hin, hu]; rfl, vmPageFree_resident h hu, hsame, fun v c => ?_⟩
        rw [hcell]
        by_cases hv : v = mem
        · subst hv
          rw [Function.update_self]
          refine ⟨fun hc => absurd hc (by simp), fun hc => absurd ⟨rfl, ?_⟩ hc.2⟩
          rw [InRemoved, (cell_page hc.1).2]
          exact hin
        · rw [Function.update_of_ne hv]
          exact ⟨fun hc => ⟨hc, fun hh => hv hh.1⟩, fun hc => hc.1⟩
      · refine ⟨s, if_neg hin, h, .refl s, fun v c => ⟨fun hc => ⟨hc, ?_⟩, fun hc => hc.1⟩⟩
        rintro ⟨rfl, hr⟩
        rw [InRemoved, (cell_page hc).2] at hr
        exact hin hr
    obtain ⟨t, het, hrt, hst, hct⟩ := ih hres hq fun v hv => by
      obtain ⟨c, hc⟩ := ht v (List.mem_cons_of_mem _ hv)
      refine ⟨c, (hcell v c).mpr ⟨hc, ?_⟩⟩
      rintro ⟨rfl, -⟩
      exact hnot hv
    refine ⟨t, ?_, hrt, hsame.trans hst, fun v c => ?_⟩
    · rw [List.foldlM_cons, hu]
      exact het
    · rw [hct, hcell, List.mem_cons]
      tauto

theorem vmObjectPageRemove_cells (h : ResidentInv s) (ht : vmObjectPageRemove s (some o) start endAddr = .ok t) :
    ResidentInv t ∧ SameObjects s t ∧ ∀ mem x off a d, cell t mem = some (x, off, a, d) ↔
      cell s mem = some (x, off, a, d) ∧ ¬(x = o ∧ InRemoved start endAddr off) := by
  obtain ⟨t', ht', hr, hs, hc⟩ := @pageRemove_cells s start endAddr _ h (h.table.memq o).nodup fun mem hm => by
    obtain ⟨off, a, d, hc⟩ := (mem_memq_iff_cell h.table).mp hm
    exact ⟨_, hc⟩
  cases Except.ok.inj (ht.symm.trans ht')
  refine ⟨hr, hs, fun mem x off a d => ?_⟩
  rw [hc]
  refine and_congr_right fun hcell => not_congr (and_congr_left fun _ => ?_)
  rw [mem_memq_iff_cell h.table]
  constructor
  · rintro ⟨off', a', d', hc'⟩
    exact congrArg Prod.fst (Option.some.inj (hcell.symm.trans hc'))
  · rintro rfl
    exact ⟨_, _, _, hcell⟩

/-! ### The extended object -/

/-- Zero is what the object gives at an offset: it has no page there, no pager and no shadow. -/
structure ZeroFill (s : VmState) (o : ObjId) (off : VmOffset) : Prop where
  page : vmPageLookup s o off = none
  pager : (s.object o).pager = none
  shadow : (s.object o).shadow = none

/-- The offsets of a region, which may go over the end of what 32 bits hold. -/
def OffsetIn (first size : Nat) (off : VmOffset) : Prop := first ≤ off.toNat ∧ off.toNat < first + size

/-- What a successful `vm_object_coalesce` is to leave behind. -/
structure Coalesced (s : VmState) (o : ObjId) (prevOffset : VmOffset) (prevSize nextSize : VmSize) (t : VmState) :
    Prop where
  fresh : ∀ off, OffsetIn (prevOffset.toNat + prevSize.toNat) nextSize.toNat off → ZeroFill t o off
  inside : prevOffset.toNat + prevSize.toNat + nextSize.toNat ≤ (t.object o).size.toNat
  kept : ∀ off d, OffsetIn prevOffset.toNat prevSize.toNat off → (Content t o off d ↔ Content s o off d)

theorem content_bare (hp : (s.object o).pager = none) (hs : (s.object o).shadow = none) :
    Content s o off d ↔ (residentData s o off).getD zeroPage = d := by
  have hown : ownData s o off = residentData s o off := by
    rw [ownData, hp]
    cases residentData s o off <;> rfl
  constructor
  · intro h
    cases h with
    | own ho => rw [← hown, ho]; rfl
    | deeper _ hs' => rw [hs] at hs'; cases hs'
    | zero hn => rw [← hown, hn]; rfl
  · intro h
    cases hr : residentData s o off with
    | some e =>
      rw [hr] at h
      exact .own (by rw [hown, hr]; exact congrArg some h)
    | none =>
      rw [hr] at h
      cases h
      exact .zero (hown.trans hr) hs

variable {prevOffset : VmOffset} {prevSize nextSize : VmSize}

theorem coalesce_true (h : vmObjectCoalesce fuel s (some o) none prevOffset prevSize nextSize = .ok (t, true)) :
    ∃ u v, vmObjectCollapse fuel s o = .ok u ∧ (u.object o).pagerCreated = false ∧ (u.object o).shadow = none ∧
      vmObjectPageRemove u (some o) (prevOffset + prevSize) (prevOffset + prevSize + nextSize) = .ok v ∧
      t = v.modObject o fun x => { x with
        size := if x.size < prevOffset + prevSize + nextSize then prevOffset + prevSize + nextSize else x.size } := by
  simp only [vmObjectCoalesce] at h
  cases hu : vmObjectCollapse fuel s o with
  | error why => rw [hu] at h; cases h
  | ok u =>
    rw [hu] at h
    change (if (u.object o).refCount > 1 ∨ (u.object o).pagerCreated = true ∨ (u.object o).shadow ≠ none ∨
      (u.object o).copy ≠ none then Except.ok (u, false) else _) = _ at h
    split at h
    next => cases h
    next htest =>
      cases hv : vmObjectPageRemove u (some o) (prevOffset + prevSize) (prevOffset + prevSize + nextSize) with
      | error why => rw [hv] at h; cases h
      | ok v =>
        rw [hv] at h
        refine ⟨u, v, rfl, ?_, ?_, hv, ?_⟩
        · by_contra hc
          exact htest (.inr (.inl (by simpa using hc)))
        · by_contra hc
          exact htest (.inr (.inr (.inl hc)))
        · exact (congrArg Prod.fst (Except.ok.inj h)).symm

theorem coalesce_sums (hsum : prevOffset.toNat + prevSize.toNat + nextSize.toNat < 2 ^ 32) :
    (prevOffset + prevSize).toNat = prevOffset.toNat + prevSize.toNat ∧
      (prevOffset + prevSize + nextSize).toNat = prevOffset.toNat + prevSize.toNat + nextSize.toNat := by
  simp only [BitVec.toNat_add]
  omega

theorem coalesced_of_fits (h : CollapseInv s) (ha : (s.object o).alive = true) (hn : ShadowChain s o n)
    (hin : prevOffset.toNat + prevSize.toNat ≤ (s.object o).size.toNat)
    (hrun : vmObjectCoalesce fuel s (some o) none prevOffset prevSize nextSize = .ok (t, true))
    (hsum : prevOffset.toNat + prevSize.toNat + nextSize.toNat < 2 ^ 32) :
    Coalesced s o prevOffset prevSize nextSize t := by
  obtain ⟨u, v, hu, hcreated, hshadow, hv, rfl⟩ := coalesce_true hrun
  obtain ⟨hinv, halive, hsize, hcontent⟩ := vmObjectCollapse_ok h ha hn hu
  obtain ⟨h1, h2⟩ := coalesce_sums hsum
  have hpager : (u.object o).pager = none := by
    by_contra hc
    have := hinv.pager_created o halive hc
    rw [hcreated] at this
    cases this
  obtain ⟨hres, hsame, hcell⟩ := vmObjectPageRemove_cells hinv.resident hv
  generalize ht : (v.modObject o fun x => { x with
        size := if x.size < prevOffset + prevSize + nextSize then prevOffset + prevSize + nextSize else x.size }) = t
  have hobj : t.object o = { v.object o with
      size := if (v.object o).size < prevOffset + prevSize + nextSize then prevOffset + prevSize + nextSize
        else (v.object o).size } := by
    rw [← ht, modObject_object, if_pos rfl]
  have hvp : (v.object o).pager = none := (core_field VmObject.pager (fun _ => rfl) (hsame.core o)).trans hpager
  have hvs : (v.object o).shadow = none := (core_field VmObject.shadow (fun _ => rfl) (hsame.core o)).trans hshadow
  have htp : (t.object o).pager = none := by rw [hobj]; exact hvp
  have hts : (t.object o).shadow = none := by rw [hobj]; exact hvs
  have htres : ResidentInv t := ht ▸ hres.modObject fun _ => ⟨rfl, rfl⟩
  have htcell : ∀ mem off a d, cell t mem = some (o, off, a, d) ↔ cell u mem = some (o, off, a, d) ∧
      ¬InRemoved (prevOffset + prevSize) (prevOffset + prevSize + nextSize) off := by
    intro mem off a d
    rw [← ht, modObject_cell, hcell]
    simp
  have hremoved : ∀ off, InRemoved (prevOffset + prevSize) (prevOffset + prevSize + nextSize) off ↔
      OffsetIn (prevOffset.toNat + prevSize.toNat) nextSize.toNat off := by
    intro off
    rw [InRemoved, OffsetIn, BitVec.le_def, BitVec.lt_def, h1, h2]
  refine ⟨fun off hoff => ⟨?_, htp, hts⟩, ?_, fun off d hoff => ?_⟩
  · cases hl : vmPageLookup t o off with
    | none => rfl
    | some mem =>
      obtain ⟨a, d, hc⟩ := (lookup_iff_cell htres.table).mp hl
      exact absurd ((hremoved off).mpr hoff) ((htcell mem off a d).mp hc).2
  · rw [hobj]
    dsimp only
    split
    next => rw [h2]
    next hlt =>
      rw [BitVec.lt_def, h2] at hlt
      omega
  · have hresident : residentData t o off = residentData u o off := by
      refine residentData_congr hinv.resident.table htres.table fun mem a d => ?_
      rw [htcell, hremoved]
      exact ⟨fun hc => hc.1, fun hc => ⟨hc, fun hr => by
        obtain ⟨-, hlt⟩ := hoff
        exact absurd hr.1 (by omega)⟩⟩
    rw [content_bare htp hts, hresident, ← content_bare hpager hshadow]
    have hlt : off.toNat < (s.object o).size.toNat := Nat.lt_of_lt_of_le hoff.2 hin
    refine ⟨fun hd => ?_, hcontent off d hlt⟩
    obtain ⟨e, he⟩ := hn.content off
    cases (hcontent off e hlt he).unique hd
    exact he

/-- `vm_object_coalesce` answers true for regions that go over the end of what 32 bits hold, and just there it does not
do what it says. -/
theorem vmObjectCoalesce_right_iff (h : CollapseInv s) (ha : (s.object o).alive = true) (hn : ShadowChain s o n)
    (hin : prevOffset.toNat + prevSize.toNat ≤ (s.object o).size.toNat)
    (hrun : vmObjectCoalesce fuel s (some o) none prevOffset prevSize nextSize = .ok (t, true)) :
    Coalesced s o prevOffset prevSize nextSize t ↔
      prevOffset.toNat + prevSize.toNat + nextSize.toNat < 2 ^ 32 :=
  ⟨fun hc => Nat.lt_of_le_of_lt hc.inside (t.object o).size.isLt, coalesced_of_fits h ha hn hin hrun⟩

/-- The regions of the sample chain are extended by one page, the pages of the backing object being moved up first. -/
theorem chainState_extended : ∃ t,
    vmObjectCoalesce 3 (chainState false 4096 1 8192) (some 0) none 0 8192 4096 = .ok (t, true) ∧
      Coalesced (chainState false 4096 1 8192) 0 0 8192 4096 t := by
  have hrun : ((vmObjectCoalesce 3 (chainState false 4096 1 8192) (some 0) none 0 8192 4096).map
      Prod.snd).toOption = some true := by decide +kernel
  cases h : vmObjectCoalesce 3 (chainState false 4096 1 8192) (some 0) none 0 8192 4096 with
  | error why => rw [h] at hrun; cases hrun
  | ok r =>
    obtain ⟨t, b⟩ := r
    rw [h] at hrun
    cases Option.some.inj hrun
    obtain ⟨n, hn⟩ := chainState_chain (a := false) (f := 4096) (r := 1) (z := 8192) 0
    exact ⟨t, rfl, (vmObjectCoalesce_right_iff chainState_inv rfl hn (by decide) h).mpr (by decide)⟩

/-- An object of a little less than three gigabytes, of which one page near the end is still mapped, low in a map. -/
def longObject : VmState where
  object o := if o = 0 then { size := 3221221376 } else { alive := false, refCount := 0 }
  nextObject := 1

theorem longObject_inv : CollapseInv longObject := by
  have hmemq : ∀ o, (longObject.object o).memq = [] ∧ (longObject.object o).residentPageCount = 0 := by
    intro o
    by_cases ho : o = 0 <;> simp [longObject, ho]
  have hshadow : ∀ o, (longObject.object o).shadow = none ∧ (longObject.object o).pager = none := by
    intro o
    by_cases ho : o = 0 <;> simp [longObject, ho]
  have hlive : ∀ o, (longObject.object o).alive = true → o = 0 := by
    intro o ho
    by_contra hc
    simp [longObject, hc] at ho
  constructor
  case resident =>
    refine ⟨⟨?_, ?_, ?_, rfl, rfl, rfl, ?_, ?_, ?_⟩, ⟨?_, fun o => ?_, fun o => ?_, ?_, ?_⟩, ?_⟩
    case refine_8 =>
      rw [(hmemq o).1]
      simp [longObject, Mirror.mirrors_nil]
    case refine_9 => simp [hmemq o]
    all_goals simp [longObject, Mirror.mirrors_nil]
  case fresh =>
    intro o ho
    have : o ≠ 0 := Nat.ne_of_gt ho
    simp [longObject, this]
  case shadow_alive => exact fun x y _ hs => by rw [(hshadow x).1] at hs; cases hs
  case counted =>
    intro y hy
    obtain rfl := hlive y hy
    decide
  case contained => exact fun x y _ hs => by rw [(hshadow x).1] at hs; cases hs
  case pager_created => exact fun o _ hp => absurd (hshadow o).2 hp
  case no_absent => exact fun o _ _ _ mem off a d hc => by cases hc

/-- The page of the object is followed by a region that runs over the end of what the offsets of the object can tell.
The answer is true, and the object stays as long as it was. -/
theorem longObject_overrun : CollapseInv longObject ∧ ShadowChain longObject 0 0 ∧ ∃ t,
    vmObjectCoalesce 1 longObject (some 0) none 2952790016 4096 1342181376 = .ok (t, true) ∧
      (t.object 0).size = 3221221376 ∧ ¬Coalesced longObject 0 2952790016 4096 1342181376 t := by
  refine ⟨longObject_inv, .last rfl, _, rfl, rfl, fun hc => ?_⟩
  exact absurd hc.inside (by decide)

end MachVM
