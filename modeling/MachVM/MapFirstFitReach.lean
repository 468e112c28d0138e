import MachVM.MapFirstFit

namespace MachVM

open Ring Align

variable {σ : Type} {S : Services σ} {k k' : Kernel σ} {i : MapId} {m n : VmMap}
  {l l₁ l₂ : List EntryId} {e x : EntryId} {a start endAddr : VmOffset} {size : VmSize}
  {fuel : Nat} {kr : KernReturn}

theorem FreeMap.deleteFree (h : FreeMap m (l₁ ++ l₂)) (hle : ∀ x ∈ l₁, (m.entry x).endAddr ≤ start) :
    FreeMap (deleteFree m start (after l₂ header)) (l₁ ++ l₂) := by
  rw [MachVM.deleteFree, h.cut.2]
  split
  next hst =>
    have hb := before_mem header l₁
    refine ⟨h.toPlainMap.withFree ?_, ?_⟩
    · simp only [List.mem_cons, List.mem_append] at hb ⊢
      tauto
    · intro hne a ha hlt
      have hy : before header l₁ ∈ l₁ := (List.mem_cons.mp hb).resolve_left hne
      have h₁ := BitVec.le_def.mp (hle _ hy)
      have h₂ := BitVec.lt_def.mp (show a < (m.entry (before header l₁)).endAddr from hlt)
      rw [BitVec.le_def] at hst
      by_cases hf : m.firstFree = header
      · -- the whole map is deleted, so that no entry lies in front
        rw [hf] at hst
        have h₃ := BitVec.le_def.mp (show m.minOffset ≤ a from ha)
        have h₄ : (m.entry header).start.toNat = m.minOffset.toNat := rfl
        omega
      · refine h.full hf a ha (BitVec.lt_def.mpr ?_)
        have := h.span_le ((List.mem_cons.mp h.free_mem).resolve_left hf)
        omega
  next => exact h

theorem linkNewEntry_firstFree (m : VmMap) (prev : EntryId) (fill : VmMapEntry → VmMapEntry)
    (hp : prev ≠ m.freshEntry) :
    (linkNewEntry m prev fill).firstFree =
      if m.firstFree = prev ∧ (fill (m.entry m.freshEntry)).start ≤ (m.entry prev).endAddr then
        m.freshEntry
      else m.firstFree := by
  have he : ((m.setEntry m.freshEntry (fill (m.entry m.freshEntry))).entry prev) = m.entry prev :=
    setEntry_entry_of_ne _ _ hp
  rw [← he]
  simp only [linkNewEntry]
  split
  next hc => exact (if_pos hc).symm
  next hc => exact (if_neg hc).symm

theorem linkNewEntry_full (fill : VmMapEntry → VmMapEntry) (h : FreeMap m (l₁ ++ l₂))
    (hs : ∀ x, (fill x).start = start)
    (hk : m.firstFree = header → l₁ = [] → start ≤ m.minOffset) :
    HintFull (linkNewEntry m (before header l₁) fill) (l₁ ++ m.freshEntry :: l₂) := by
  have hb := before_mem header l₁
  have hbm : before header l₁ ∈ header :: (l₁ ++ l₂) := by
    simp only [List.mem_cons, List.mem_append] at hb ⊢
    tauto
  have hne : ∀ x ∈ header :: (l₁ ++ l₂), x ≠ m.freshEntry := fun x hx hc => h.fresh_not_mem (hc ▸ hx)
  have hentry := linkNewEntry_entry m (before header l₁) fill
  have hnew : (linkNewEntry m (before header l₁) fill).entry m.freshEntry = fill (m.entry m.freshEntry) := by
    rw [hentry, setEntry_entry_self]
  have hold : ∀ x ∈ header :: (l₁ ++ l₂),
      (linkNewEntry m (before header l₁) fill).entry x = m.entry x := by
    intro x hx
    rw [hentry, setEntry_entry_of_ne _ _ (hne x hx)]
  have hmin : (linkNewEntry m (before header l₁) fill).minOffset = m.minOffset := by
    rw [VmMap.minOffset, hold header (by simp)]
    rfl
  have hcov : ∀ b, Covers m (l₁ ++ l₂) b →
      Covers (linkNewEntry m (before header l₁) fill) (l₁ ++ m.freshEntry :: l₂) b := by
    intro b hc
    refine hc.of_entry fun y hy => ⟨?_, hold y (List.mem_cons_of_mem _ hy)⟩
    simp only [List.mem_append, List.mem_cons] at hy ⊢
    tauto
  have hfree := linkNewEntry_firstFree m (before header l₁) fill (hne _ hbm)
  by_cases hc : m.firstFree = before header l₁ ∧
      (fill (m.entry m.freshEntry)).start ≤ (m.entry (before header l₁)).endAddr
  · rw [if_pos hc] at hfree
    intro _ b hmb hlt
    rw [hfree, hnew] at hlt
    rw [hmin] at hmb
    have hself : start ≤ b → Covers (linkNewEntry m (before header l₁) fill) (l₁ ++ m.freshEntry :: l₂) b :=
      fun hle => ⟨m.freshEntry, by simp, by rw [hnew]; exact ⟨hs _ ▸ hle, hlt⟩⟩
    by_cases hf : m.firstFree = header
    · have hnil : l₁ = [] := by
        cases l₁ with
        | nil => rfl
        | cons y p =>
          obtain ⟨p', hp'⟩ := eq_append_before y p
          have hm : before y p ∈ y :: p := before_mem y p
          refine absurd (hf.symm.trans hc.1).symm (h.ne_header ?_)
          rw [before_cons, List.mem_append]
          exact .inl hm
      exact hself (BitVec.le_trans (hk hf hnil) hmb)
    · by_cases hlt' : b < (m.entry m.firstFree).endAddr
      · exact hcov b (h.full hf b hmb hlt')
      · refine hself ?_
        have hle := hc.2
        rw [hs, ← hc.1] at hle
        exact BitVec.le_trans hle (BitVec.not_lt.mp hlt')
  · rw [if_neg hc] at hfree
    refine h.full.mono hmin hfree (fun hf => ?_) hcov
    rw [hold _ h.free_mem]
    exact BitVec.le_refl _

theorem HintFull.grow (h : HintFull m l) (hmin : n.minOffset = m.minOffset)
    (hf : n.firstFree = m.firstFree)
    (hend : m.firstFree ≠ header → m.firstFree ≠ e →
      (n.entry m.firstFree).endAddr ≤ (m.entry m.firstFree).endAddr)
    (he : e ∈ l₁) (hst : (n.entry e).start ≤ (m.entry e).endAddr)
    (hc : ∀ a, Covers m l a → Covers n l₁ a) : HintFull n l₁ := by
  intro hne a ha hlt
  rw [hf] at hne hlt
  rw [hmin] at ha
  by_cases hfe : m.firstFree = e
  · by_cases hlt' : a < (m.entry m.firstFree).endAddr
    · exact hc a (h hne a ha hlt')
    · rw [hfe] at hlt hlt'
      exact ⟨e, he, BitVec.le_trans hst (BitVec.not_lt.mp hlt'), hlt⟩
  · refine hc a (h hne a ha ?_)
    have := BitVec.le_def.mp (hend hne hfe)
    rw [BitVec.lt_def] at hlt ⊢
    omega

theorem extendEntry_full (h : FreeMap m (l₁ ++ e :: l₂)) (hle : (m.entry e).endAddr ≤ endAddr) :
    HintFull (extendEntry m e endAddr) (l₁ ++ e :: l₂) := by
  have he : e ∈ l₁ ++ e :: l₂ := by simp
  have hne : header ≠ e := (h.ne_header he).symm
  have hself : (extendEntry m e endAddr).entry e = { m.entry e with endAddr := endAddr } :=
    setEntry_entry_self _ _ _
  have hold : ∀ x, x ≠ e → (extendEntry m e endAddr).entry x = m.entry x := fun x hx =>
    setEntry_entry_of_ne _ _ hx
  have hsp := h.span_le he
  refine h.full.grow (e := e) ?_ rfl ?_ he ?_ ?_
  · rw [VmMap.minOffset, hold header hne]
    rfl
  · intro _ hfe
    rw [hold _ hfe]
    exact BitVec.le_refl _
  · rw [hself, BitVec.le_def]
    exact Nat.le_of_lt hsp
  · rintro b ⟨y, hy, hh⟩
    refine ⟨y, hy, ?_⟩
    by_cases hye : y = e
    · subst hye
      have h₁ := BitVec.lt_def.mp hh.2
      rw [BitVec.le_def] at hle
      rw [hself]
      exact ⟨hh.1, BitVec.lt_def.mpr (Nat.lt_of_lt_of_le h₁ hle)⟩
    · rwa [hold y hye]

theorem mergeEntry_full (h : FreeMap m (l₁ ++ x :: e :: l₂)) :
    HintFull (mergeEntry m x e) (l₁ ++ x :: l₂) := by
  have hx : x ∈ l₁ ++ x :: e :: l₂ := by simp
  have he : e ∈ l₁ ++ x :: e :: l₂ := by simp
  have hxe : x ≠ e := (h.ne_after (x := e) (by simp)).symm
  have hxh := h.ne_header hx
  have hsx := h.span_le hx
  have hse := h.span_le he
  have hle := h.sorted_after (e := x) (x := e) (by simp)
  have hself : (mergeEntry m x e).entry x = { m.entry x with endAddr := (m.entry e).endAddr } := by
    rw [mergeEntry_entry, if_pos rfl]
  have hold : ∀ y, y ≠ x → (mergeEntry m x e).entry y = m.entry y := by
    intro y hy
    rw [mergeEntry_entry, if_neg hy]
  have hfree : (mergeEntry m x e).firstFree = if m.firstFree = e then x else m.firstFree := by
    simp only [mergeEntry]
    split <;> rfl
  have hmin : (mergeEntry m x e).minOffset = m.minOffset := by
    rw [VmMap.minOffset, hold header hxh.symm]
    rfl
  -- the hint moves down to the entry that is about to grow
  have hdown : HintFull { m with firstFree := if m.firstFree = e then x else m.firstFree }
      (l₁ ++ x :: e :: l₂) := by
    intro hne b hb hlt
    by_cases hfe : m.firstFree = e
    · rw [if_pos hfe] at hlt
      refine h.full (hfe ▸ h.ne_header he) b hb ?_
      rw [hfe]
      have h₁ := BitVec.lt_def.mp (show b < (m.entry x).endAddr from hlt)
      rw [BitVec.lt_def]
      omega
    · rw [if_neg hfe] at hne hlt
      exact h.full hne b hb hlt
  refine hdown.grow (e := x) hmin hfree ?_ (by simp) ?_ ?_
  · intro _ hfx
    rw [hold _ hfx]
    exact BitVec.le_refl _
  · rw [hself, BitVec.le_def]
    exact Nat.le_of_lt hsx
  · rintro b ⟨y, hy, hh⟩
    have hh' : (m.entry y).Holds b := hh
    simp only [VmMapEntry.Holds, BitVec.le_def, BitVec.lt_def] at hh'
    by_cases hyx : y = x ∨ y = e
    · refine ⟨x, by simp, ?_⟩
      rw [hself]
      simp only [VmMapEntry.Holds, BitVec.le_def, BitVec.lt_def]
      rcases hyx with rfl | rfl <;> omega
    · rw [not_or] at hyx
      refine ⟨y, ?_, by rwa [hold y hyx.1]⟩
      simp only [List.mem_append, List.mem_cons] at hy ⊢
      tauto

/-- The calls on an address map, `vm_map_enter` among them. -/
inductive FitOp
  | call (op : MapOp)
  | enter (address : VmOffset) (size : VmSize) (mask : VmOffset) (anywhere : Bool)
      (object : Option ObjId) (offset : VmOffset) (needsCopy : Bool) (cur max : VmProt) (inh : VmInherit)

def fitStep (S : Services σ) (fuel : Nat) (k : Kernel σ) (i : MapId) : FitOp → Option (Kernel σ)
  | .call op => mapStep S fuel k i op
  | .enter address size mask anywhere object offset needsCopy cur max inh =>
    (vmMapEnter S fuel k i address size mask anywhere object offset needsCopy cur max inh).map (·.1)

/-- The lowest region a call may enter. -/
def opRegion (m : VmMap) : FitOp → Option (VmOffset × VmSize)
  | .call (.find _ _ addr length space) => some (if space then floorAt m addr else addr, length)
  | .enter address size mask anywhere .. =>
    if anywhere then some (roundUp (floorAt m address) mask, size)
    else if address &&& mask = 0 then some (address, size)
    else none
  | _ => none

/-- The free space hint is unset and the region lies above the start of the map, inside it and
below everything mapped. -/
structure OpensGap (m : VmMap) (start : VmOffset) (size : VmSize) : Prop where
  unset : m.firstFree = header
  above : m.minOffset < start
  pos : 0 < size
  high : start.toNat + size.toNat ≤ m.maxOffset.toNat
  front : ∀ x t, x.toNat < start.toNat + size.toNat → ¬ Maps m x t

/-- No region is entered with a gap in front of it while the hint is unset. -/
def HintKept (m : VmMap) (op : FitOp) : Prop :=
  ∀ start size, opRegion m op = some (start, size) → ¬ OpensGap m start size

theorem Gap.opens (hg : Gap m [] l start (start + size)) (hu : m.firstFree = header)
    (h : MapInv m l) (ha : m.minOffset < start) : OpensGap m start size := by
  have hsp := BitVec.lt_def.mp hg.span
  have hst := start.isLt
  have hsz := size.isLt
  have hend : (start + size).toNat = start.toNat + size.toNat := by
    rw [BitVec.toNat_add] at hsp ⊢
    omega
  refine ⟨hu, ha, ?_, hend ▸ BitVec.le_def.mp hg.high, ?_⟩
  · rw [BitVec.lt_def]
    change 0 < size.toNat
    omega
  · intro x t hx
    rw [h.maps_iff]
    rintro ⟨y, hy, ⟨hle, -⟩, -⟩
    have h₁ := BitVec.le_def.mp (hg.above y hy)
    rw [BitVec.le_def] at hle
    omega

theorem OpensGap.unchanged (h : OpensGap n start size) (hu : Unchanged m n) : OpensGap m start size := by
  rw [hu] at h
  exact ⟨h.unset, h.above, h.pos, h.high, h.front⟩

theorem InsertSpec.free {object : Option ObjId} {offset : VmOffset} (h : FreeMap m l)
    (hc : InsertSpec m l object offset start endAddr n kr)
    (hk : m.firstFree = header → Gap m [] l start endAddr → start ≤ m.minOffset) :
    ∃ l', FreeMap n l' := by
  cases hc with
  | refused => exact ⟨l, h⟩
  | extended hl hend hg =>
    subst hl
    refine ⟨_, extendEntry_plain h.toPlainMap hend hg, extendEntry_full h ?_⟩
    rw [hend]
    exact BitVec.le_of_lt hg.span
  | @linked l₁ l₂ hl hg =>
    subst hl
    refine ⟨_, linkNewEntry_plain h.toPlainMap hg fun x => newMapEntry_plain h.main x object offset, ?_⟩
    have hst : ∀ x, (newMapEntry m x object offset start endAddr).start = start := by
      intro x
      simp only [newMapEntry, h.main, if_true]
    refine linkNewEntry_full _ h hst ?_
    rintro hf rfl
    exact hk hf hg

theorem FreeMap.unchanged (h : FreeMap m l) (hu : Unchanged m n) (hm : n.hint ∈ header :: l) :
    FreeMap n l := by
  have hi := hu.inv h.toMapInv hm
  rw [hu] at hi ⊢
  exact ⟨⟨hi, h.main, h.plain⟩, h.full.congr rfl fun _ => ⟨rfl, rfl⟩⟩

theorem vmMapFind_free {object : Option ObjId} {offset addr : VmOffset} {length : VmSize}
    {space : Bool} (h : FreeMap (k.map i) l)
    (hk : HintKept (k.map i) (.call (.find object offset addr length space)))
    (hs : vmMapFind S fuel k i object offset addr length space = some (k', a, kr)) :
    ∃ l', FreeMap (k'.map i) l' := by
  cases space with
  | true =>
    obtain ⟨x, hx, n, rfl, hcase⟩ := vmMapFind_space h.toMapInv hs
    have hn : FreeMap ((vmMapLock (k.map i)).saveHint x) l := Steady.saveHint (Steady.lock h) hx
    rcases hcase with ⟨-, hmap, -⟩ | ⟨c, l₁, p, q, rfl, hsr, ha, hfit, hins⟩
    · exact ⟨l, hmap ▸ hn⟩
    · obtain ⟨y, hy, hspec⟩ := vmMapInsert_cases (by rw [setMap_map_self]; exact hn.toMapInv) hins
      rw [setMap_map_self] at hspec
      refine hspec.free (Steady.saveHint hn hy) fun hu hg => BitVec.not_lt.mp fun hlt => ?_
      -- nothing lies in front of the gap, so that the search has not left its floor
      obtain ⟨e, hst⟩ := hsr.start
      obtain ⟨-, hbelow, -⟩ := hst.candidate_between hn.toMapInv
      have hnil : l₁ ++ p = [] := by
        refine List.eq_nil_iff_forall_not_mem.mpr fun z hz => ?_
        have hz' : z ∈ l₁ ++ (p ++ q) := by
          rw [← List.append_assoc]
          exact List.mem_append_left _ hz
        have h₁ := BitVec.le_def.mp (hbelow z hz)
        have h₂ := BitVec.le_def.mp (hg.above z hz')
        have h₃ := hn.span_le hz'
        have h₄ := BitVec.lt_def.mp hg.span
        rw [← ha] at h₁
        change (a + length).toNat ≤ (((vmMapLock (k.map i)).saveHint x).entry z).start.toNat at h₂
        omega
      obtain ⟨rfl, rfl⟩ := List.append_eq_nil_iff.mp hnil
      have hfloor : a = floorAt (k.map i) addr := by
        rcases hst.origin with hc | ⟨hne, -⟩
        · rw [ha, candidate, hc]
          rfl
        · exact absurd hst.place hne
      refine hk a length ?_ ((hg.opens hu (Steady.saveHint hn hy).toMapInv hlt).unchanged rfl)
      rw [hfloor]
      rfl
  | false =>
    simp only [vmMapFind, Bool.false_eq_true, if_false] at hs
    obtain ⟨⟨k₁, kr'⟩, hins, hs⟩ := Option.bind_eq_some_iff.mp hs
    cases Option.some.inj hs
    have hn : FreeMap (vmMapLock (k.map i)) l := Steady.lock h
    obtain ⟨y, hy, hspec⟩ := vmMapInsert_cases (by rw [setMap_map_self]; exact hn.toMapInv) hins
    rw [setMap_map_self] at hspec
    refine hspec.free (Steady.saveHint hn hy) fun hu hg => BitVec.not_lt.mp fun hlt => ?_
    exact hk _ _ rfl ((hg.opens hu (Steady.saveHint hn hy).toMapInv hlt).unchanged rfl)

theorem PlaceSpec.opRegion {address mask offset : VmOffset} {anywhere needsCopy extended : Bool}
    {object : Option ObjId} {cur max : VmProt} {inh : VmInherit}
    (hp : PlaceSpec n address size mask anywhere e a l₁ l₂)
    (hent : EnterFound m n l address a size mask anywhere object cur max inh e extended) (hl : l₁ = []) :
    MachVM.opRegion m (.enter address size mask anywhere object offset needsCopy cur max inh) =
      some (a, size) := by
  cases anywhere with
  | true =>
    obtain ⟨c, hf⟩ := hp.search rfl
    have hc : c = floorAt m address := by
      rcases hf.origin with hc | ⟨hne, -⟩
      · rw [hc, hent.unchanged]
        rfl
      · exact absurd (by rw [hp.place, hl]; rfl) hne
    rw [hf.rounded, hc]
    rfl
  | false =>
    rw [(hp.fixed rfl).1]
    simp [MachVM.opRegion, hent.masked rfl]

theorem vmMapEnter_free {address mask offset : VmOffset} {anywhere needsCopy : Bool}
    {object : Option ObjId} {cur max : VmProt} {inh : VmInherit} (h : FreeMap (k.map i) l)
    (hk : HintKept (k.map i) (.enter address size mask anywhere object offset needsCopy cur max inh))
    (hw : WellFormed (k'.map i))
    (hs : vmMapEnter S fuel k i address size mask anywhere object offset needsCopy cur max inh =
      some (k', a, kr)) : ∃ l', FreeMap (k'.map i) l' := by
  rcases vmMapEnter_cases h.toMapInv hs with ⟨-, hu, hm⟩ | ⟨-, n, e, extended, hent, hmap⟩
  · exact ⟨l, h.unchanged hu hm⟩
  · have hn := h.unchanged hent.unchanged hent.hint_mem
    obtain ⟨l₁, l₂, rfl, hp⟩ := hent.place
    obtain ⟨l', hl'⟩ := hw
    cases extended with
    | true =>
      obtain ⟨hne, hend⟩ := extendable_true (hent.may rfl).2
      obtain ⟨p, rfl⟩ := before_eq_mem hp.place hne
      rw [if_pos rfl] at hmap
      rw [hmap] at hl' ⊢
      have hsame := hn.ring.unique hl'.ring
      subst hsame
      have he : e ∈ p ++ [e] ++ l₂ := by simp
      refine ⟨_, ⟨hl', hn.main, ?_⟩, ?_⟩
      · intro x hx
        have hpx := hn.plain x hx
        by_cases hxe : x = e
        · subst hxe
          change PlainEntry ((n.setEntry x { n.entry x with endAddr := a + size }).entry x)
          rw [setEntry_entry_self]
          exact hpx.congr rfl rfl rfl rfl
        · change PlainEntry ((n.setEntry e { n.entry e with endAddr := a + size }).entry x)
          rwa [setEntry_entry_of_ne _ _ hxe]
      · rw [List.append_assoc]
        refine extendEntry_full (by simpa using hn) ?_
        have hadd : (a + size).toNat = a.toNat + size.toNat :=
          BitVec.toNat_add_of_lt (Nat.lt_of_le_of_lt hp.fits.high n.maxOffset.isLt)
        rw [hend, BitVec.le_def, hadd]
        omega
    | false =>
      rw [if_neg (by simp)] at hmap
      rw [hmap] at hl' ⊢
      have hlinked := linkNewEntry_linked (fun old =>
        enteredEntry old object offset a (a + size) needsCopy cur max inh) hn.toMapInv
      rw [← hp.place] at hlinked
      have hsame := hlinked.unique hl'.ring
      subst hsame
      have hfresh : n.freshEntry ∈ l₁ ++ n.freshEntry :: l₂ := by simp
      have hentry := linkNewEntry_entry n e fun old =>
        enteredEntry old object offset a (a + size) needsCopy cur max inh
      refine ⟨_, ⟨hl', ?_, ?_⟩, ?_⟩
      · simp only [linkNewEntry]
        split <;> exact hn.main
      · intro x hx
        change PlainEntry ((linkNewEntry n e fun old =>
          enteredEntry old object offset a (a + size) needsCopy cur max inh).entry x)
        rw [hentry]
        by_cases hxf : x = n.freshEntry
        · subst hxf
          rw [setEntry_entry_self]
          refine ⟨rfl, rfl, ?_, by simp [enteredEntry]⟩
          cases object <;> simp [enteredEntry, MapObject.ofObject]
        · rw [setEntry_entry_of_ne _ _ hxf]
          refine hn.plain x ?_
          simp only [List.mem_append, List.mem_cons] at hx ⊢
          tauto
      · rw [hp.place]
        refine HintFull.congr (m := linkNewEntry n (before header l₁) fun old =>
          enteredEntry old object offset a (a + size) needsCopy cur max inh) ?_ rfl fun _ => ⟨rfl, rfl⟩
        refine linkNewEntry_full (fun old =>
          enteredEntry old object offset a (a + size) needsCopy cur max inh) hn (fun _ => rfl) ?_
        rintro hf rfl
        refine BitVec.not_lt.mp fun hlt => ?_
        have hspan := hl'.span _ hfresh
        change ((linkNewEntry n e fun old => enteredEntry old object offset a (a + size) needsCopy cur max
            inh).entry n.freshEntry).start < ((linkNewEntry n e fun old =>
            enteredEntry old object offset a (a + size) needsCopy cur max inh).entry n.freshEntry).endAddr at hspan
        rw [hentry, setEntry_entry_self] at hspan
        have hgap : OpensGap n a size := by
          refine ⟨hf, hlt, ?_, hp.fits.high, ?_⟩
          · have hadd : (a + size).toNat = a.toNat + size.toNat :=
              BitVec.toNat_add_of_lt (Nat.lt_of_le_of_lt hp.fits.high n.maxOffset.isLt)
            have := BitVec.lt_def.mp (show a < a + size from hspan)
            rw [BitVec.lt_def]
            change 0 < size.toNat
            omega
          · intro x t hx
            rw [hn.maps_iff]
            rintro ⟨y, hy, ⟨hle, -⟩, -⟩
            have := hp.fits.front y hy
            rw [BitVec.le_def] at hle
            omega
        exact hk a size (hp.opRegion hent rfl) (hgap.unchanged hent.unchanged)

theorem mapStep_free {op : MapOp} (h : FreeMap (k.map i) l) (hk : HintKept (k.map i) (.call op))
    (hs : mapStep S fuel k i op = some k') : ∃ l', FreeMap (k'.map i) l' := by
  cases op with
  | find o off addr len space =>
    obtain ⟨⟨k₁, addr', kr⟩, hf, rfl⟩ := Option.map_eq_some_iff.mp hs
    exact vmMapFind_free h hk hf
  | remove s e =>
    obtain ⟨⟨k₁, kr⟩, hr, rfl⟩ := Option.map_eq_some_iff.mp hs
    obtain ⟨k₂, hd, hr⟩ := Option.map_eq_some_iff.mp hr
    cases hr
    exact vmMapDelete_shrinks (lockMap_plain h) (fun m l₁ l₂ hm hle _ => hm.deleteFree hle) hd
  | protect s e p b =>
    obtain ⟨⟨k₁, kr⟩, hp, rfl⟩ := Option.map_eq_some_iff.mp hs
    exact vmMapProtect_plain h hp
  | inherit s e inh =>
    obtain ⟨⟨k₁, kr⟩, hp, rfl⟩ := Option.map_eq_some_iff.mp hs
    exact vmMapInherit_plain h hp
  | pageable s e b =>
    obtain ⟨⟨k₁, kr⟩, hp, rfl⟩ := Option.map_eq_some_iff.mp hs
    exact vmMapPageable_plain h hp
  | simplify s =>
    obtain ⟨n, -, hn, hm, hk | ⟨l₁, l₂, x, e, rfl, -, -, hk⟩⟩ := vmMapSimplify_cases h.toPlainMap hs
    · have hn' := h.unchanged (n := n) (by rw [hn]; rfl) hm
      exact ⟨l, hk ▸ hn'⟩
    · have hn' := h.unchanged (n := n) (by rw [hn]; rfl) hm
      rw [hk]
      exact ⟨_, mergeEntry_plain hn'.toPlainMap, mergeEntry_full hn'⟩
  | lookup va ft =>
    obtain ⟨⟨k₁, j, r⟩, hl, rfl⟩ := Option.map_eq_some_iff.mp hs
    exact ⟨l, (vmMapLookup_plain h hl).2⟩

/-- The kernels reached by calls on a new map that leave it well formed and enter nothing with a
gap in front of it while the free space hint is unset. -/
inductive FitReach (S : Services σ) (i : MapId) : Kernel σ → Prop
  | create (k : Kernel σ) (zone : VmMap) (pmap : Option PmapId) (min max : VmOffset) (pageable : Bool) :
      min < max → FitReach S i (k.setMap i (vmMapCreate zone pmap min max pageable))
  | call {k k' : Kernel σ} (fuel : Nat) (op : FitOp) : FitReach S i k → HintKept (k.map i) op →
      fitStep S fuel k i op = some k' → WellFormed (k'.map i) → FitReach S i k'
  | elsewhere {k k' : Kernel σ} : FitReach S i k → k'.map i = k.map i → FitReach S i k'

theorem fitReach_free (h : FitReach S i k) : ∃ l, FreeMap (k.map i) l := by
  induction h with
  | create k zone pmap min max pageable _ =>
    refine ⟨[], ?_⟩
    rw [setMap_map_self]
    exact ⟨vmMapCreate_plain zone pmap min max pageable, fun hne => absurd rfl hne⟩
  | call fuel op _ hk hs hw ih =>
    obtain ⟨l, hl⟩ := ih
    cases op with
    | call op => exact mapStep_free hl hk hs
    | enter address size mask anywhere object offset needsCopy cur max inh =>
      obtain ⟨⟨k₁, a, kr⟩, he, rfl⟩ := Option.map_eq_some_iff.mp hs
      exact vmMapEnter_free hl hk hw he
  | elsewhere _ he ih =>
    obtain ⟨l, hl⟩ := ih
    exact ⟨l, he ▸ hl⟩

/-- The free space hint never points past a free address. -/
def HintSound (m : VmMap) : Prop :=
  m.firstFree ≠ header → ∀ a, m.minOffset ≤ a → a < (m.entry m.firstFree).endAddr → ∃ t, Maps m a t

theorem FreeMap.sound (h : FreeMap m l) : HintSound m := by
  intro hne a ha hlt
  obtain ⟨e, he, hh⟩ := h.full hne a ha hlt
  exact ⟨_, h.maps_iff.mpr ⟨e, he, hh, rfl⟩⟩

/-- On every map reached, whatever was entered and removed before: the free space hint points
past no free address, a search for space gives the lowest region that is free or finds that there
is none, and it comes to an end. -/
theorem vmMapFind_first_fit (h : FitReach S i k) :
    HintSound (k.map i) ∧
      ∀ (object : Option ObjId) (offset addr : VmOffset) (length : VmSize), 0 < length →
        (∀ fuel k' a kr, vmMapFind S fuel k i object offset addr length true = some (k', a, kr) →
          FirstFit (k.map i) addr length a kr) ∧
        (Coalesces S → ∀ fuel : Nat, (k.map i).nentries < fuel →
          ∃ r, vmMapFind S fuel k i object offset addr length true = some r) := by
  obtain ⟨l, hl⟩ := fitReach_free h
  refine ⟨hl.sound, ?_⟩
  intro object offset addr length hlen
  refine ⟨fun fuel k' a kr hs => vmMapFind_firstFit hl hlen hs, fun hS fuel hf => ?_⟩
  refine vmMapFind_some hS hl.toMapInv ?_
  have := hl.count
  omega

theorem newMap_hintKept (k : Kernel σ) (zone : VmMap) (pmap : Option PmapId) (min max : VmOffset)
    (pageable : Bool) (object : Option ObjId) (offset : VmOffset) (length : VmSize) :
    HintKept ((k.setMap i (vmMapCreate zone pmap min max pageable)).map i)
      (.call (.find object offset min length true)) := by
  intro start size hr hg
  cases Option.some.inj hr
  have habove := hg.above
  simp [floorAt, VmMap.minOffset, vmMapCreate] at habove

theorem allocated_first_fit : ∃ k, FitReach bareServices 0 k ∧ (k.map 0).nentries = 1 ∧
    HintSound (k.map 0) ∧ ∀ fuel k' a kr,
      vmMapFind bareServices fuel k 0 none 0 0 0x1000 true = some (k', a, kr) →
        FirstFit (k.map 0) 0 0x1000 a kr := by
  have hsome : ((mapStep bareServices 3 (emptyKernel.setMap 0
      (vmMapCreate zoneMap (some 0) 0x1000 0x8000 true)) 0 (.find none 0 0x1000 0x2000 true)).map
        fun k => (k.map 0).nentries) = some 1 := by decide
  obtain ⟨k, hk, hn⟩ := Option.map_eq_some_iff.mp hsome
  have hnew := FitReach.create (S := bareServices) (i := 0) emptyKernel zoneMap (some 0) 0x1000 0x8000
    true (by decide)
  obtain ⟨l, hl⟩ := fitReach_free hnew
  have hkept : HintKept _ (.call (.find none 0 0x1000 0x2000 true)) :=
    newMap_hintKept (i := 0) emptyKernel zoneMap (some 0) 0x1000 0x8000 true none 0 0x2000
  obtain ⟨l', hl'⟩ := mapStep_free hl hkept hk
  have hreach := FitReach.call 3 (.call (.find none 0 0x1000 0x2000 true)) hnew hkept hk ⟨l', hl'.toMapInv⟩
  obtain ⟨hsound, hfit⟩ := vmMapFind_first_fit hreach
  exact ⟨k, hreach, hn, hsound, (hfit none 0 0 0x1000 (by decide)).1⟩

/-- A page entered at a fixed address of a new map, above its start: the first page entered
becomes the hint although the four pages in front of it are free, and the next search from the
start of the map does not look at them. -/
theorem hint_skips_free :
    ∃ k k', MapReach bareServices 0 k ∧ FreeAt (k.map 0) 0x1000 0x1000 ∧
      vmMapFind bareServices 4 k 0 none 0 0 0x1000 true = some (k', 0x6000, .success) ∧
      ¬ FirstFit (k.map 0) 0 0x1000 0x6000 .success ∧ ¬ HintSound (k.map 0) := by
  have hsome : ((mapRun bareServices 4
      (emptyKernel.setMap 0 (vmMapCreate zoneMap (some 0) 0x1000 0x8000 true)) 0
        [.find none 0 0x5000 0x1000 false]).bind fun k =>
      (vmMapFind bareServices 4 k 0 none 0 0 0x1000 true).map fun r =>
        (r.2, (k.map 0).nentries, [(k.map 0).next header, (k.map 0).firstFree],
          [(k.map 0).minOffset, (k.map 0).maxOffset, ((k.map 0).entry 1).start, ((k.map 0).entry 1).endAddr])) =
      some ((0x6000, .success), 1, [1, 1], [0x1000, 0x8000, 0x5000, 0x6000]) := by decide +kernel
  obtain ⟨k, hk, hsome⟩ := Option.bind_eq_some_iff.mp hsome
  obtain ⟨⟨k', a, kr⟩, hf, hsome⟩ := Option.map_eq_some_iff.mp hsome
  simp only [Prod.mk.injEq, List.cons.injEq, and_true] at hsome
  obtain ⟨⟨rfl, rfl⟩, hn, ⟨hnext, hfree⟩, hmin, hmax, hst, hend⟩ := hsome
  have hreach := mapRun_reach (.create emptyKernel zoneMap (some 0) 0x1000 0x8000 true (by decide)) hk
  obtain ⟨l, hl⟩ := mapReach_plain hreach
  have hlist : l = [1] := by
    have hlen := hl.count
    have hfirst : (k.map 0).next header = after l header := hl.order.next_header
    rw [hn] at hlen
    match l, hlen with
    | [x], _ =>
      rw [hnext] at hfirst
      rw [show x = 1 from hfirst.symm]
  subst hlist
  have hunmapped : ∀ x t, x < 0x5000#32 → ¬ Maps (k.map 0) x t := by
    intro x t hx
    rw [hl.maps_iff]
    rintro ⟨e, he, ⟨hle, -⟩, -⟩
    cases List.mem_singleton.mp he
    rw [hst] at hle
    exact BitVec.not_le.mpr hx hle
  have hat : FreeAt (k.map 0) 0x1000 0x1000 := by
    refine ⟨by rw [hmin]; decide, by rw [hmax]; decide, ?_⟩
    intro x t hx
    refine hunmapped x t (BitVec.lt_def.mpr ?_)
    have := hx.2
    change x.toNat < 0x2000 at this
    change x.toNat < 0x5000
    omega
  refine ⟨k, k', hreach, hat, hf, ?_, ?_⟩
  · rintro (⟨-, -, -, hleast⟩ | ⟨hkr, -⟩)
    · exact absurd (hleast 0x1000 (by decide) hat) (by decide)
    · cases hkr
  · intro hsound
    obtain ⟨t, ht⟩ := hsound (by rw [hfree]; decide) 0x1000 (by rw [hmin]; decide) (by
      rw [hfree, hend]
      decide)
    exact hunmapped _ t (by decide) ht

end MachVM
