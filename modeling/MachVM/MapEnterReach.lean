import MachVM.MapRange
import MachVM.MapEnterSteps

namespace MachVM

open Ring Align

variable {σ : Type} {S : Services σ} {k k' : Kernel σ} {i : MapId} {m n : VmMap}
  {l l₁ l₂ : List EntryId} {e : EntryId} {a c address offset mask : VmOffset} {size : VmSize}
  {object : Option ObjId} {cur max : VmProt} {inh : VmInherit} {anywhere needsCopy : Bool}
  {fuel : Nat} {kr : KernReturn}

/-- The place a search comes to: behind entries that end at or below the candidate it was
rounded up from. -/
structure Found (m : VmMap) (address : VmOffset) (size : VmSize) (mask : VmOffset) (e : EntryId)
    (a : VmOffset) (l₁ l₂ : List EntryId) (c : VmOffset) : Prop where
  rounded : a = roundUp c mask
  floor : floorAt m address ≤ c
  below : ∀ x ∈ l₁, (m.entry x).endAddr ≤ c
  origin : c = floorAt m address ∨ e ≠ header ∧ c = (m.entry e).endAddr
  room : HasRoom m (l₁ ++ l₂) address size mask ↔ c.toNat + mask.toNat < 2 ^ 32

/-- Where `enterPlace` puts a region: a place it was asked for, or the end of a search. -/
structure PlaceSpec (m : VmMap) (address : VmOffset) (size : VmSize) (mask : VmOffset)
    (anywhere : Bool) (e : EntryId) (a : VmOffset) (l₁ l₂ : List EntryId) : Prop where
  place : e = before header l₁
  fits : Fits m size a l₂
  fixed : anywhere = false → a = address ∧ Room m l₁ l₂ a size
  search : anywhere = true → ∃ c, Found m address size mask e a l₁ l₂ c

theorem enterPlace_spec {place : Except KernReturn (EntryId × VmOffset)} (h : MapInv m l)
    (hs : enterPlace fuel m address size mask anywhere = some (n, place)) :
    n = m.saveHint n.hint ∧ n.hint ∈ header :: l ∧
      ∀ e a, place = .ok (e, a) → ∃ l₁ l₂, l = l₁ ++ l₂ ∧
        PlaceSpec m address size mask anywhere e a l₁ l₂ := by
  cases anywhere with
  | true =>
    simp only [enterPlace, if_true] at hs
    obtain ⟨⟨n', first⟩, hf, hs⟩ := Option.bind_eq_some_iff.mp hs
    obtain ⟨hn, hmem, -, hstart⟩ := firstPossible_spec h hf
    cases first with
    | none =>
      cases Option.some.inj hs
      exact ⟨hn, hmem, by simp⟩
    | some st =>
      obtain ⟨e₀, c₀⟩ := st
      obtain ⟨r, hr, hs⟩ := Option.bind_eq_some_iff.mp hs
      obtain ⟨l₁, l₂, rfl, hst⟩ := hstart e₀ c₀ rfl
      have hc := firstPossible_candidate h hf e₀ c₀ rfl
      have hm : MapInv n' (l₁ ++ l₂) := hn ▸ h.saveHint hmem
      have hentry : n'.entry = m.entry := by rw [hn]; rfl
      obtain ⟨p, q, hend⟩ := findSpace_spec hm hst.place hr
      cases r with
      | none =>
        cases Option.some.inj hs
        exact ⟨hn, hmem, by simp⟩
      | some pl =>
        cases Option.some.inj hs
        refine ⟨hn, hmem, ?_⟩
        intro e a hpl
        cases hpl
        have hsplit := hend.split
        subst hsplit
        obtain ⟨he, ha, hfit⟩ := hend.fits _ _ rfl
        have hfits : Fits m size a q := by
          obtain ⟨h₁, h₂⟩ := hfit
          rw [VmMap.maxOffset, hentry] at h₁
          rw [hentry] at h₂
          exact ⟨h₁, h₂⟩
        -- the search ran on the map with the hint saved, which is the same to it
        have hpass : Passed m size mask c₀ p := hend.passed.congr hentry.symm
        rw [candidate_congr hentry] at ha
        refine ⟨l₁ ++ p, q, by simp, he, hfits, by simp, fun _ => ⟨candidate m c₀ p, ha, ?_, ?_, ?_, ?_⟩⟩
        · exact BitVec.le_trans hst.floor (hst.candidate_between h).1
        · exact (hst.candidate_between h).2.1
        · rw [he]
          exact hst.candidate_origin h
        · rw [List.append_assoc]
          exact hasRoom_iff h hst hc hpass (ha ▸ hfits)
  | false =>
    simp only [enterPlace, Bool.false_eq_true, if_false] at hs
    split at hs
    next =>
      cases Option.some.inj hs
      exact ⟨rfl, h.hint_mem, by simp⟩
    next hb =>
      rw [not_or, not_or, BitVec.not_lt, BitVec.not_lt, BitVec.not_le] at hb
      obtain ⟨⟨n', found, e⟩, hl, hs⟩ := Option.bind_eq_some_iff.mp hs
      have hsp := vmMapLookupEntry_spec h hl
      cases found with
      | true =>
        cases Option.some.inj hs
        exact ⟨hsp.map_eq, hsp.hint_mem, by simp⟩
      | false =>
        obtain ⟨-, l₁, l₂, rfl, he, hbelow, habove⟩ := hsp.miss rfl
        simp only [Bool.false_eq_true, if_false] at hs
        split at hs
        next =>
          cases Option.some.inj hs
          exact ⟨hsp.map_eq, hsp.hint_mem, by simp⟩
        next hno =>
          cases Option.some.inj hs
          refine ⟨hsp.map_eq, hsp.hint_mem, ?_⟩
          intro e' a hpl
          cases hpl
          have hnext : n.next e = after l₂ header := by
            rw [hsp.map_eq, he]
            exact h.cut.1
          have hlt := BitVec.lt_def.mp hb.2.2
          have hadd : (address + size).toNat = address.toNat + size.toNat := by
            have h₁ := address.isLt
            have h₂ := size.isLt
            rw [BitVec.toNat_add] at hlt ⊢
            omega
          have hfits : Fits m size address l₂ := by
            refine ⟨hadd ▸ BitVec.le_def.mp hb.2.1, ?_⟩
            cases l₂ with
            | nil => simp
            | cons y q =>
              rw [hnext, after_cons, hsp.entry_eq] at hno
              have hy : address + size ≤ (m.entry y).start :=
                BitVec.not_lt.mp fun hlt => hno ⟨h.ne_header (by simp), hlt⟩
              rw [BitVec.le_def, hadd] at hy
              intro x hx
              rcases List.mem_cons.mp hx with rfl | hx
              · exact hy
              · have h₁ := h.sorted_after hx
                have h₂ := h.span_le (e := y) (by simp)
                omega
          refine ⟨l₁, l₂, rfl, he, hfits, fun _ => ⟨rfl, ?_, hb.1, hbelow, hfits⟩, by simp⟩
          rw [BitVec.lt_def]
          change 0 < size.toNat
          omega

theorem linkNewEntry_next (m : VmMap) (prev : EntryId) (fill : VmMapEntry → VmMapEntry) :
    (linkNewEntry m prev fill).next =
      Function.update (Function.update m.next m.freshEntry (m.next prev)) prev m.freshEntry := by
  simp only [linkNewEntry]
  split <;> rfl

theorem linkNewEntry_prev (m : VmMap) (prev : EntryId) (fill : VmMapEntry → VmMapEntry) :
    (linkNewEntry m prev fill).prev =
      Function.update (Function.update m.prev m.freshEntry prev) (m.next prev) m.freshEntry := by
  simp only [linkNewEntry]
  split <;> rfl

theorem linkNewEntry_linked (fill : VmMapEntry → VmMapEntry) (h : MapInv m (l₁ ++ l₂)) :
    Linked (linkNewEntry m (before header l₁) fill).next (linkNewEntry m (before header l₁) fill).prev
      header (l₁ ++ m.freshEntry :: l₂) := by
  have hr := h.ring.insert h.fresh_not_mem
  rw [← h.cut.1] at hr
  rwa [linkNewEntry_next, linkNewEntry_prev]

theorem linkNewEntry_disorder (fill : VmMapEntry → VmMapEntry) (h : MapInv m (l₁ ++ l₂))
    (he : e = before header l₁) (hne : e ≠ header) (hf : ∀ x, (fill x).start = a)
    (hlt : a < (m.entry e).endAddr) :
    ¬ WellFormed ((linkNewEntry m e fill).saveHint m.freshEntry) := by
  rintro ⟨l', hl'⟩
  obtain ⟨p, rfl⟩ := before_eq_mem he hne
  have hnew : m.freshEntry ≠ e := fun hc => h.fresh_not_mem (hc ▸ by simp)
  have hlinked := linkNewEntry_linked fill h
  rw [← he] at hlinked
  obtain ⟨j, hj⟩ := hlinked.exists_iterate (x := e) (by simp)
  have hmem := hl'.onMap_iff.mp ⟨hne, j, hj⟩
  have hnext : ((linkNewEntry m e fill).saveHint m.freshEntry).next e = m.freshEntry := by
    change (linkNewEntry m e fill).next e = _
    rw [linkNewEntry_next, Function.update_self]
  have hfresh : m.freshEntry ≠ header := fun hc => h.fresh_not_mem (hc ▸ by simp)
  have hle := hl'.end_le_next hmem (hnext ▸ hfresh)
  rw [hnext] at hle
  change ((linkNewEntry m e fill).entry e).endAddr ≤ ((linkNewEntry m e fill).entry m.freshEntry).start at hle
  rw [linkNewEntry_entry, setEntry_entry_of_ne _ _ hnew.symm, setEntry_entry_self, hf] at hle
  rw [BitVec.le_def] at hle
  rw [BitVec.lt_def] at hlt
  omega

theorem enteredEntry_granted (old : VmMapEntry) (x : VmOffset) :
    Granted m object offset a cur max inh x
      ((enteredEntry old object offset a c needsCopy cur max inh).mapping x) :=
  ⟨rfl, rfl, rfl, rfl, rfl, .inl ⟨rfl, rfl⟩⟩

theorem extendable_granted (h : MapInv m l) (he : e ∈ l)
    (hx : extendable m e a inh cur max = true) (x : VmOffset) :
    Granted m none offset a cur max inh x ((m.entry e).mapping x) := by
  simp only [extendable, Bool.and_eq_true, decide_eq_true_eq, Bool.not_eq_true'] at hx
  obtain ⟨⟨⟨⟨⟨⟨⟨-, hend⟩, hmap⟩, hsub⟩, hinh⟩, hprot⟩, hmax⟩, -⟩ := hx
  exact ⟨hmap, hsub, hprot, hmax, hinh, .inr ⟨rfl, e, h.onMap_iff.mpr he, hend, rfl, rfl⟩⟩

/-- Everything but the two fields a failed call may touch. -/
def Unchanged (m n : VmMap) : Prop := n = { m with hint := n.hint, timestamp := n.timestamp }

theorem enterAt_spec {needs : Bool} (h : MapInv m l)
    (hp : PlaceSpec m address size mask anywhere e a l₁ l₂) (hl : l = l₁ ++ l₂) {extended : Bool}
    (hmay : extended = true → object = none ∧ extendable m e a inh cur max = true)
    (hn : n = if extended then extendEntry m e (a + size)
      else (linkNewEntry m e fun old =>
        enteredEntry old object offset a (a + size) needs cur max inh).saveHint m.freshEntry)
    (hmask : anywhere = false → address &&& mask = 0) :
    Placed m n address a size mask anywhere object offset cur max inh ↔
      (anywhere = true → 0 < size ∧ HasRoom m l address size mask) := by
  subst hl
  have hroom : Room m l₁ l₂ a size → a &&& mask = 0 → (if anywhere then address ≤ a else a = address) →
      Placed m n address a size mask anywhere object offset cur max inh := by
    intro hr ha hplace
    cases extended with
    | true =>
      have hx := hmay rfl
      obtain ⟨hne, hend⟩ := extendable_true hx.2
      obtain ⟨p, rfl⟩ := before_eq_mem hp.place hne
      have h' : MapInv m (p ++ e :: l₂) := by simpa using h
      rw [if_pos rfl] at hn
      rw [hn, hx.1]
      exact hr.placed h (fun x _ => extendable_granted h (by simp) hx.2 x)
        (extendEntry_adds h' hend hr) ⟨_, extendEntry_inv h' hend hr⟩ ha hplace
    | false =>
      rw [if_neg (by simp), hp.place] at hn
      have hinv := linkNewEntry_inv (fun old =>
        enteredEntry old object offset a (a + size) needs cur max inh) h hr fun _ => ⟨rfl, rfl⟩
      have hinv' := hinv.saveHint (e := m.freshEntry) (by simp)
      rw [← hn] at hinv'
      refine hr.placed h (fun x _ => enteredEntry_granted _ x)
        (linkNewEntry_adds (fun old =>
          enteredEntry old object offset a (a + size) needs cur max inh) h hr
          (fun _ => ⟨rfl, rfl⟩) hinv' ?_) ⟨_, hinv'⟩ ha hplace
      rw [hn]
      exact linkNewEntry_entry _ _ _
  cases anywhere with
  | false =>
    obtain ⟨ha, hr⟩ := hp.fixed rfl
    exact iff_of_true (hroom hr (ha ▸ hmask rfl) (by simpa using ha)) (by simp)
  | true =>
    obtain ⟨c, hf⟩ := hp.search rfl
    constructor
    · intro hplaced _
      refine ⟨hplaced.size_pos, hf.room.mpr (Nat.lt_of_not_le fun hw => ?_)⟩
      have hlt : a < c := hf.rounded ▸ roundUp_lt hw
      have hfloor : floorAt m address ≤ a := by
        have h₁ : address ≤ a := by simpa using hplaced.place
        have h₂ := hplaced.low
        rw [floorAt]
        split <;> assumption
      rcases hf.origin with hco | ⟨hne, hco⟩
      · rw [← hco, BitVec.le_def] at hfloor
        rw [BitVec.lt_def] at hlt
        omega
      · cases extended with
        | true =>
          have hx := hmay rfl
          rw [hco, (extendable_true hx.2).2] at hlt
          exact absurd hlt (BitVec.lt_irrefl a)
        | false =>
          rw [if_neg (by simp)] at hn
          have hord := hplaced.ordered
          rw [hn] at hord
          exact linkNewEntry_disorder _ h hp.place hne (fun _ => rfl) (hco ▸ hlt) hord
    · intro hr
      obtain ⟨hpos, hr⟩ := hr rfl
      have hw := le_roundUp (hf.room.mp hr)
      rw [← hf.rounded] at hw
      have hle := BitVec.le_trans hf.floor hw
      refine hroom ⟨hpos, BitVec.le_trans (min_le_floorAt m address) hle,
        fun x hx => BitVec.le_trans (hf.below x hx) hw, hp.fits⟩ ?_ ?_
      · rw [hf.rounded]
        exact and_roundUp
      · simpa using BitVec.le_trans (le_floorAt m address) hle

theorem PlaceSpec.touched (h : PlaceSpec m address size mask anywhere e a l₁ l₂) (x : EntryId) (v : Nat) :
    PlaceSpec { m with hint := x, timestamp := v } address size mask anywhere e a l₁ l₂ := by
  refine ⟨h.place, ⟨h.fits.high, h.fits.front⟩, ?_, ?_⟩
  · intro hf
    obtain ⟨ha, hr⟩ := h.fixed hf
    exact ⟨ha, hr.pos, hr.low, hr.below, hr.fits.high, hr.fits.front⟩
  · intro hf
    obtain ⟨c, hc⟩ := h.search hf
    exact ⟨c, hc.rounded, hc.floor, hc.below, hc.origin, hc.room⟩

theorem Placed.untouched {x : EntryId} {v : Nat}
    (h : Placed { m with hint := x, timestamp := v } n address a size mask anywhere object offset cur max inh) :
    Placed m n address a size mask anywhere object offset cur max inh := by
  refine ⟨h.size_pos, h.aligned, h.place, h.low, h.high, h.free, ?_, h.others, h.ordered⟩
  intro x hx
  obtain ⟨ht, hall⟩ := h.mapped x hx
  refine ⟨ht, fun t ht => ?_⟩
  obtain ⟨h₁, h₂, h₃, h₄, h₅, h₆⟩ := hall t ht
  exact ⟨h₁, h₂, h₃, h₄, h₅, h₆⟩

theorem Placed.touched (h : Placed m n address a size mask anywhere object offset cur max inh)
    (x : EntryId) (v : Nat) :
    Placed { m with hint := x, timestamp := v } n address a size mask anywhere object offset cur max inh :=
  Placed.untouched (x := m.hint) (v := m.timestamp) h

theorem enterPlace_error {why : KernReturn}
    (hs : enterPlace fuel m address size mask anywhere = some (n, .error why)) : why ≠ .success := by
  rw [enterPlace] at hs
  split at hs
  next =>
    obtain ⟨⟨n', first⟩, -, hs⟩ := Option.bind_eq_some_iff.mp hs
    cases first with
    | none =>
      cases Option.some.inj hs
      simp
    | some st =>
      obtain ⟨r, -, hs⟩ := Option.bind_eq_some_iff.mp hs
      cases r with
      | none =>
        cases Option.some.inj hs
        simp
      | some p => cases Option.some.inj hs
  next =>
    simp only at hs
    split at hs
    next =>
      cases Option.some.inj hs
      simp
    next =>
      obtain ⟨⟨n', found, e⟩, -, hs⟩ := Option.bind_eq_some_iff.mp hs
      simp only at hs
      split at hs
      next =>
        cases Option.some.inj hs
        simp
      next =>
        split at hs
        next =>
          cases Option.some.inj hs
          simp
        next => cases Option.some.inj hs

/-- The map of a call that found a place, with the place. -/
structure EnterFound (m n : VmMap) (l : List EntryId) (address a : VmOffset) (size : VmSize)
    (mask : VmOffset) (anywhere : Bool) (object : Option ObjId) (cur max : VmProt) (inh : VmInherit)
    (e : EntryId) (extended : Bool) : Prop where
  unchanged : Unchanged m n
  hint_mem : n.hint ∈ header :: l
  place : ∃ l₁ l₂, l = l₁ ++ l₂ ∧ PlaceSpec n address size mask anywhere e a l₁ l₂
  may : extended = true → object = none ∧ extendable n e a inh cur max = true
  masked : anywhere = false → address &&& mask = 0

theorem vmMapEnter_cases (h : MapInv (k.map i) l)
    (hs : vmMapEnter S fuel k i address size mask anywhere object offset needsCopy cur max inh =
      some (k', a, kr)) :
    (kr ≠ .success ∧ Unchanged (k.map i) (k'.map i) ∧ (k'.map i).hint ∈ header :: l) ∨
      (kr = .success ∧ ∃ n e extended,
        EnterFound (k.map i) n l address a size mask anywhere object cur max inh e extended ∧
        k'.map i = if extended then extendEntry n e (a + size)
          else (linkNewEntry n e fun old =>
            enteredEntry old object offset a (a + size) needsCopy cur max inh).saveHint n.freshEntry) := by
  rw [vmMapEnter] at hs
  split at hs
  next =>
    cases Option.some.inj hs
    exact .inl ⟨by simp, rfl, h.hint_mem⟩
  next hmask =>
    obtain ⟨⟨m, place⟩, hp, hs⟩ := Option.bind_eq_some_iff.mp hs
    rw [lockMap, setMap_map_self] at hp
    obtain ⟨hm, hmem, hplace⟩ := enterPlace_spec h.lock hp
    cases place with
    | error why =>
      have hwhy := enterPlace_error hp
      cases Option.some.inj hs
      refine .inl ⟨hwhy, ?_, ?_⟩
      · rw [setMap_map_self, hm]
        rfl
      · rwa [setMap_map_self]
    | ok p =>
      obtain ⟨e, start⟩ := p
      obtain ⟨l₁, l₂, hl, hspec⟩ := hplace e start rfl
      obtain ⟨⟨k₁, extended⟩, hc, hs⟩ := Option.bind_eq_some_iff.mp hs
      obtain ⟨-, hmay⟩ := coalesceEntry_map hc
      have hspec' : PlaceSpec m address size mask anywhere e start l₁ l₂ := by
        rw [hm]
        exact hspec.touched _ (vmMapLock (k.map i)).timestamp
      have hent : EnterFound (k.map i) m l address start size mask anywhere object cur max inh e extended := by
        refine ⟨by rw [hm]; rfl, hmem, ⟨l₁, l₂, hl, hspec'⟩, ?_, ?_⟩
        · intro hx
          have := hmay hx
          rwa [Bool.and_eq_true, decide_eq_true_eq] at this
        · rintro rfl
          simpa using hmask
      simp only at hs
      cases extended with
      | true =>
        cases Option.some.inj hs
        exact .inr ⟨rfl, m, e, true, hent, by rw [setMap_map_self]; rfl⟩
      | false =>
        cases Option.some.inj hs
        exact .inr ⟨rfl, m, e, false, hent, by rw [setMap_map_self]; rfl⟩

theorem Unchanged.inv (hu : Unchanged m n) (h : MapInv m l) (hm : n.hint ∈ header :: l) : MapInv n l := by
  rw [hu]
  exact h.congr rfl rfl (fun _ _ => ⟨rfl, rfl⟩) rfl (Nat.le_refl _) hm h.free_mem

/-- A region that was entered is where and what it was asked to be exactly when, with
`anywhere`, its size is not 0 and one of the starts the search may try leaves room for it
rounded up without wrapping around; a call that fails leaves the map as it was. -/
theorem vmMapEnter_places (h : MapInv (k.map i) l)
    (hs : vmMapEnter S fuel k i address size mask anywhere object offset needsCopy cur max inh =
      some (k', a, kr)) :
    (kr = .success →
      (Placed (k.map i) (k'.map i) address a size mask anywhere object offset cur max inh ↔
        (anywhere = true → 0 < size ∧ HasRoom (k.map i) l address size mask))) ∧
      (kr ≠ .success → Unchanged (k.map i) (k'.map i)) := by
  rcases vmMapEnter_cases h hs with ⟨hkr, hu, -⟩ | ⟨rfl, n, e, extended, hent, hmap⟩
  · exact ⟨fun hc => absurd hc hkr, fun _ => hu⟩
  · refine ⟨fun _ => ?_, by simp⟩
    obtain ⟨l₁, l₂, hl, hp⟩ := hent.place
    have hu := hent.unchanged
    have hbase : Placed n (k'.map i) address a size mask anywhere object offset cur max inh ↔
        Placed (k.map i) (k'.map i) address a size mask anywhere object offset cur max inh := by
      rw [hu]
      exact ⟨fun hp => Placed.untouched hp, fun hp => hp.touched _ _⟩
    have hroom : HasRoom n l address size mask ↔ HasRoom (k.map i) l address size mask := by
      rw [hu]
      exact Iff.rfl
    rw [← hbase, ← hroom]
    exact enterAt_spec (hu.inv h hent.hint_mem) hp hl hent.may hmap hent.masked

/-- A new task map from 0 to 3 GB. -/
def userKernel : Kernel Nat :=
  emptyKernel.setMap 0 (vmMapCreate zoneMap (some 0) 0 0xC0000000 true)

/-- A map with a region on either side of a hole. -/
def holeKernel : Kernel Nat :=
  emptyKernel.setMap 0 (tableMap 0 0xC0000000 (some 0)
    [{ start := 0x1000, endAddr := 0x2000 }, { start := 0x5000, endAddr := 0x6000 }])

theorem holeKernel_inv : MapInv (holeKernel.map 0) [1, 2] := by
  rw [holeKernel, setMap_map_self]
  refine ⟨⟨?_, by decide⟩, rfl, by decide, by decide, by decide, by decide, by decide, by decide, by decide⟩
  simp only [Seg]
  decide

theorem holeKernel_room : HasRoom (holeKernel.map 0) [1, 2] 0x1800 0x2000 0xFFF := by
  refine ⟨0x2000, ?_, by decide, by decide, ?_⟩
  · exact List.mem_cons_self
  · decide

/-- An address in the region below the hole is asked for. -/
theorem holeKernel_places :
    ∃ k', vmMapEnter bareServices 3 holeKernel 0 0x1800 0x2000 0xFFF true (some 5) 0x3000 false
        protRead protDefault .copy = some (k', 0x2000, .success) ∧
      Placed (holeKernel.map 0) (k'.map 0) 0x1800 0x2000 0x2000 0xFFF true (some 5) 0x3000
        protRead protDefault .copy := by
  have hsome : ((vmMapEnter bareServices 3 holeKernel 0 0x1800 0x2000 0xFFF true (some 5) 0x3000 false
      protRead protDefault .copy).map fun r => r.2) = some (0x2000, .success) := by decide +kernel
  obtain ⟨⟨k', a, kr⟩, hk, hr⟩ := Option.map_eq_some_iff.mp hsome
  cases hr
  have hplaced := (vmMapEnter_places holeKernel_inv hk).1 rfl
  exact ⟨k', hk, hplaced.mpr fun _ => ⟨by decide, holeKernel_room⟩⟩

/-- A page at address 0 and a request above 2 GB with a mask of 2 GB: the start is rounded up
to 0, where the page is. And a region of size 0 anywhere is entered as an empty entry. -/
theorem roundedUp_misplaced :
    ∃ k k₁ k₂, MapReach bareServices 0 k ∧
      (vmMapEnter bareServices 4 k 0 0x80001000 0x1000 0x7FFFFFFF true none 0 false
          protDefault protAll .copy = some (k₁, 0, .success) ∧
        ¬ Placed (k.map 0) (k₁.map 0) 0x80001000 0 0x1000 0x7FFFFFFF true none 0 protDefault protAll .copy) ∧
      vmMapEnter bareServices 4 k 0 0x2000 0 0 true none 0 false
          protDefault protAll .share = some (k₂, 0x2000, .success) ∧
        ¬ Placed (k.map 0) (k₂.map 0) 0x2000 0x2000 0 0 true none 0 protDefault protAll .share := by
  have hsome : ((mapRun bareServices 4 userKernel 0 [.find none 0 0 0x1000 true]).bind fun k =>
      (vmMapEnter bareServices 4 k 0 0x80001000 0x1000 0x7FFFFFFF true none 0 false
          protDefault protAll .copy).bind fun r =>
        (vmMapEnter bareServices 4 k 0 0x2000 0 0 true none 0 false
          protDefault protAll .share).map fun r' => (r.2, r'.2)) =
      some ((0, .success), 0x2000, .success) := by decide +kernel
  obtain ⟨k, hk, hsome⟩ := Option.bind_eq_some_iff.mp hsome
  obtain ⟨⟨k₁, a₁, kr₁⟩, h₁, hsome⟩ := Option.bind_eq_some_iff.mp hsome
  obtain ⟨⟨k₂, a₂, kr₂⟩, h₂, hsome⟩ := Option.map_eq_some_iff.mp hsome
  cases hsome
  have hreach := mapRun_reach (.create emptyKernel zoneMap (some 0) 0 0xC0000000 true (by decide)) hk
  refine ⟨k, k₁, k₂, hreach, ⟨h₁, ?_⟩, h₂, ?_⟩
  · intro hp
    exact absurd hp.place (by decide)
  · intro hp
    exact absurd hp.size_pos (by decide)

end MachVM
