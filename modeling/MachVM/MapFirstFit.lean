import MachVM.MapEnterReach

namespace MachVM

open Ring

variable {σ : Type} {S : Services σ} {k k' : Kernel σ} {i : MapId} {m n : VmMap}
  {l l₁ l₂ : List EntryId} {e x : EntryId} {a start endAddr : VmOffset} {fuel : Nat}

/-- Some entry of the list holds an address. -/
def Covers (m : VmMap) (l : List EntryId) (a : VmOffset) : Prop := ∃ e ∈ l, (m.entry e).Holds a

/-- Nothing below the end of the entry named by the free space hint is free. -/
def HintFull (m : VmMap) (l : List EntryId) : Prop :=
  m.firstFree ≠ header → ∀ a, m.minOffset ≤ a → a < (m.entry m.firstFree).endAddr → Covers m l a

/-- A task map whose free space hint can be trusted. -/
structure FreeMap (m : VmMap) (l : List EntryId) : Prop extends PlainMap m l where
  full : HintFull m l

theorem HintFull.mono (h : HintFull m l) (hmin : n.minOffset = m.minOffset)
    (hf : n.firstFree = m.firstFree)
    (hend : m.firstFree ≠ header → (n.entry m.firstFree).endAddr ≤ (m.entry m.firstFree).endAddr)
    (hc : ∀ a, Covers m l a → Covers n l₁ a) : HintFull n l₁ := by
  intro hne a ha hlt
  rw [hf] at hne hlt
  rw [hmin] at ha
  refine hc a (h hne a ha ?_)
  have := BitVec.le_def.mp (hend hne)
  rw [BitVec.lt_def] at hlt ⊢
  omega

theorem Covers.of_entry (h : Covers m l a) (he : ∀ e ∈ l, e ∈ l₁ ∧ n.entry e = m.entry e) :
    Covers n l₁ a := by
  obtain ⟨e, hm, hh⟩ := h
  obtain ⟨hm', heq⟩ := he e hm
  exact ⟨e, hm', heq ▸ hh⟩

theorem HintFull.congr (h : HintFull m l) (hf : n.firstFree = m.firstFree)
    (he : ∀ e, (n.entry e).start = (m.entry e).start ∧ (n.entry e).endAddr = (m.entry e).endAddr) :
    HintFull n l := by
  refine h.mono (he header).1 hf (fun _ => by rw [(he _).2]; exact BitVec.le_refl _) ?_
  rintro a ⟨e, hm, hh⟩
  refine ⟨e, hm, ?_⟩
  rwa [VmMapEntry.Holds, (he e).1, (he e).2]

theorem setBody_entry {y : VmMapEntry} (hs : y.start = (m.entry e).start)
    (he : y.endAddr = (m.entry e).endAddr) (x : EntryId) :
    ((m.setEntry e y).entry x).start = (m.entry x).start ∧
      ((m.setEntry e y).entry x).endAddr = (m.entry x).endAddr := by
  by_cases hx : x = e
  · subst hx
    rw [setEntry_entry_self]
    exact ⟨hs, he⟩
  · rw [setEntry_entry_of_ne m y hx]
    exact ⟨rfl, rfl⟩

theorem clipFront_entry (h : MapInv m (l₁ ++ e :: l₂)) :
    (clipFront m e a).entry m.freshEntry = { m.entry e with endAddr := a } ∧
      ∀ x ∈ header :: (l₁ ++ e :: l₂), x ≠ e → (clipFront m e a).entry x = m.entry x := by
  have hnew := h.fresh_not_mem
  have hne : m.freshEntry ≠ e := fun hc => hnew (hc ▸ by simp)
  constructor
  · simp [clipFront, vmMapEntryLink, vmMapEntryCreate, VmMap.setEntry, hne]
  · intro x hx hxe
    have hxf : x ≠ m.freshEntry := fun hc => hnew (hc ▸ hx)
    simp [clipFront, vmMapEntryLink, vmMapEntryCreate, VmMap.setEntry, hxe, hxf]

theorem clipBack_entry (h : MapInv m (l₁ ++ e :: l₂)) :
    ((clipBack m e a).entry m.freshEntry).start = a ∧
      ((clipBack m e a).entry m.freshEntry).endAddr = (m.entry e).endAddr ∧
      ∀ x ∈ header :: (l₁ ++ e :: l₂), x ≠ e → (clipBack m e a).entry x = m.entry x := by
  have hnew := h.fresh_not_mem
  have hne : m.freshEntry ≠ e := fun hc => hnew (hc ▸ by simp)
  refine ⟨?_, ?_, ?_⟩
  · simp [clipBack, vmMapEntryLink, vmMapEntryCreate, VmMap.setEntry, hne]
  · simp [clipBack, vmMapEntryLink, vmMapEntryCreate, VmMap.setEntry, hne]
  · intro x hx hxe
    have hxf : x ≠ m.freshEntry := fun hc => hnew (hc ▸ hx)
    simp [clipBack, vmMapEntryLink, vmMapEntryCreate, VmMap.setEntry, hxe, hxf]

theorem covers_cut {p q : VmMapEntry} (hn : Covers m l a) (he : e ∈ l)
    (hp : e ∈ l₁ ∧ n.entry e = p) (hq : x ∈ l₁ ∧ n.entry x = q)
    (hcut : ∀ a, (m.entry e).Holds a → p.Holds a ∨ q.Holds a)
    (hold : ∀ y ∈ l, y ≠ e → y ∈ l₁ ∧ n.entry y = m.entry y) : Covers n l₁ a := by
  obtain ⟨y, hy, hh⟩ := hn
  by_cases hye : y = e
  · subst hye
    rcases hcut a hh with hh | hh
    · exact ⟨y, hp.1, hp.2 ▸ hh⟩
    · exact ⟨x, hq.1, hq.2 ▸ hh⟩
  · obtain ⟨hm, heq⟩ := hold y hy hye
    exact ⟨y, hm, heq ▸ hh⟩

theorem HintFull.clipFront (hi : MapInv m (l₁ ++ e :: l₂)) (h : HintFull m (l₁ ++ e :: l₂)) :
    HintFull (clipFront m e a) (l₁ ++ m.freshEntry :: e :: l₂) := by
  obtain ⟨hnew, hold⟩ := clipFront_entry (a := a) hi
  have hself := clipFront_entry_self m e a
  have hne := hi.ne_header (e := e) (by simp)
  refine h.mono (by rw [VmMap.minOffset, hold header (by simp) hne.symm]; rfl) rfl ?_ ?_
  · intro _
    by_cases hfe : m.firstFree = e
    · rw [hfe, hself]
      exact BitVec.le_refl _
    · rw [hold _ hi.free_mem hfe]
      exact BitVec.le_refl _
  · intro b hb
    refine covers_cut hb (by simp) ⟨by simp, hself⟩ ⟨by simp, hnew⟩ ?_ ?_
    · rintro c ⟨h₁, h₂⟩
      simp only [VmMapEntry.Holds, BitVec.le_def, BitVec.lt_def] at h₁ h₂ ⊢
      omega
    · intro y hy hye
      refine ⟨?_, hold y (List.mem_cons_of_mem _ hy) hye⟩
      simp only [List.mem_append, List.mem_cons] at hy ⊢
      tauto

theorem HintFull.clipBack (hi : MapInv m (l₁ ++ e :: l₂)) (h : HintFull m (l₁ ++ e :: l₂))
    (ha : a < (m.entry e).endAddr) :
    HintFull (clipBack m e a) (l₁ ++ e :: m.freshEntry :: l₂) := by
  obtain ⟨hst, hend, hold⟩ := clipBack_entry (a := a) hi
  have hself := clipBack_entry_self m e a
  have hne := hi.ne_header (e := e) (by simp)
  refine h.mono (by rw [VmMap.minOffset, hold header (by simp) hne.symm]; rfl) rfl ?_ ?_
  · intro _
    by_cases hfe : m.firstFree = e
    · rw [hfe, hself]
      exact BitVec.le_of_lt ha
    · rw [hold _ hi.free_mem hfe]
      exact BitVec.le_refl _
  · intro b hb
    refine covers_cut (x := m.freshEntry) hb (by simp) ⟨by simp, hself⟩ ⟨by simp, rfl⟩ ?_ ?_
    · rintro c ⟨h₁, h₂⟩
      simp only [VmMapEntry.Holds, hst, hend, BitVec.le_def, BitVec.lt_def] at h₁ h₂ ⊢
      omega
    · intro y hy hye
      refine ⟨?_, hold y (List.mem_cons_of_mem _ hy) hye⟩
      simp only [List.mem_append, List.mem_cons] at hy ⊢
      tauto

theorem FreeMap.full_before (h : FreeMap m (l₁ ++ l₂)) (hf : m.firstFree ∈ header :: l₁) :
    HintFull m l₁ := by
  intro hne a ha hlt
  obtain ⟨y, hy, hh⟩ := h.full hne a ha hlt
  rcases List.mem_append.mp hy with hl | hr
  · exact ⟨y, hl, hh⟩
  · have hf' : m.firstFree ∈ l₁ := (List.mem_cons.mp hf).resolve_left hne
    obtain ⟨p, q, rfl⟩ := List.append_of_mem hf'
    have h' : MapInv m (p ++ m.firstFree :: (q ++ l₂)) := by simpa using h.toMapInv
    have := h'.sorted_after (x := y) (by simp [hr])
    obtain ⟨hst, -⟩ := hh
    rw [BitVec.le_def] at hst
    rw [BitVec.lt_def] at hlt
    omega

instance : Shrinks FreeMap where
  plain h := h.toPlainMap
  lock h := ⟨h.toPlainMap.lock, h.full.congr rfl fun _ => ⟨rfl, rfl⟩⟩
  saveHint h he := ⟨h.toPlainMap.saveHint he, h.full.congr rfl fun _ => ⟨rfl, rfl⟩⟩
  setBody h hs he _ hp := ⟨h.toPlainMap.setBody hs he hp, h.full.congr rfl (setBody_entry hs he)⟩
  clipFront h hs ha := ⟨h.toPlainMap.clipFront hs ha, h.full.clipFront h.toMapInv⟩
  clipBack h hs ha := ⟨h.toPlainMap.clipBack hs ha, h.full.clipBack h.toMapInv ha⟩
  unlink {m l₁ l₂ e} size h hh hf := by
    refine ⟨Shrinks.unlink (P := PlainMap) size h.toPlainMap hh hf, ?_⟩
    refine (h.full_before hf).mono rfl rfl (fun _ => BitVec.le_refl _) ?_
    intro a ha
    exact ha.of_entry fun y hy => ⟨List.mem_append_left _ hy, rfl⟩

instance : Reprotects FreeMap where
  protect newProt setMax h he :=
    have hb := protectEntry_bounds _ newProt setMax
    ⟨Reprotects.protect newProt setMax h.toPlainMap he, h.full.congr rfl (setBody_entry hb.1 hb.2)⟩

end MachVM

namespace MachVM

open Ring Align

variable {σ : Type} {S : Services σ} {k k' : Kernel σ} {i : MapId} {m n : VmMap}
  {l l₁ l₂ p q : List EntryId} {e x : EntryId} {a b c addr offset : VmOffset} {length : VmSize}
  {object : Option ObjId} {fuel : Nat} {kr : KernReturn}

/-- A region inside the map with no mapped address. -/
structure FreeAt (m : VmMap) (a : VmOffset) (length : VmSize) : Prop where
  low : m.minOffset ≤ a
  high : a.toNat + length.toNat ≤ m.maxOffset.toNat
  free : ∀ x t, InRegion a length x → ¬ Maps m x t

/-- First fit from an address: the lowest free region, or none when there is none. -/
def FirstFit (m : VmMap) (addr : VmOffset) (length : VmSize) (a : VmOffset) (kr : KernReturn) : Prop :=
  (kr = .success ∧ addr ≤ a ∧ FreeAt m a length ∧ ∀ b, addr ≤ b → FreeAt m b length → a ≤ b) ∨
    (kr = .noSpace ∧ ∀ b, addr ≤ b → ¬ FreeAt m b length)

theorem FreeAt.clear (h : FreeAt m a length) (hi : MapInv m l) (hl : 0 < length) (hx : x ∈ l) :
    (m.entry x).endAddr.toNat ≤ a.toNat ∨ a.toNat + length.toNat ≤ (m.entry x).start.toNat := by
  by_contra hc
  rw [not_or, Nat.not_le, Nat.not_le] at hc
  have hp : 0 < length.toNat := BitVec.lt_def.mp hl
  have hspan := hi.span_le hx
  -- the higher of the two starts lies in both
  rcases Nat.le_total a.toNat (m.entry x).start.toNat with hle | hle
  · refine h.free (m.entry x).start _ ⟨hle, hc.2⟩ (hi.maps_iff.mpr ⟨x, hx, ⟨BitVec.le_refl _, ?_⟩, rfl⟩)
    exact BitVec.lt_def.mpr hspan
  · refine h.free a _ ⟨Nat.le_refl _, by omega⟩ (hi.maps_iff.mpr ⟨x, hx, ⟨?_, ?_⟩, rfl⟩)
    · exact BitVec.le_def.mpr hle
    · exact BitVec.lt_def.mpr hc.1

theorem FreeAt.not_covered (h : FreeAt m a length) (hi : MapInv m l) (hl : 0 < length) :
    ¬ Covers m l a := by
  rintro ⟨x, hx, hh⟩
  have hp : 0 < length.toNat := BitVec.lt_def.mp hl
  exact h.free a _ ⟨Nat.le_refl _, by omega⟩ (hi.maps_iff.mpr ⟨x, hx, hh, rfl⟩)

theorem Passed.blocks (h : Passed m length 0 c p) (hc : c ≤ b) (hb : b < candidate m c p) :
    ∃ x ∈ p, (m.entry x).start.toNat < b.toNat + length.toNat ∧ b < (m.entry x).endAddr := by
  induction p generalizing c with
  | nil =>
    rw [BitVec.le_def] at hc
    rw [candidate, BitVec.lt_def] at hb
    omega
  | cons x p ih =>
    have hx := h [] x p rfl
    rw [candidate, roundUp_zero] at hx
    by_cases hlt : b < (m.entry x).endAddr
    · refine ⟨x, by simp, ?_, hlt⟩
      rw [BitVec.le_def] at hc
      omega
    · have hp : Passed m length 0 (m.entry x).endAddr p := by
        intro p' y q' hq
        exact h (x :: p') y q' (by rw [hq]; rfl)
      obtain ⟨y, hy, hh⟩ := ih hp (BitVec.not_lt.mp hlt) hb
      exact ⟨y, List.mem_cons_of_mem _ hy, hh⟩

theorem nothing_passed (h : FreeMap m (l₁ ++ (p ++ q))) (hl : 0 < length)
    (hs : SearchStart m addr e c l₁ (p ++ q)) (hp : Passed m length 0 c p)
    (hb : floorAt m addr ≤ b) (hlt : b < candidate m c p) : ¬ FreeAt m b length := by
  intro hfree
  by_cases hc : b < c
  · refine hfree.not_covered h.toMapInv hl ?_
    rcases hs.skipped b hb hc with ⟨y, hy, hh⟩ | ⟨hne, hf, hend⟩
    · exact ⟨y, by simp [hy], hh⟩
    · exact h.full (hf ▸ hne) b (BitVec.le_trans (min_le_floorAt m addr) hb) (by rw [← hf, ← hend]; exact hc)
  · obtain ⟨x, hx, hst, hend⟩ := hp.blocks (BitVec.not_lt.mp hc) hlt
    have hclear := hfree.clear h.toMapInv hl (x := x) (by simp [hx])
    rw [BitVec.lt_def] at hend
    omega

theorem vmMapInsert_success {endAddr start : VmOffset} (h : MapInv (k.map i) (l₁ ++ l₂))
    (hg : Gap (k.map i) l₁ l₂ start endAddr)
    (hs : vmMapInsert S fuel k i object offset start endAddr = some (k', kr)) : kr = .success := by
  have hsp := BitVec.lt_def.mp hg.span
  rw [vmMapInsert] at hs
  rw [if_neg] at hs
  swap
  · rw [not_or, not_or, BitVec.not_lt, BitVec.not_lt, BitVec.not_le]
    exact ⟨hg.low, hg.high, hg.span⟩
  obtain ⟨⟨n, found, e⟩, hl, hs⟩ := Option.bind_eq_some_iff.mp hs
  have hspec := vmMapLookupEntry_spec h hl
  cases found with
  | true =>
    obtain ⟨hm, hst, hend⟩ := hspec.hit rfl
    rw [BitVec.le_def] at hst
    rw [BitVec.lt_def] at hend
    rcases List.mem_append.mp hm with hm | hm
    · have := BitVec.le_def.mp (hg.below e hm)
      omega
    · have := BitVec.le_def.mp (hg.above e hm)
      omega
  | false =>
    obtain ⟨-, p, q, hl', he, hbelow, habove⟩ := hspec.miss rfl
    have hm : MapInv n (p ++ q) := by
      rw [← hl', hspec.map_eq]
      exact h.saveHint hspec.hint_mem
    have hnext : n.next e = after q header := he ▸ hm.cut.1
    simp only [Bool.false_eq_true, if_false] at hs
    rw [if_neg] at hs
    · obtain ⟨⟨k₁, extended⟩, -, hs⟩ := Option.bind_eq_some_iff.mp hs
      simp only at hs
      split at hs <;> cases Option.some.inj hs <;> rfl
    · rintro ⟨hne, hlt⟩
      rw [hnext] at hne hlt
      cases q with
      | nil => exact hne rfl
      | cons y q =>
        rw [after_cons, hspec.entry_eq, BitVec.lt_def] at hlt
        have hy : y ∈ l₁ ++ l₂ := by simp [hl']
        rcases List.mem_append.mp hy with hy | hy
        · have h₁ := BitVec.le_def.mp (hg.below y hy)
          have h₂ := BitVec.lt_def.mp (habove y (by simp))
          have h₃ := h.span_le (e := y) (by simp [hy])
          omega
        · have := BitVec.le_def.mp (hg.above y hy)
          omega

theorem SearchStart.hinted (h : SearchStart m addr e c l₁ l₂) (x : EntryId) :
    SearchStart (m.saveHint x) addr e c l₁ l₂ :=
  ⟨h.place, h.floor, h.below, h.above, h.origin, h.skipped⟩

/-- A search with no mask: the candidate it has come to, and what it has gone past. -/
structure Searched (m : VmMap) (addr : VmOffset) (length : VmSize) (c : VmOffset)
    (l₁ p q : List EntryId) : Prop where
  start : ∃ e, SearchStart m addr e c l₁ (p ++ q)
  passed : Passed m length 0 c p

theorem vmMapFind_space (h : MapInv (k.map i) l)
    (hs : vmMapFind S fuel k i object offset addr length true = some (k', a, kr)) :
    ∃ x ∈ header :: l, ∃ n, n = (vmMapLock (k.map i)).saveHint x ∧
      ((kr = .noSpace ∧ k'.map i = n ∧ (n.maxOffset < floorAt n addr ∨
          ∃ c l₁ p q, l = l₁ ++ (p ++ q) ∧ Searched n addr length c l₁ p q ∧
            n.maxOffset.toNat < (candidate n c p).toNat + length.toNat)) ∨
        ∃ c l₁ p q, l = l₁ ++ (p ++ q) ∧ Searched n addr length c l₁ p q ∧ a = candidate n c p ∧
          Fits n length a q ∧
          vmMapInsert S fuel (k.setMap i n) i object offset a (a + length) = some (k', kr)) := by
  simp only [vmMapFind, if_true] at hs
  obtain ⟨⟨m, first⟩, hf, hs⟩ := Option.bind_eq_some_iff.mp hs
  obtain ⟨hm, hmem, hnone, hstart⟩ := firstPossible_spec h.lock hf
  cases first with
  | none =>
    cases Option.some.inj hs
    refine ⟨m.hint, hmem, _, rfl, .inl ⟨rfl, ?_, .inl (hnone rfl)⟩⟩
    rw [setMap_map_self]
    exact hm
  | some st =>
    obtain ⟨e₀, c⟩ := st
    obtain ⟨r, hr, hs⟩ := Option.bind_eq_some_iff.mp hs
    obtain ⟨l₁, l₂, rfl, hst⟩ := hstart e₀ c rfl
    have hmi : MapInv m (l₁ ++ l₂) := hm ▸ h.lock.saveHint hmem
    obtain ⟨p, q, hend⟩ := findSpace_spec hmi hst.place hr
    have hsplit := hend.split
    subst hsplit
    rw [hm] at hend hs
    cases r with
    | none =>
      cases Option.some.inj hs
      have hfull := hend.full rfl
      rw [roundUp_zero] at hfull
      refine ⟨m.hint, hmem, _, rfl, .inl ⟨rfl, ?_, .inr ⟨c, l₁, p, q, rfl, ?_, hfull⟩⟩⟩
      · rw [setMap_map_self]
      · exact ⟨⟨e₀, hst.hinted m.hint⟩, hend.passed⟩
    | some pl =>
      obtain ⟨e, a'⟩ := pl
      obtain ⟨⟨k₁, kr'⟩, hins, hs⟩ := Option.bind_eq_some_iff.mp hs
      cases Option.some.inj hs
      obtain ⟨he, ha, hfit⟩ := hend.fits _ _ rfl
      rw [roundUp_zero] at ha
      have hcand := candidate_congr (m := (vmMapLock (k.map i)).saveHint m.hint)
        (n := (vmMapLock (k.map i)).saveHint e) rfl c p
      have hmem' : e ∈ header :: (l₁ ++ (p ++ q)) := by
        have := before_mem header (l₁ ++ p)
        rw [← he] at this
        simp only [List.mem_cons, List.mem_append] at this ⊢
        tauto
      refine ⟨e, hmem', _, rfl, .inr ⟨c, l₁, p, q, rfl, ?_, ha.trans hcand.symm,
        ⟨hfit.high, hfit.front⟩, hins⟩⟩
      exact ⟨⟨e₀, hst.hinted e⟩, hend.passed.congr rfl⟩

theorem FreeAt.hinted (h : FreeAt m a length) (x : EntryId) (v : Nat) :
    FreeAt { m with hint := x, timestamp := v } a length := ⟨h.low, h.high, h.free⟩

theorem Searched.room (hs : Searched m addr length c l₁ p q) (h : MapInv m (l₁ ++ (p ++ q)))
    (hl : 0 < length) (hf : Fits m length (candidate m c p) q) :
    Room m (l₁ ++ p) q (candidate m c p) length := by
  obtain ⟨e, hst⟩ := hs.start
  obtain ⟨hle, hbelow, -⟩ := hst.candidate_between h
  refine ⟨hl, ?_, hbelow, hf⟩
  exact BitVec.le_trans (min_le_floorAt m addr) (BitVec.le_trans hst.floor hle)

theorem vmMapFind_firstFit (h : FreeMap (k.map i) l) (hl : 0 < length)
    (hs : vmMapFind S fuel k i object offset addr length true = some (k', a, kr)) :
    FirstFit (k.map i) addr length a kr := by
  obtain ⟨x, hx, n, rfl, hcase⟩ := vmMapFind_space h.toMapInv hs
  have hn : FreeMap ((vmMapLock (k.map i)).saveHint x) l := Steady.saveHint (Steady.lock h) hx
  have hfree : ∀ b, FreeAt (k.map i) b length → FreeAt ((vmMapLock (k.map i)).saveHint x) b length :=
    fun b hb => hb.hinted x _
  have hfloor : ∀ b, addr ≤ b → FreeAt (k.map i) b length →
      floorAt ((vmMapLock (k.map i)).saveHint x) addr ≤ b := by
    intro b hb hf
    rw [floorAt]
    split
    · exact hf.low
    · exact hb
  have hp : 0 < length.toNat := BitVec.lt_def.mp hl
  rcases hcase with ⟨rfl, -, hnone⟩ | ⟨c, l₁, p, q, rfl, hsr, rfl, hfit, hins⟩
  · refine .inr ⟨rfl, ?_⟩
    intro b hb hf
    have hge := BitVec.le_def.mp (hfloor b hb hf)
    have hhigh := (hfree b hf).high
    rcases hnone with hmax | ⟨c, l₁, p, q, rfl, hsr, hmax⟩
    · rw [BitVec.lt_def] at hmax
      omega
    · obtain ⟨e, hst⟩ := hsr.start
      exact nothing_passed hn hl hst hsr.passed (hfloor b hb hf) (BitVec.lt_def.mpr (by omega))
        (hfree b hf)
  · have hroom := hsr.room hn.toMapInv hl hfit
    obtain ⟨e, hst⟩ := hsr.start
    have hassoc : MapInv ((vmMapLock (k.map i)).saveHint x) ((l₁ ++ p) ++ q) := by
      rw [List.append_assoc]
      exact hn.toMapInv
    have hkr : kr = .success := by
      have hm := setMap_map_self k i ((vmMapLock (k.map i)).saveHint x)
      exact vmMapInsert_success (hm.symm ▸ hassoc) (by rw [hm]; exact hroom.gap) hins
    refine .inl ⟨hkr, ?_, ?_, ?_⟩
    · exact BitVec.le_trans (le_floorAt _ addr)
        (BitVec.le_trans hst.floor (hst.candidate_between hn.toMapInv).1)
    · exact ⟨hroom.low, hfit.high, fun y t hy => hroom.free hassoc hy⟩
    · intro b hb hf
      refine BitVec.not_lt.mp fun hlt => ?_
      exact nothing_passed hn hl hst hsr.passed (hfloor b hb hf) hlt (hfree b hf)

theorem searchEntry_some {last cur : EntryId} (h : MapInv m (l₁ ++ (p ++ q)))
    (hcur : cur = after (p ++ q) header) (hlast : last = after q header) (hf : p.length < fuel) :
    ∃ r, searchEntry m a last fuel cur = some r := by
  induction p generalizing fuel l₁ cur with
  | nil =>
    obtain ⟨fuel, rfl⟩ := Nat.exists_eq_succ_of_ne_zero (Nat.ne_of_gt hf)
    rw [searchEntry, if_pos (hcur.trans hlast.symm)]
    exact ⟨_, rfl⟩
  | cons y p ih =>
    obtain ⟨fuel, rfl⟩ := Nat.exists_eq_succ_of_ne_zero (Nat.ne_of_gt (Nat.lt_of_le_of_lt (Nat.zero_le _) hf))
    rw [searchEntry]
    split
    next => exact ⟨_, rfl⟩
    next =>
      split
      next => split <;> exact ⟨_, rfl⟩
      next =>
        have h' : MapInv m ((l₁ ++ [y]) ++ (p ++ q)) := by simpa using h
        have hy : cur = y := hcur
        refine ih h' ?_ (Nat.lt_of_succ_lt_succ hf)
        rw [hy]
        simpa using h'.cut.1

theorem vmMapLookupEntry_some (h : MapInv m l) (hf : l.length < fuel) :
    ∃ r, vmMapLookupEntry fuel m a = some r := by
  have hcur := h.order.first_cases
  have hfirst : m.next header = after l header := h.order.next_header
  simp only [vmMapLookupEntry]
  generalize (if m.hint = header then m.next m.hint else m.hint) = cur at hcur
  have hmem : cur ∈ header :: l := by
    rcases hcur with hm | ⟨rfl, -⟩
    · exact List.mem_cons_of_mem _ hm
    · simp
  split
  next =>
    split
    next => exact ⟨_, rfl⟩
    next =>
      rcases hcur with hm | ⟨rfl, rfl⟩
      · obtain ⟨l₁, l₂, rfl⟩ := List.append_of_mem hm
        have h' : MapInv m (l₁ ++ ((cur :: l₂) ++ [])) := by simpa using h
        refine searchEntry_some h' (by simp) rfl ?_
        simp only [List.length_append, List.length_cons] at hf ⊢
        omega
      · have h' : MapInv m ([] ++ ([] ++ [])) := h
        exact searchEntry_some h' rfl rfl (Nat.lt_of_le_of_lt (Nat.zero_le _) hf)
  next =>
    rcases hcur with hm | ⟨rfl, rfl⟩
    · obtain ⟨l₁, l₂, rfl⟩ := List.append_of_mem hm
      have h' : MapInv m ([] ++ ((l₁ ++ [cur]) ++ l₂)) := by simpa using h
      refine searchEntry_some h' (by rw [hfirst]; simp) h.next_at ?_
      simp only [List.length_append, List.length_cons, List.length_nil] at hf ⊢
      omega
    · have h' : MapInv m ([] ++ ([] ++ [])) := h
      exact searchEntry_some h' hfirst hfirst (Nat.lt_of_le_of_lt (Nat.zero_le _) hf)

/-- The object layer answers every attempt to coalesce. -/
def Coalesces (S : Services σ) : Prop :=
  ∀ s prev next po no ps ns, ∃ r, S.objectCoalesce s prev next po no ps ns = some r

theorem vmMapInsert_some {endAddr start : VmOffset} (hS : Coalesces S) (h : MapInv (k.map i) l)
    (hf : l.length < fuel) : ∃ r, vmMapInsert S fuel k i object offset start endAddr = some r := by
  rw [vmMapInsert]
  split
  next => exact ⟨_, rfl⟩
  next =>
    obtain ⟨⟨m, found, e⟩, hl⟩ := vmMapLookupEntry_some (a := start) h hf
    rw [hl, Option.bind_eq_bind, Option.bind_some]
    simp only
    split
    next => exact ⟨_, rfl⟩
    next =>
      split
      next => exact ⟨_, rfl⟩
      next =>
        have hco : ∀ k may x, ∃ r, coalesceEntry S k may x endAddr = some r := by
          intro k may x
          rw [coalesceEntry]
          split
          next =>
            obtain ⟨r, hr⟩ := hS k.machine x.object.vmObject none x.offset 0 (x.endAddr - x.start)
              (endAddr - x.endAddr)
            exact ⟨_, by rw [hr]; rfl⟩
          next => exact ⟨_, rfl⟩
        obtain ⟨⟨k₁, extended⟩, hc⟩ := hco (k.setMap i m) (decide (object = none) && m.isMainMap &&
          extendable m e start inheritDefault protDefault protDefault) (m.entry e)
        rw [hc, Option.bind_eq_bind, Option.bind_some]
        simp only
        split <;> exact ⟨_, rfl⟩

theorem vmMapFind_some (hS : Coalesces S) (h : MapInv (k.map i) l) (hf : l.length < fuel) :
    ∃ r, vmMapFind S fuel k i object offset addr length true = some r := by
  have hfirst : ∃ r, firstPossible fuel (vmMapLock (k.map i)) addr = some r := by
    simp only [firstPossible]
    rw [← floorAt]
    split
    next => exact ⟨_, rfl⟩
    next =>
      split
      next => exact ⟨_, rfl⟩
      next =>
        obtain ⟨r, hr⟩ := vmMapLookupEntry_some (a := floorAt (vmMapLock (k.map i)) addr) h.lock hf
        exact ⟨_, by rw [hr]; rfl⟩
  obtain ⟨⟨m, first⟩, hp⟩ := hfirst
  obtain ⟨hm, hmem, -, hstart⟩ := firstPossible_spec h.lock hp
  have hmi : MapInv m l := hm ▸ h.lock.saveHint hmem
  simp only [vmMapFind, if_true]
  rw [hp, Option.bind_eq_bind, Option.bind_some]
  cases first with
  | none => exact ⟨_, rfl⟩
  | some st =>
    obtain ⟨e, c⟩ := st
    obtain ⟨l₁, l₂, rfl, hst⟩ := hstart e c rfl
    have hlen : l₂.length < fuel := by
      rw [List.length_append] at hf
      omega
    obtain ⟨r, hr⟩ : ∃ r, findSpace m length 0 fuel e c = some r := findSpace_some hmi hst.place hlen
    simp only
    rw [hr, Option.bind_eq_bind, Option.bind_some]
    cases r with
    | none => exact ⟨_, rfl⟩
    | some pl =>
      obtain ⟨e', a⟩ := pl
      have he : e ∈ header :: (l₁ ++ l₂) := by
        have := before_mem header l₁
        rw [hst.place]
        simp only [List.mem_cons, List.mem_append] at this ⊢
        tauto
      have hmap : MapInv ((k.setMap i (m.saveHint e')).map i) (l₁ ++ l₂) := by
        rw [setMap_map_self]
        exact hmi.saveHint (findSpace_mem hmi he hr)
      obtain ⟨⟨k₁, kr⟩, hins⟩ : ∃ r, vmMapInsert S fuel (k.setMap i (m.saveHint e')) i object offset a
          (a + length) = some r := vmMapInsert_some hS hmap hf
      simp only
      rw [hins]
      exact ⟨_, rfl⟩

end MachVM
