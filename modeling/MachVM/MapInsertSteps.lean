import MachVM.MapDeleteSteps

namespace MachVM

open Ring

variable {σ : Type} {S : Services σ} {k k' : Kernel σ} {i : MapId} {l l₁ l₂ : List EntryId}
  {e : EntryId} {a start endAddr : VmOffset} {fuel : Nat} {m n : VmMap}

/-- A free range between two neighbouring entries of a map. -/
structure Gap (m : VmMap) (l₁ l₂ : List EntryId) (start endAddr : VmOffset) : Prop where
  span : start < endAddr
  low : m.minOffset ≤ start
  high : endAddr ≤ m.maxOffset
  below : ∀ x ∈ l₁, (m.entry x).endAddr ≤ start
  above : ∀ x ∈ l₂, endAddr ≤ (m.entry x).start

theorem linkNewEntry_plain {fill : VmMapEntry → VmMapEntry} (h : PlainMap m (l₁ ++ l₂))
    (hg : Gap m l₁ l₂ start endAddr)
    (hf : ∀ x, (fill x).start = start ∧ (fill x).endAddr = endAddr ∧ PlainEntry (fill x)) :
    PlainMap (linkNewEntry m (before header l₁) fill) (l₁ ++ m.freshEntry :: l₂) := by
  obtain ⟨hs, he, hp⟩ := hf (m.entry m.freshEntry)
  have hl := (h.link (y := fill (m.entry m.freshEntry)) (by rw [hs, he]; exact hg.span)
    (by rw [hs]; exact hg.low) (by rw [he]; exact hg.high) (by rw [hs]; exact hg.below)
    (by rw [he]; exact hg.above) hp).withSize
      (m.size + ((fill (m.entry m.freshEntry)).endAddr - (fill (m.entry m.freshEntry)).start))
  simp only [linkNewEntry]
  split
  next => exact hl.withFree (e := m.freshEntry) (by simp)
  next => exact hl

theorem extendEntry_plain (h : PlainMap m (l₁ ++ e :: l₂)) (hs : (m.entry e).endAddr = start)
    (hg : Gap m (l₁ ++ [e]) l₂ start endAddr) :
    PlainMap (extendEntry m e endAddr) (l₁ ++ e :: l₂) := by
  have he : e ∈ l₁ ++ e :: l₂ := by simp
  have hsp := h.span e he
  have hlt : (m.entry e).start < endAddr := by
    rw [hs] at hsp
    exact BitVec.lt_trans hsp hg.span
  have hi := h.toMapInv.resize (y := { m.entry e with endAddr := endAddr }) hlt (h.low e he) hg.high
    (fun x hx => BitVec.le_def.mpr (h.sorted_before hx)) hg.above
  exact (h.resize hi ((h.plain e he).congr rfl rfl rfl rfl)).withSize _

theorem newMapEntry_plain (hm : m.isMainMap = true) (old : VmMapEntry) (object : Option ObjId)
    (offset : VmOffset) :
    (newMapEntry m old object offset start endAddr).start = start ∧
      (newMapEntry m old object offset start endAddr).endAddr = endAddr ∧
      PlainEntry (newMapEntry m old object offset start endAddr) := by
  simp only [newMapEntry, hm, if_true]
  refine ⟨trivial, trivial, rfl, rfl, ?_, by simp⟩
  cases object <;> simp [MapObject.ofObject]

theorem coalesceEntry_map {may extended : Bool} {x : VmMapEntry}
    (hs : coalesceEntry S k may x endAddr = some (k', extended)) :
    k'.map = k.map ∧ (extended = true → may = true) := by
  simp only [coalesceEntry] at hs
  split at hs
  next hm =>
    obtain ⟨r, _, hr⟩ := Option.map_eq_some_iff.mp hs
    cases hr
    exact ⟨rfl, fun _ => hm⟩
  next =>
    cases Option.some.inj hs
    exact ⟨rfl, by simp⟩

theorem extendable_true {inh : VmInherit} {prot maxProt : VmProt}
    (h : extendable m e start inh prot maxProt = true) :
    e ≠ header ∧ (m.entry e).endAddr = start := by
  simp only [extendable, Bool.and_eq_true, decide_eq_true_eq] at h
  exact ⟨h.1.1.1.1.1.1.1, h.1.1.1.1.1.1.2⟩

theorem before_eq_mem (he : e = before header l₁) (hne : e ≠ header) : ∃ p, l₁ = p ++ [e] := by
  cases l₁ with
  | nil => exact absurd he hne
  | cons y q => exact he ▸ eq_append_before y q

/-- What an insertion leaves of a map: nothing but a moved hint when it refuses, and otherwise an
entry extended or a new one linked in, over a gap. -/
inductive InsertSpec (m : VmMap) (l : List EntryId) (object : Option ObjId)
    (offset start endAddr : VmOffset) : VmMap → KernReturn → Prop
  | refused {kr : KernReturn} : kr ≠ .success → InsertSpec m l object offset start endAddr m kr
  | extended {l₁ l₂ : List EntryId} {e : EntryId} : l = l₁ ++ e :: l₂ →
      (m.entry e).endAddr = start → Gap m (l₁ ++ [e]) l₂ start endAddr →
      InsertSpec m l object offset start endAddr (extendEntry m e endAddr) .success
  | linked {l₁ l₂ : List EntryId} : l = l₁ ++ l₂ → Gap m l₁ l₂ start endAddr →
      InsertSpec m l object offset start endAddr
        (linkNewEntry m (before header l₁) fun old => newMapEntry m old object offset start endAddr)
        .success

theorem vmMapInsert_cases {object : Option ObjId} {offset : VmOffset} {kr : KernReturn}
    (h : MapInv (k.map i) l)
    (hs : vmMapInsert S fuel k i object offset start endAddr = some (k', kr)) :
    ∃ x ∈ header :: l,
      InsertSpec ((k.map i).saveHint x) l object offset start endAddr (k'.map i) kr := by
  rw [vmMapInsert] at hs
  split at hs
  next =>
    cases Option.some.inj hs
    exact ⟨_, h.hint_mem, .refused (by simp)⟩
  next hb =>
    rw [not_or, not_or, BitVec.not_lt, BitVec.not_lt, BitVec.not_le] at hb
    obtain ⟨⟨m, found, e⟩, hl, hs⟩ := Option.bind_eq_some_iff.mp hs
    have hsp := vmMapLookupEntry_spec h hl
    refine ⟨m.hint, hsp.hint_mem, ?_⟩
    rw [← hsp.map_eq]
    cases found with
    | true =>
      cases Option.some.inj hs
      rw [setMap_map_self]
      exact .refused (by simp)
    | false =>
      obtain ⟨-, l₁, l₂, rfl, he, hbelow, habove⟩ := hsp.miss rfl
      have hm : MapInv m (l₁ ++ l₂) := hsp.map_eq ▸ h.saveHint hsp.hint_mem
      simp only [Bool.false_eq_true, if_false] at hs
      split at hs
      next =>
        cases Option.some.inj hs
        rw [setMap_map_self]
        exact .refused (by simp)
      next hno =>
        have hnext : m.next e = after l₂ header := he ▸ hm.cut.1
        have hmin : m.minOffset = (k.map i).minOffset := by rw [hsp.map_eq]; rfl
        have hmax : m.maxOffset = (k.map i).maxOffset := by rw [hsp.map_eq]; rfl
        have hg : Gap m l₁ l₂ start endAddr := by
          refine ⟨hb.2.2, hmin ▸ hb.1, hmax ▸ hb.2.1, by rw [hsp.entry_eq]; exact hbelow, ?_⟩
          cases l₂ with
          | nil => simp
          | cons y q =>
            rw [hnext, after_cons] at hno
            have hy : endAddr ≤ (m.entry y).start := by
              refine BitVec.not_lt.mp fun hlt => hno ⟨hm.ne_header (by simp), hlt⟩
            intro x hx
            rcases List.mem_cons.mp hx with rfl | hx
            · exact hy
            · have h₁ := hm.sorted_after hx
              have h₂ := hm.span_le (e := y) (by simp)
              rw [BitVec.le_def] at hy ⊢
              omega
        obtain ⟨⟨k₁, extended⟩, hco, hs⟩ := Option.bind_eq_some_iff.mp hs
        obtain ⟨-, hmay⟩ := coalesceEntry_map hco
        cases extended with
        | true =>
          cases Option.some.inj hs
          have hmay := hmay rfl
          rw [Bool.and_eq_true] at hmay
          obtain ⟨hne, hend⟩ := extendable_true hmay.2
          obtain ⟨p, rfl⟩ := before_eq_mem he hne
          rw [setMap_map_self]
          exact .extended (by simp) hend hg
        | false =>
          cases Option.some.inj hs
          rw [setMap_map_self, he]
          exact .linked rfl hg

theorem vmMapInsert_plain {object : Option ObjId} {offset : VmOffset} {kr : KernReturn}
    (h : PlainMap (k.map i) l)
    (hs : vmMapInsert S fuel k i object offset start endAddr = some (k', kr)) :
    ∃ l', PlainMap (k'.map i) l' := by
  obtain ⟨x, hx, hc⟩ := vmMapInsert_cases h.toMapInv hs
  have hm := h.saveHint hx
  generalize k'.map i = n at hc ⊢
  cases hc with
  | refused => exact ⟨l, hm⟩
  | extended hl hend hg =>
    subst hl
    exact ⟨_, extendEntry_plain hm hend hg⟩
  | linked hl hg =>
    subst hl
    exact ⟨_, linkNewEntry_plain hm hg fun x => newMapEntry_plain hm.main x object offset⟩

theorem findSpace_mem {length mask : VmOffset} {start' : VmOffset} {e' : EntryId} (h : MapInv m l)
    (he : e ∈ header :: l)
    (hs : findSpace m length mask fuel e start = some (some (e', start'))) : e' ∈ header :: l := by
  induction fuel generalizing e start with
  | zero => simp [findSpace] at hs
  | succ fuel ih =>
    simp only [findSpace] at hs
    split at hs
    next => simp at hs
    next =>
      split at hs
      next =>
        cases Option.some.inj (Option.some.inj hs)
        exact he
      next =>
        split at hs
        next =>
          cases Option.some.inj (Option.some.inj hs)
          exact he
        next => exact ih (h.next_mem he) hs

theorem firstPossible_plain {first : Option (EntryId × VmOffset)} (h : PlainMap m l)
    (hs : firstPossible fuel m start = some (n, first)) :
    PlainMap n l ∧ ∀ p ∈ first, p.1 ∈ header :: l := by
  simp only [firstPossible] at hs
  generalize (if start < m.minOffset then m.minOffset else start) = st at hs
  split at hs
  next =>
    cases Option.some.inj hs
    exact ⟨h, by simp⟩
  next =>
    split at hs
    next =>
      cases Option.some.inj hs
      refine ⟨h, ?_⟩
      intro p hp
      cases Option.some.inj hp
      exact h.free_mem
    next =>
      obtain ⟨⟨n', found, e⟩, hl, hr⟩ := Option.map_eq_some_iff.mp hs
      have hsp := vmMapLookupEntry_spec h.toMapInv hl
      cases hr
      refine ⟨hsp.plain h, ?_⟩
      intro p hp
      cases Option.some.inj hp
      cases found with
      | true => exact List.mem_cons_of_mem _ (hsp.hit rfl).1
      | false =>
        have := (hsp.miss rfl).1
        exact this ▸ hsp.hint_mem

theorem vmMapFind_plain {object : Option ObjId} {offset addr addr' : VmOffset} {length : VmSize}
    {space : Bool} {kr : KernReturn} (h : PlainMap (k.map i) l)
    (hs : vmMapFind S fuel k i object offset addr length space = some (k', addr', kr)) :
    ∃ l', PlainMap (k'.map i) l' := by
  have hk := h.lock
  cases space with
  | true =>
    simp only [vmMapFind, if_true] at hs
    obtain ⟨⟨m, first⟩, hf, hs⟩ := Option.bind_eq_some_iff.mp hs
    obtain ⟨hm, hmem⟩ := firstPossible_plain hk hf
    cases first with
    | none =>
      cases Option.some.inj hs
      exact ⟨l, by rwa [setMap_map_self]⟩
    | some p =>
      obtain ⟨e, st⟩ := p
      obtain ⟨fit, hfit, hs⟩ := Option.bind_eq_some_iff.mp hs
      cases fit with
      | none =>
        cases Option.some.inj hs
        exact ⟨l, by rwa [setMap_map_self]⟩
      | some p =>
        obtain ⟨e', st'⟩ := p
        obtain ⟨⟨k₁, kr'⟩, hins, hs⟩ := Option.bind_eq_some_iff.mp hs
        cases Option.some.inj hs
        have he' := findSpace_mem hm.toMapInv (hmem _ rfl) hfit
        refine vmMapInsert_plain (l := l) ?_ hins
        rw [setMap_map_self]
        exact hm.saveHint he'
  | false =>
    simp only [vmMapFind, Bool.false_eq_true, if_false] at hs
    obtain ⟨⟨k₁, kr'⟩, hins, hs⟩ := Option.bind_eq_some_iff.mp hs
    cases Option.some.inj hs
    exact vmMapInsert_plain (l := l) (by rwa [setMap_map_self]) hins

theorem MapInv.merge {x : EntryId} (h : MapInv m (l₁ ++ x :: e :: l₂)) :
    MapInv (mergeEntry m x e) (l₁ ++ x :: l₂) := by
  have hxe : x ≠ e := (h.ne_after (x := e) (by simp)).symm
  have h₁ : MapInv (if m.firstFree = e then { m with firstFree := x } else m)
      ((l₁ ++ [x]) ++ e :: l₂) := by
    have hsh : MapInv m ((l₁ ++ [x]) ++ e :: l₂) := by simpa using h
    split
    next =>
      exact hsh.congr rfl rfl (fun _ _ => ⟨rfl, rfl⟩) rfl (Nat.le_refl _) hsh.hint_mem (by simp)
    next => exact hsh
  have hfree : (if m.firstFree = e then { m with firstFree := x } else m).firstFree ≠ e := by
    split
    next => exact hxe
    next hne => exact hne
  have hentry : (if m.firstFree = e then { m with firstFree := x } else m).entry = m.entry := by
    split <;> rfl
  simp only [mergeEntry]
  generalize (if m.firstFree = e then { m with firstFree := x } else m) = m₁ at h₁ hfree hentry
  have h₂ := h₁.saveHint (e := x) (by simp)
  have h₃ : MapInv (vmMapEntryUnlink (m₁.saveHint x) e) (l₁ ++ x :: l₂) := by
    simpa using h₂.unlink hxe hfree
  have hbe : ∀ z, (vmMapEntryUnlink (m₁.saveHint x) e).entry z = m.entry z := fun z =>
    congrFun hentry z
  have hsx := h.span_le (e := x) (by simp)
  have hse := h.span_le (e := e) (by simp)
  have hle := h.sorted_after (e := x) (x := e) (by simp)
  refine h₃.resize ?_ (h₃.low x (by simp)) ?_ ?_ ?_
  · simp only [hbe, BitVec.lt_def]
    omega
  · exact h₂.high e (by simp)
  · intro z hz
    exact BitVec.le_def.mpr (h₃.sorted_before hz)
  · intro z hz
    have hsh : MapInv m ((l₁ ++ [x]) ++ e :: l₂) := by simpa using h
    simp only [hbe]
    exact BitVec.le_def.mpr (hsh.sorted_after hz)

theorem mergeEntry_entry (m : VmMap) (x e z : EntryId) :
    (mergeEntry m x e).entry z =
      if z = x then { m.entry x with endAddr := (m.entry e).endAddr } else m.entry z := by
  simp only [mergeEntry]
  split <;> simp [VmMap.setEntry, vmMapEntryUnlink, VmMap.saveHint, Function.update_apply]

theorem mergeEntry_plain {x : EntryId} (h : PlainMap m (l₁ ++ x :: e :: l₂)) :
    PlainMap (mergeEntry m x e) (l₁ ++ x :: l₂) := by
  refine ⟨h.toMapInv.merge, ?_, ?_⟩
  · simp only [mergeEntry]
    split <;> exact h.main
  · intro z hz
    have hp : ∀ z ∈ l₁ ++ x :: l₂, PlainEntry (m.entry z) := fun z hz =>
      h.plain z (by simp only [List.mem_append, List.mem_cons] at hz ⊢; tauto)
    rw [mergeEntry_entry]
    split
    next => exact (hp x (by simp)).congr rfl rfl rfl rfl
    next => exact hp z hz

theorem vmMapSimplify_cases (h : PlainMap (k.map i) l)
    (hs : vmMapSimplify S fuel k i start = some k') :
    ∃ n, PlainMap n l ∧ n = (vmMapLock (k.map i)).saveHint n.hint ∧ n.hint ∈ header :: l ∧
      (k'.map i = n ∨
        ∃ l₁ l₂ x e, l = l₁ ++ x :: e :: l₂ ∧ (n.entry e).start ≤ (n.entry x).endAddr ∧
          (n.entry x).maxProtection = (n.entry e).maxProtection ∧ k'.map i = mergeEntry n x e) := by
  obtain ⟨⟨m, found, e⟩, hl, hs⟩ := Option.bind_eq_some_iff.mp hs
  have hsp := vmMapLookupEntry_spec h.lock.toMapInv hl
  have hm := hsp.plain h.lock
  refine ⟨m, hm, hsp.map_eq, hsp.hint_mem, ?_⟩
  simp only at hs
  split at hs
  next hc =>
    rw [Bool.and_eq_true] at hc
    obtain ⟨hf, hmg⟩ := hc
    obtain ⟨p, q, rfl⟩ := List.append_of_mem (hsp.hit hf).1
    have hprev : m.prev e = before header p := by simpa using hm.cut.2
    have hne : m.prev e ≠ header := by
      simp only [mergeable, Bool.and_eq_true, decide_eq_true_eq] at hmg
      exact hmg.1.1.1.1.1.1.1.1.1.1.1.1.1.1
    obtain ⟨p', rfl⟩ := before_eq_mem hprev hne
    obtain ⟨s, _, rfl⟩ := Option.map_eq_some_iff.mp hs
    rw [setMachine_map, setMap_map_self]
    have hlo : (m.entry e).start ≤ start := by
      rw [hsp.entry_eq]
      exact (hsp.hit hf).2.1
    simp only [mergeable, Bool.and_eq_true, decide_eq_true_eq] at hmg
    obtain ⟨⟨⟨⟨⟨⟨⟨⟨⟨⟨⟨⟨⟨⟨-, hend⟩, -⟩, -⟩, -⟩, -⟩, -⟩, -⟩, -⟩, hmax⟩, -⟩, -⟩, -⟩, -⟩, -⟩ := hmg
    exact .inr ⟨p', q, _, e, by simp, hend ▸ hlo, hmax, rfl⟩
  next =>
    cases Option.some.inj hs
    rw [setMap_map_self]
    exact .inl rfl

theorem vmMapSimplify_plain (h : PlainMap (k.map i) l)
    (hs : vmMapSimplify S fuel k i start = some k') : ∃ l', PlainMap (k'.map i) l' := by
  obtain ⟨n, hn, -, -, hk | ⟨l₁, l₂, x, e, rfl, -, -, hk⟩⟩ := vmMapSimplify_cases h hs
  · exact ⟨l, hk ▸ hn⟩
  · exact ⟨_, hk ▸ mergeEntry_plain hn⟩

end MachVM
