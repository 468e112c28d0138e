import MachVM.MapSteps

namespace MachVM

open Ring

variable {σ : Type} {S : Services σ} {k k' : Kernel σ} {i : MapId} {l l₁ l₂ : List EntryId}
  {e : EntryId} {a start endAddr : VmOffset} {fuel : Nat} {m n : VmMap}
  {P : VmMap → List EntryId → Prop} [Steady P]

theorem PlainMap.withSize (h : PlainMap m l) (size : VmSize) : PlainMap { m with size := size } l :=
  ⟨h.toMapInv.congr rfl rfl (fun _ _ => ⟨rfl, rfl⟩) rfl (Nat.le_refl _) h.hint_mem h.free_mem,
    h.main, h.plain⟩

theorem PlainMap.withFree (h : PlainMap m l) (he : e ∈ header :: l) :
    PlainMap { m with firstFree := e } l :=
  ⟨h.toMapInv.congr rfl rfl (fun _ _ => ⟨rfl, rfl⟩) rfl (Nat.le_refl _) h.hint_mem he,
    h.main, h.plain⟩

theorem vmMapEntryUnwire_plain (h : PlainMap (k.map i) l) (he : e ∈ l)
    (hw : ((k.map i).entry e).wiredCount ≠ 0) (hs : vmMapEntryUnwire S fuel k i e = some k') :
    k'.map i = (k.map i).setEntry e { (k.map i).entry e with wiredCount := 0 } := by
  obtain ⟨k₁, hu, rfl⟩ := Option.map_eq_some_iff.mp hs
  have hp := h.plain e he
  rw [setEntry_map_self, vmFaultUnwire_map hp (hp.wired hw) hu]

theorem unwireIfWired_plain (h : PlainMap (k.map i) l) (he : e ∈ l)
    (hs : unwireIfWired S fuel k i e = some k') :
    k'.map i = (k.map i).setEntry e { (k.map i).entry e with wiredCount := 0 } := by
  simp only [unwireIfWired] at hs
  split at hs
  next hw => exact vmMapEntryUnwire_plain h he hw hs
  next hw =>
    cases Option.some.inj hs
    rw [not_not] at hw
    conv_lhs => rw [← setEntry_self (k.map i) e]
    rw [← hw]

/-- What such an invariant must survive besides to survive a deletion: an entry behind both
cached ones leaves the map. -/
class Shrinks (P : VmMap → List EntryId → Prop) : Prop extends Steady P where
  unlink {m : VmMap} {l₁ l₂ : List EntryId} {e : EntryId} (size : VmSize) : P m (l₁ ++ e :: l₂) →
    m.hint ∈ header :: l₁ → m.firstFree ∈ header :: l₁ →
    P { vmMapEntryUnlink m e with size := size } (l₁ ++ l₂)

theorem PlainMap.before_ne (h : PlainMap m (l₁ ++ e :: l₂)) {x : EntryId} (hx : x ∈ header :: l₁) :
    x ≠ e := by
  rcases List.mem_cons.mp hx with rfl | hx
  · exact (h.ne_header (by simp)).symm
  · exact h.ne_before hx

instance : Shrinks PlainMap where
  unlink {m l₁ l₂ e} size h hh hf := by
    refine PlainMap.withSize ⟨h.toMapInv.unlink (h.before_ne hh) (h.before_ne hf), h.main, ?_⟩ size
    intro x hx
    refine h.plain x ?_
    simp only [List.mem_append, List.mem_cons] at hx ⊢
    tauto

theorem steady_unwired (h : P m l) (he : e ∈ l) :
    P (m.setEntry e { m.entry e with wiredCount := 0 }) l := by
  have hp := (Steady.plain h).plain e he
  exact Steady.setBody h rfl rfl rfl ⟨hp.not_a_map, hp.not_sub_map, hp.object_ne, by simp⟩

theorem vmMapEntryDelete_plain {Q : VmMap → List EntryId → Prop} [Shrinks Q]
    {release : Kernel σ → Option MapId → Option (Kernel σ)}
    (h : Q (k.map i) (l₁ ++ e :: l₂)) (hh : (k.map i).hint ∈ header :: l₁)
    (hf : (k.map i).firstFree ∈ header :: l₁) (hs : vmMapEntryDelete S release fuel k i e = some k') :
    Q (k'.map i) (l₁ ++ l₂) ∧ (k'.map i).hint = (k.map i).hint ∧
      (k'.map i).firstFree = (k.map i).firstFree := by
  have he : e ∈ l₁ ++ e :: l₂ := by simp
  obtain ⟨k₁, hu, hs⟩ := Option.bind_eq_some_iff.mp hs
  have hm := unwireIfWired_plain (Steady.plain h) he hu
  have h₁ := steady_unwired h he
  rw [← hm] at h₁
  have hp := (Steady.plain h₁).plain e he
  simp only [hp.not_a_map, hp.not_sub_map, Bool.or_self, Bool.false_eq_true, if_false] at hs
  obtain ⟨s, _, rfl⟩ := Option.map_eq_some_iff.mp hs
  rw [setMachine_map, setMap_map_self]
  refine ⟨Shrinks.unlink _ h₁ (by rw [hm]; exact hh) (by rw [hm]; exact hf), ?_, ?_⟩
  · simp [vmMapEntryUnlink, hm, VmMap.setEntry]
  · simp [vmMapEntryUnlink, hm, VmMap.setEntry]

theorem deleteRange_plain {Q : VmMap → List EntryId → Prop} [Shrinks Q]
    {release : Kernel σ → Option MapId → Option (Kernel σ)}
    (h : Q (k.map i) (l₁ ++ l₂)) (he : e = after l₂ header)
    (hh : (k.map i).hint ∈ header :: l₁) (hf : (k.map i).firstFree ∈ header :: l₁)
    (hs : deleteRange S release fuel k i endAddr e = some k') : ∃ l', Q (k'.map i) l' := by
  induction fuel generalizing k e l₂ with
  | zero => simp [deleteRange] at hs
  | succ fuel ih =>
    rw [deleteRange] at hs
    split at hs
    next hc =>
      obtain ⟨q, rfl⟩ := (Steady.plain h).at_cons he hc.1
      obtain ⟨k₁, hk, hs⟩ := Option.bind_eq_some_iff.mp hs
      obtain ⟨k₂, hu, hs⟩ := Option.bind_eq_some_iff.mp hs
      obtain ⟨k₃, hr, hs⟩ := Option.bind_eq_some_iff.mp hs
      obtain ⟨k₄, hd, hs⟩ := Option.bind_eq_some_iff.mp hs
      obtain ⟨q', hq, hhint, hfree, -, -⟩ := vmMapClipEnd_plain h hc.2 hk
      have heq : e ∈ l₁ ++ e :: q' := by simp
      have hm₂ := unwireIfWired_plain (Steady.plain hq) heq hu
      have hm₃ : k₃.map i = k₂.map i := by
        obtain ⟨s, _, rfl⟩ := Option.map_eq_some_iff.mp hr
        rfl
      have h₃ : Q (k₃.map i) (l₁ ++ e :: q') := by
        rw [hm₃, hm₂]
        exact steady_unwired hq heq
      have hh₃ : (k₃.map i).hint = (k.map i).hint := by rw [hm₃, hm₂, ← hhint]; rfl
      have hf₃ : (k₃.map i).firstFree = (k.map i).firstFree := by rw [hm₃, hm₂, ← hfree]; rfl
      obtain ⟨h₄, hh₄, hf₄⟩ := vmMapEntryDelete_plain h₃ (hh₃ ▸ hh) (hf₃ ▸ hf) hd
      refine ih h₄ (Steady.plain hq).next_at ?_ ?_ hs
      · rw [hh₄, hh₃]
        exact hh
      · rw [hf₄, hf₃]
        exact hf
    next =>
      cases Option.some.inj hs
      exact ⟨_, h⟩

theorem deleteFirst_plain (h : P (k.map i) l)
    (hs : deleteFirst S fuel k i start = some (k', e)) :
    ∃ l₁ l₂, P (k'.map i) (l₁ ++ l₂) ∧ e = after l₂ header ∧
      (k'.map i).hint ∈ header :: l₁ ∧ (∀ x ∈ l₁, ((k'.map i).entry x).endAddr ≤ start) ∧
      ∀ x ∈ l₂, start ≤ ((k'.map i).entry x).start := by
  obtain ⟨⟨m, found, x⟩, hl, hs⟩ := Option.bind_eq_some_iff.mp hs
  have hsp := vmMapLookupEntry_spec (Steady.plain h).toMapInv hl
  have hm := hsp.plain h
  cases found with
  | true =>
    obtain ⟨hx, hst, hend⟩ := hsp.hit rfl
    obtain ⟨k₁, hk, hs⟩ := Option.bind_eq_some_iff.mp hs
    cases Option.some.inj hs
    obtain ⟨p, q, rfl⟩ := List.append_of_mem hx
    obtain ⟨p', hp', hge, hle⟩ := vmMapClipStart_plain (P := P) (by rwa [setMap_map_self])
      (by rw [setMap_map_self, hsp.entry_eq]; exact hend) hk
    have hpl := Steady.plain hp'
    have hprev : (k₁.map i).prev e = before header p' := by simpa using hpl.cut.2
    have hb := before_mem header p'
    rw [setMap_map_self, hsp.entry_eq] at hle
    refine ⟨p', e :: q, ?_, rfl, ?_, ?_, ?_⟩
    · rw [setMap_map_self, hprev]
      refine Steady.saveHint hp' ?_
      simp only [List.mem_cons, List.mem_append] at hb ⊢
      tauto
    · rw [setMap_map_self, hprev]
      exact hb
    · intro y hy
      rw [setMap_map_self]
      exact BitVec.le_trans (BitVec.le_def.mpr (hpl.sorted_before hy)) (hle hst)
    · intro y hy
      rw [setMap_map_self]
      change start ≤ ((k₁.map i).entry y).start
      rcases List.mem_cons.mp hy with rfl | hy
      · exact hge
      · have h₁ := hpl.sorted_after hy
        have h₂ := hpl.span_le (e := e) (by simp)
        rw [BitVec.le_def] at hge ⊢
        omega
  | false =>
    obtain ⟨hhint, l₁, l₂, rfl, rfl, hlt, hgt⟩ := hsp.miss rfl
    cases Option.some.inj hs
    rw [setMap_map_self]
    refine ⟨l₁, l₂, hm, (Steady.plain hm).cut.1, by rw [hhint]; exact before_mem header l₁,
      by rw [hsp.entry_eq]; exact hlt, ?_⟩
    intro y hy
    rw [hsp.entry_eq]
    exact BitVec.le_of_lt (hgt y hy)

theorem deleteFree_mem (h : PlainMap m (l₁ ++ l₂)) (he : e = after l₂ header)
    (hge : ∀ x ∈ l₂, start ≤ (m.entry x).start) : (deleteFree m start e).firstFree ∈ header :: l₁ := by
  rw [deleteFree]
  split
  next =>
    change m.prev e ∈ header :: l₁
    rw [he, h.cut.2]
    exact before_mem header l₁
  next hc =>
    have hm := h.free_mem
    rw [← List.cons_append, List.mem_append] at hm
    exact hm.resolve_right fun hq => hc (hge _ hq)

theorem vmMapDelete_shrinks {Q : VmMap → List EntryId → Prop} [Shrinks Q] (h : Q (k.map i) l)
    (hfree : ∀ m l₁ l₂, Q m (l₁ ++ l₂) → (∀ x ∈ l₁, (m.entry x).endAddr ≤ start) →
      (∀ x ∈ l₂, start ≤ (m.entry x).start) → Q (deleteFree m start (after l₂ header)) (l₁ ++ l₂))
    (hs : vmMapDelete S fuel k i start endAddr = some k') : ∃ l', Q (k'.map i) l' := by
  obtain ⟨⟨k₁, e⟩, hd, hs⟩ := Option.bind_eq_some_iff.mp hs
  obtain ⟨p, q, h₁, he, hh, hle, hge⟩ := deleteFirst_plain h hd
  have h₂ := hfree _ p q h₁ hle hge
  rw [← he] at h₂
  refine deleteRange_plain (by rwa [setMap_map_self]) he ?_ ?_ hs
  · rw [setMap_map_self, deleteFree]
    split <;> exact hh
  · rw [setMap_map_self]
    exact deleteFree_mem (Steady.plain h₁) he hge

theorem PlainMap.deleteFree (h : PlainMap m (l₁ ++ l₂)) (start : VmOffset) :
    PlainMap (MachVM.deleteFree m start (after l₂ header)) (l₁ ++ l₂) := by
  have hb := before_mem header l₁
  rw [MachVM.deleteFree]
  split
  next =>
    refine h.withFree ?_
    rw [h.cut.2]
    simp only [List.mem_cons, List.mem_append] at hb ⊢
    tauto
  next => exact h

theorem vmMapDelete_plain (h : PlainMap (k.map i) l)
    (hs : vmMapDelete S fuel k i start endAddr = some k') : ∃ l', PlainMap (k'.map i) l' :=
  vmMapDelete_shrinks h (fun _ _ _ hm _ _ => hm.deleteFree start) hs

end MachVM
