import MachVM.MapFaultSteps

namespace MachVM

open Ring

variable {σ : Type} {S : Services σ} {k k' : Kernel σ} {i : MapId} {l l₁ l₂ : List EntryId}
  {e : EntryId} {a start endAddr : VmOffset} {fuel : Nat} {P : VmMap → List EntryId → Prop} [Steady P]

theorem entryReference_map {x : VmMapEntry} (hp : PlainEntry x)
    (hs : entryReference S k x = some k') : k'.map = k.map := by
  simp only [entryReference, hp.not_a_map, hp.not_sub_map, Bool.or_self, Bool.false_eq_true,
    if_false] at hs
  obtain ⟨s, _, rfl⟩ := Option.map_eq_some_iff.mp hs
  rfl

theorem vmMapClipStart_plain (h : P (k.map i) (l₁ ++ e :: l₂))
    (ha : a < ((k.map i).entry e).endAddr) (hs : vmMapClipStart S k i e a = some k') :
    ∃ l₁', P (k'.map i) (l₁' ++ e :: l₂) ∧ a ≤ ((k'.map i).entry e).start ∧
      (((k.map i).entry e).start ≤ a → ((k'.map i).entry e).start ≤ a) := by
  simp only [vmMapClipStart] at hs
  split at hs
  next hc =>
    have hp := (Steady.plain h).plain e (by simp)
    rw [entryReference_map hp hs, setMap_map_self, clipFront_entry_self]
    refine ⟨l₁ ++ [(k.map i).freshEntry], ?_, BitVec.le_refl _, fun _ => BitVec.le_refl _⟩
    simpa using Steady.clipFront h hc ha
  next hc =>
    cases Option.some.inj hs
    exact ⟨l₁, h, BitVec.not_lt.mp hc, id⟩

theorem vmMapClipEnd_plain (h : P (k.map i) (l₁ ++ e :: l₂))
    (ha : ((k.map i).entry e).start < a) (hs : vmMapClipEnd S k i e a = some k') :
    ∃ l₂', P (k'.map i) (l₁ ++ e :: l₂') ∧
      (k'.map i).hint = (k.map i).hint ∧ (k'.map i).firstFree = (k.map i).firstFree ∧
      ((k'.map i).entry e).wiredCount = ((k.map i).entry e).wiredCount ∧
      ∀ x ∈ l₂', (x ∈ l₂ ∧ (k'.map i).entry x = (k.map i).entry x) ∨
        ((k'.map i).entry x).start = a := by
  simp only [vmMapClipEnd] at hs
  split at hs
  next hc =>
    have hpl := Steady.plain h
    have hp := hpl.plain e (by simp)
    have hnew := hpl.fresh_not_mem
    rw [entryReference_map hp hs, setMap_map_self]
    refine ⟨(k.map i).freshEntry :: l₂, Steady.clipBack h ha hc, rfl, rfl, ?_, ?_⟩
    · rw [clipBack_entry_self]
    · intro x hx
      have hne : (k.map i).freshEntry ≠ e := fun hc => hnew (hc ▸ by simp)
      rcases List.mem_cons.mp hx with rfl | hx
      · right
        simp [clipBack, vmMapEntryLink, vmMapEntryCreate, VmMap.setEntry, hne]
      · left
        have hxf : x ≠ (k.map i).freshEntry := fun hc => hnew (hc ▸ by simp [hx])
        have hxe := hpl.ne_after hx
        exact ⟨hx, by simp [clipBack, vmMapEntryLink, vmMapEntryCreate, VmMap.setEntry, hxf, hxe]⟩
  next hc =>
    cases Option.some.inj hs
    exact ⟨l₂, h, rfl, rfl, rfl, fun x hx => .inl ⟨hx, rfl⟩⟩

theorem MapInv.next_at {m : VmMap} (h : MapInv m (l₁ ++ e :: l₂)) : m.next e = after l₂ header := by
  have hc : MapInv m ((l₁ ++ [e]) ++ l₂) := by simpa using h
  simpa using hc.cut.1

theorem MapInv.at_cons {m : VmMap} (h : MapInv m (l₁ ++ l₂)) (he : e = after l₂ header)
    (hne : e ≠ header) : ∃ q, l₂ = e :: q := by
  cases l₂ with
  | nil => exact absurd he hne
  | cons y q => exact ⟨q, by rw [he]; rfl⟩

theorem firstInRange_plain (h : P (k.map i) l)
    (hs : firstInRange S fuel k i start = some (k', e)) :
    ∃ l₁ l₂, P (k'.map i) (l₁ ++ l₂) ∧ e = after l₂ header := by
  obtain ⟨⟨m, found, x⟩, hl, hs⟩ := Option.bind_eq_some_iff.mp hs
  have hsp := vmMapLookupEntry_spec (Steady.plain h).toMapInv hl
  have hm := hsp.plain h
  cases found with
  | true =>
    obtain ⟨hx, _, hend⟩ := hsp.hit rfl
    obtain ⟨k₁, hk, hs⟩ := Option.bind_eq_some_iff.mp hs
    cases Option.some.inj hs
    obtain ⟨p, q, rfl⟩ := List.append_of_mem hx
    obtain ⟨p', hp', _⟩ := vmMapClipStart_plain (P := P) (by rwa [setMap_map_self])
      (by rw [setMap_map_self, hsp.entry_eq]; exact hend) hk
    exact ⟨p', e :: q, hp', rfl⟩
  | false =>
    obtain ⟨-, l₁, l₂, rfl, rfl, -, -⟩ := hsp.miss rfl
    cases Option.some.inj hs
    exact ⟨l₁, l₂, by rwa [setMap_map_self], (Steady.plain hm).cut.1⟩

theorem rangeStep_plain (h : P (k.map i) (l₁ ++ l₂)) (he : e = after l₂ header)
    (hc : e ≠ header ∧ ((k.map i).entry e).start < endAddr)
    (hs : vmMapClipEnd S k i e endAddr = some k') :
    ∃ l₂', P (k'.map i) (l₁ ++ e :: l₂') ∧ (k'.map i).next e = after l₂' header := by
  obtain ⟨q, rfl⟩ := (Steady.plain h).at_cons he hc.1
  obtain ⟨q', hq, -⟩ := vmMapClipEnd_plain h hc.2 hs
  exact ⟨q', hq, (Steady.plain hq).next_at⟩

omit [Steady P] in
theorem at_shift {m : VmMap} (h : P m (l₁ ++ e :: l₂)) : P m ((l₁ ++ [e]) ++ l₂) := by
  simpa using h

theorem inheritRange_plain {inh : VmInherit} (h : P (k.map i) (l₁ ++ l₂))
    (he : e = after l₂ header) (hs : inheritRange S inh fuel k i endAddr e = some k') :
    ∃ l', P (k'.map i) l' := by
  induction fuel generalizing k e l₁ l₂ with
  | zero => simp [inheritRange] at hs
  | succ fuel ih =>
    rw [inheritRange] at hs
    split at hs
    next hc =>
      obtain ⟨k₁, hk, hs⟩ := Option.bind_eq_some_iff.mp hs
      obtain ⟨q, hq, hn⟩ := rangeStep_plain h he hc hk
      have hp := (Steady.plain hq).plain e (by simp)
      have h₂ : P ((k₁.setEntry i e
          { (k₁.map i).entry e with inheritance := inh }).map i) ((l₁ ++ [e]) ++ q) := by
        rw [setEntry_map_self]
        exact Steady.setBody (at_shift hq) rfl rfl rfl (hp.congr rfl rfl rfl rfl)
      exact ih h₂ (by simpa [VmMap.setEntry] using hn) hs
    next =>
      cases Option.some.inj hs
      exact ⟨_, h⟩

theorem protectPhysical_map {first : EntryId} {oldProt : VmProt}
    (hp : PlainEntry ((k.map i).entry e)) (hs : protectPhysical S fuel k i oldProt first e = some k') :
    k'.map = k.map := by
  simp only [protectPhysical, hp.not_a_map, Bool.false_eq_true, if_false] at hs
  split at hs
  next =>
    cases Option.some.inj hs
    rfl
  next =>
    obtain ⟨s, _, rfl⟩ := Option.map_eq_some_iff.mp hs
    rfl

theorem protectEntry_plain {x : VmMapEntry} {newProt : VmProt} {setMax : Bool} (h : PlainEntry x) :
    PlainEntry (protectEntry x newProt setMax) := by
  cases setMax <;> exact h.congr rfl rfl rfl rfl

/-- What such an invariant must survive besides to survive `vm_map_protect`. -/
class Reprotects (P : VmMap → List EntryId → Prop) : Prop extends Steady P where
  protect {m : VmMap} {l : List EntryId} {e : EntryId} (newProt : VmProt) (setMax : Bool) : P m l → e ∈ l →
    P (m.setEntry e (protectEntry (m.entry e) newProt setMax)) l

theorem protectEntry_bounds (x : VmMapEntry) (newProt : VmProt) (setMax : Bool) :
    (protectEntry x newProt setMax).start = x.start ∧ (protectEntry x newProt setMax).endAddr = x.endAddr := by
  cases setMax <;> exact ⟨rfl, rfl⟩

instance : Reprotects PlainMap where
  protect newProt setMax h he :=
    have hb := protectEntry_bounds _ newProt setMax
    h.setBody hb.1 hb.2 (protectEntry_plain (h.plain _ he))

theorem protectRange_plain {Q : VmMap → List EntryId → Prop} [Reprotects Q] {newProt : VmProt} {setMax : Bool}
    {first : EntryId} (h : Q (k.map i) (l₁ ++ l₂)) (he : e = after l₂ header)
    (hs : protectRange S newProt setMax first fuel k i endAddr e = some k') :
    ∃ l', Q (k'.map i) l' := by
  induction fuel generalizing k e l₁ l₂ with
  | zero => simp [protectRange] at hs
  | succ fuel ih =>
    rw [protectRange] at hs
    split at hs
    next hc =>
      obtain ⟨k₁, hk, hs⟩ := Option.bind_eq_some_iff.mp hs
      obtain ⟨q, hq, hn⟩ := rangeStep_plain h he hc hk
      obtain ⟨k₂, hphys, hs⟩ := Option.bind_eq_some_iff.mp hs
      have hp : PlainEntry (protectEntry ((k₁.map i).entry e) newProt setMax) :=
        protectEntry_plain ((Steady.plain hq).plain e (by simp))
      have hm := protectPhysical_map (by rw [setEntry_map_self, setEntry_entry_self]; exact hp) hphys
      have h₂ : Q (k₂.map i) ((l₁ ++ [e]) ++ q) := by
        rw [hm, setEntry_map_self]
        exact Reprotects.protect newProt setMax (at_shift hq) (by simp)
      refine ih h₂ ?_ hs
      rw [hm]
      simpa [VmMap.setEntry] using hn
    next =>
      cases Option.some.inj hs
      exact ⟨_, h⟩

@[simp] theorem setEntry_setEntry (m : VmMap) (e : EntryId) (x y : VmMapEntry) :
    (m.setEntry e x).setEntry e y = m.setEntry e y := by simp [VmMap.setEntry]

theorem setEntry_self (m : VmMap) (e : EntryId) : m.setEntry e (m.entry e) = m := by
  simp [VmMap.setEntry]

theorem wirePrepare_entry (ha : ((k.map i).entry e).isAMap = false)
    (hs : wirePrepare S k i e = some k') :
    ∃ y, k'.map i = (k.map i).setEntry e y ∧ y.start = ((k.map i).entry e).start ∧
      y.endAddr = ((k.map i).entry e).endAddr ∧
      y.maxProtection = ((k.map i).entry e).maxProtection ∧ y.isAMap = ((k.map i).entry e).isAMap ∧
      y.isSubMap = ((k.map i).entry e).isSubMap ∧ y.object ≠ .null ∧
      ((∀ j, ((k.map i).entry e).object ≠ .map j) → ∀ j, y.object ≠ .map j) := by
  simp only [wirePrepare, ha, Bool.false_eq_true, if_false] at hs
  split at hs
  next =>
    obtain ⟨⟨s, o, off⟩, _, rfl⟩ := Option.map_eq_some_iff.mp hs
    exact ⟨_, setEntry_map_self _ _ _ _, rfl, rfl, rfl, rfl, rfl, by simp, by simp⟩
  next =>
    split at hs
    next =>
      obtain ⟨⟨s, o⟩, _, rfl⟩ := Option.map_eq_some_iff.mp hs
      exact ⟨_, setEntry_map_self _ _ _ _, rfl, rfl, rfl, rfl, rfl, by simp, by simp⟩
    next hn =>
      cases Option.some.inj hs
      exact ⟨_, (setEntry_self _ _).symm, rfl, rfl, rfl, rfl, rfl, hn, id⟩

theorem wireOne_plain {k₁ : Kernel σ} (h : P (k.map i) l) (he : e ∈ l)
    (hk : k₁ = k.setEntry i e
      { (k.map i).entry e with wiredCount := ((k.map i).entry e).wiredCount + 1 })
    (hs : (if ((k.map i).entry e).wiredCount + 1 = 1 then wirePrepare S k₁ i e else some k₁) =
      some k') :
    P (k'.map i) l ∧ (k'.map i).next = (k.map i).next := by
  have hp := (Steady.plain h).plain e he
  subst hk
  split at hs
  next =>
    obtain ⟨y, hy, hst, hend, hmax, hm, hsub, hn, ho⟩ := wirePrepare_entry (by simpa using hp.not_a_map) hs
    simp only [setEntry_map_self, setEntry_entry_self, setEntry_setEntry] at hy hst hend hmax hm hsub ho
    rw [hy]
    exact ⟨Steady.setBody h hst hend hmax ⟨hm.trans hp.not_a_map, hsub.trans hp.not_sub_map, ho hp.object_ne,
      fun _ => hn⟩, rfl⟩
  next hc =>
    cases Option.some.inj hs
    rw [setEntry_map_self]
    refine ⟨Steady.setBody h rfl rfl rfl ⟨hp.not_a_map, hp.not_sub_map, hp.object_ne, fun _ => hp.wired ?_⟩, rfl⟩
    intro hz
    exact hc (by simp [hz])

theorem wireCount_plain (h : P (k.map i) (l₁ ++ l₂)) (he : e = after l₂ header)
    (hs : wireCount S fuel k i endAddr e = some k') : ∃ l', P (k'.map i) (l₁ ++ l') ∧
      e = after l' header := by
  induction fuel generalizing k e l₁ l₂ with
  | zero => simp [wireCount] at hs
  | succ fuel ih =>
    rw [wireCount] at hs
    split at hs
    next hc =>
      obtain ⟨k₁, hk, hs⟩ := Option.bind_eq_some_iff.mp hs
      obtain ⟨q, hq, hn⟩ := rangeStep_plain h he hc hk
      obtain ⟨k₂, hw, hs⟩ := Option.bind_eq_some_iff.mp hs
      obtain ⟨h₂, hnext⟩ := wireOne_plain hq (by simp) rfl hw
      obtain ⟨q', hq', -⟩ := ih (at_shift h₂) (by rw [hnext, hn]) hs
      exact ⟨e :: q', by simpa using hq', rfl⟩
    next =>
      cases Option.some.inj hs
      exact ⟨l₂, h, he⟩

theorem wireFaults_plain (h : P (k.map i) l) (he : e ∈ header :: l)
    (hs : wireFaults S fuel k i endAddr e = some k') : P (k'.map i) l := by
  induction fuel generalizing k e with
  | zero => simp [wireFaults] at hs
  | succ fuel ih =>
    rw [wireFaults] at hs
    split at hs
    next =>
      obtain ⟨k₁, hk, hs⟩ := Option.bind_eq_some_iff.mp hs
      have h₁ : P (k₁.map i) l := by
        split at hk
        next => exact vmFaultWire_plain h hk
        next =>
          cases Option.some.inj hk
          exact h
      exact ih h₁ ((Steady.plain h₁).next_mem he) hs
    next =>
      cases Option.some.inj hs
      exact h

theorem wiredCheck_true {m : VmMap} (h : MapInv m (l₁ ++ l₂)) (he : e = after l₂ header)
    (hs : wiredCheck m endAddr fuel e = some true) :
    ∀ x ∈ l₂, (m.entry x).start < endAddr → (m.entry x).wiredCount ≠ 0 := by
  induction fuel generalizing e l₁ l₂ with
  | zero => simp [wiredCheck] at hs
  | succ fuel ih =>
    simp only [wiredCheck] at hs
    split at hs
    next hc =>
      obtain ⟨q, rfl⟩ := h.at_cons he hc.1
      split at hs
      next => simp at hs
      next hw =>
        intro x hx hlt
        rcases List.mem_cons.mp hx with rfl | hx
        · exact hw
        · have hsh : MapInv m ((l₁ ++ [e]) ++ q) := by simpa using h
          exact ih hsh h.next_at hs x hx hlt
    next hc =>
      intro x hx hlt
      cases l₂ with
      | nil => simp at hx
      | cons y q =>
        cases he
        have hy : ¬(m.entry y).start < endAddr := fun hy => hc ⟨h.ne_header (by simp), hy⟩
        rcases List.mem_cons.mp hx with hxy | hx
        · exact absurd (hxy ▸ hlt) hy
        · have h₁ := h.sorted_after hx
          have h₂ := h.span_le (e := y) (by simp)
          rw [BitVec.lt_def] at hlt hy
          omega

theorem unwireEntries_plain (h : P (k.map i) (l₁ ++ l₂)) (he : e = after l₂ header)
    (hw : ∀ x ∈ l₂, ((k.map i).entry x).start < endAddr → ((k.map i).entry x).wiredCount ≠ 0)
    (hs : unwireEntries S fuel k i endAddr e = some k') : ∃ l', P (k'.map i) l' := by
  induction fuel generalizing k e l₁ l₂ with
  | zero => simp [unwireEntries] at hs
  | succ fuel ih =>
    rw [unwireEntries] at hs
    split at hs
    next hc =>
      obtain ⟨k₁, hk, hs⟩ := Option.bind_eq_some_iff.mp hs
      obtain ⟨k₂, hu, hs⟩ := Option.bind_eq_some_iff.mp hs
      obtain ⟨q, rfl⟩ := (Steady.plain h).at_cons he hc.1
      obtain ⟨q', hq, -, -, hwc, hnew⟩ := vmMapClipEnd_plain h hc.2 hk
      have hpl := Steady.plain hq
      have hp := hpl.plain e (by simp)
      have hobj := hp.wired (by rw [hwc]; exact hw e (by simp) hc.2)
      have hp' : PlainEntry { (k₁.map i).entry e with
          wiredCount := ((k₁.map i).entry e).wiredCount - 1 } :=
        ⟨hp.not_a_map, hp.not_sub_map, hp.object_ne, fun _ => hobj⟩
      have hm : k₂.map i = (k₁.map i).setEntry e { (k₁.map i).entry e with
          wiredCount := ((k₁.map i).entry e).wiredCount - 1 } := by
        split at hu
        next =>
          rw [vmFaultUnwire_map (by simpa using hp') (by simpa using hobj) hu, setEntry_map_self]
        next =>
          cases Option.some.inj hu
          rw [setEntry_map_self]
      have h₂ : P (k₂.map i) ((l₁ ++ [e]) ++ q') := by
        rw [hm]
        exact Steady.setBody (at_shift hq) rfl rfl rfl hp'
      refine ih h₂ ?_ ?_ hs
      · rw [hm]
        exact hpl.next_at
      · intro x hx hlt
        have hxe := hpl.ne_after hx
        rw [hm, setEntry_entry_of_ne _ _ hxe] at hlt ⊢
        rcases hnew x hx with ⟨hx, heq⟩ | heq
        · rw [heq] at hlt ⊢
          exact hw x (List.mem_cons_of_mem _ hx) hlt
        · rw [heq, BitVec.lt_def] at hlt
          omega
    next =>
      cases Option.some.inj hs
      exact ⟨_, h⟩

end MachVM
