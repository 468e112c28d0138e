import MachVM.MapProtect

namespace MachVM

open Ring

variable {σ : Type} {S : Services σ} {k k' : Kernel σ} {i j : MapId} {m n : VmMap}
  {l l₁ l₂ : List EntryId} {e x first : EntryId} {a b start endAddr : VmOffset} {fuel : Nat}
  {newProt oldProt mask : VmProt} {setMax : Bool} {y : VmMapEntry} {kr : KernReturn}

theorem protectCheck_view {r : Option KernReturn} (h : MapInv m (l₁ ++ l₂)) (he : e = after l₂ header)
    (hsub : ∀ x ∈ l₂, (m.entry x).isSubMap = false) (hs : protectCheck m endAddr newProt fuel e = some r) :
    (r = none ∧ ∀ x ∈ l₂, (m.entry x).start < endAddr → newProt &&& (m.entry x).maxProtection = newProt) ∨
      (r = some .protectionFailure ∧ ∃ x ∈ l₂, (m.entry x).start < endAddr ∧
        newProt &&& (m.entry x).maxProtection ≠ newProt) := by
  induction fuel generalizing e l₁ l₂ with
  | zero => simp [protectCheck] at hs
  | succ fuel ih =>
    rw [protectCheck] at hs
    split at hs
    next hc =>
      obtain ⟨q, rfl⟩ := h.at_cons he hc.1
      rw [hsub e List.mem_cons_self] at hs
      simp only [Bool.false_eq_true, if_false] at hs
      split at hs
      next hbad =>
        cases Option.some.inj hs
        exact .inr ⟨rfl, e, List.mem_cons_self, hc.2, hbad⟩
      next hok =>
        have h' : MapInv m ((l₁ ++ [e]) ++ q) := by simpa using h
        rcases ih h' h.next_at (fun x hx => hsub x (List.mem_cons_of_mem e hx)) hs with
          ⟨rfl, hall⟩ | ⟨rfl, x, hx, hlt, hbad⟩
        · refine .inl ⟨rfl, ?_⟩
          intro x hx hlt
          rcases List.mem_cons.mp hx with rfl | hx
          · exact Decidable.not_not.mp hok
          · exact hall x hx hlt
        · exact .inr ⟨rfl, x, List.mem_cons_of_mem e hx, hlt, hbad⟩
    next hc =>
      cases Option.some.inj hs
      exact .inl ⟨rfl, fun x hx hlt => absurd hlt (BitVec.not_lt.mpr (h.behind_end he hc hx))⟩

/-- No entry of the map leads to a subordinate map. -/
def NoSubMaps (m : VmMap) : Prop := ∀ a x, pageAt m a = some x → x.isSubMap = false

/-- A call of `vm_map_protect` up to the end of its first pass, with the range it is clamped to. -/
structure ProtectStart (S : Services σ) (k k₁ : Kernel σ) (i : MapId) (start endAddr : VmOffset)
    (l₁ l₂ : List EntryId) : Prop where
  live : LiveMap k₁.freshMap i (k₁.map i) (l₁ ++ l₂)
  others : Others i k k₁
  below : ∀ x ∈ l₁, ((k₁.map i).entry x).endAddr ≤ start
  above : ∀ x ∈ l₂, start ≤ ((k₁.map i).entry x).start
  same : ∀ b, pageAt (k₁.map i) b = pageAt (k.map i) b
  calls : ∀ calls : σ → List PmapProtectCall, Remembers S calls → calls k₁.machine = calls k.machine

theorem vmMapProtect_cases (hk : MapsInOrder k) (hi : i < k.freshMap) (hsub : NoSubMaps (k.map i))
    (hs : vmMapProtect S fuel k i start endAddr newProt setMax = some (k', kr)) :
    ∃ k₁ e l₁ l₂, ProtectStart S k k₁ i (vmMapRangeCheck (k.map i) start endAddr).1
        (vmMapRangeCheck (k.map i) start endAddr).2 l₁ l₂ ∧ e = after l₂ header ∧
      (kr = .protectionFailure ∧ k' = k₁ ∧
          (∃ x ∈ l₂, ((k₁.map i).entry x).start < (vmMapRangeCheck (k.map i) start endAddr).2 ∧
            newProt &&& ((k₁.map i).entry x).maxProtection ≠ newProt) ∨
        kr = .success ∧
          (∀ x ∈ l₂, ((k₁.map i).entry x).start < (vmMapRangeCheck (k.map i) start endAddr).2 →
            newProt &&& ((k₁.map i).entry x).maxProtection = newProt) ∧
          protectRange S newProt setMax e fuel k₁ i (vmMapRangeCheck (k.map i) start endAddr).2 e =
            some k') := by
  obtain ⟨l, hl⟩ := hk i hi
  have hlive : LiveMap (lockMap k i).freshMap i ((lockMap k i).map i) l := by
    rw [lockMap, setMap_map_self]
    exact hl.lock
  have hrange : vmMapRangeCheck ((lockMap k i).map i) start endAddr =
      vmMapRangeCheck (k.map i) start endAddr := by
    rw [lockMap, setMap_map_self]
    rfl
  obtain ⟨⟨k₁, e⟩, hf, hs⟩ := Option.bind_eq_some_iff.mp hs
  obtain ⟨r, hr, hs⟩ := Option.bind_eq_some_iff.mp hs
  rw [hrange] at hf hr hs
  obtain ⟨l₁, l₂, h₁, ho, he, hbelow, habove, hview⟩ := firstInRange_view hlive hf
  have hpage : ∀ b, pageAt (k₁.map i) b = pageAt (k.map i) b := by
    intro b
    rw [h₁.1.pageAt_eq, hl.1.pageAt_eq, hview b]
    apply view_congr
    intro x _
    rw [lockMap, setMap_map_self]
    rfl
  have hno : ∀ x ∈ l₂, ((k₁.map i).entry x).isSubMap = false := by
    intro x hx
    have hm : x ∈ l₁ ++ l₂ := List.mem_append_right l₁ hx
    have hat := h₁.1.view_mem hm (BitVec.le_refl _) (h₁.1.span x hm)
    rw [← h₁.1.pageAt_eq, hpage] at hat
    have hno := hsub _ _ hat
    exact hno
  have hstart : ProtectStart S k k₁ i (vmMapRangeCheck (k.map i) start endAddr).1
      (vmMapRangeCheck (k.map i) start endAddr).2 l₁ l₂ := by
    refine ⟨h₁, (others_setMap i k _).trans ho, hbelow, habove, hpage, ?_⟩
    intro calls hS
    have := firstInRange_calls hS hf
    exact this
  refine ⟨k₁, e, l₁, l₂, hstart, he, ?_⟩
  rcases protectCheck_view h₁.1 he hno hr with ⟨rfl, hall⟩ | ⟨rfl, hbad⟩
  · obtain ⟨k₂, hk₂, hs⟩ := Option.bind_eq_some_iff.mp hs
    cases Option.some.inj hs
    exact .inr ⟨rfl, hall, hk₂⟩
  · cases Option.some.inj hs
    exact .inl ⟨rfl, rfl, hbad⟩

theorem ProtectStart.holder {k₁ : Kernel σ} (h : ProtectStart S k k₁ i start endAddr l₁ l₂)
    (ha : start ≤ a) (hx : pageAt (k.map i) a = some y) :
    view (k₁.map i) l₂ a = some y := by
  rw [← h.same, h.live.1.pageAt_eq, view_append] at hx
  cases hv : view (k₁.map i) l₁ a with
  | none => rwa [hv, Option.none_or] at hx
  | some z =>
    obtain ⟨x, hx, -, hhi, -⟩ := view_eq_some hv
    have h₁ := BitVec.le_def.mp (h.below x hx)
    have h₂ := BitVec.lt_def.mp hhi
    have h₃ := BitVec.le_def.mp ha
    omega

theorem ProtectStart.refused_iff {k₁ : Kernel σ} (h : ProtectStart S k k₁ i start endAddr l₁ l₂) :
    (∃ x ∈ l₂, ((k₁.map i).entry x).start < endAddr ∧
        newProt &&& ((k₁.map i).entry x).maxProtection ≠ newProt) ↔
      ∃ a x, start ≤ a ∧ a < endAddr ∧ pageAt (k.map i) a = some x ∧ newProt &&& x.maxProtection ≠ newProt := by
  constructor
  · rintro ⟨x, hx, hlt, hbad⟩
    have hm : x ∈ l₁ ++ l₂ := List.mem_append_right l₁ hx
    refine ⟨((k₁.map i).entry x).start, ((k₁.map i).entry x).locate ((k₁.map i).entry x).start,
      h.above x hx, hlt, ?_, hbad⟩
    rw [← h.same, h.live.1.pageAt_eq, h.live.1.view_mem hm (BitVec.le_refl _) (h.live.1.span x hm)]
  · rintro ⟨a, y, hlo, hhi, hy, hbad⟩
    obtain ⟨x, hx, hxlo, -, rfl⟩ := view_eq_some (h.holder hlo hy)
    refine ⟨x, hx, ?_, hbad⟩
    have h₁ := BitVec.le_def.mp hxlo
    have h₂ := BitVec.lt_def.mp hhi
    rw [BitVec.lt_def]
    omega

theorem ProtectStart.done {k₁ : Kernel σ} (h : ProtectStart S k k₁ i start endAddr l₁ l₂)
    {l₂' : List EntryId} (hlive : LiveMap k'.freshMap i (k'.map i) (l₁ ++ l₂'))
    (hkeep : ∀ x ∈ l₁, (k'.map i).entry x = (k₁.map i).entry x)
    (hview : ∀ b, view (k'.map i) l₂' b = (view (k₁.map i) l₂ b).map (protectBelow endAddr newProt setMax))
    (a : VmOffset) :
    pageAt (k'.map i) a = if start ≤ a ∧ a < endAddr
      then (pageAt (k.map i) a).map fun x => protectEntry x newProt setMax else pageAt (k.map i) a := by
  have hbefore : pageAt (k.map i) a = (view (k₁.map i) l₁ a).or (view (k₁.map i) l₂ a) := by
    rw [← h.same, h.live.1.pageAt_eq, view_append]
  rw [hlive.1.pageAt_eq, view_append, view_congr hkeep, hview a, hbefore]
  cases hv : view (k₁.map i) l₁ a with
  | some z =>
    obtain ⟨x, hx, -, hhi, -⟩ := view_eq_some hv
    have hout : ¬ (start ≤ a ∧ a < endAddr) := by
      intro hin
      have h₁ := BitVec.le_def.mp (h.below x hx)
      have h₂ := BitVec.lt_def.mp hhi
      have h₃ := BitVec.le_def.mp hin.1
      omega
    rw [if_neg hout, Option.some_or, Option.some_or]
  | none =>
    rw [Option.none_or, Option.none_or]
    cases hw : view (k₁.map i) l₂ a with
    | none => simp
    | some y =>
      obtain ⟨x, hx, hlo, -, -⟩ := view_eq_some hw
      have hge : start ≤ a := BitVec.le_trans (h.above x hx) hlo
      rw [Option.map_some, Option.map_some, protectBelow, view_start hw]
      by_cases ha : a < endAddr
      · rw [if_pos ha, if_pos ⟨hge, ha⟩]
      · rw [if_neg ha, if_neg fun hin => ha hin.2]

/-- What a call of `vm_map_protect` leaves: nothing is changed when it is refused, and the range it
is clamped to has the protection otherwise. -/
structure ProtectOutcome (k k' : Kernel σ) (i : MapId) (start endAddr : VmOffset) (newProt : VmProt)
    (setMax : Bool) (kr : KernReturn) : Prop where
  code : kr = .success ∨ kr = .protectionFailure
  refused : kr = .protectionFailure ↔
    ∃ a x, start ≤ a ∧ a < endAddr ∧ pageAt (k.map i) a = some x ∧ newProt &&& x.maxProtection ≠ newProt
  unchanged : kr = .protectionFailure → ∀ a, pageAt (k'.map i) a = pageAt (k.map i) a
  done : kr = .success → ∀ a, pageAt (k'.map i) a = if start ≤ a ∧ a < endAddr
    then (pageAt (k.map i) a).map fun x =>
      if setMax then { x with maxProtection := newProt, protection := x.protection &&& newProt }
      else { x with protection := newProt }
    else pageAt (k.map i) a
  others : ∀ j < k.freshMap, j ≠ i → ∀ a, pageAt (k'.map j) a = pageAt (k.map j) a
  inOrder : MapsInOrder k'
  fresh : k'.freshMap = k.freshMap

theorem protectEntry_eq (x : VmMapEntry) : protectEntry x newProt setMax =
    if setMax then { x with maxProtection := newProt, protection := x.protection &&& newProt }
    else { x with protection := newProt } := by
  cases setMax with
  | false => rfl
  | true =>
    have : newProt &&& x.protection = x.protection &&& newProt := BitVec.and_comm _ _
    simp only [protectEntry, if_true, this]

theorem vmMapProtect_outcome (hk : MapsInOrder k) (hi : i < k.freshMap) (hsub : NoSubMaps (k.map i))
    (hs : vmMapProtect S fuel k i start endAddr newProt setMax = some (k', kr)) :
    ProtectOutcome k k' i (vmMapRangeCheck (k.map i) start endAddr).1
      (vmMapRangeCheck (k.map i) start endAddr).2 newProt setMax kr := by
  obtain ⟨k₁, e, l₁, l₂, hst, he, ⟨rfl, rfl, hbad⟩ | ⟨rfl, hall, hr⟩⟩ := vmMapProtect_cases hk hi hsub hs
  · refine ⟨.inr rfl, iff_of_true rfl (hst.refused_iff.mp hbad), fun _ => hst.same, by simp, ?_, ?_, ?_⟩
    · exact fun j hj hji => hst.others.pageAt hk hj hji
    · exact hk.others hst.others hst.live
    · exact hst.others.fresh
  · have hk₁ : MapsInOrder k₁ := hk.others hst.others hst.live
    obtain ⟨l₂', hlive, ho, hkeep, -, hview, -⟩ := protectRange_view hst.live hk₁ he (.inr rfl) hr
    have hother := hst.others.trans ho
    refine ⟨.inl rfl, ?_, by simp, ?_, ?_, hk.others hother hlive, hother.fresh⟩
    · refine iff_of_false (by simp) fun hbad => ?_
      obtain ⟨x, hx, hlt, hno⟩ := hst.refused_iff.mpr hbad
      exact hno (hall x hx hlt)
    · intro _ a
      rw [hst.done hlive hkeep hview a]
      simp only [protectEntry_eq]
    · exact fun j hj hji => hother.pageAt hk hj hji

section MaxAt

variable {max : VmProt}

/-- The address has the maximum protection `max` if it is mapped. -/
structure MaxAt (a : VmOffset) (max : VmProt) (m : VmMap) (l : List EntryId) : Prop extends PlainMap m l where
  max_eq : ∀ x, view m l a = some x → x.maxProtection = max

theorem MaxAt.of_entries (h : MaxAt a max m l) (hp : PlainMap n l₁)
    (he : ∀ e ∈ l₁, (n.entry e).Holds a → ∃ e' ∈ l, (m.entry e').Holds a ∧
      (n.entry e).maxProtection = (m.entry e').maxProtection) : MaxAt a max n l₁ := by
  refine ⟨hp, fun x hx => ?_⟩
  obtain ⟨e, hel, hlo, hhi, rfl⟩ := view_eq_some hx
  obtain ⟨e', he', hhold, hmax⟩ := he e hel ⟨hlo, hhi⟩
  have hold := h.max_eq _ (h.toPlainMap.view_mem he' hhold.1 hhold.2)
  exact hmax.trans hold

instance : Shrinks (MaxAt a max) where
  plain h := h.toPlainMap
  lock h := h.of_entries h.toPlainMap.lock fun e he hh => ⟨e, he, hh, rfl⟩
  saveHint h he := h.of_entries (h.toPlainMap.saveHint he) fun e he hh => ⟨e, he, hh, rfl⟩
  setBody {m l e y} h hs he hm hp := by
    refine h.of_entries (h.toPlainMap.setBody hs he hp) fun x hx hh => ⟨x, hx, ?_⟩
    by_cases hxe : x = e
    · subst hxe
      rw [setEntry_entry_self] at hh ⊢
      exact ⟨by rwa [VmMapEntry.Holds, hs, he] at hh, hm⟩
    · rw [setEntry_entry_of_ne _ _ hxe] at hh ⊢
      exact ⟨hh, rfl⟩
  clipFront {m l₁ l₂ e b} h hs he := by
    have hnew := h.toPlainMap.fresh_not_mem
    refine ⟨h.toPlainMap.clipFront hs he, ?_⟩
    rw [view_append, clipFront_view h.toMapInv hs he, view_congr fun x hx => clipFront_entry_of_ne
      (fun hc => hnew (hc ▸ by simp [hx])) (h.toPlainMap.ne_before hx) b, ← view_append]
    exact h.max_eq
  clipBack {m l₁ l₂ e b} h hs he := by
    have hnew := h.toPlainMap.fresh_not_mem
    refine ⟨h.toPlainMap.clipBack hs he, ?_⟩
    rw [view_append, clipBack_view h.toMapInv hs he, view_congr fun x hx => clipBack_entry_of_ne
      (fun hc => hnew (hc ▸ by simp [hx])) (h.toPlainMap.ne_before hx) b, ← view_append]
    exact h.max_eq
  unlink {m l₁ l₂ e} size h hh hf := by
    refine h.of_entries (Shrinks.unlink (P := PlainMap) size h.toPlainMap hh hf) fun x hx hhold => ⟨x, ?_, hhold, rfl⟩
    simp only [List.mem_append, List.mem_cons] at hx ⊢
    tauto

/-- The calls that neither enter a region nor are `vm_map_protect`. -/
def MapOp.keepsMax : MapOp → Bool
  | .find .. | .protect .. => false
  | _ => true

theorem MaxAt.merge (h : MaxAt a max m (l₁ ++ x :: e :: l₂)) (hb : (m.entry e).start ≤ (m.entry x).endAddr)
    (hm : (m.entry x).maxProtection = (m.entry e).maxProtection) :
    MaxAt a max (mergeEntry m x e) (l₁ ++ x :: l₂) := by
  refine h.of_entries (mergeEntry_plain h.toPlainMap) fun z hz hh => ?_
  rw [mergeEntry_entry] at hh ⊢
  split at hh
  next hzx =>
    subst hzx
    rw [if_pos rfl]
    by_cases hlt : a < (m.entry z).endAddr
    · exact ⟨z, by simp, ⟨hh.1, hlt⟩, rfl⟩
    · exact ⟨e, by simp, ⟨BitVec.le_trans hb (BitVec.not_lt.mp hlt), hh.2⟩, hm⟩
  next hzx =>
    rw [if_neg hzx]
    refine ⟨z, ?_, hh, rfl⟩
    simp only [List.mem_append, List.mem_cons] at hz ⊢
    tauto

theorem mapStep_maxAt {op : MapOp} (ho : op.keepsMax = true) (h : MaxAt a max (k.map i) l)
    (hs : mapStep S fuel k i op = some k') : ∃ l', MaxAt a max (k'.map i) l' := by
  cases op with
  | remove s e =>
    obtain ⟨⟨k₁, kr⟩, hr, rfl⟩ := Option.map_eq_some_iff.mp hs
    obtain ⟨k₂, hd, hr⟩ := Option.map_eq_some_iff.mp hr
    cases hr
    refine vmMapDelete_shrinks (lockMap_plain h) (fun m l₁ l₂ hm _ _ => ?_) hd
    refine hm.of_entries (hm.toPlainMap.deleteFree _) fun x hx hh => ⟨x, hx, ?_⟩
    rw [show (deleteFree m _ (after l₂ header)).entry = m.entry by unfold deleteFree; split <;> rfl] at hh ⊢
    exact ⟨hh, rfl⟩
  | inherit s e inh =>
    obtain ⟨⟨k₁, kr⟩, hp, rfl⟩ := Option.map_eq_some_iff.mp hs
    exact vmMapInherit_plain h hp
  | pageable s e b =>
    obtain ⟨⟨k₁, kr⟩, hp, rfl⟩ := Option.map_eq_some_iff.mp hs
    exact vmMapPageable_plain h hp
  | simplify s =>
    obtain ⟨n, hp, hn, -, hk | ⟨l₁, l₂, x, e, rfl, hb, hm, hk⟩⟩ := vmMapSimplify_cases h.toPlainMap hs
    all_goals
      have hn' := h.of_entries hp fun e he hh => ⟨e, he, by rw [hn] at hh ⊢; exact ⟨hh, rfl⟩⟩
      rw [hk]
    · exact ⟨l, hn'⟩
    · exact ⟨_, hn'.merge hb hm⟩
  | lookup va ft =>
    obtain ⟨⟨k₁, j, r⟩, hl, rfl⟩ := Option.map_eq_some_iff.mp hs
    exact ⟨l, (vmMapLookup_plain h hl).2⟩
  | find | protect => cases ho

/-- They write no maximum protection and map no address anew, as the other steps of a `ProtectRun`. -/
theorem mapStep_keepsMax {op : MapOp} (ho : op.keepsMax = true) (h : PlainMap (k.map i) l)
    (hs : mapStep S fuel k i op = some k') {x' : VmMapEntry} (hx' : pageAt (k'.map i) a = some x') :
    ∃ x, pageAt (k.map i) a = some x ∧ x'.maxProtection = x.maxProtection := by
  have hkeep : ∀ max, (∀ x, pageAt (k.map i) a = some x → x.maxProtection = max) → x'.maxProtection = max := by
    intro max hmax
    obtain ⟨l', h'⟩ := mapStep_maxAt ho (⟨h, fun x hx => hmax x (h.pageAt_eq a ▸ hx)⟩ : MaxAt a max _ _) hs
    exact h'.max_eq x' (h'.toPlainMap.pageAt_eq a ▸ hx')
  cases hx : pageAt (k.map i) a with
  | some x => exact ⟨x, rfl, hkeep _ fun y hy => by rw [Option.some.inj (hx.symm.trans hy)]⟩
  | none =>
    -- every value is the maximum protection of an address that is not mapped
    have hall : ∀ max, x'.maxProtection = max := fun max => hkeep max fun y hy => by simp [hx] at hy
    exact absurd ((hall protNone).symm.trans (hall protAll)) (by decide)

end MaxAt

/-- Runs along which an address stays mapped. Besides `vm_map_protect` nothing writes the maximum
protection of an address that is mapped. -/
inductive ProtectRun (S : Services σ) (i : MapId) (a : VmOffset) (k₀ : Kernel σ) : Kernel σ → Prop
  | start : ProtectRun S i a k₀ k₀
  | protect {k k' : Kernel σ} {kr : KernReturn} (fuel : Nat) (start endAddr : VmOffset)
      (newProt : VmProt) (setMax : Bool) : ProtectRun S i a k₀ k →
      vmMapProtect S fuel k i start endAddr newProt setMax = some (k', kr) → ProtectRun S i a k₀ k'
  | other {k k' : Kernel σ} : ProtectRun S i a k₀ k → MapsInOrder k' → i < k'.freshMap →
      NoSubMaps (k'.map i) →
      (∀ x', pageAt (k'.map i) a = some x' →
        ∃ x, pageAt (k.map i) a = some x ∧ x'.maxProtection = x.maxProtection) →
      ProtectRun S i a k₀ k'

theorem ProtectOutcome.noSubMaps (h : ProtectOutcome k k' i start endAddr newProt setMax kr)
    (hsub : NoSubMaps (k.map i)) : NoSubMaps (k'.map i) := by
  intro a x' hx'
  rcases h.code with hkr | hkr
  · rw [h.done hkr] at hx'
    split at hx'
    next =>
      obtain ⟨x, hx, rfl⟩ := Option.map_eq_some_iff.mp hx'
      cases setMax <;> exact hsub a x hx
    next => exact hsub a x' hx'
  · rw [h.unchanged hkr] at hx'
    exact hsub a x' hx'

theorem ProtectOutcome.narrows (h : ProtectOutcome k k' i start endAddr newProt setMax kr) {x' : VmMapEntry}
    (hx' : pageAt (k'.map i) a = some x') :
    ∃ x, pageAt (k.map i) a = some x ∧ x'.maxProtection &&& x.maxProtection = x'.maxProtection := by
  rcases h.code with hkr | hkr
  · rw [h.done hkr] at hx'
    split at hx'
    next hin =>
      obtain ⟨x, hx, rfl⟩ := Option.map_eq_some_iff.mp hx'
      refine ⟨x, hx, ?_⟩
      cases setMax with
      | false => exact BitVec.and_self
      | true =>
        by_contra hno
        have hr := h.refused.mpr ⟨a, x, hin.1, hin.2, hx, hno⟩
        rw [hkr] at hr
        cases hr
    next => exact ⟨x', hx', BitVec.and_self⟩
  · rw [h.unchanged hkr] at hx'
    exact ⟨x', hx', BitVec.and_self⟩

theorem protectRun_narrows {k₀ : Kernel σ} (hk : MapsInOrder k₀) (hi : i < k₀.freshMap)
    (hsub : NoSubMaps (k₀.map i)) (hrun : ProtectRun S i a k₀ k) :
    MapsInOrder k ∧ i < k.freshMap ∧ NoSubMaps (k.map i) ∧ ∀ x', pageAt (k.map i) a = some x' →
      ∃ x, pageAt (k₀.map i) a = some x ∧ x'.maxProtection &&& x.maxProtection = x'.maxProtection := by
  induction hrun with
  | start => exact ⟨hk, hi, hsub, fun x' hx' => ⟨x', hx', BitVec.and_self⟩⟩
  | protect fuel start endAddr newProt setMax _ hs ih =>
    obtain ⟨hk₁, hi₁, hsub₁, hmax⟩ := ih
    have hout := vmMapProtect_outcome hk₁ hi₁ hsub₁ hs
    refine ⟨hout.inOrder, hout.fresh ▸ hi₁, hout.noSubMaps hsub₁, ?_⟩
    intro x' hx'
    obtain ⟨x₁, hx₁, hle₁⟩ := hout.narrows hx'
    obtain ⟨x, hx, hle⟩ := hmax x₁ hx₁
    refine ⟨x, hx, ?_⟩
    rw [← hle₁, BitVec.and_assoc, hle]
  | other _ hk' hi' hsub' hsame ih =>
    refine ⟨hk', hi', hsub', ?_⟩
    intro x' hx'
    obtain ⟨x₁, hx₁, heq⟩ := hsame x' hx'
    obtain ⟨x, hx, hle⟩ := ih.2.2.2 x₁ hx₁
    exact ⟨x, hx, by rw [heq, hle]⟩

/-- `vm_map_protect` is all or nothing and exact, and no run of it adds a bit to the maximum
protection of an address that stays mapped. -/
theorem vmMapProtect_exact (hk : MapsInOrder k) (hi : i < k.freshMap) (hsub : NoSubMaps (k.map i)) :
    (∀ fuel start endAddr newProt setMax k' kr,
      vmMapProtect S fuel k i start endAddr newProt setMax = some (k', kr) →
      ProtectOutcome k k' i (vmMapRangeCheck (k.map i) start endAddr).1
        (vmMapRangeCheck (k.map i) start endAddr).2 newProt setMax kr) ∧
    ∀ a k', ProtectRun S i a k k' → ∀ x', pageAt (k'.map i) a = some x' →
      ∃ x, pageAt (k.map i) a = some x ∧ x'.maxProtection &&& x.maxProtection = x'.maxProtection :=
  ⟨fun _ _ _ _ _ _ _ hs => vmMapProtect_outcome hk hi hsub hs,
    fun _ _ hrun => (protectRun_narrows hk hi hsub hrun).2.2.2⟩

/-- A call keeps to the entry its range lies in, and does not write-enable copy-on-write memory. -/
def CallOk (k : Kernel σ) (i : MapId) (c : PmapProtectCall) : Prop :=
  c.start ≤ c.endAddr ∧ ∃ e, entryAt (k.map i) c.start = some e ∧
    let x := (k.map i).entry e
    c.endAddr ≤ x.endAddr ∧
      if x.isAMap then
        ∃ j f, x.object = .map j ∧ entryAt (k.map j) ((c.start - x.start) + x.offset) = some f ∧
          (c.endAddr - x.start) + x.offset ≤ ((k.map j).entry f).endAddr ∧
          (((k.map j).entry f).copyOnWrite = true → c.prot &&& protWrite = 0)
      else x.copyOnWrite = true → c.prot &&& protWrite = 0

/-- The first mapped address of a range, and what it is. -/
def FirstMapped (m : VmMap) (start endAddr b : VmOffset) (f : VmMapEntry) : Prop :=
  start ≤ b ∧ b < endAddr ∧ pageAt m b = some f ∧ ∀ c, start ≤ c → c < b → pageAt m c = none

/-- The mask of the first entry serves every entry: the call is refused, or the range starts with
copy-on-write memory, or no direct copy-on-write memory in it gains write permission. -/
def MaskServes (m : VmMap) (start endAddr : VmOffset) (newProt : VmProt) (setMax : Bool) : Prop :=
  (∃ a x, start ≤ a ∧ a < endAddr ∧ pageAt m a = some x ∧ newProt &&& x.maxProtection ≠ newProt) ∨
    (∃ b f, FirstMapped m start endAddr b f ∧ f.copyOnWrite = true) ∨
    ∀ a x, start ≤ a → a < endAddr → pageAt m a = some x → x.isAMap = false → x.copyOnWrite = true →
      (protectEntry x newProt setMax).protection ≠ x.protection →
      (protectEntry x newProt setMax).protection &&& protWrite = 0

theorem and_protectMask_write (p : VmProt) (h : y.copyOnWrite = true) :
    (p &&& protectMask y) &&& protWrite = 0 := by
  have : (~~~protWrite) &&& protWrite = 0 := by decide
  rw [protectMask, if_pos h, BitVec.and_assoc, this]
  exact BitVec.and_zero

theorem CallOf.share_ok {c : PmapProtectCall} {l : List EntryId} (hc : CallOf k i mask e c)
    (h : MapInv (k.map i) l) (he : e ∈ l) (hm : ((k.map i).entry e).isAMap = true) : CallOk k i c := by
  rw [CallOf] at hc
  rw [if_pos hm] at hc
  obtain ⟨j, hobj, -, -, hs⟩ := hc
  obtain ⟨f, hf, hhi, hprot⟩ := hs.share
  have hlt : c.start < ((k.map i).entry e).endAddr := by
    have h₁ := BitVec.lt_def.mp hs.order
    have h₂ := BitVec.le_def.mp hs.high
    rw [BitVec.lt_def]
    omega
  refine ⟨BitVec.le_of_lt hs.order, e, h.entryAt he hs.low hlt, hs.high, ?_⟩
  rw [if_pos hm]
  exact ⟨j, f, hobj, hf, hhi, fun hcow => by rw [hprot, and_protectMask_write _ hcow]⟩

theorem ProtectStart.page {k₁ : Kernel σ} (h : ProtectStart S k k₁ i start endAddr l₁ l₂)
    (hy : view (k₁.map i) l₂ b = some y) : start ≤ b ∧ pageAt (k.map i) b = some y := by
  obtain ⟨z, hz, hlo, hhi, rfl⟩ := view_eq_some hy
  refine ⟨BitVec.le_trans (h.above z hz) hlo, ?_⟩
  rw [← h.same, h.live.1.pageAt_eq]
  exact h.live.1.view_mem (List.mem_append_right l₁ hz) hlo hhi

theorem ProtectStart.head_le {k₁ : Kernel σ} {p : List EntryId}
    (h : ProtectStart S k k₁ i start endAddr l₁ (e :: p)) (hx : x ∈ e :: p) :
    ((k₁.map i).entry e).start.toNat ≤ ((k₁.map i).entry x).start.toNat := by
  rcases List.mem_cons.mp hx with rfl | hx
  · exact Nat.le_refl _
  · have := h.live.1.sorted_after hx
    have := h.live.1.span_le (e := e) (by simp)
    omega

theorem ProtectStart.firstMapped {k₁ : Kernel σ} {p : List EntryId}
    (h : ProtectStart S k k₁ i start endAddr l₁ (e :: p)) (hv : view (k₁.map i) (e :: p) a = some y)
    (ha : a < endAddr) :
    FirstMapped (k.map i) start endAddr ((k₁.map i).entry e).start
      (((k₁.map i).entry e).locate ((k₁.map i).entry e).start) := by
  obtain ⟨hlo, hpage⟩ := h.page h.live.1.view_tail_self
  refine ⟨hlo, ?_, hpage, ?_⟩
  · obtain ⟨v, hv, hvlo, -, -⟩ := view_eq_some hv
    have h₀ := h.head_le hv
    have h₁ := BitVec.le_def.mp hvlo
    have h₂ := BitVec.lt_def.mp ha
    rw [BitVec.lt_def]
    omega
  · intro c hclo hchi
    rw [Option.eq_none_iff_forall_ne_some]
    intro v hv
    obtain ⟨u, hu, hulo, -, -⟩ := view_eq_some (h.holder hclo hv)
    have h₀ := h.head_le hu
    have h₁ := BitVec.le_def.mp hulo
    have h₂ := BitVec.lt_def.mp hchi
    omega

theorem FirstMapped.unique {c : VmOffset} {f g : VmMapEntry} (h : FirstMapped m start endAddr b f)
    (h' : FirstMapped m start endAddr c g) : f = g := by
  obtain ⟨hb, -, hf, hmin⟩ := h
  obtain ⟨hc, -, hg, hmin'⟩ := h'
  have hbc : b = c := by
    apply BitVec.eq_of_toNat_eq
    rcases Nat.lt_trichotomy b.toNat c.toNat with hlt | heq | hgt
    · rw [hmin' b hb (BitVec.lt_def.mpr hlt)] at hf
      cases hf
    · exact heq
    · rw [hmin c hc (BitVec.lt_def.mpr hgt)] at hg
      cases hg
  subst hbc
  exact Option.some.inj (hf.symm.trans hg)

/-- A call of `vm_map_protect` that went through, from entry `e` on. -/
structure ProtectDone (S : Services σ) (k k₁ k' : Kernel σ) (i : MapId) (start endAddr : VmOffset)
    (newProt : VmProt) (setMax : Bool) (e : EntryId) (l₁ l₂ l₂' : List EntryId) : Prop where
  began : ProtectStart S k k₁ i start endAddr l₁ l₂
  place : e = after l₂ header
  allowed : ∀ x ∈ l₂, ((k₁.map i).entry x).start < endAddr →
    newProt &&& ((k₁.map i).entry x).maxProtection = newProt
  live : LiveMap k'.freshMap i (k'.map i) (l₁ ++ l₂')
  seen : ∀ b, view (k'.map i) l₂' b = (view (k₁.map i) l₂ b).map (protectBelow endAddr newProt setMax)
  head : l₂ ≠ [] → ((k'.map i).entry e).copyOnWrite = ((k₁.map i).entry e).copyOnWrite

theorem ProtectDone.was {k₁ : Kernel σ} {l₂' : List EntryId}
    (h : ProtectDone S k k₁ k' i start endAddr newProt setMax e l₁ l₂ l₂') (hx : x ∈ l₂')
    (hlo : ((k'.map i).entry x).start ≤ b) (hhi : b < ((k'.map i).entry x).endAddr) :
    ∃ y, view (k₁.map i) l₂ b = some y ∧
      ((k'.map i).entry x).locate b = protectBelow endAddr newProt setMax y := by
  have hat := h.live.1.view_mem (List.mem_append_right l₁ hx) hlo hhi
  have hnone : view (k'.map i) l₁ b = none := by
    rw [Option.eq_none_iff_forall_ne_some]
    intro z hz
    obtain ⟨w, hw, -, hwhi, -⟩ := view_eq_some hz
    have h₁ := (List.pairwise_append.mp h.live.1.sorted).2.2 w hw x hx
    exact BitVec.not_lt.mpr (BitVec.le_trans h₁ hlo) hwhi
  rw [view_append, hnone, Option.none_or, h.seen b] at hat
  obtain ⟨y, hy, hye⟩ := Option.map_eq_some_iff.mp hat
  exact ⟨y, hy, hye.symm⟩

theorem ProtectDone.serves {k₁ : Kernel σ} {l₂' : List EntryId} {new : List PmapProtectCall}
    (h : ProtectDone S k k₁ k' i start endAddr newProt setMax e l₁ l₂ l₂')
    (hr : RangeCalls k₁ k' i l₂ l₂' endAddr (protectMask ((k'.map i).entry e)) new)
    (hok : ∀ c ∈ new, CallOk k' i c) : MaskServes (k.map i) start endAddr newProt setMax := by
  by_contra hno
  rw [MaskServes, not_or, not_or] at hno
  obtain ⟨-, hfirst, hgain⟩ := hno
  push Not at hgain
  obtain ⟨a, x, halo, hahi, hx, hxm, hxcow, hxp, hxw⟩ := hgain
  have hxv := h.began.holder halo hx
  -- the entry that holds the address now
  have hxv' := h.seen a
  rw [hxv, Option.map_some, protectBelow, view_start hxv, if_pos hahi] at hxv'
  obtain ⟨w, hw, hwlo, hwhi, hwe⟩ := view_eq_some hxv'
  obtain ⟨-, -, -, -, fm, -, fc⟩ := protectEntry_fields newProt setMax x
  have hwm : ((k'.map i).entry w).isAMap = false := (congrArg (·.isAMap) hwe).symm.trans (fm.trans hxm)
  have hwc : ((k'.map i).entry w).copyOnWrite = true :=
    (congrArg (·.copyOnWrite) hwe).symm.trans (fc.trans hxcow)
  have hwp : ((k'.map i).entry w).protection = (protectEntry x newProt setMax).protection :=
    (congrArg (·.protection) hwe).symm
  have hws : ((k'.map i).entry w).start < endAddr := by
    have h₁ := BitVec.le_def.mp hwlo
    have h₂ := BitVec.lt_def.mp hahi
    rw [BitVec.lt_def]
    omega
  have hmem : w ∈ l₁ ++ l₂' := List.mem_append_right l₁ hw
  have hcall := hr.direct w hw hwm hws a x hwlo hwhi hxv (by rw [hwp]; exact hxp)
  obtain ⟨-, f, hf, hok⟩ := hok _ hcall
  have hfw : entryAt (k'.map i) ((k'.map i).entry w).start = some w :=
    h.live.1.entryAt hmem (BitVec.le_refl _) (h.live.1.span w hmem)
  rw [hfw] at hf
  cases Option.some.inj hf
  have hro := hok.2
  rw [if_neg (by rw [hwm]; simp)] at hro
  -- so the mask took the write permission away, and the first entry is copy-on-write
  obtain ⟨p, rfl⟩ : ∃ p, l₂ = e :: p := by
    have hplace := h.place
    cases l₂ with
    | nil => cases hxv
    | cons z p => exact ⟨p, by rw [hplace]; rfl⟩
  have hecow : ((k'.map i).entry e).copyOnWrite = true := by
    by_contra hne
    have hmask : protectMask ((k'.map i).entry e) = protAll := by rw [protectMask, if_neg hne]
    have hall : protAll &&& protWrite = protWrite := by decide
    have := hro hwc
    rw [hmask, BitVec.and_assoc, hall, hwp] at this
    exact hxw this
  exact hfirst ⟨_, _, h.began.firstMapped hxv hahi, (h.head (List.cons_ne_nil e p)).symm.trans hecow⟩

theorem ProtectDone.calls_ok {k₁ : Kernel σ} {l₂' : List EntryId} {new : List PmapProtectCall}
    (h : ProtectDone S k k₁ k' i start endAddr newProt setMax e l₁ l₂ l₂')
    (hr : RangeCalls k₁ k' i l₂ l₂' endAddr (protectMask ((k'.map i).entry e)) new)
    (hserves : MaskServes (k.map i) start endAddr newProt setMax) : ∀ c ∈ new, CallOk k' i c := by
  intro c hc
  obtain ⟨x, hx, hxs, hcall, hxp⟩ := hr.sound c hc
  have hmem : x ∈ l₁ ++ l₂' := List.mem_append_right l₁ hx
  cases hm : ((k'.map i).entry x).isAMap with
  | true => exact hcall.share_ok h.live.1 hmem hm
  | false =>
    rw [CallOf, if_neg (by rw [hm]; simp)] at hcall
    have hspan := h.live.1.span x hmem
    subst hcall
    refine ⟨BitVec.le_of_lt hspan, x, h.live.1.entryAt hmem (BitVec.le_refl _) hspan,
      BitVec.le_refl _, ?_⟩
    rw [if_neg (by rw [hm]; simp)]
    intro hcow
    obtain ⟨y, hy, hye⟩ := h.was hx (BitVec.le_refl _) hspan
    rw [protectBelow, view_start hy, if_pos hxs] at hye
    obtain ⟨hylo, hyp⟩ := h.began.page hy
    obtain ⟨-, -, -, -, fm, -, fc⟩ := protectEntry_fields newProt setMax y
    have hprot : ((k'.map i).entry x).protection = (protectEntry y newProt setMax).protection :=
      congrArg (·.protection) hye
    have hne := hxp y hy
    rcases hserves with hbad | ⟨b, f, hfirst, hfcow⟩ | hno
    · obtain ⟨z, hz, hzlt, hzbad⟩ := h.began.refused_iff.mpr hbad
      exact absurd (h.allowed z hz hzlt) hzbad
    · obtain ⟨p, rfl⟩ : ∃ p, l₂ = e :: p := by
        have hplace := h.place
        cases l₂ with
        | nil => cases hy
        | cons z p => exact ⟨p, by rw [hplace]; rfl⟩
      refine and_protectMask_write _ ?_
      rw [h.head (List.cons_ne_nil e p)]
      rw [hfirst.unique (h.began.firstMapped hy hxs)] at hfcow
      exact hfcow
    · have hw := hno _ y hylo hxs hyp (fm.symm.trans ((congrArg (·.isAMap) hye).symm.trans hm))
        (fc.symm.trans ((congrArg (·.copyOnWrite) hye).symm.trans hcow)) (by rw [← hprot]; exact hne)
      simp only
      rw [BitVec.and_assoc, BitVec.and_comm (protectMask _), ← BitVec.and_assoc, hprot, hw]
      exact BitVec.zero_and

/-- The pmap calls of `vm_map_protect` leave copy-on-write memory read-only exactly if the mask of
the first entry of the range serves all of them. -/
theorem vmMapProtect_calls_iff {calls : σ → List PmapProtectCall} (hS : Remembers S calls)
    (hk : MapsInOrder k) (hi : i < k.freshMap) (hsub : NoSubMaps (k.map i)) (hb : SharesBacked k i)
    (hs : vmMapProtect S fuel k i start endAddr newProt setMax = some (k', kr)) :
    ∃ new, calls k'.machine = calls k.machine ++ new ∧
      ((∀ c ∈ new, CallOk k' i c) ↔ MaskServes (k.map i) (vmMapRangeCheck (k.map i) start endAddr).1
        (vmMapRangeCheck (k.map i) start endAddr).2 newProt setMax) := by
  obtain ⟨k₁, e, l₁, l₂, hst, he, ⟨-, rfl, hbad⟩ | ⟨-, hall, hr⟩⟩ := vmMapProtect_cases hk hi hsub hs
  · refine ⟨[], by rw [hst.calls calls hS, List.append_nil], ?_⟩
    exact iff_of_true (by simp) (.inl (hst.refused_iff.mp hbad))
  · have hk₁ : MapsInOrder k₁ := hk.others hst.others hst.live
    obtain ⟨l₂', hlive, ho, hkeep, -, hview, hhead, hcalls⟩ :=
      protectRange_view hst.live hk₁ he (.inr rfl) hr
    have hb₁ : SharesBacked k₁ i := by
      obtain ⟨l, hl⟩ := hk i hi
      refine hb.congr hk (fun a x hx => hl.object_lt hx) hst.others ?_
      exact fun a x' hx' => ⟨x', by rw [← hst.same]; exact hx', rfl, rfl, rfl⟩
    obtain ⟨new, hnew, hrange⟩ := hcalls calls hS hb₁
    have hdone : ProtectDone S k k₁ k' i (vmMapRangeCheck (k.map i) start endAddr).1
        (vmMapRangeCheck (k.map i) start endAddr).2 newProt setMax e l₁ l₂ l₂' := by
      refine ⟨hst, he, hall, hlive, hview, ?_⟩
      intro hne
      obtain ⟨-, -, -, hcow⟩ := hhead hne
      exact hcow
    exact ⟨new, by rw [hnew, hst.calls calls hS], hdone.serves hrange, hdone.calls_ok hrange⟩

/-- A machine that remembers its calls of `pmap_protect` and does nothing else. -/
def recorder : Services (List PmapProtectCall) where
  kernelObject := 0
  objectAllocate s _ := some (s, 0)
  objectReference s _ := some s
  objectDeallocate s _ := some s
  objectCoalesce s _ _ _ _ _ _ := some (s, false)
  objectShadow s _ _ _ := some (s, 0, 0)
  objectCopy s o off _ := some (s, { object := o, offset := off, srcNeedsCopy := true, dstNeedsCopy := true })
  objectCopySlowly s _ _ _ _ := some (s, none)
  objectPageRemove s _ _ _ := some s
  objectPmapRemove s _ _ _ := some s
  objectPmapCopy s _ _ _ := some s
  pmapCreate s := some (s, 0)
  pmapDestroy s _ := some s
  pmapRemove s _ _ _ := some s
  pmapProtect s pmap lo hi prot := some (s ++ [⟨pmap, lo, hi, prot⟩])
  pmapCopy s _ _ _ _ _ := some s
  pmapPageable s _ _ _ _ := some s
  pmapChangeWiring s _ _ _ := some s
  lockReadToWrite s _ := some (s, false)
  faultPage s _ _ _ _ _ prot := some (s, .success 0 prot)
  faultRelease s _ _ := some s
  copyObjectChanged _ _ := false
  faultEnter s _ _ _ _ _ _ _ := some s
  faultWireFast s _ _ _ := some (s, .failure)
  faultUnwirePage s _ _ := some s

theorem recorder_remembers : Remembers recorder id :=
  ⟨fun h => (Option.some.inj h).symm, fun h => (Option.some.inj h).symm⟩

/-- A task map with a page of its own and a copy-on-write page behind it, both read-only. -/
def mixedKernel : Kernel (List PmapProtectCall) where
  machine := []
  map _ := tableMap 0x1000 0x8000 (some 1)
    [{ start := 0x2000, endAddr := 0x3000, object := .object 1, protection := protRead, maxProtection := protAll },
      { start := 0x3000, endAddr := 0x4000, object := .object 2, protection := protRead, maxProtection := protAll
        copyOnWrite := true }]
  freshMap := 1

theorem mixedKernel_inv : MapInv (mixedKernel.map 0) [1, 2] := by
  refine ⟨⟨?_, by decide⟩, rfl, by decide, by decide, by decide, by decide, by decide, by decide,
    by decide⟩
  simp only [Seg]
  decide

theorem mixedKernel_order : MapsInOrder mixedKernel := by
  intro i hi
  have : i = 0 := Nat.lt_one_iff.mp hi
  subst this
  exact ⟨[1, 2], mixedKernel_inv, by decide⟩

theorem mixedKernel_pages (ha : pageAt (mixedKernel.map 0) a = some y) :
    y.isSubMap = false ∧ y.isAMap = false := by
  rw [mixedKernel_inv.pageAt_eq] at ha
  obtain ⟨e, he, -, -, rfl⟩ := view_eq_some ha
  simp only [List.mem_cons, List.not_mem_nil, or_false] at he
  rcases he with rfl | rfl <;> exact ⟨rfl, rfl⟩

theorem mixedKernel_backed : SharesBacked mixedKernel 0 := by
  intro a x hx hm
  rw [(mixedKernel_pages hx).2] at hm
  cases hm

/-- The first page loses all access, and the second one keeps its own. -/
theorem mixedKernel_exact : ∃ k', vmMapProtect recorder 4 mixedKernel 0 0x2000 0x3000 protNone false =
    some (k', .success) ∧
    ∀ a, pageAt (k'.map 0) a = if 0x2000 ≤ a ∧ a < 0x3000
      then (pageAt (mixedKernel.map 0) a).map fun x => { x with protection := protNone }
      else pageAt (mixedKernel.map 0) a := by
  have hsome : ((vmMapProtect recorder 4 mixedKernel 0 0x2000 0x3000 protNone false).map fun r => r.2) =
      some .success := by decide +kernel
  obtain ⟨⟨k', kr⟩, hk, hr⟩ := Option.map_eq_some_iff.mp hsome
  cases hr
  have h := (vmMapProtect_exact mixedKernel_order (by decide)
    fun a x hx => (mixedKernel_pages hx).1).1 4 0x2000 0x3000 protNone false k' .success hk
  exact ⟨k', hk, h.done rfl⟩

/-- Only the page of its own is write-enabled. -/
theorem ownPage_calls : ∃ k' new, vmMapProtect recorder 4 mixedKernel 0 0x2000 0x3000
      (protRead ||| protWrite) false = some (k', .success) ∧
    id k'.machine = id mixedKernel.machine ++ new ∧ ∀ c ∈ new, CallOk k' 0 c := by
  have hsome : ((vmMapProtect recorder 4 mixedKernel 0 0x2000 0x3000 (protRead ||| protWrite) false).map
      fun r => r.2) = some .success := by decide +kernel
  obtain ⟨⟨k', kr⟩, hk, hr⟩ := Option.map_eq_some_iff.mp hsome
  cases hr
  obtain ⟨new, hnew, hiff⟩ := vmMapProtect_calls_iff recorder_remembers mixedKernel_order (by decide)
    (fun a x hx => (mixedKernel_pages hx).1) mixedKernel_backed hk
  refine ⟨k', new, hk, hnew, hiff.mpr (.inr (.inr ?_))⟩
  intro a x hlo hhi hx _ hcow _
  rw [mixedKernel_inv.pageAt_eq] at hx
  obtain ⟨e, he, helo, -, rfl⟩ := view_eq_some hx
  simp only [List.mem_cons, List.not_mem_nil, or_false] at he
  rcases he with rfl | rfl
  · cases hcow
  · have h₁ := BitVec.le_def.mp helo
    have h₂ := BitVec.lt_def.mp hhi
    have h₃ : ((mixedKernel.map 0).entry 2).start.toNat = 0x3000 := rfl
    have h₄ : (vmMapRangeCheck (mixedKernel.map 0) 0x2000 0x3000).2.toNat = 0x3000 := by decide
    omega

/-- The whole range is write-enabled, the copy-on-write page with it. -/
theorem mixedRange_writable : ∃ k', vmMapProtect recorder 4 mixedKernel 0 0x2000 0x4000
      (protRead ||| protWrite) false = some (k', .success) ∧
    MapsInOrder mixedKernel ∧ NoSubMaps (mixedKernel.map 0) ∧ SharesBacked mixedKernel 0 ∧
    ∃ c ∈ k'.machine, ¬ CallOk k' 0 c := by
  have hsome : ((vmMapProtect recorder 4 mixedKernel 0 0x2000 0x4000 (protRead ||| protWrite) false).map
      fun r => (r.2, r.1.machine, entryAt (r.1.map 0) 0x3000, ((r.1.map 0).entry 2).isAMap,
        ((r.1.map 0).entry 2).copyOnWrite)) =
      some (.success, [⟨some 1, 0x2000, 0x3000, protRead ||| protWrite⟩,
        ⟨some 1, 0x3000, 0x4000, protRead ||| protWrite⟩], some 2, false, true) := by decide +kernel
  obtain ⟨⟨k', kr⟩, hk, hr⟩ := Option.map_eq_some_iff.mp hsome
  simp only [Prod.mk.injEq] at hr
  obtain ⟨rfl, hcalls, hat, hmap, hcow⟩ := hr
  refine ⟨k', hk, mixedKernel_order, fun a x hx => (mixedKernel_pages hx).1, mixedKernel_backed,
    ⟨some 1, 0x3000, 0x4000, protRead ||| protWrite⟩, by rw [hcalls]; simp, ?_⟩
  rintro ⟨-, e, he, -, hok⟩
  rw [hat] at he
  cases Option.some.inj he
  rw [if_neg (by rw [hmap]; simp)] at hok
  exact absurd (hok hcow) (by decide)

end MachVM
