import MachVM.ObjectPages

namespace MachVM

/-- The panics that report a broken relation between a copy object and its source. -/
def Stop.copyPanic : Stop → Bool
  | .panic .terminateInconsistency => true
  | .panic .copyInconsistency => true
  | .panic .collapsedCopyObject => true
  | _ => false

/-- A call that, if it returns, establishes `P`, and that does not report a broken copy. -/
def Settles {α : Type} (r : Except Stop α) (P : α → Prop) : Prop :=
  match r with
  | .ok a => P a
  | .error why => why.copyPanic = false

/-- The object graph of a state, with references held from outside. -/
def Holds (s : VmState) (held : ObjId → Nat) : Prop := ∃ rank, ObjectInv s.graph held rank

/-- The references of the paging data sent away in objects made between two states. -/
def donated (held : ObjId → Nat) (n n' : Nat) : ObjId → Nat :=
  fun y : Nat => held y + if n ≤ y ∧ y < n' then 1 else 0

/-- The state after a call that may send data away. Objects do not change their kind. -/
structure Donates (held : ObjId → Nat) (s t : VmState) : Prop where
  le : s.nextObject ≤ t.nextObject
  holds : Holds t (donated held s.nextObject t.nextObject)
  kind : ∀ y < s.nextObject, (t.object y).temporary = (s.object y).temporary

variable {α β : Type} {s t : VmState} {held : ObjId → Nat} {o : ObjId} {mem : PageId}

theorem Settles.mono {r : Except Stop α} {P Q : α → Prop} (h : Settles r P) (hpq : ∀ a, P a → Q a) :
    Settles r Q := by
  cases r with
  | ok a => exact hpq a h
  | error why => exact h

theorem Settles.bind {r : Except Stop α} {f : α → Except Stop β} {P : α → Prop} {Q : β → Prop}
    (h : Settles r P) (hf : ∀ a, P a → Settles (f a) Q) : Settles (r.bind f) Q := by
  cases r with
  | ok a => exact hf a h
  | error why => exact h

theorem Settles.map {r : Except Stop α} {f : α → β} {P : α → Prop} {Q : β → Prop}
    (h : Settles r P) (hf : ∀ a, P a → Q (f a)) : Settles (r.map f) Q := by
  cases r with
  | ok a => exact hf a h
  | error why => exact h

theorem pageResult_settles {r : Option α} {P : α → Prop} (h : ∀ a, r = some a → P a) :
    Settles (pageResult r) P := by
  cases r with
  | none => rfl
  | some a => exact h a rfl

theorem foldlM_settles {f : VmState → PageId → Except Stop VmState} {P : VmState → Prop}
    (h : ∀ s mem, P s → Settles (f s mem) P) (q : List PageId) (hs : P s) :
    Settles (q.foldlM f s) P := by
  induction q generalizing s with
  | nil => exact hs
  | cons mem q ih =>
    rw [List.foldlM_cons]
    exact (h s mem hs).bind fun t ht => ih ht

theorem donated_self (held : ObjId → Nat) (n : Nat) : donated held n n = held := by
  refine funext fun y : Nat => ?_
  have : ¬(n ≤ y ∧ y < n) := by omega
  simp [donated, this]

theorem donated_donated (held : ObjId → Nat) {n n' n'' : Nat} (h : n ≤ n') (h' : n' ≤ n'') :
    donated (donated held n n') n' n'' = donated held n n'' := by
  refine funext fun y : Nat => ?_
  simp only [donated]
  by_cases h₁ : n ≤ y
  · by_cases h₂ : y < n'
    · have : ¬n' ≤ y := by omega
      have : y < n'' := by omega
      simp [*]
    · have : n' ≤ y := by omega
      simp [*]
  · have : ¬n' ≤ y := by omega
    simp [*]

theorem donated_succ (held : ObjId → Nat) (n : Nat) : donated held n (n + 1) = plus held n := by
  refine funext fun y : Nat => ?_
  have : (n ≤ y ∧ y < n + 1) ↔ y = n := by omega
  simp only [donated, plus, this]

theorem donated_plusOpt (held : ObjId → Nat) (src : Option ObjId) (n n' : ObjId) :
    donated (plusOpt held src) n n' = plusOpt (donated held n n') src := by
  funext y
  rw [plusOpt_apply]
  simp only [donated]
  rw [plusOpt_apply]
  omega

theorem Donates.refl (h : Holds s held) : Donates held s s := by
  refine ⟨Nat.le_refl _, ?_, fun y _ => rfl⟩
  rw [donated_self]
  exact h

theorem Donates.trans {u : VmState} (h : Donates held s t)
    (h' : Donates (donated held s.nextObject t.nextObject) t u) : Donates held s u := by
  refine ⟨Nat.le_trans h.le h'.le, ?_, ?_⟩
  · have := h'.holds
    rwa [donated_donated held h.le h'.le] at this
  · intro y hy
    exact (h'.kind y (Nat.lt_of_lt_of_le hy h.le)).trans (h.kind y hy)

theorem Donates.drop {u : VmState} {src : Option ObjId} (h : Donates (plusOpt held src) s t)
    (h' : Donates (donated held s.nextObject t.nextObject) t u) : Donates held s u := by
  refine ⟨Nat.le_trans h.le h'.le, ?_, ?_⟩
  · have := h'.holds
    rwa [donated_donated held h.le h'.le] at this
  · intro y hy
    exact (h'.kind y (Nat.lt_of_lt_of_le hy h.le)).trans (h.kind y hy)

theorem Holds.congr (h : Holds s held) (hg : t.graph = s.graph) : Holds t held := by
  obtain ⟨rank, h⟩ := h
  exact ⟨rank, hg ▸ h⟩

theorem nextObject_congr (hg : t.graph = s.graph) : t.nextObject = s.nextObject :=
  congrArg ObjGraph.next hg

theorem temporary_congr (hg : t.graph = s.graph) (y : ObjId) :
    (t.object y).temporary = (s.object y).temporary :=
  congrArg ObjLink.temporary (congrFun (congrArg ObjGraph.link hg) y)

theorem Donates.of_holds (h : Holds t held) (hn : t.nextObject = s.nextObject)
    (hk : ∀ y, (t.object y).temporary = (s.object y).temporary) : Donates held s t := by
  refine ⟨Nat.le_of_eq hn.symm, ?_, fun y _ => hk y⟩
  rw [hn, donated_self]
  exact h

theorem Donates.congr_right {u : VmState} (h : Donates held s t) (hg : u.graph = t.graph) :
    Donates held s u := by
  have hn := nextObject_congr hg
  refine ⟨hn ▸ h.le, ?_, fun y hy => (temporary_congr hg y).trans (h.kind y hy)⟩
  rw [hn]
  exact h.holds.congr hg

/-- What the object template contributes to the graph. -/
def newLink : ObjLink := ({} : VmObject).link

theorem vmObjectAllocate_graph (s : VmState) (size : VmSize) :
    (vmObjectAllocate s size).1.graph = s.graph.alloc newLink := by
  simp only [VmState.graph, vmObjectAllocate, VmState.setObject, ObjGraph.alloc, ObjGraph.set,
    ObjGraph.mk.injEq, true_and, and_true]
  funext y
  by_cases hy : y = s.nextObject
  · subst hy
    rw [Function.update_self, Function.update_self]
    rfl
  · rw [Function.update_of_ne hy, Function.update_of_ne hy]

theorem vmObjectAllocate_object (s : VmState) (size : VmSize) (h : o ≠ s.nextObject) :
    (vmObjectAllocate s size).1.object o = s.object o :=
  Function.update_of_ne h _ _

theorem vmObjectAllocate_holds (h : Holds s held) (size : VmSize) :
    Holds (vmObjectAllocate s size).1 (plus held s.nextObject) := by
  obtain ⟨rank, h⟩ := h
  have h' : ObjectInv s.graph (plusOpt held none) rank := h
  refine ⟨Function.update rank s.nextObject 1, ?_⟩
  rw [vmObjectAllocate_graph]
  exact h'.alloc rfl rfl rfl rfl rfl rfl (fun hc => absurd rfl hc) (by rintro b ⟨⟩)

theorem vmPageoutPage_donates (h : Holds s held) : Settles (vmPageoutPage s mem) (Donates held s) := by
  simp only [vmPageoutPage]
  refine Settles.bind (pageResult_settles fun old hold => (trivial : True)) fun old _ => ?_
  refine Settles.bind (pageResult_settles fun pager hpager => (trivial : True)) fun pager _ => ?_
  have hr : Holds (vmPageRemove s mem) held := h.congr (vmPageRemove_graph s mem)
  have ha := vmObjectAllocate_holds hr pageSize
  have hn : (vmPageRemove s mem).nextObject = s.nextObject := nextObject_congr (vmPageRemove_graph s mem)
  have hd : Donates held s (vmObjectAllocate (vmPageRemove s mem) pageSize).1 := by
    have hk : ∀ y < s.nextObject, ((vmObjectAllocate (vmPageRemove s mem) pageSize).1.object y).temporary =
        (s.object y).temporary := by
      intro y hy
      have hne : y ≠ (vmPageRemove s mem).nextObject := by
        rw [hn]
        exact Nat.ne_of_lt hy
      rw [vmObjectAllocate_object _ _ hne]
      exact temporary_congr (vmPageRemove_graph s mem) y
    refine ⟨by simp [vmObjectAllocate, hn], ?_, hk⟩
    have : (vmObjectAllocate (vmPageRemove s mem) pageSize).1.nextObject = s.nextObject + 1 := by
      simp [vmObjectAllocate, hn]
    rw [this, donated_succ, ← hn]
    exact ha
  refine Settles.bind (pageResult_settles fun s₁ hi => hd.congr_right (vmPageInsert_graph hi)) ?_
  intro s₁ h₁
  have h₂ := h₁.congr_right (modPage_graph s₁ mem fun p => { p with dirty := true, busy := false, wanted := false })
  refine Settles.bind (P := Donates held s) ?_ ?_
  · split
    · exact h₂.congr_right (modPage_graph _ _ _)
    · exact pageResult_settles fun s₂ ha => h₂.congr_right (vmPageActivate_graph ha)
  · intro s₂ h₃
    split
    · exact h₃.congr_right rfl
    · exact h₃.congr_right rfl

theorem terminatePage_donates {discard : Bool} (h : Holds s held) :
    Settles (terminatePage discard s mem) (Donates held s) := by
  simp only [terminatePage]
  split
  next => exact vmPageoutPage_donates h
  next => exact pageResult_settles fun t ht => (Donates.refl h).congr_right (vmPageFree_graph ht)

theorem detachCopy_kill (h : Holds s held) (ha : (s.object o).alive = true) :
    Settles (detachCopy (s.modObject o fun x => { x with alive := false }) o)
      fun t => t.graph = s.graph.kill o := by
  obtain ⟨rank, h⟩ := h
  generalize hs₁ : s.modObject o (fun x => { x with alive := false }) = s₁
  have hlink : ∀ y, s₁.object y = if y = o then { s.object o with alive := false } else s.object y := by
    intro y
    rw [← hs₁]
    exact Function.update_apply _ _ _ _
  have hg₁ : s₁.graph = s.graph.set o { s.graph.link o with alive := false } := by
    rw [← hs₁, modObject_graph]
    rfl
  have hsh : (s₁.object o).shadow = (s.object o).shadow := by simp [hlink]
  unfold detachCopy
  cases hs : (s.object o).shadow with
  | none =>
    rw [hsh, hs]
    show s₁.graph = _
    rw [hg₁, ObjGraph.kill, ObjGraph.set]
    congr 1
    funext y
    have hno : ¬((s.graph.link o).shadow = some y ∧ (s.graph.link y).copy = some o) := by
      rintro ⟨hy, -⟩
      rw [show (s.graph.link o).shadow = none from hs] at hy
      cases hy
    rw [if_neg hno]
    by_cases hy : y = o
    · subst hy
      rw [Function.update_self]
      simp
    · rw [Function.update_of_ne hy]
      simp [hy]
  | some b =>
    have hbo : b ≠ o := h.shadow_ne ha hs
    have hcb : (s₁.object b).copy = (s.object b).copy := by simp [hlink, hbo]
    rw [hsh, hs]
    simp only [hcb]
    have hkill : ∀ y, y ≠ b → (s.graph.kill o).link y = s₁.graph.link y := by
      intro y hy
      have hno : ¬((s.graph.link o).shadow = some y ∧ (s.graph.link y).copy = some o) := by
        rintro ⟨hyb, -⟩
        rw [show (s.graph.link o).shadow = some b from hs] at hyb
        exact hy (Option.some.inj hyb).symm
      rw [hg₁]
      simp only [ObjGraph.kill, if_neg hno]
      by_cases hyo : y = o
      · subst hyo
        simp
      · simp [set_link_of_ne _ _ hyo, hyo]
    have hbl : s₁.graph.link b = s.graph.link b := by rw [hg₁, set_link_of_ne _ _ hbo]
    split
    next hc =>
      show VmState.graph _ = _
      rw [modObject_graph]
      have hs₂ : (s₁.graph.set b { s₁.object b with copy := none }.link).link = (s.graph.kill o).link := by
        funext y
        by_cases hy : y = b
        · subst hy
          rw [set_link_self]
          have hyes : (s.graph.link o).shadow = some y ∧ (s.graph.link y).copy = some o := ⟨hs, hc⟩
          simp only [ObjGraph.kill, if_pos hyes]
          simp [VmObject.link, VmState.graph, hlink, hbo]
        · rw [set_link_of_ne _ _ hy, hkill y hy]
      calc s₁.graph.set b { s₁.object b with copy := none }.link
          = { s₁.graph with link := (s₁.graph.set b { s₁.object b with copy := none }.link).link } := rfl
        _ = s.graph.kill o := by
            rw [hs₂, hg₁]
            rfl
    next hc =>
      split
      next hcn => exact absurd (h.copy_of_shadow ha hs hcn) hc
      next hcn =>
        have hcn : (s.object b).copy = none := by simpa using hcn
        show s₁.graph = _
        have hs₂ : s₁.graph.link = (s.graph.kill o).link := by
          funext y
          by_cases hy : y = b
          · subst hy
            have hno : ¬((s.graph.link o).shadow = some y ∧ (s.graph.link y).copy = some o) := by
              rintro ⟨-, hy⟩
              rw [show (s.graph.link y).copy = none from hcn] at hy
              cases hy
            rw [hbl]
            simp only [ObjGraph.kill, if_neg hno]
            simp [hbo]
          · rw [hkill y hy]
        calc s₁.graph = { s₁.graph with link := s₁.graph.link } := rfl
          _ = s.graph.kill o := by
            rw [hs₂, hg₁]
            rfl

theorem vmObjectTerminate_donates (h : Holds s held) (ha : (s.object o).alive = true)
    (h₀ : (s.object o).refCount = 0) (hc : o ∉ s.cachedList) :
    Settles (vmObjectTerminate s o) (Donates (plusOpt held (s.object o).shadow) s) := by
  simp only [vmObjectTerminate]
  refine (detachCopy_kill h ha).bind ?_
  intro s₁ hg₁
  have h₁ : Donates (plusOpt held (s.object o).shadow) s s₁ := by
    obtain ⟨rank, h⟩ := h
    have hk : ∀ y, (s₁.object y).temporary = (s.object y).temporary := fun y =>
      congrArg ObjLink.temporary (congrFun (congrArg ObjGraph.link hg₁) y)
    refine Donates.of_holds ⟨rank, ?_⟩ (congrArg ObjGraph.next hg₁) hk
    rw [hg₁]
    exact h.kill ha h₀ hc
  split
  next => rfl
  next =>
    have h₂ := h₁.congr_right (foldl_graph dequeuePage_graph (s₁.object o).memq s₁)
    refine Settles.bind (foldlM_settles ?_ _ h₂) ?_
    · intro s₂ mem hs₂
      exact (terminatePage_donates hs₂.holds).mono fun t ht => hs₂.trans ht
    · intro s₃ h₃
      exact h₃.congr_right (modObject_graph_same fun _ => rfl)

theorem ObjectInv.recache {g : ObjGraph} {rank : ObjId → Nat} {q : List ObjId}
    (h : ObjectInv g held rank) (hn : q.Nodup)
    (hq : ∀ y ∈ q, (g.link y).alive = true ∧ (g.link y).refCount = 0 ∧ (g.link y).temporary = false) :
    ObjectInv { g with cachedList := q } held rank :=
  ⟨h.fresh, h.exact, h.dead, h.ranked, hq, hn, h.kind, h.external, h.shadow_external,
    h.copy_spec⟩

theorem cacheObject_holds {victim : Option ObjId} (h : Holds s held) (ha : (s.object o).alive = true)
    (h₀ : (s.object o).refCount = 0) (ht : (s.object o).temporary = false) (hc : o ∉ s.cachedList)
    (hs : cacheObject s o = (t, victim)) :
    Donates held s t ∧
      ∀ v ∈ victim, (t.object v).alive = true ∧ (t.object v).refCount = 0 ∧ v ∉ t.cachedList := by
  obtain ⟨rank, h⟩ := h
  simp only [cacheObject] at hs
  generalize hs₁ : vmObjectDeactivatePages
    { s with cachedList := queueEnter s.cachedList o, cached := s.cached + 1 } o = s₁ at hs
  have hg₁ : s₁.graph = { s.graph with cachedList := s.cachedList ++ [o] } := by
    rw [← hs₁]
    exact foldl_graph vmPageDeactivate_graph _ _
  have hq₁ : s₁.cachedList = s.cachedList ++ [o] := congrArg ObjGraph.cachedList hg₁
  have hn₁ : s₁.nextObject = s.nextObject := congrArg ObjGraph.next hg₁
  have hk₁ : ∀ y, (s₁.object y).temporary = (s.object y).temporary := fun y =>
    congrArg ObjLink.temporary (congrFun (congrArg ObjGraph.link hg₁) y)
  have h₁ : ObjectInv s₁.graph held rank := by
    rw [hg₁]
    refine h.recache ?_ ?_
    · exact List.nodup_append.mpr ⟨h.cached_nodup, List.nodup_singleton o,
        fun a ha b hb => by cases List.mem_singleton.mp hb; exact fun hab => hc (hab ▸ ha)⟩
    · intro y hy
      cases List.mem_append.mp hy with
      | inl hy => exact h.cached y hy
      | inr hy =>
        cases List.mem_singleton.mp hy
        exact ⟨ha, h₀, ht⟩
  split at hs
  next hq =>
    rw [hq₁] at hq
    simp at hq
  next first rest hq =>
    have hcached := h₁.cached
    have hnodup := h₁.cached_nodup
    have hg : s₁.graph.cachedList = first :: rest := hq
    rw [hg] at hcached hnodup
    split at hs
    next =>
      cases hs
      refine ⟨Donates.of_holds ⟨rank, ?_⟩ hn₁ hk₁, ?_⟩
      · exact h₁.recache (List.nodup_cons.mp hnodup).2 fun y hy => hcached y (List.mem_cons_of_mem _ hy)
      · intro v hv
        cases Option.some.inj hv
        have := hcached first List.mem_cons_self
        exact ⟨this.1, this.2.1, (List.nodup_cons.mp hnodup).1⟩
    next =>
      cases hs
      exact ⟨Donates.of_holds ⟨rank, h₁⟩ hn₁ hk₁, by rintro v ⟨⟩⟩

theorem vmObjectDeallocate_donates (fuel : Nat) (s : VmState) (o : Option ObjId) (held : ObjId → Nat)
    (h : Holds s (plusOpt held o)) : Settles (vmObjectDeallocate fuel s o) (Donates held s) := by
  induction fuel generalizing s o held with
  | zero =>
    cases o with
    | none => exact Donates.refl h
    | some o => rfl
  | succ fuel ih =>
    cases o with
    | none => exact Donates.refl h
    | some o =>
      obtain ⟨rank, h⟩ := h
      have h : ObjectInv s.graph (plus held o) rank := h
      have hpos : 0 < plus held o o := by
        rw [plus_self]
        omega
      have ha := h.held_alive hpos
      have hc := h.not_cached hpos
      simp only [vmObjectDeallocate]
      generalize hs₁ : s.modObject o (fun x => { x with refCount := x.refCount - 1 }) = s₁
      have hg₁ : s₁.graph = s.graph.set o
          { s.graph.link o with refCount := (s.graph.link o).refCount - 1 } := by
        rw [← hs₁, modObject_graph]
        rfl
      have h₁ : ObjectInv s₁.graph held rank := by
        rw [hg₁]
        exact h.release hc
      have hd₁ : Donates held s s₁ := by
        refine Donates.of_holds ⟨rank, h₁⟩ (congrArg ObjGraph.next hg₁) ?_
        intro y
        rw [← hs₁]
        exact modObject_temporary (by intro x; rfl) y
      have hq₁ : s₁.cachedList = s.cachedList := congrArg ObjGraph.cachedList hg₁
      have hc₁ : o ∉ s₁.cachedList := by
        rw [hq₁]
        exact hc
      have ha₁ : (s₁.object o).alive = true := by
        show (s₁.graph.link o).alive = true
        rw [hg₁, set_link_self]
        exact ha
      split
      next => exact hd₁
      next hle =>
        have h₀ : (s₁.object o).refCount = 0 := by
          have hex : (s₁.object o).refCount = s₁.graph.shadowRefs o + held o := h₁.exact o ha₁
          omega
        generalize hr : (if (s₁.object o).canPersist then cacheObject s₁ o else (s₁, some o)) = r
        obtain ⟨s₂, victim⟩ := r
        have h₂ : Donates held s₁ s₂ ∧
            ∀ v ∈ victim, (s₂.object v).alive = true ∧ (s₂.object v).refCount = 0 ∧
              v ∉ s₂.cachedList := by
          split at hr
          next hp => exact cacheObject_holds ⟨rank, h₁⟩ ha₁ h₀ ((h₁.kind o ha₁).2 hp) hc₁ hr
          next =>
            cases hr
            refine ⟨Donates.refl ⟨rank, h₁⟩, ?_⟩
            intro v hv
            cases Option.some.inj hv
            exact ⟨ha₁, h₀, hc₁⟩
        obtain ⟨h₂, hv⟩ := h₂
        have hd₂ : Donates held s s₂ := by
          refine hd₁.trans ?_
          rw [show s₁.nextObject = s.nextObject from congrArg ObjGraph.next hg₁, donated_self]
          exact h₂
        cases victim with
        | none => exact hd₂
        | some v =>
          obtain ⟨hva, hv₀, hvc⟩ := hv v rfl
          refine (vmObjectTerminate_donates hd₂.holds hva hv₀ hvc).bind ?_
          intro s₃ h₃
          have hh₃ := h₃.holds
          rw [donated_plusOpt] at hh₃
          refine (ih s₃ _ _ hh₃).mono ?_
          intro s₄ h₄
          exact hd₂.trans (h₃.drop h₄)

end MachVM
