import MachVM.IpcSpaceCache

namespace MachVM.Ipc.Space

open Mirror

/-- The translations of the tasks agree with their four lists, and the two searches return them. -/
structure Consistent (s : SState) : Prop where
  onLists : ∀ e x t, s.entry e = some x → x.task = some t →
    (s.taskList t).count e = 1 ∧ (s.objList x.obj).count e = 1 ∧
      (s.tp (portHashTP t x.obj)).count e = 1 ∧ (s.tl (portHashTL t x.name)).count e = 1
  onNoOther : ∀ e x t, s.entry e = some x → x.task = some t →
    (∀ u, e ∈ s.taskList u → u = t) ∧ (∀ o, e ∈ s.objList o → o = x.obj) ∧
      (∀ b, e ∈ s.tp b → b = portHashTP t x.obj) ∧ (∀ b, e ∈ s.tl b → b = portHashTL t x.name)
  unique : ∀ e f x y t, s.entry e = some x → s.entry f = some y → x.task = some t →
    y.task = some t → x.name = y.name ∨ x.obj = y.obj → e = f
  unreserved : ∀ e x, s.entry e = some x → x.name ≠ 0
  lookup : ∀ t n e, objEntryLookup s t n = some e ↔
    ∃ x, s.entry e = some x ∧ x.task = some t ∧ x.name = n
  find : ∀ t o e, objEntryFind s t o = some e ↔
    ∃ x, s.entry e = some x ∧ x.task = some t ∧ x.obj = o

/-- However many entries of a kind point to an object, it has a reference for each of them and for
each message that holds one. -/
def Counted (s : SState) (p : Entry → Prop) : Prop :=
  ∀ o (l : List EntryId), l.Nodup → (∀ e ∈ l, ∃ x, s.entry e = some x ∧ x.obj = o ∧ p x) →
    (l.length + inTransit s o : Int) ≤ (s.obj o).refs

/-- No entry is without a task. -/
def Whole (s : SState) : Prop := ∀ e x, s.entry e = some x → x.task ≠ none

variable {kernels : Prop} {s r : SState} {t : TaskId} {e : EntryId} {x : Entry}

theorem Tables.consistent (h : Tables s) : Consistent s where
  onLists := by
    intro e x t hx ht
    have htp : tpKey (s.entry e) = some (portHashTP t x.obj) := by simp [hx, tpKey, rightKey, ht]
    have htl : tlKey (s.entry e) = some (portHashTL t x.name) := by simp [hx, tlKey, nameKey, ht]
    refine ⟨?_, ?_, ?_, ?_⟩
    · exact List.count_eq_one_of_mem (h.task.nodup t) ((h.task.mem_iff t e).mpr (by rw [hx]; exact ht))
    · exact List.count_eq_one_of_mem (h.obj.nodup x.obj) (mem_objList h hx)
    · exact List.count_eq_one_of_mem (h.tp.nodup _) ((h.tp.mem_iff _ e).mpr htp)
    · exact List.count_eq_one_of_mem (h.tl.nodup _) ((h.tl.mem_iff _ e).mpr htl)
  onNoOther := by
    intro e x t hx ht
    refine ⟨?_, ?_, ?_, ?_⟩
    · intro u hu
      have hk := (h.task.mem_iff u e).mp hu
      rw [hx] at hk
      exact Option.some.inj (hk.symm.trans ht)
    · intro o ho
      have hk := (h.obj.mem_iff o e).mp ho
      rw [hx] at hk
      exact (Option.some.inj hk).symm
    · intro b hb
      have hk := (h.tp.mem_iff b e).mp hb
      simpa [hx, tpKey, rightKey, ht, eq_comm] using hk
    · intro b hb
      have hk := (h.tl.mem_iff b e).mp hb
      simpa [hx, tlKey, nameKey, ht, eq_comm] using hk
  unique := by
    intro e f x y t hx hy hxt hyt hc
    rcases hc with hc | hc
    · exact h.names e f (t, x.name) (nameKey_eq_some.mpr ⟨x, hx, hxt, rfl⟩)
        (nameKey_eq_some.mpr ⟨y, hy, hyt, hc.symm⟩)
    · exact h.rights e f (t, x.obj) (rightKey_eq_some.mpr ⟨x, hx, hxt, rfl⟩)
        (rightKey_eq_some.mpr ⟨y, hy, hyt, hc.symm⟩)
  unreserved := h.named
  lookup := fun _ _ _ => objEntryLookup_eq_some h
  find := fun _ _ _ => objEntryFind_eq_some h

theorem SpaceInv.counted (h : SpaceInv s) : Counted s fun x => x.task ≠ none := by
  intro o l hn hl
  have hsub : l ⊆ (s.objList o).filter fun e => isAttached (s.entry e) := by
    intro e he
    obtain ⟨x, hx, rfl, ht⟩ := hl e he
    have ha : isAttached (s.entry e) = true := by
      rw [hx]
      exact Option.isSome_iff_ne_none.mpr ht
    exact List.mem_filter.mpr ⟨mem_objList h.tables hx, ha⟩
  have hle := (List.subperm_of_subset hn hsub).length_le
  rw [← List.countP_eq_length_filter] at hle
  have hs := h.refs o
  simp only [surplus, unheld, attached] at hs
  omega

theorem Whole.move (h : Whole s) (hm : Move False kernels s r) : Whole r := by
  cases hm with
  | insert =>
    intro f y hy
    rcases entry_update hy with hy | rfl
    · exact h f y hy
    · exact Option.some_ne_none _
  | @detach e t x hx ht =>
    intro f y hy
    by_cases hf : f = e
    · subst hf
      simp [objEntryDealloc, SState.setEntry] at hy
    · refine h f y ?_
      simpa [objEntryDealloc, SState.setEntry, hf] using hy
  | orphan ho => exact ho.elim
  | reap hx ht => exact fun f y hy => h f y (entry_update_none hy)
  | @retype e x _ hx =>
    intro f y hy
    rcases entry_update hy with hy | rfl
    · exact h f y hy
    · exact h e x hx
  | @change e _ x _ hx =>
    intro f y hy
    rw [objEntryChange_entry] at hy
    rcases entry_update hy with hy | rfl
    · exact h f y hy
    · exact h e x hx
  | setObj | fresh | send | consume | serve | cache | nextName | task => exact h
  | giveUp | shutDown =>
    intro f y hy
    rw [portDestroy_entry] at hy
    exact h f y hy

theorem reach_whole (h : Reach Prompt s) : Whole s := by
  induction h with
  | start => exact fun _ _ he => by cases he
  | next hs ha hr ih =>
    have hi := reach_space hs
    have hm : Moves False True _ _ := step_moves hi.1 hi.2 (.inr ha) (.inl trivial) hr
    clear hr
    induction hm with
    | refl => exact ih
    | tail _ hm ih => exact ih.move hm

/-- In every state of every run the translations of the tasks agree with all their lists and are
counted. The entries that dead ports still have are counted too where no task gives up an entry
before the shut down of the port gets to it. -/
theorem translation_tables (h : Reach Any s) :
    Consistent s ∧ Counted s (fun x => x.task ≠ none) ∧
      (Reach Prompt s → Counted s fun _ => True) := by
  obtain ⟨hi, _⟩ := reach_space h
  refine ⟨hi.tables.consistent, hi.counted, ?_⟩
  intro hp o l hn hl
  refine hi.counted o l hn ?_
  intro e he
  obtain ⟨x, hx, ho, _⟩ := hl e he
  exact ⟨x, hx, ho, reach_whole hp e x hx⟩

/-- A port with a sender. -/
def sharedPort : List Action :=
  [.taskInit 4 false, .taskInit 8 false, .taskInit 12 false, .portAlloc 4 32 1,
    .copyin 4 1 .port false, .copyout ⟨32, .port, true⟩ 8 2,
    .copyin 4 1 .port false, .copyout ⟨32, .port, true⟩ 12 3]

theorem sharedPort_tables : ∃ s, run sharedPort SState.empty = some s ∧ objEntryFind s 12 32 = some 3 ∧
    Consistent s ∧ Counted s fun _ => True := by
  have hrun : ((run sharedPort SState.empty).bind fun s => objEntryFind s 12 32) = some 3 := by
    decide +kernel
  obtain ⟨s, hs, hf⟩ := Option.bind_eq_some_iff.mp hrun
  have hp : Reach Prompt s := reach_run (by simp [sharedPort, Prompt]) .start hs
  have ht := translation_tables hp.any
  exact ⟨s, hs, hf, ht.1, ht.2.2 hp⟩

/-- Two senders give up their rights for a port that is dead, before its shut down gets to them. -/
def deadPort : List Action :=
  sharedPort ++ [.dealloc 4 32, .dealloc 8 32, .dealloc 12 32]

theorem deadPort_undercounted : ¬∀ s, Reach Any s → Counted s fun _ => True := by
  intro hall
  have hrun : ((run deadPort SState.empty).bind fun s =>
      if (s.obj 32).refs = 1 ∧ (s.entry 2).map Entry.obj = some 32 ∧ (s.entry 3).map Entry.obj = some 32
      then some s else none).isSome = true := by
    decide +kernel
  obtain ⟨u, hu⟩ := Option.isSome_iff_exists.mp hrun
  obtain ⟨s, hs, hc⟩ := Option.bind_eq_some_iff.mp hu
  split at hc
  next hg =>
    obtain ⟨hr, h2, h3⟩ := hg
    obtain ⟨x, hx, hxo⟩ := Option.map_eq_some_iff.mp h2
    obtain ⟨y, hy, hyo⟩ := Option.map_eq_some_iff.mp h3
    have hle := hall s (reach_run (fun _ _ _ => trivial) .start hs) 32 [2, 3] (by decide) (by simp [hx, hxo, hy, hyo])
    rw [hr] at hle
    simp at hle
    omega
  next => cases hc

end MachVM.Ipc.Space
