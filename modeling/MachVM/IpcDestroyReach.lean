import MachVM.IpcDestroyInvariant
import MachVM.IpcSpaceCache

namespace MachVM.Ipc.Destroy

open Space Machine

variable {o : KernObjId} {s₀ s r : DState} {t : TaskId} {e f : EntryId} {x y : Entry} {a : Action}
  {as : List Action}

/-- How far the thread still has to go in the turn it is in. -/
def Phase.weight : Phase → Nat
  | .before => 4
  | .top => 3
  | .unlocked .. => 2
  | .taskLocked .. => 1
  | .notifying .. => 4
  | .done => 0

/-- A turn takes at most four steps and frees an entry. -/
def rank (o : KernObjId) (s : DState) : Nat := 4 * (s.space.objList o).length + s.phase.weight

theorem objList_free (h : e ∈ s.space.objList o) :
    ((free o s e).space.objList o).length + 1 = (s.space.objList o).length := by
  have hp := List.length_pos_of_mem h
  show (Function.update s.space.objList o _ o).length + 1 = _
  rw [Function.update_self, List.length_erase_of_mem h]
  omega

theorem step_rank (h : DInv o s₀ s) (hr : step o s a = some r) : rank o r + a.sweeps.toNat ≤ rank o s := by
  cases a with
  | begin =>
    simp only [step, begin] at hr
    split at hr
    next hp =>
      cases Option.some.inj hr
      simp [rank, hp, Phase.weight, Action.sweeps]
    next => simp at hr
  | look =>
    simp only [step, look] at hr
    split at hr
    next hp =>
      split at hr
      next hl =>
        cases Option.some.inj hr
        simp [rank, hp, Phase.weight, Action.sweeps]
      next e l hl =>
        have hm : e ∈ s.space.objList o := hl ▸ List.mem_cons_self
        obtain ⟨x, hx, hobj⟩ := (mem_objList h).mp hm
        rw [hx] at hr
        dsimp only at hr
        split at hr
        next =>
          cases Option.some.inj hr
          have hf := objList_free hm
          have hw : (free o s e).phase = s.phase := rfl
          simp only [rank, hw, hp, Phase.weight, Action.sweeps, Bool.toNat_true]
          omega
        next =>
          cases Option.some.inj hr
          simp [rank, hp, Phase.weight, Action.sweeps]
    next => simp at hr
  | lockTask =>
    simp only [step, lockTask] at hr
    split at hr
    next e t hp =>
      split at hr
      next =>
        cases Option.some.inj hr
        simp [rank, hp, Phase.weight, Action.sweeps]
      next => simp at hr
    next => simp at hr
  | relock =>
    simp only [step, relock] at hr
    split at hr
    next e t hp =>
      obtain ⟨x, hx, hobj, _⟩ := h.inHand e t (by rw [hp]; rfl)
      have hm : e ∈ s.space.objList o := (mem_objList h).mpr ⟨x, hx, hobj⟩
      rw [hx] at hr
      dsimp only at hr
      split at hr
      next =>
        cases Option.some.inj hr
        have hf := objList_free hm
        simp only [rank, hp, Phase.weight, Action.sweeps, Bool.toNat_true]
        omega
      next =>
        cases Option.some.inj hr
        set q : DState := { s with space := objEntryRemove s.space t e x } with hq
        have hl : q.space.objList = s.space.objList := objEntryRemove_objList ..
        have hf := objList_free (s := q) (hl ▸ hm)
        have hrank : rank o s = 4 * (s.space.objList o).length + 1 := by
          rw [rank, hp]
          rfl
        rw [hl] at hf
        show 4 * ((free o q e).space.objList o).length + 4 + 1 ≤ _
        omega
    next => simp at hr
  | notify =>
    simp only [step, notify] at hr
    split at hr
    next t n hp =>
      cases Option.some.inj hr
      simp [rank, hp, Phase.weight, Action.sweeps]
    next => simp at hr
  | deallocFind t =>
    simp only [step, deallocFind] at hr
    split at hr
    next =>
      split at hr
      all_goals
        cases Option.some.inj hr
        simp [rank, Action.sweeps]
    next => simp at hr
  | deallocDestroy t =>
    simp only [step, deallocDestroy] at hr
    split at hr
    next =>
      obtain ⟨e, he, hr⟩ := Option.bind_eq_some_iff.mp hr
      split at hr
      next =>
        cases Option.some.inj hr
        simp [rank, Action.sweeps]
      next x hx =>
        split at hr
        next => simp at hr
        next hdead =>
          cases Option.some.inj hr
          obtain ⟨z, hz, hobj, _⟩ := h.found t e he
          have hobj : x.obj = o := Option.some.inj (hx.symm.trans hz) ▸ hobj
          have hl : (objEntryDestroy s.space t e x).objList = s.space.objList := by
            rw [objEntryDestroy, hobj, if_neg hdead]
            exact objEntryRemove_objList ..
          simp [rank, hl, Action.sweeps]
    next => simp at hr
  | terminateLook t =>
    simp only [step, terminateLook] at hr
    split at hr
    next =>
      obtain ⟨e, he, hr⟩ := Option.bind_eq_some_iff.mp hr
      split at hr
      all_goals
        cases Option.some.inj hr
        simp [rank, Action.sweeps]
    next => simp at hr
  | terminateRead t =>
    simp only [step, terminateRead] at hr
    obtain ⟨e, he, hr⟩ := Option.bind_eq_some_iff.mp hr
    split at hr
    all_goals
      cases Option.some.inj hr
      simp [rank, Action.sweeps]

theorem DInv.progress (h : DInv o s₀ s) (hp : s.phase ≠ .done) :
    (∃ a r, a.sweeps = true ∧ step o s a = some r) ∨
      ∃ e t r, s.phase = .unlocked e t ∧ s.inDealloc t ≠ none ∧ step o s (.deallocDestroy t) = some r := by
  cases hq : s.phase with
  | before => exact .inl ⟨.begin, _, rfl, by rw [step, Destroy.begin, if_pos hq]⟩
  | top =>
    refine .inl ⟨.look, ?_⟩
    simp only [step, Destroy.look, hq, if_true]
    split
    next => exact ⟨_, rfl, rfl⟩
    next =>
      split
      next => exact ⟨_, rfl, rfl⟩
      next =>
        split
        · exact ⟨_, rfl, rfl⟩
        · exact ⟨_, rfl, rfl⟩
  | unlocked e t =>
    cases hl : s.inDealloc t with
    | none => exact .inl ⟨.lockTask, _, rfl, by rw [step, Destroy.lockTask, hq]; exact if_pos hl⟩
    | some f =>
      obtain ⟨x, hx, hobj, _⟩ := h.found t f hl
      refine .inr ⟨e, t, { s with
        inDealloc := Function.update s.inDealloc t none
        space := objEntryDestroy s.space t f x
        own := s.own ++ [f] }, rfl, by simp [hl], ?_⟩
      simp [step, Destroy.deallocDestroy, hq, hl, hx, h.dead]
  | taskLocked e t =>
    refine .inl ⟨.relock, ?_⟩
    simp only [step, Destroy.relock, hq]
    split
    next => exact ⟨_, rfl, rfl⟩
    next =>
      split
      · exact ⟨_, rfl, rfl⟩
      · exact ⟨_, rfl, rfl⟩
  | notifying t n => exact .inl ⟨.notify, _, rfl, by rw [step, Destroy.notify, hq]⟩
  | done => exact absurd hq hp

theorem DInv.swept_owner (h : DInv o s₀ s) (he : e ∈ s.swept) : ∃ x, s₀.space.entry e = some x ∧ x.obj = o := by
  have hc := List.count_pos_iff.mpr he
  cases h.stages e with
  | whole _ _ hs => omega
  | half _ _ _ _ _ hs => omega
  | gone x hx hobj => exact ⟨x, hx, hobj⟩

theorem DInv.notified_of (h : DInv o s₀ s) (hd : Dying o s₀) (hp : s.phase.pending = [])
    (hx : s₀.space.entry e = some x) (hobj : x.obj = o) (ht : x.task = some t) :
    s.notified.filter (fun n => n.1 = t) = List.replicate (s.swept.count e) (t, x.name) := by
  have hn := h.notes
  rw [hp, List.append_nil] at hn
  have howner : ∀ f ∈ s.swept, (∃ n, ownerOf s₀ f = some (t, n)) ↔ f = e := by
    intro f hf
    constructor
    · rintro ⟨n, hn⟩
      obtain ⟨y, hy, hyo⟩ := h.swept_owner hf
      have hyt : y.task = some t := by
        rw [ownerOf, hy, Option.bind_some] at hn
        obtain ⟨u, hu, he⟩ := Option.map_eq_some_iff.mp hn
        rw [hu, (Prod.mk.inj he).1]
      refine hd.tables.rights f e (t, o) ?_ ?_
      · exact rightKey_eq_some.mpr ⟨y, hy, hyt, hyo⟩
      · exact rightKey_eq_some.mpr ⟨x, hx, ht, hobj⟩
    · rintro rfl
      exact ⟨x.name, by simp [ownerOf, hx, ht]⟩
  have hself : ownerOf s₀ e = some (t, x.name) := by simp [ownerOf, hx, ht]
  rw [hn]
  clear hn
  revert howner
  generalize s.swept = l
  intro howner
  induction l with
  | nil => rfl
  | cons f l ih =>
    have ih := ih fun g hg => howner g (List.mem_cons_of_mem f hg)
    have hf := howner f List.mem_cons_self
    by_cases hfe : f = e
    · subst hfe
      rw [List.filterMap_cons_some hself, List.filter_cons_of_pos (by simp), ih, List.count_cons_self,
        List.replicate_succ]
    · rw [List.count_cons_of_ne hfe]
      cases hw : ownerOf s₀ f with
      | none => rw [List.filterMap_cons_none hw, ih]
      | some n =>
        have hne : n.1 ≠ t := fun hc => hfe (hf.mp ⟨n.2, hw.trans (by rw [← hc])⟩)
        rw [List.filterMap_cons_some hw, List.filter_cons_of_neg (by simpa using hne), ih]

theorem path_dInv (hd : Dying o s₀) (h : Path (step o) (Unhurried o) s₀ as s) : DInv o s₀ s :=
  h.invariant (fun _ _ _ hi ha hr => step_dInv hd hi ha hr) hd.dInv

/-- In a run in which `obj_destroy_rights` frees no entry that `ipc_task_terminate` is about to read, no entry is used
after it is freed, each is removed from its task once and freed once, a task is notified once if
`obj_destroy_rights` removed its entry and not at all if the task did, and `obj_destroy_rights` takes a bounded number
of steps, at the end of which the list is empty. -/
theorem two_step_destruction (hd : Dying o s₀) (h : Path (step o) (Unhurried o) s₀ as s) :
    s.stray = [] ∧
    (∀ e, s.own.count e + s.swept.count e ≤ 1 ∧ s.freed.count e ≤ s.own.count e + s.swept.count e) ∧
    as.countP Action.sweeps ≤ 4 * (s₀.space.objList o).length + 4 ∧
    (s.phase ≠ .done → (∃ a r, a.sweeps = true ∧ step o s a = some r) ∨
      ∃ e t r, s.phase = .unlocked e t ∧ s.inDealloc t ≠ none ∧ step o s (.deallocDestroy t) = some r) ∧
    (s.phase = .done → s.space.objList o = [] ∧
      ∀ e x t, s₀.space.entry e = some x → x.obj = o → x.task = some t →
        s.own.count e + s.swept.count e = 1 ∧ s.freed.count e = 1 ∧
        s.notified.filter (fun n => n.1 = t) = List.replicate (s.swept.count e) (t, x.name)) := by
  have hi := path_dInv hd h
  refine ⟨hi.stray, fun e => ?_, ?_, hi.progress, fun hp => ⟨hi.finished hp, fun e x t hx hobj ht => ?_⟩⟩
  · cases hi.stages e with
    | whole _ ho hs hf => omega
    | half _ _ _ _ ho hs hf => omega
    | gone _ _ _ _ hr hf => omega
  · have hrank : as.countP Action.sweeps + rank o s ≤ rank o s₀ :=
      h.count_le (p := DInv o s₀) (fun _ _ _ hi ha hr => ⟨step_dInv hd hi ha hr, step_rank hi hr⟩) hd.dInv
    rw [show rank o s₀ = 4 * (s₀.space.objList o).length + 4 by rw [rank, hd.phase]; rfl] at hrank
    omega
  · have hnone : s.space.entry e = none := by
      cases hy : s.space.entry e with
      | none => rfl
      | some y =>
        have hyo : y.obj = o := by
          cases hi.stages e with
          | whole he =>
            cases Option.some.inj (hx.symm.trans (he.symm.trans hy))
            exact hobj
          | half z _ hz he =>
            cases Option.some.inj (hy.symm.trans he)
            exact hz
          | gone _ _ _ he => exact absurd (hy.symm.trans he) (by simp)
        have hm := (mem_objList hi).mpr ⟨y, hy, hyo⟩
        rw [hi.finished hp] at hm
        simp at hm
    refine ⟨?_, ?_, hi.notified_of hd (by rw [hp]; rfl) hx hobj ht⟩
    all_goals
      cases hi.stages e with
      | whole he => exact absurd (hx.symm.trans (he.symm.trans hnone)) (by simp)
      | half z _ _ he => exact absurd (he.symm.trans hnone) (by simp)
      | gone _ _ _ _ hr hf => assumption

/-- A dead port, 0, that tasks 1 and 2 have under the names 5 and 7. -/
def deadPort : DState where
  space := objEntryInsert (objEntryInsert SState.empty 0 1 0 5 .send) 1 2 0 7 .send
  phase := .before
  otask := none
  held := []
  inDealloc _ := none
  leaving _ := none
  own := []
  swept := []
  freed := []
  notified := []
  stray := []

theorem deadPort_dying : Dying 0 deadPort := by
  have h : Tables (objEntryInsert SState.empty 0 1 0 5 .send) :=
    spaceInv_empty.tables.insert rfl (by decide) rfl rfl
  refine ⟨h.insert rfl (by decide) rfl rfl, rfl, ?_, rfl, ⟨rfl, rfl, fun _ => rfl, fun _ => rfl⟩,
    ⟨rfl, rfl, rfl, rfl, rfl⟩⟩
  intro e x hx _
  match e with
  | 0 =>
    cases Option.some.inj hx
    simp
  | 1 =>
    cases Option.some.inj hx
    simp
  | _ + 2 => exact absurd hx (by simp [deadPort, objEntryInsert, SState.setEntry, SState.setObj, SState.empty])

theorem unhurried_of_quiet (h : ∀ t, s.leaving t = none) : Unhurried o s a := by
  intro t e he
  rw [h] at he
  cases he

/-- The first task deallocates its right while `obj_destroy_rights` waits for that task. -/
theorem deadPort_destroyed : ∃ s as, Path (step 0) (Unhurried 0) deadPort as s ∧ s.phase = .done ∧
    s.space.objList 0 = [] ∧ s.stray = [] ∧ s.own = [0] ∧ s.swept = [1] ∧ s.notified = [(2, 7)] := by
  have hpath : Path (step 0) (Unhurried 0) deadPort [.begin, .look, .deallocFind 1, .deallocDestroy 1, .lockTask,
      .relock, .look, .lockTask, .relock, .notify, .look] _ :=
    .cons (unhurried_of_quiet fun _ => rfl) rfl <| .cons (unhurried_of_quiet fun _ => rfl) rfl <|
    .cons (unhurried_of_quiet fun _ => rfl) rfl <| .cons (unhurried_of_quiet fun _ => rfl) rfl <|
    .cons (unhurried_of_quiet fun _ => rfl) rfl <| .cons (unhurried_of_quiet fun _ => rfl) rfl <|
    .cons (unhurried_of_quiet fun _ => rfl) rfl <| .cons (unhurried_of_quiet fun _ => rfl) rfl <|
    .cons (unhurried_of_quiet fun _ => rfl) rfl <| .cons (unhurried_of_quiet fun _ => rfl) rfl <|
    .cons (unhurried_of_quiet fun _ => rfl) rfl <| .nil _
  have h := two_step_destruction deadPort_dying hpath
  exact ⟨_, _, hpath, rfl, (h.2.2.2.2 rfl).1, h.1, rfl, rfl, rfl⟩

/-- `ipc_task_terminate` has unlocked the task when `obj_destroy_rights` frees the entry it is about to read. -/
theorem terminate_reads_freed : ∃ s, Dying 0 deadPort ∧
    Path (step 0) (fun _ _ => True) deadPort
      [.begin, .terminateLook 1, .look, .lockTask, .relock, .terminateRead 1] s ∧ s.stray = [0] :=
  ⟨_, deadPort_dying,
    .cons trivial rfl <| .cons trivial rfl <| .cons trivial rfl <| .cons trivial rfl <| .cons trivial rfl <|
    .cons trivial rfl <| .nil _, rfl⟩

end MachVM.Ipc.Destroy
