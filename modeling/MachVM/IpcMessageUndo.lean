import MachVM.IpcMessageAgree

namespace MachVM.Ipc

variable {σ : Type} {c : MsgConfig} {sv : MsgServices σ} {i : MsgItem} {place : Place}
  {size size' pos pos' n k : Nat}

/-! ## What `msg_destroy` does to the machine -/

/-- The rights of a visit are destroyed, then its memory object or its region is given back. -/
def Visit.undo (c : MsgConfig) (sv : MsgServices σ) (m : σ) (v : Visit) : σ :=
  let m := v.objects.foldl (fun m x => sv.objectDestroy m x.value v.item.name) m
  match v.vmObject, v.region with
  | some x, _ => sv.vmObjectDeallocate m x.value
  | none, some (x, bytes) => sv.vmDeallocate m (msgTypePortAny c v.item.name) x.value bytes
  | none, none => m

theorem destroyElements_machine {list : Nat → Cell} {m : σ} :
    (destroyElements sv i list n k m).machine =
      (destroyElements sv i list n k m).objects.foldl
        (fun m x => sv.objectDestroy m x.value i.name) m := by
  induction n generalizing k m with
  | zero => rfl
  | succ n ih =>
    rw [destroyElements]
    dsimp only
    split
    next => rfl
    next =>
      split
      next => exact ih
      next => exact ih

theorem destroyTurn_undo (u : MsgWalk σ) :
    (destroyTurn c sv pos u).machine = (destroyTurn c sv pos u).visit.undo c sv u.machine := by
  have he := @destroyElements_machine σ sv (msgItem u.word pos) ((msgItem u.word pos).ports c) 0
    (u.cell (objList u (msgItem u.word pos))) u.machine
  unfold destroyTurn Visit.undo
  dsimp only
  split
  next => exact he
  next =>
    split
    next => rw [he]
    next =>
      split
      next => exact he
      next =>
        split
        next => rw [he]
        next => exact he

/-! ## An element that is refused -/

variable {held : σ → Word → Prop}

/-- The loop from `pos` up to an item it has not looked at, with the items it passed. -/
inductive CopyinSteps (c : MsgConfig) (sv : MsgServices σ) (size : Nat) :
    Nat → MsgWalk σ → Nat → MsgWalk σ → List Visit → Prop
  | refl {pos : Nat} {w : MsgWalk σ} : CopyinSteps c sv size pos w pos w []
  | step {pos pos' : Nat} {w w' : MsgWalk σ} {log : List Visit} {i : MsgItem} {d : CopyinData σ}
      {r : ElementRun σ} (h : 4 * pos < size) (ht : Taken c sv size pos w i d r)
      (hrun : CopyinSteps c sv size i.next r.walk pos' w' log) :
      CopyinSteps c sv size pos w pos' w' (takenVisit c i d r :: log)

/-- The walk stops at an item where `P` holds. -/
def StopsAt (c : MsgConfig) (sv : MsgServices σ) (size : Nat) (P : MsgItem → MsgWalk σ → Prop) :
    Nat → Nat → MsgWalk σ → Prop
  | 0, _, _ => False
  | fuel + 1, pos, w =>
    4 * pos < size ∧
      match copyinTurn c sv size pos w with
      | .next pos' _ w' _ => StopsAt c sv size P fuel pos' w'
      | .fail _ _ _ => P (msgItem w.word pos) w

section Steps

variable {w w' f u : MsgWalk σ} {log : List Visit}

theorem CopyinSteps.frame (h : CopyinSteps c sv size pos w pos' w' log)
    (hb : ∀ v ∈ log, Counted c v.item) :
    (∀ q ≤ pos, w'.word q = w.word q) ∧ w'.kernelMessage = w.kernelMessage ∧
      pos + log.length ≤ pos' := by
  induction h with
  | refl => exact ⟨fun _ _ => rfl, rfl, Nat.le_refl _⟩
  | @step pos pos' w w' log i d r hlt ht _ ih =>
    obtain ⟨hword, hkernel, hle⟩ := ih fun v hv => hb v (List.mem_cons_of_mem _ hv)
    have hcount : Counted c i := hb _ List.mem_cons_self
    have hgt := ht.data_gt
    have hnext := ht.next_gt
    refine ⟨fun q hq => ?_, by rw [hkernel, ht.kernel], ?_⟩
    · rw [hword q (by omega), ht.word hcount (.inl (by omega))]
    · rw [List.length_cons]
      omega

theorem Taken.turn {d : CopyinData σ} {r : ElementRun σ} (ht : Taken c sv size pos w i d r) :
    ∃ simple, copyinTurn c sv size pos w = .next i.next simple r.walk (takenVisit c i d r) := by
  obtain ⟨j, e, q, hj, he, hq, hcase⟩ := copyinTurn_cases c sv size pos w
  cases hj.trans ht.item.symm
  cases he.trans ht.data.symm
  cases hq.trans ht.run.symm
  rcases hcase with ⟨hsmall, _⟩ | ⟨_, hport, hne, _⟩ | ⟨_, hm, _⟩ | ⟨_, _, hok, _⟩ | ⟨_, _, _, hturn⟩
  · cases hsmall.symm.trans ht.accepted.1
  · exact absurd (ht.accepted.2 hport) hne
  · cases hm.symm.trans ht.moved
  · cases hok.symm.trans ht.ok
  · exact ⟨_, hturn⟩

theorem CopyinSteps.array (h : CopyinSteps c sv size pos w pos' w' log) (hc : MsgContract sv held)
    (hpos : msgHeaderWords ≤ pos) (hb : ∀ v ∈ log, Counted c v.item)
    (htr : ∀ v ∈ log, Translated c (w.fastPagerData c) v.item) {b : Word} (hh : held w.machine b) :
    w'.array b = w.array b ∧ held w'.machine b := by
  induction h with
  | refl => exact ⟨rfl, hh⟩
  | @step pos pos' w w' log i d r hlt ht _ ih =>
    have hcount : Counted c i := hb _ List.mem_cons_self
    have htrans : Translated c (w.fastPagerData c) i := htr _ List.mem_cons_self
    have hnext := ht.next_gt
    have htail := ih (by omega) (fun v hv => hb v (List.mem_cons_of_mem _ hv))
      (fun v hv => by
        rw [ht.fast hcount hpos]
        exact htr v (List.mem_cons_of_mem _ hv))
      (ht.stillHeld hc hh)
    exact ⟨htail.1.trans (ht.array hc hcount htrans hh), htail.2⟩

/-- The walk may go on, but it leaves the items behind `pos` and the arrays there alone. -/
structure Later (held : σ → Word → Prop) (pos : Nat) (w f : MsgWalk σ) : Prop where
  word : ∀ q, q ≤ pos → q ≠ 1 → f.word q = w.word q
  array : ∀ b, held w.machine b → f.array b = w.array b

theorem CopyinSteps.destroyed (h : CopyinSteps c sv size pos w pos' w' log) (hc : MsgContract sv held)
    (hpos : msgHeaderWords ≤ pos) (hb : ∀ v ∈ log, Counted c v.item)
    (htr : ∀ v ∈ log, Translated c (w.fastPagerData c) v.item) (hf : Later held pos' w' f)
    (hu : Agrees c held pos w f u) (hsize : 4 * pos' ≤ size') (fuel : Nat) :
    Agrees c held pos' w' f (u.setMachine (log.foldl (Visit.undo c sv) u.machine)) ∧
      destroyLoop c sv size' (fuel + log.length) pos u =
        (destroyLoop c sv size' fuel pos'
          (u.setMachine (log.foldl (Visit.undo c sv) u.machine))).map fun r => (r.1, log ++ r.2) := by
  induction h generalizing u with
  | refl =>
    refine ⟨hu.setMachine _, ?_⟩
    have hsame : u.setMachine u.machine = u := rfl
    simp [hsame]
  | @step pos pos' w w' log i d r hlt ht hrun ih =>
    have hcount : Counted c i := hb _ List.mem_cons_self
    have htrans : Translated c (w.fastPagerData c) i := htr _ List.mem_cons_self
    have hcounts := fun v hv => hb v (List.mem_cons_of_mem (takenVisit c i d r) hv)
    have hfast := ht.fast hcount hpos
    have htail : ∀ v ∈ log, Translated c (r.walk.fastPagerData c) v.item := by
      intro v hv
      rw [hfast]
      exact htr v (List.mem_cons_of_mem _ hv)
    have hnext := ht.next_gt
    have hgt := ht.data_gt
    unfold msgHeaderWords at hpos
    obtain ⟨hword, _, hle⟩ := hrun.frame hcounts
    have hsees : Sees held pos i.next w.machine r.walk u := by
      refine ⟨fun q hq hlt => ?_, fun b hfree hnow => ?_⟩
      · rw [hu.word q hq, hf.word q (by omega) (by omega), hword q (by omega)]
      · obtain ⟨harray, hnow'⟩ := hrun.array hc (by unfold msgHeaderWords; omega) hcounts htail hnow
        rw [hu.array b hfree, hf.array b hnow', harray]
    have hitem : msgItem u.word pos = i := by
      refine ht.item_of_word hcount fun q hq hlt => ?_
      have hle := MsgItem.data_le_next i
      exact hsees.word q hq (by omega)
    obtain ⟨hread, hvalid⟩ := ht.readVisit_eq hc hcount htrans hsees hu.fast
    obtain ⟨m, hturn⟩ := @destroyTurn_eq σ c sv i pos u hitem htrans.1 hvalid
    have hm : m = (takenVisit c i d r).undo c sv u.machine := by
      have hundo := @destroyTurn_undo σ c sv pos u
      rw [hturn, hread] at hundo
      exact hundo
    have hu' : Agrees c held i.next r.walk f (u.setMachine m) := by
      refine ⟨fun q hq => hu.word q (by omega), fun b hfree => ?_, by rw [hfast]; exact hu.fast⟩
      exact hu.array b fun hh => hfree (ht.stillHeld hc hh)
    obtain ⟨hagree, hloop⟩ := ih (by unfold msgHeaderWords; omega) hcounts htail hf hu' hsize
    rw [List.foldl_cons, ← hm]
    refine ⟨hagree, ?_⟩
    rw [List.length_cons, ← Nat.add_assoc, destroyLoop, if_pos (by omega), hturn]
    dsimp only
    rw [if_pos rfl, hloop, hread]
    simp [Option.map_map, Function.comp_def]
    rfl

end Steps

/-! ## The item at which the walk stops -/

section Stop

variable {w f u : MsgWalk σ} {code : MsgReturn} {v : Visit}

/-- The rights of a visit go, and nothing else does. -/
def Visit.dropObjects (sv : MsgServices σ) (m : σ) (v : Visit) : σ :=
  v.objects.foldl (fun m x => sv.objectDestroy m x.value v.item.name) m

end Stop

end MachVM.Ipc
