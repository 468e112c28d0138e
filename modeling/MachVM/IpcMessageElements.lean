import MachVM.IpcMessageTurn

namespace MachVM.Ipc

variable {σ : Type} {c : MsgConfig} {sv : MsgServices σ} {i : MsgItem} {place : Place} {n k : Nat}

/-- The elements from `k` on that are not null. -/
def nonNull (list : Nat → Cell) : Nat → Nat → List Cell
  | 0, _ => []
  | n + 1, k =>
    if (list k).value = kernObjNull then nonNull list n (k + 1) else list k :: nonNull list n (k + 1)

theorem nonNull_congr {list list' : Nat → Cell} (h : ∀ j, k ≤ j → j < k + n → list' j = list j) :
    nonNull list' n k = nonNull list n k := by
  induction n generalizing k with
  | zero => rfl
  | succ n ih =>
    have hk := h k (Nat.le_refl k) (by omega)
    have hrest := @ih (k + 1) fun j hj hlt => h j (by omega) (by omega)
    unfold nonNull
    rw [hk, hrest]

/-! ## Cells of one list -/

theorem setCell_cell (w : MsgWalk σ) (place : Place) (j k : Nat) (x : Cell) :
    (w.setCell place k x).cell place j = if j = k then x else w.cell place j := by
  cases place with
  | body p =>
    simp only [MsgWalk.setCell, MsgWalk.cell, setWord_word, Nat.add_left_cancel_iff]
  | array base =>
    simp only [MsgWalk.setCell, MsgWalk.cell, Function.update_self, Function.update_apply]

theorem setCell_array_ne {w : MsgWalk σ} {x : Cell} {b : Word} (h : place ≠ .array b) :
    (w.setCell place k x).array b = w.array b := by
  cases place with
  | body p => rfl
  | array base =>
    have hb : b ≠ base := fun he => h (by rw [he])
    simp only [MsgWalk.setCell, Function.update_of_ne hb]

@[simp] theorem setMachine_cell (w : MsgWalk σ) (m : σ) (place : Place) (j : Nat) :
    (w.setMachine m).cell place j = w.cell place j := by
  cases place <;> rfl

/-! ## The loop of `msg_copyin` -/

theorem copyinElements_cell_lt {w : MsgWalk σ} {j : Nat}
    (hok : (copyinElements sv i place n k w).ok = true) (hj : j < k) :
    (copyinElements sv i place n k w).walk.cell place j = w.cell place j := by
  induction n generalizing k w with
  | zero => rfl
  | succ n ih =>
    rcases copyinElements_succ sv i place n k w with ⟨_, he⟩ | ⟨_, m, obj, _, he⟩ | ⟨_, m, hf⟩
    · rw [he] at hok ⊢
      exact ih hok (by omega)
    · rw [he] at hok ⊢
      refine (ih hok (by omega)).trans ?_
      rw [setCell_cell, if_neg (by omega), setMachine_cell]
    · rw [hf] at hok
      simp at hok

theorem copyinElements_array {w : MsgWalk σ} {b : Word}
    (hok : (copyinElements sv i place n k w).ok = true) (hb : n ≠ 0 → place ≠ .array b) :
    (copyinElements sv i place n k w).walk.array b = w.array b := by
  induction n generalizing k w with
  | zero => rfl
  | succ n ih =>
    have hne := hb (by omega)
    rcases copyinElements_succ sv i place n k w with ⟨_, he⟩ | ⟨_, m, obj, _, he⟩ | ⟨_, m, hf⟩
    · rw [he] at hok ⊢
      exact ih hok fun _ => hne
    · rw [he] at hok ⊢
      refine (ih hok fun _ => hne).trans ?_
      rw [setCell_array_ne hne, setMachine_array]
    · rw [hf] at hok
      simp at hok

/-- What the callers rely on: a right copied in is the address of an object, and a region moved in
gets addresses that are free. `held` says which addresses of the ipc maps are allocated. -/
structure MsgContract (sv : MsgServices σ) (held : σ → Word → Prop) : Prop where
  object : ∀ m name rights dealloc m' obj, sv.objectCopyin m name rights dealloc = (m', some obj) →
    obj ≠ kernObjNull ∧ obj ≠ kernObjInvalid
  objectHeld : ∀ m name rights dealloc b, held m b → held (sv.objectCopyin m name rights dealloc).1 b
  moveHeld : ∀ m isPort source bytes dealloc b, held m b →
    held (sv.vmMoveIn m isPort source bytes dealloc).1 b
  moveFresh : ∀ m isPort source bytes dealloc m' base data,
    sv.vmMoveIn m isPort source bytes dealloc = (m', some (base, data)) →
      ¬ held m base ∧ held m' base

variable {held : σ → Word → Prop}

theorem vmMoveIn_held (hc : MsgContract sv held) {w w' : MsgWalk σ} {isPort deallocate : Bool}
    {source bytes b : Word} {base : Option Word}
    (h : vmMoveIn sv w isPort source bytes deallocate = (w', base)) (hb : held w.machine b) :
    held w'.machine b := by
  unfold vmMoveIn at h
  have hm := hc.moveHeld w.machine isPort source bytes deallocate b hb
  split at h
  next =>
    cases h
    exact hb
  next =>
    split at h
    next m he =>
      cases h
      rw [he] at hm
      exact hm
    next m base data he =>
      cases h
      rw [he] at hm
      exact hm

theorem vmMoveIn_fresh (hc : MsgContract sv held) {w w' : MsgWalk σ} {isPort deallocate : Bool}
    {source bytes base : Word} (hn : bytes ≠ 0)
    (h : vmMoveIn sv w isPort source bytes deallocate = (w', some base)) :
    ¬ held w.machine base ∧ held w'.machine base := by
  unfold vmMoveIn at h
  rw [if_neg hn] at h
  split at h
  next m he => cases h
  next m base' data he =>
    cases h
    exact hc.moveFresh _ _ _ _ _ _ _ _ he

theorem vmMoveIn_array {w w' : MsgWalk σ} {isPort deallocate : Bool}
    {source bytes base b : Word} (hb : bytes ≠ 0 → b ≠ base)
    (h : vmMoveIn sv w isPort source bytes deallocate = (w', some base)) :
    w'.array b = w.array b := by
  unfold vmMoveIn at h
  split at h
  next =>
    cases h
    rfl
  next hn =>
    split at h
    next m he => cases h
    next m base' data he =>
      cases h
      exact Function.update_of_ne (hb hn) _ _

theorem copyinElements_held (hc : MsgContract sv held) {w : MsgWalk σ} {b : Word}
    (hok : (copyinElements sv i place n k w).ok = true) (hb : held w.machine b) :
    held (copyinElements sv i place n k w).walk.machine b := by
  induction n generalizing k w with
  | zero => exact hb
  | succ n ih =>
    rcases copyinElements_succ sv i place n k w with ⟨_, he⟩ | ⟨_, m, obj, hobj, he⟩ | ⟨_, m, hf⟩
    · rw [he] at hok ⊢
      exact ih hok hb
    · rw [he] at hok ⊢
      refine ih hok ?_
      rw [setCell_machine, setMachine_machine]
      have hm := hc.objectHeld w.machine (w.cell place k).value i.name i.deallocate b hb
      rw [hobj] at hm
      exact hm
    · rw [hf] at hok
      simp at hok

theorem copyinElements_objects (hc : MsgContract sv held) {w : MsgWalk σ}
    (hok : (copyinElements sv i place n k w).ok = true) :
    (copyinElements sv i place n k w).objects =
        nonNull ((copyinElements sv i place n k w).walk.cell place) n k ∧
      (∀ x ∈ (copyinElements sv i place n k w).objects, x.stored = true) ∧
      ∀ j, k ≤ j → j < k + n →
        ((copyinElements sv i place n k w).walk.cell place j).value ≠ kernObjInvalid := by
  induction n generalizing k w with
  | zero => exact ⟨rfl, by simp [copyinElements], fun j hj hlt => by omega⟩
  | succ n ih =>
    rcases copyinElements_succ sv i place n k w with ⟨hz, he⟩ | ⟨_, m, obj, hobj, he⟩ | ⟨_, m, hf⟩
    · rw [he] at hok ⊢
      obtain ⟨hlist, hst, hinv⟩ := ih hok
      have hk := copyinElements_cell_lt hok (Nat.lt_succ_self k)
      refine ⟨?_, hst, fun j hj hlt => ?_⟩
      · rw [nonNull, hk, if_pos hz]
        exact hlist
      · rcases Nat.eq_or_lt_of_le hj with rfl | hj
        · rw [hk, hz]
          decide
        · exact hinv j hj (by omega)
    · rw [he] at hok ⊢
      obtain ⟨hlist, hst, hinv⟩ := ih hok
      obtain ⟨hnull, hne⟩ := hc.object _ _ _ _ _ _ hobj
      have hk := copyinElements_cell_lt hok (Nat.lt_succ_self k)
      rw [setCell_cell, if_pos rfl] at hk
      refine ⟨?_, fun x hx => ?_, fun j hj hlt => ?_⟩
      · dsimp only
        rw [nonNull, hk, if_neg hnull, hlist]
      · rcases List.mem_cons.mp hx with rfl | hx
        · rfl
        · exact hst x hx
      · rcases Nat.eq_or_lt_of_le hj with rfl | hj
        · dsimp only
          rw [hk]
          exact hne
        · exact hinv j hj (by omega)
    · rw [hf] at hok
      simp at hok

/-! ## The loops of `msg_copyout` and `msg_destroy` -/

theorem copyoutElements_succ (sv : MsgServices σ) (i : MsgItem) (place : Place) (n k : Nat)
    (w : MsgWalk σ) :
    ((w.cell place k).value = kernObjNull ∧
        copyoutElements sv i place (n + 1) k w = copyoutElements sv i place n (k + 1) w) ∨
      ((w.cell place k).value ≠ kernObjNull ∧ ∃ m name,
        copyoutElements sv i place (n + 1) k w =
          let r := copyoutElements sv i place n (k + 1) ((w.setMachine m).setCell place k ⟨name, true⟩)
          (r.1, w.cell place k :: r.2)) := by
  by_cases hz : (w.cell place k).value = kernObjNull
  · left
    exact ⟨hz, by rw [copyoutElements]; simp only [hz, if_true]⟩
  · right
    refine ⟨hz, (sv.objectCopyout w.machine (w.cell place k).value i.name).1,
      (sv.objectCopyout w.machine (w.cell place k).value i.name).2, ?_⟩
    rw [copyoutElements]
    simp only [hz, if_false]

theorem copyoutElements_objects {w : MsgWalk σ} :
    (copyoutElements sv i place n k w).2 = nonNull (w.cell place) n k := by
  induction n generalizing k w with
  | zero => rfl
  | succ n ih =>
    rcases copyoutElements_succ sv i place n k w with ⟨hz, he⟩ | ⟨hz, m, name, he⟩
    · rw [he, nonNull, if_pos hz]
      exact ih
    · rw [he, nonNull, if_neg hz]
      dsimp only
      rw [ih]
      congr 1
      refine nonNull_congr fun j hj _ => ?_
      rw [setCell_cell, if_neg (by omega), setMachine_cell]

theorem copyoutElements_word {w : MsgWalk σ} {q : Nat} (h : Apart place k n q) :
    (copyoutElements sv i place n k w).1.word q = w.word q := by
  induction n generalizing k w with
  | zero => rfl
  | succ n ih =>
    rcases copyoutElements_succ sv i place n k w with ⟨hz, he⟩ | ⟨hz, m, name, he⟩
    · rw [he]
      exact ih h.tail
    · rw [he]
      refine (ih h.tail).trans ?_
      exact setCell_word_apart h

theorem copyoutElements_array {w : MsgWalk σ} {b : Word} (hb : n ≠ 0 → place ≠ .array b) :
    (copyoutElements sv i place n k w).1.array b = w.array b := by
  induction n generalizing k w with
  | zero => rfl
  | succ n ih =>
    have hne := hb (by omega)
    rcases copyoutElements_succ sv i place n k w with ⟨hz, he⟩ | ⟨hz, m, name, he⟩
    · rw [he]
      exact ih fun _ => hne
    · rw [he]
      refine (ih fun _ => hne).trans ?_
      rw [setCell_array_ne hne, setMachine_array]

theorem copyoutElements_kernel {w : MsgWalk σ} :
    (copyoutElements sv i place n k w).1.kernelMessage = w.kernelMessage := by
  induction n generalizing k w with
  | zero => rfl
  | succ n ih =>
    rcases copyoutElements_succ sv i place n k w with ⟨hz, he⟩ | ⟨hz, m, name, he⟩
    · rw [he]
      exact ih
    · rw [he]
      refine ih.trans ?_
      simp

theorem destroyElements_eq {list : Nat → Cell} {m : σ}
    (h : ∀ j, k ≤ j → j < k + n → (list j).value ≠ kernObjInvalid) :
    (destroyElements sv i list n k m).ok = true ∧
      (destroyElements sv i list n k m).visited = k + n ∧
      (destroyElements sv i list n k m).objects = nonNull list n k := by
  induction n generalizing k m with
  | zero => exact ⟨rfl, rfl, rfl⟩
  | succ n ih =>
    have hk := h k (Nat.le_refl k) (by omega)
    have hrest : ∀ j, k + 1 ≤ j → j < k + 1 + n → (list j).value ≠ kernObjInvalid :=
      fun j hj hlt => h j (by omega) (by omega)
    rw [destroyElements, nonNull]
    simp only [hk, if_false]
    split
    next =>
      obtain ⟨hok, hvis, hobj⟩ := @ih (k + 1) m hrest
      exact ⟨hok, by omega, hobj⟩
    next =>
      obtain ⟨hok, hvis, hobj⟩ := @ih (k + 1) (sv.objectDestroy m (list k).value i.name) hrest
      refine ⟨hok, ?_, ?_⟩
      · dsimp only
        omega
      · dsimp only
        rw [hobj]

end MachVM.Ipc
