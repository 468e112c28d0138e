import MachVM.IpcMessage

namespace MachVM.Ipc

variable {σ : Type} {c : MsgConfig} {sv : MsgServices σ} {i : MsgItem} {size : Nat}

namespace MsgItem

/-- The bytes an item describes, counted without wrap-around. -/
def itemBytes (i : MsgItem) : Nat := (i.number.toNat * i.size.toNat + 7) / 8

/-- The descriptor and the inline data, or the pointer in its place, lie before the end. -/
def Fits (size : Nat) (i : MsgItem) : Prop :=
  4 * i.data + (if i.isInline then i.itemBytes else 4) ≤ size

instance (size : Nat) (i : MsgItem) : Decidable (i.Fits size) := by
  unfold Fits
  exact inferInstance

/-- Neither of the two checks of `msg_copyin` refuses the item. -/
def Accepted (c : MsgConfig) (size : Nat) (i : MsgItem) : Prop :=
  i.tooSmall size = false ∧ (msgTypePortAny c i.name = true → i.size = 32)

theorem numbytes_toNat (i : MsgItem) :
    i.numbytes.toNat = (i.number.toNat * i.size.toNat + 7) % 2 ^ 32 / 8 := by
  simp only [numbytes, BitVec.toNat_ushiftRight, BitVec.toNat_add, BitVec.toNat_mul,
    Nat.shiftRight_eq_div_pow, show (7 : Word).toNat = 7 from rfl, Nat.mod_add_mod]

theorem numbytes_lt (i : MsgItem) : i.numbytes.toNat < 2 ^ 29 := by
  rw [numbytes_toNat]
  omega

theorem tooSmall_eq_false_iff (hd : 4 * i.data ≤ size) (hs : size ≤ msgSizeMax) :
    i.tooSmall size = false ↔ 4 * i.data + (if i.isInline then i.numbytes.toNat else 4) ≤ size := by
  have hdist : (BitVec.ofInt 32 ((size : Int) - 4 * i.data)).toNat = size - 4 * i.data := by
    rw [BitVec.toNat_ofInt]
    unfold msgSizeMax at hs
    omega
  have hneed : (if i.isInline then i.numbytes else (4 : Word)).toNat =
      if i.isInline then i.numbytes.toNat else 4 := by
    split <;> rfl
  simp only [tooSmall, decide_eq_false_iff_not, BitVec.lt_def, hdist, hneed]
  omega

theorem data_gt (word : Nat → Cell) (pos : Nat) : pos < (msgItem word pos).data := by
  unfold msgItem
  dsimp only
  split <;> simp

theorem pos_msgItem (word : Nat → Cell) (pos : Nat) : (msgItem word pos).pos = pos := by
  unfold msgItem
  dsimp only
  split <;> rfl

theorem data_le_next (i : MsgItem) : i.data ≤ i.next := by
  unfold next
  split <;> omega

theorem next_gt (word : Nat → Cell) (pos : Nat) : pos < (msgItem word pos).next :=
  Nat.lt_of_lt_of_le (data_gt word pos) (data_le_next _)

theorem msgItem_congr_data {word word' : Nat → Cell} {pos : Nat}
    (h : ∀ q, pos ≤ q → q < (msgItem word pos).data → (word' q).value = (word q).value) :
    msgItem word' pos = msgItem word pos := by
  have h0 := h pos (Nat.le_refl pos) (data_gt word pos)
  unfold msgItem at h ⊢
  dsimp only at h ⊢
  rw [h0]
  split
  next hl =>
    rw [if_pos hl] at h
    rw [h (pos + 1) (by omega) (by dsimp only; omega), h (pos + 2) (by omega) (by dsimp only; omega)]
  next => rfl

/-- `while (--elts >= 0)`, counting the runs of the body. -/
def countdown : Nat → Word → Option Nat
  | 0, _ => none
  | fuel + 1, elts =>
    if (elts - 1).slt 0 then some 0 else (countdown fuel (elts - 1)).map (· + 1)

theorem countdown_eq {fuel : Nat} {elts : Word} (h : elts.toNat < fuel) :
    countdown fuel elts = some (if elts.toNat ≤ 2 ^ 31 then elts.toNat else 0) := by
  induction fuel generalizing elts with
  | zero => omega
  | succ fuel ih =>
    have hlt := elts.isLt
    have hone : (1 : Word).toNat = 1 := rfl
    have hzero : (0 : Word).toInt = 0 := rfl
    unfold countdown
    split
    next hs =>
      simp only [BitVec.slt, decide_eq_true_eq, hzero, BitVec.toInt_eq_toNat_cond, BitVec.toNat_sub, hone] at hs
      congr 1
      split at hs <;> split <;> omega
    next hs =>
      simp only [BitVec.slt, decide_eq_true_eq, hzero, BitVec.toInt_eq_toNat_cond, BitVec.toNat_sub, hone] at hs
      have hpos : 1 ≤ elts.toNat ∧ elts.toNat ≤ 2 ^ 31 := by
        split at hs <;> omega
      have hpred : (elts - 1).toNat = elts.toNat - 1 := by
        rw [BitVec.toNat_sub, hone]
        omega
      rw [ih (by omega), hpred, if_pos (by omega), if_pos hpos.2]
      simp only [Option.map_some]
      congr 1
      omega

theorem countdown_trips (i : MsgItem) {fuel : Nat} (h : i.number.toNat < fuel) :
    countdown fuel i.number = some i.trips := countdown_eq h

end MsgItem

/-! ## What the element loop writes -/

@[simp] theorem setMachine_word (w : MsgWalk σ) (m : σ) : (w.setMachine m).word = w.word := rfl
@[simp] theorem setMachine_array (w : MsgWalk σ) (m : σ) : (w.setMachine m).array = w.array := rfl
@[simp] theorem setMachine_machine (w : MsgWalk σ) (m : σ) : (w.setMachine m).machine = m := rfl
@[simp] theorem setMachine_kernel (w : MsgWalk σ) (m : σ) :
    (w.setMachine m).kernelMessage = w.kernelMessage := rfl
@[simp] theorem setWord_array (w : MsgWalk σ) (p : Nat) (x : Cell) :
    (w.setWord p x).array = w.array := rfl
@[simp] theorem setWord_machine (w : MsgWalk σ) (p : Nat) (x : Cell) :
    (w.setWord p x).machine = w.machine := rfl
@[simp] theorem setWord_kernel (w : MsgWalk σ) (p : Nat) (x : Cell) :
    (w.setWord p x).kernelMessage = w.kernelMessage := rfl

theorem setWord_word (w : MsgWalk σ) (p q : Nat) (x : Cell) :
    (w.setWord p x).word q = if q = p then x else w.word q := by
  simp only [MsgWalk.setWord, Function.update_apply]

theorem setWord_ne {w : MsgWalk σ} {p q : Nat} {x : Cell} (h : q ≠ p) :
    (w.setWord p x).word q = w.word q := by
  rw [setWord_word, if_neg h]

@[simp] theorem setCell_machine (w : MsgWalk σ) (place : Place) (k : Nat) (x : Cell) :
    (w.setCell place k x).machine = w.machine := by
  cases place <;> rfl

@[simp] theorem setCell_kernel (w : MsgWalk σ) (place : Place) (k : Nat) (x : Cell) :
    (w.setCell place k x).kernelMessage = w.kernelMessage := by
  cases place <;> rfl

/-- The word `q` is none of the elements from `k` on of a list of `n` at `place`. -/
def Apart (place : Place) (k n q : Nat) : Prop :=
  ∀ p, place = .body p → q < p + k ∨ p + k + n ≤ q

theorem setCell_word_apart {w : MsgWalk σ} {place : Place} {k n q : Nat} {x : Cell}
    (h : Apart place k (n + 1) q) : (w.setCell place k x).word q = w.word q := by
  cases place with
  | body p =>
    have hq := h p rfl
    exact setWord_ne (by omega)
  | array base => rfl

theorem Apart.tail {place : Place} {k n q : Nat} (h : Apart place k (n + 1) q) :
    Apart place (k + 1) n q := by
  intro p hp
  have hq := h p hp
  omega

theorem copyinElements_succ (sv : MsgServices σ) (i : MsgItem) (place : Place) (n k : Nat)
    (w : MsgWalk σ) :
    ((w.cell place k).value = kernObjNull ∧
        copyinElements sv i place (n + 1) k w = copyinElements sv i place n (k + 1) w) ∨
      ((w.cell place k).value ≠ kernObjNull ∧ ∃ m obj,
        sv.objectCopyin w.machine (w.cell place k).value i.name i.deallocate = (m, some obj) ∧
        copyinElements sv i place (n + 1) k w =
          let r := copyinElements sv i place n (k + 1) ((w.setMachine m).setCell place k ⟨obj, true⟩)
          { r with objects := ⟨obj, true⟩ :: r.objects }) ∨
      ((w.cell place k).value ≠ kernObjNull ∧ ∃ m, copyinElements sv i place (n + 1) k w =
        ⟨(w.setMachine m).setCell place k ⟨kernObjInvalid, true⟩, false, k + 1, []⟩) := by
  by_cases hz : (w.cell place k).value = kernObjNull
  · left
    exact ⟨hz, by rw [copyinElements]; simp only [hz, if_true]⟩
  · right
    cases hobj : sv.objectCopyin w.machine (w.cell place k).value i.name i.deallocate with
    | mk m o =>
      cases o with
      | some obj =>
        left
        exact ⟨hz, m, obj, rfl, by rw [copyinElements]; simp only [hz, if_false, hobj]⟩
      | none =>
        right
        exact ⟨hz, m, by rw [copyinElements]; simp only [hz, if_false, hobj]⟩

theorem copyinElements_word {place : Place} {n k q : Nat} {w : MsgWalk σ} (h : Apart place k n q) :
    (copyinElements sv i place n k w).walk.word q = w.word q := by
  induction n generalizing k w with
  | zero => rfl
  | succ n ih =>
    rcases copyinElements_succ sv i place n k w with ⟨_, he⟩ | ⟨_, m, obj, _, he⟩ | ⟨_, m, he⟩
    · rw [he]
      exact ih h.tail
    · rw [he]
      refine (ih h.tail).trans ?_
      exact setCell_word_apart h
    · rw [he]
      exact setCell_word_apart h

theorem copyinElements_kernel {place : Place} {n k : Nat} {w : MsgWalk σ} :
    (copyinElements sv i place n k w).walk.kernelMessage = w.kernelMessage := by
  induction n generalizing k w with
  | zero => rfl
  | succ n ih =>
    rcases copyinElements_succ sv i place n k w with ⟨_, he⟩ | ⟨_, m, obj, _, he⟩ | ⟨_, m, he⟩
    · rw [he]
      exact ih
    · rw [he]
      refine ih.trans ?_
      simp
    · rw [he]
      simp

theorem copyinElements_visited {place : Place} {n k : Nat} {w : MsgWalk σ} :
    (copyinElements sv i place n k w).visited ≤ k + n ∧
      ((copyinElements sv i place n k w).ok = true →
        (copyinElements sv i place n k w).visited = k + n) := by
  induction n generalizing k w with
  | zero => exact ⟨Nat.le_refl k, fun _ => rfl⟩
  | succ n ih =>
    rcases copyinElements_succ sv i place n k w with ⟨_, he⟩ | ⟨_, m, obj, _, he⟩ | ⟨_, m, he⟩
    · obtain ⟨hle, hok⟩ := @ih (k + 1) w
      rw [he]
      exact ⟨by omega, fun h => by rw [hok h]; omega⟩
    · obtain ⟨hle, hok⟩ := @ih (k + 1) ((w.setMachine m).setCell place k ⟨obj, true⟩)
      rw [he]
      dsimp only
      exact ⟨by omega, fun h => by rw [hok h]; omega⟩
    · rw [he]
      exact ⟨by dsimp only; omega, fun h => by simp at h⟩

/-! ## One turn -/

/-- The visit of an item that passed both checks. -/
def takenVisit (c : MsgConfig) (i : MsgItem) (d : CopyinData σ) (r : ElementRun σ) : Visit :=
  ⟨i, if i.ports c ≠ 0 then some d.place else none, r.visited, d.pointer, r.objects, d.region, none⟩

theorem copyinTurn_cases (c : MsgConfig) (sv : MsgServices σ) (size pos : Nat) (w : MsgWalk σ) :
    ∃ i d r, i = msgItem w.word pos ∧ d = copyinData c sv i w ∧
      r = copyinElements sv i d.place (i.ports c) 0 d.walk ∧
      ((i.tooSmall size = true ∧
          copyinTurn c sv size pos w = .fail .msgTooSmall (w.setMsgSize (4 * pos)) (refusedVisit i)) ∨
        (i.tooSmall size = false ∧ msgTypePortAny c i.name = true ∧ i.size ≠ 32 ∧
          copyinTurn c sv size pos w = .fail .invalidPort (w.setMsgSize (4 * pos)) (refusedVisit i)) ∨
        (i.Accepted c size ∧ d.moved = false ∧
          copyinTurn c sv size pos w =
            .fail .invalidMemory (d.walk.setMsgSize (4 * pos)) (refusedVisit i)) ∨
        (i.Accepted c size ∧ d.moved = true ∧ r.ok = false ∧
          copyinTurn c sv size pos w = .fail .invalidPort r.walk (takenVisit c i d r)) ∨
        (i.Accepted c size ∧ d.moved = true ∧ r.ok = true ∧
          copyinTurn c sv size pos w =
            .next i.next (i.isInline && !msgTypePortAny c i.name) r.walk (takenVisit c i d r))) := by
  refine ⟨_, _, _, rfl, rfl, rfl, ?_⟩
  unfold copyinTurn takenVisit
  dsimp only
  split
  next hs => exact .inl ⟨hs, rfl⟩
  next hs =>
    have hs' : (msgItem w.word pos).tooSmall size = false := by simpa using hs
    split
    next hp =>
      simp only [Bool.and_eq_true, decide_eq_true_eq] at hp
      exact .inr (.inl ⟨hs', hp.1, hp.2, rfl⟩)
    next hp =>
      have ha : (msgItem w.word pos).Accepted c size := by
        refine ⟨hs', fun hport => ?_⟩
        simpa [hport] using hp
      split
      next hm => exact .inr (.inr (.inl ⟨ha, by simpa using hm, rfl⟩))
      next hm =>
        split
        next hr => exact .inr (.inr (.inr (.inr ⟨ha, by simpa using hm, hr, rfl⟩)))
        next hr =>
          exact .inr (.inr (.inr (.inl ⟨ha, by simpa using hm, by simpa using hr, rfl⟩)))

theorem portAny_ne_internal {tn : Word} (h : msgTypePortAny c tn = true) :
    tn ≠ msgTypeInternalMemory := by
  rintro rfl
  unfold msgTypePortAny at h
  split at h
  next => revert h; decide
  next => revert h; decide

theorem copyinData_cases (c : MsgConfig) (sv : MsgServices σ) (i : MsgItem) (w : MsgWalk σ) :
    (i.isInline = true ∧ copyinData c sv i w = ⟨w, true, .body i.data, none, none⟩) ∨
      (i.isInline = false ∧ moveMsgData c w i.name = true ∧
        ∃ w', vmMoveIn sv w (msgTypePortAny c i.name) (w.word i.data).value i.numbytes i.deallocate =
            (w', none) ∧
          copyinData c sv i w = ⟨w', false, .body i.data, none, none⟩) ∨
      (i.isInline = false ∧ moveMsgData c w i.name = true ∧
        ∃ w' base, vmMoveIn sv w (msgTypePortAny c i.name) (w.word i.data).value i.numbytes
            i.deallocate = (w', some base) ∧
          copyinData c sv i w =
            ⟨w'.setWord i.data ⟨base, true⟩, true, .array base,
              if i.ports c ≠ 0 then some ⟨base, true⟩ else none, some (⟨base, true⟩, i.numbytes)⟩) ∨
      (i.isInline = false ∧ moveMsgData c w i.name = false ∧
        copyinData c sv i w =
          ⟨w, true, .array (sv.portList w.machine),
            if i.ports c ≠ 0 then some ⟨sv.portList w.machine, false⟩ else none, none⟩) := by
  unfold copyinData
  dsimp only
  split
  next hi => exact .inl ⟨hi, rfl⟩
  next hi =>
    have hi' : i.isInline = false := by simpa using hi
    split
    next hm =>
      split
      next w' he => exact .inr (.inl ⟨hi', hm, w', he, rfl⟩)
      next w' base he => exact .inr (.inr (.inl ⟨hi', hm, w', base, he, rfl⟩))
    next hm => exact .inr (.inr (.inr ⟨hi', by simpa using hm, rfl⟩))

theorem vmMoveIn_word {w w' : MsgWalk σ} {isPort deallocate : Bool} {source bytes : Word}
    {base : Option Word} (h : vmMoveIn sv w isPort source bytes deallocate = (w', base)) :
    w'.word = w.word ∧ w'.kernelMessage = w.kernelMessage := by
  unfold vmMoveIn at h
  split at h
  next =>
    cases h
    exact ⟨rfl, rfl⟩
  next =>
    split at h
    next =>
      cases h
      exact ⟨rfl, rfl⟩
    next =>
      cases h
      exact ⟨rfl, rfl⟩

theorem copyinData_word {w : MsgWalk σ} {q : Nat} (h : i.isInline = false → q ≠ i.data) :
    (copyinData c sv i w).walk.word q = w.word q := by
  rcases copyinData_cases c sv i w with ⟨_, hd⟩ | ⟨_, _, w', hv, hd⟩ | ⟨hi, _, w', base, hv, hd⟩ |
    ⟨_, _, hd⟩
  · rw [hd]
  · rw [hd, (vmMoveIn_word hv).1]
  · rw [hd]
    dsimp only
    rw [setWord_ne (h hi), (vmMoveIn_word hv).1]
  · rw [hd]

theorem copyinData_kernel {w : MsgWalk σ} :
    (copyinData c sv i w).walk.kernelMessage = w.kernelMessage := by
  rcases copyinData_cases c sv i w with ⟨_, hd⟩ | ⟨_, _, w', hv, hd⟩ | ⟨_, _, w', base, hv, hd⟩ |
    ⟨_, _, hd⟩
  · rw [hd]
  · rw [hd, (vmMoveIn_word hv).2]
  · rw [hd]
    exact (vmMoveIn_word hv).2
  · rw [hd]

theorem setMsgSize_msgSize (w : MsgWalk σ) {n : Nat} (h : n < 2 ^ 32) :
    (w.setMsgSize n).msgSize = n := by
  simp only [MsgWalk.setMsgSize, MsgWalk.msgSize, setWord_word, if_true, BitVec.toNat_ofNat]
  exact Nat.mod_eq_of_lt h

theorem ports_le_next (hb : 4 * i.ports c ≤ i.numbytes.toNat) (hi : i.isInline = true) :
    i.data + i.ports c ≤ i.next := by
  have hn : i.next = i.data + (i.numbytes.toNat + 3) / 4 := by rw [MsgItem.next, if_pos hi]
  omega

theorem accepted_word {w : MsgWalk σ} {q : Nat} (hb : i.next ≤ q → 4 * i.ports c ≤ i.numbytes.toNat)
    (hm : (copyinData c sv i w).moved = true) (hq : q < i.data ∨ i.next ≤ q) :
    (copyinElements sv i (copyinData c sv i w).place (i.ports c) 0
      (copyinData c sv i w).walk).walk.word q = w.word q := by
  have hout : i.isInline = false → q ≠ i.data := by
    intro hi
    have hn : i.next = i.data + 1 := by simp [MsgItem.next, hi]
    omega
  rw [copyinElements_word, copyinData_word hout]
  intro p hp
  rcases copyinData_cases c sv i w with ⟨hi, hd⟩ | ⟨hi, _, w', _, hd⟩ | ⟨_, _, w', base, _, hd⟩ |
    ⟨_, _, hd⟩
  · rw [hd] at hp
    cases hp
    rcases hq with hlt | hle
    · exact .inl hlt
    · have hend := ports_le_next (hb hle) hi
      omega
  · rw [hd] at hm
    simp at hm
  · rw [hd] at hp
    cases hp
  · rw [hd] at hp
    cases hp

/-! ## The items of a message -/

/-- Decodes the body from `pos` on the way `msg_copyin` does and asks for `P` at each item; the walk
goes past an item only when it is accepted. -/
def ItemsFrom (c : MsgConfig) (size : Nat) (word : Nat → Cell) (P : MsgItem → Prop) :
    Nat → Nat → Prop
  | 0, _ => True
  | fuel + 1, pos =>
    4 * pos < size →
      P (msgItem word pos) ∧
        ((msgItem word pos).Accepted c size → ItemsFrom c size word P fuel (msgItem word pos).next)

namespace UserMessage

/-- The words the sender supplied. -/
def cells (msg : UserMessage) : Nat → Cell := fun p => ⟨msg.word p, false⟩

/-- The message reaches the loop over its items unless the header is refused. -/
def Complex (msg : UserMessage) : Prop :=
  4 * msgHeaderWords ≤ msg.size ∧ msg.size ≤ msgSizeMax ∧ msg.readable = true ∧ msg.word 4 ≠ 0 ∧
    msg.word 0 >>> 24 = 0

/-- `P` holds of every item of the body, if the message has one to be translated. -/
def EveryItem (c : MsgConfig) (msg : UserMessage) (P : MsgItem → Prop) : Prop :=
  msg.Complex → ItemsFrom c msg.size msg.cells P (msgSizeMax + 1) msgHeaderWords

end UserMessage

end MachVM.Ipc
