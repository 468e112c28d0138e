import MachVM.IpcMessageElements
import MachVM.IpcMessageInside

namespace MachVM.Ipc

variable {σ : Type} {c : MsgConfig} {sv : MsgServices σ} {i : MsgItem} {size pos : Nat}

/-! ## Successful runs of `msg_copyin` -/

/-- A turn that passed its item. -/
structure Taken (c : MsgConfig) (sv : MsgServices σ) (size pos : Nat) (w : MsgWalk σ) (i : MsgItem)
    (d : CopyinData σ) (r : ElementRun σ) : Prop where
  item : i = msgItem w.word pos
  data : d = copyinData c sv i w
  run : r = copyinElements sv i d.place (i.ports c) 0 d.walk
  accepted : i.Accepted c size
  moved : d.moved = true
  ok : r.ok = true

/-- The loop from `pos` to the end of the message, with the items it passed. -/
inductive CopyinRun (c : MsgConfig) (sv : MsgServices σ) (size : Nat) :
    Nat → Bool → MsgWalk σ → Bool → MsgWalk σ → List Visit → Prop
  | done {pos : Nat} {simple : Bool} {w : MsgWalk σ} (h : size ≤ 4 * pos) :
      CopyinRun c sv size pos simple w simple w []
  | turn {pos : Nat} {simple simple' : Bool} {w f : MsgWalk σ} {log : List Visit} {i : MsgItem}
      {d : CopyinData σ} {r : ElementRun σ} (h : 4 * pos < size) (ht : Taken c sv size pos w i d r)
      (hrun : CopyinRun c sv size i.next (simple && (i.isInline && !msgTypePortAny c i.name)) r.walk
        simple' f log) :
      CopyinRun c sv size pos simple w simple' f (takenVisit c i d r :: log)

theorem copyinLoop_run {fuel : Nat} {simple : Bool} {w : MsgWalk σ} {e : CopyinEnd σ}
    (h : copyinLoop c sv size fuel pos simple w = some e) (hs : e.code = .success) :
    CopyinRun c sv size pos simple w e.simple e.walk e.log := by
  induction fuel generalizing pos simple w e with
  | zero => simp [copyinLoop] at h
  | succ fuel ih =>
    unfold copyinLoop at h
    split at h
    next hlt =>
      obtain ⟨i, d, r, hi, hd, hr, hcase⟩ := copyinTurn_cases c sv size pos w
      rcases hcase with ⟨_, ht⟩ | ⟨_, _, _, ht⟩ | ⟨_, _, ht⟩ | ⟨_, _, _, ht⟩ | ⟨ha, hm, hok, ht⟩
      · rw [ht] at h
        cases Option.some.inj h
        simp at hs
      · rw [ht] at h
        cases Option.some.inj h
        simp at hs
      · rw [ht] at h
        cases Option.some.inj h
        simp at hs
      · rw [ht] at h
        cases Option.some.inj h
        simp at hs
      · rw [ht] at h
        obtain ⟨e', he', rfl⟩ := Option.map_eq_some_iff.mp h
        exact .turn hlt ⟨hi, hd, hr, ha, hm, hok⟩ (ih he' hs)
    next hlt =>
      cases Option.some.inj h
      exact .done (by omega)

/-- There are bytes for all the port elements of the item. -/
def Counted (c : MsgConfig) (i : MsgItem) : Prop := 4 * i.ports c ≤ i.numbytes.toNat

/-- Every word of the item that is used as a kernel address is translated. -/
def Translated (c : MsgConfig) (fast : Bool) (i : MsgItem) : Prop :=
  i.name ≠ msgTypeInternalMemory ∧
    (i.isInline = false → fast = true → i.ports c = 0)

def Plain (c : MsgConfig) (i : MsgItem) : Prop :=
  i.isInline = true ∧ msgTypePortAny c i.name = false

section Turn

variable {w : MsgWalk σ} {d : CopyinData σ} {r : ElementRun σ}

theorem Taken.word (ht : Taken c sv size pos w i d r) (hb : Counted c i) {q : Nat}
    (hq : q < i.data ∨ i.next ≤ q) : r.walk.word q = w.word q := by
  have hm := ht.moved
  rw [ht.data] at hm
  rw [ht.run, ht.data]
  exact accepted_word (fun _ => hb) hm hq

theorem Taken.kernel (ht : Taken c sv size pos w i d r) :
    r.walk.kernelMessage = w.kernelMessage := by
  rw [ht.run, copyinElements_kernel, ht.data, copyinData_kernel]

theorem Taken.data_gt (ht : Taken c sv size pos w i d r) : pos < i.data := by
  rw [ht.item]
  exact MsgItem.data_gt w.word pos

theorem Taken.next_gt (ht : Taken c sv size pos w i d r) : pos < i.next := by
  rw [ht.item]
  exact MsgItem.next_gt w.word pos

theorem Taken.fast (ht : Taken c sv size pos w i d r) (hb : Counted c i)
    (hpos : msgHeaderWords ≤ pos) : r.walk.fastPagerData c = w.fastPagerData c := by
  have hgt := ht.data_gt
  unfold msgHeaderWords at hpos
  unfold MsgWalk.fastPagerData
  rw [ht.word hb (.inl (by omega)), ht.kernel]

theorem Taken.item_of_word (ht : Taken c sv size pos w i d r) (hb : Counted c i) {word : Nat → Cell}
    (h : ∀ q, pos ≤ q → q < i.data → word q = r.walk.word q) : msgItem word pos = i := by
  rw [ht.item]
  refine MsgItem.msgItem_congr_data fun q hq hlt => ?_
  rw [← ht.item] at hlt
  rw [h q hq hlt, ht.word hb (.inl hlt)]

variable {held : σ → Word → Prop}

theorem Taken.stillHeld (ht : Taken c sv size pos w i d r) (hc : MsgContract sv held) {b : Word}
    (h : held w.machine b) : held r.walk.machine b := by
  have hok := ht.ok
  rw [ht.run] at hok ⊢
  refine copyinElements_held hc hok ?_
  rw [ht.data]
  rcases copyinData_cases c sv i w with ⟨_, hd⟩ | ⟨_, _, w', hv, hd⟩ | ⟨_, _, w', base, hv, hd⟩ |
    ⟨_, _, hd⟩
  · rw [hd]
    exact h
  · have hh := vmMoveIn_held hc hv h
    rw [hd]
    exact hh
  · have hh := vmMoveIn_held hc hv h
    rw [hd]
    exact hh
  · rw [hd]
    exact h

theorem Counted.bytes_ne_zero (hb : Counted c i) (hn : i.ports c ≠ 0) : i.numbytes ≠ 0 := by
  intro hz
  unfold Counted at hb
  rw [hz] at hb
  have hzero : (0 : Word).toNat = 0 := rfl
  omega

theorem fast_of_not_moved (hn : i.name ≠ msgTypeInternalMemory)
    (h : moveMsgData c w i.name = false) : w.fastPagerData c = true := by
  unfold moveMsgData at h
  simpa [hn] using h

theorem not_fast_of_moved (h : moveMsgData c w i.name = true) : w.fastPagerData c = false := by
  unfold moveMsgData at h
  simp only [Bool.and_eq_true, Bool.not_eq_true'] at h
  exact h.1

theorem Taken.array (ht : Taken c sv size pos w i d r) (hc : MsgContract sv held) (hb : Counted c i)
    (htr : Translated c (w.fastPagerData c) i) {b : Word} (h : held w.machine b) :
    r.walk.array b = w.array b := by
  have hok := ht.ok
  rw [ht.run] at hok ⊢
  rcases copyinData_cases c sv i w with ⟨_, hd⟩ | ⟨_, _, w', hv, hd⟩ | ⟨_, _, w', base, hv, hd⟩ |
    ⟨hi, hmove, hd⟩
  · rw [ht.data, hd] at hok ⊢
    exact copyinElements_array hok fun _ hp => by cases hp
  · have hm := ht.moved
    rw [ht.data, hd] at hm
    simp at hm
  · have hne : i.numbytes ≠ 0 → b ≠ base := by
      intro hz he
      exact (vmMoveIn_fresh hc hz hv).1 (he ▸ h)
    have ha := vmMoveIn_array hne hv
    rw [ht.data, hd] at hok ⊢
    rw [copyinElements_array hok]
    · exact ha
    · intro hn hp
      cases hp
      exact hne (hb.bytes_ne_zero hn) rfl
  · have hz := htr.2 hi (fast_of_not_moved htr.1 hmove)
    rw [ht.data, hd] at hok ⊢
    exact copyinElements_array hok fun hn => absurd hz hn

/-- What a walker of the kernel copy reads off an item that is not internal memory. -/
def readVisit (c : MsgConfig) (u : MsgWalk σ) (i : MsgItem) : Visit where
  item := i
  place := if i.ports c ≠ 0 then some (objList u i) else none
  visited := i.ports c
  pointer := listPointer c u i
  objects := nonNull (u.cell (objList u i)) (i.ports c) 0
  region :=
    if i.isInline then none
    else if u.fastPagerData c then none else some (u.word i.data, i.numbytes)
  vmObject := none

/-- What a later walker sees of this turn: the words up to the next item and the array that was
moved in. -/
structure Sees (held : σ → Word → Prop) (pos next : Nat) (m : σ) (f u : MsgWalk σ) : Prop where
  word : ∀ q, pos ≤ q → q < next → u.word q = f.word q
  array : ∀ b, ¬ held m b → held f.machine b → u.array b = f.array b

theorem Taken.pointer (ht : Taken c sv size pos w i d r) {base : Word} (hi : i.isInline = false)
    {w' : MsgWalk σ} {p : Option Cell} {g : Option (Cell × Word)}
    (hd : copyinData c sv i w = ⟨w'.setWord i.data ⟨base, true⟩, true, .array base, p, g⟩) {u : MsgWalk σ}
    (hs : Sees held pos i.next w.machine r.walk u) : u.word i.data = ⟨base, true⟩ := by
  have hgt := ht.data_gt
  have hn : i.next = i.data + 1 := by simp [MsgItem.next, hi]
  rw [hs.word i.data (by omega) (by omega), ht.run, ht.data, hd, copyinElements_word]
  · rw [setWord_word, if_pos rfl]
  · intro q hq
    cases hq

theorem Taken.moved_base (ht : Taken c sv size pos w i d r) (hc : MsgContract sv held)
    (hb : Counted c i) (htr : Translated c (w.fastPagerData c) i) (hi : i.isInline = false)
    (hn : i.ports c ≠ 0) {u : MsgWalk σ} (hs : Sees held pos i.next w.machine r.walk u) :
    ∃ base, d.place = .array base ∧ u.word i.data = ⟨base, true⟩ ∧ ¬ held w.machine base ∧
      held r.walk.machine base := by
  rcases copyinData_cases c sv i w with ⟨hin, _⟩ | ⟨_, _, w', hv, hd⟩ | ⟨_, _, w', base, hv, hd⟩ |
    ⟨_, hmove, _⟩
  · rw [hi] at hin
    simp at hin
  · have hm := ht.moved
    rw [ht.data, hd] at hm
    simp at hm
  · have hfresh := vmMoveIn_fresh hc (hb.bytes_ne_zero hn) hv
    refine ⟨base, by rw [ht.data, hd], ht.pointer hi hd hs, hfresh.1, ?_⟩
    have hok := ht.ok
    rw [ht.run] at hok ⊢
    refine copyinElements_held hc hok ?_
    rw [ht.data, hd]
    exact hfresh.2
  · exact absurd (htr.2 hi (fast_of_not_moved htr.1 hmove)) hn

theorem Taken.list_eq (ht : Taken c sv size pos w i d r) (hc : MsgContract sv held)
    (hb : Counted c i) (htr : Translated c (w.fastPagerData c) i) {u : MsgWalk σ}
    (hs : Sees held pos i.next w.machine r.walk u) (hn : i.ports c ≠ 0) :
    objList u i = d.place ∧ ∀ j < i.ports c, u.cell d.place j = r.walk.cell d.place j := by
  have hgt := ht.data_gt
  cases hi : i.isInline with
  | true =>
    have hle := ports_le_next hb hi
    have hp : d.place = .body i.data := by
      rw [ht.data, copyinData, if_pos hi]
    rw [hp]
    exact ⟨by simp [objList, hi], fun j hj => hs.word (i.data + j) (by omega) (by omega)⟩
  | false =>
    obtain ⟨base, hp, hpoint, hfree, hnow⟩ := ht.moved_base hc hb htr hi hn hs
    rw [hp]
    refine ⟨by simp [objList, hi, hpoint], fun j _ => ?_⟩
    show u.array base j = r.walk.array base j
    rw [hs.array base hfree hnow]

theorem Taken.readVisit_eq (ht : Taken c sv size pos w i d r) (hc : MsgContract sv held)
    (hb : Counted c i) (htr : Translated c (w.fastPagerData c) i) {u : MsgWalk σ}
    (hs : Sees held pos i.next w.machine r.walk u) (hf : u.fastPagerData c = w.fastPagerData c) :
    readVisit c u i = takenVisit c i d r ∧
      ∀ j < i.ports c, (u.cell (objList u i) j).value ≠ kernObjInvalid := by
  have hok := ht.ok
  have hvis : r.visited = i.ports c := by
    rw [ht.run] at hok ⊢
    rw [copyinElements_visited.2 hok]
    omega
  obtain ⟨hobj, _, hinv⟩ : r.objects = nonNull (r.walk.cell d.place) (i.ports c) 0 ∧
      (∀ x ∈ r.objects, x.stored = true) ∧
      ∀ j, 0 ≤ j → j < 0 + i.ports c → (r.walk.cell d.place j).value ≠ kernObjInvalid := by
    rw [ht.run] at hok ⊢
    exact copyinElements_objects hc hok
  have hobjects : nonNull (u.cell (objList u i)) (i.ports c) 0 = r.objects := by
    rw [hobj]
    by_cases hn : i.ports c = 0
    · rw [hn]
      rfl
    · obtain ⟨hp, hcell⟩ := ht.list_eq hc hb htr hs hn
      rw [hp]
      exact nonNull_congr fun j _ hj => hcell j (by omega)
  have hplace : (if i.ports c ≠ 0 then some (objList u i) else none) =
      if i.ports c ≠ 0 then some d.place else none := by
    by_cases hn : i.ports c = 0
    · simp [hn]
    · rw [(ht.list_eq hc hb htr hs hn).1]
  have hrest : listPointer c u i = d.pointer ∧
      (if i.isInline then none else if u.fastPagerData c then none
        else some (u.word i.data, i.numbytes)) = d.region := by
    rw [ht.data]
    unfold listPointer
    rcases copyinData_cases c sv i w with ⟨hi, hd⟩ | ⟨_, _, w', hv, hd⟩ | ⟨hi, hmove, w', base, hv, hd⟩ |
      ⟨hi, hmove, hd⟩
    · rw [hd]
      simp [hi]
    · have hm := ht.moved
      rw [ht.data, hd] at hm
      simp at hm
    · have hpoint := ht.pointer hi hd hs
      rw [hd, hf, not_fast_of_moved hmove, hpoint]
      simp [hi]
    · have hfast := fast_of_not_moved htr.1 hmove
      have hz := htr.2 hi hfast
      rw [hd, hf, hfast]
      simp [hi, hz]
  refine ⟨?_, fun j hj => ?_⟩
  · unfold readVisit takenVisit
    rw [hobjects, hplace, hrest.1, hrest.2, hvis]
  · obtain ⟨hp, hcell⟩ := ht.list_eq hc hb htr hs (by omega)
    rw [hp, hcell j hj]
    exact hinv j (Nat.zero_le j) (by omega)

end Turn

/-! ## One turn of the other two walkers -/

theorem vmMoveOut_frame (sv : MsgServices σ) (w : MsgWalk σ) (isPort : Bool) (p : Nat) (bytes : Word) :
    (∀ q, q ≠ p → (vmMoveOut sv w isPort p bytes).word q = w.word q) ∧
      (vmMoveOut sv w isPort p bytes).array = w.array ∧
      (vmMoveOut sv w isPort p bytes).kernelMessage = w.kernelMessage := by
  unfold vmMoveOut
  split
  next => exact ⟨fun q hq => setWord_ne hq, rfl, rfl⟩
  next =>
    split
    next => exact ⟨fun q _ => rfl, rfl, rfl⟩
    next => exact ⟨fun q hq => setWord_ne hq, rfl, rfl⟩

theorem objList_apart {u : MsgWalk σ} (hb : Counted c i) {q : Nat} (hq : q < i.data ∨ i.next ≤ q) :
    Apart (objList u i) 0 (i.ports c) q := by
  intro p hp
  unfold objList at hp
  split at hp
  next hi =>
    cases hp
    have hle := ports_le_next hb hi
    omega
  next => cases hp

theorem copyoutTurn_eq {u : MsgWalk σ} (hi : msgItem u.word pos = i) (hpos : msgHeaderWords ≤ pos)
    (hn : i.name ≠ msgTypeInternalMemory) (hb : Counted c i) :
    ∃ u', copyoutTurn c sv pos u = (i.next, u', readVisit c u i) ∧
      (∀ q, q < i.data ∨ i.next ≤ q → u'.word q = u.word q) ∧
      (∀ b, (i.isInline = false → i.ports c ≠ 0 → (u.word i.data).value ≠ b) → u'.array b = u.array b) ∧
      u'.kernelMessage = u.kernelMessage := by
  have hgt : pos < i.data := by
    rw [← hi]
    exact MsgItem.data_gt u.word pos
  unfold msgHeaderWords at hpos
  obtain ⟨e, he⟩ : ∃ e, e = copyoutElements sv i (objList u i) (i.ports c) 0 u := ⟨_, rfl⟩
  have hword : ∀ q, q < i.data ∨ i.next ≤ q → e.1.word q = u.word q := by
    intro q hq
    rw [he]
    exact copyoutElements_word (objList_apart hb hq)
  have hkernel : e.1.kernelMessage = u.kernelMessage := by
    rw [he]
    exact copyoutElements_kernel
  have hfast : e.1.fastPagerData c = u.fastPagerData c := by
    unfold MsgWalk.fastPagerData
    rw [hword 5 (.inl (by omega)), hkernel]
  have hobj : e.2 = nonNull (u.cell (objList u i)) (i.ports c) 0 := by
    rw [he]
    exact copyoutElements_objects
  have harray : ∀ b, (i.isInline = false → i.ports c ≠ 0 → (u.word i.data).value ≠ b) →
      e.1.array b = u.array b := by
    intro b hne
    rw [he]
    refine copyoutElements_array fun hz hp => ?_
    unfold objList at hp
    split at hp
    next => cases hp
    next hf =>
      cases hp
      exact hne (by simpa using hf) hz rfl
  unfold copyoutTurn readVisit
  dsimp only
  rw [hi, if_neg hn, ← he, hfast, hobj]
  by_cases hin : i.isInline = true
  · rw [if_pos hin, if_pos hin]
    exact ⟨e.1, rfl, hword, harray, hkernel⟩
  · have hout : i.isInline = false := by simpa using hin
    have hnext : i.next = i.data + 1 := by simp [MsgItem.next, hout]
    have hdata : e.1.word i.data = u.word i.data := by
      rw [he]
      refine copyoutElements_word fun p hp => ?_
      simp [objList, hout] at hp
    rw [if_neg hin, if_neg hin, hdata]
    cases hf : u.fastPagerData c with
    | true => exact ⟨e.1, rfl, hword, harray, hkernel⟩
    | false =>
      obtain ⟨hmw, hma, hmk⟩ := vmMoveOut_frame sv e.1 (msgTypePortAny c i.name) i.data i.numbytes
      refine ⟨_, rfl, fun q hq => ?_, fun b hne => ?_, ?_⟩
      · rw [hmw q (by omega)]
        exact hword q hq
      · rw [hma]
        exact harray b hne
      · rw [hmk, hkernel]

theorem destroyTurn_eq {u : MsgWalk σ} (hi : msgItem u.word pos = i)
    (hn : i.name ≠ msgTypeInternalMemory)
    (hv : ∀ j < i.ports c, (u.cell (objList u i) j).value ≠ kernObjInvalid) :
    ∃ m, destroyTurn c sv pos u = ⟨i.next, true, m, readVisit c u i⟩ := by
  obtain ⟨e, he⟩ : ∃ e, e = destroyElements sv i (u.cell (objList u i)) (i.ports c) 0 u.machine :=
    ⟨_, rfl⟩
  obtain ⟨hok, hvis, hobj⟩ : e.ok = true ∧ e.visited = 0 + i.ports c ∧
      e.objects = nonNull (u.cell (objList u i)) (i.ports c) 0 := by
    rw [he]
    exact destroyElements_eq fun j _ hj => hv j (by omega)
  have hvis' : e.visited = i.ports c := by omega
  unfold destroyTurn readVisit
  dsimp only
  rw [hi, ← he, hok, if_neg (by decide), if_neg hn, hvis', hobj]
  by_cases hin : i.isInline = true
  · rw [if_pos hin, if_pos hin]
    exact ⟨_, rfl⟩
  · rw [if_neg hin, if_neg hin]
    cases hf : u.fastPagerData c with
    | true => exact ⟨_, rfl⟩
    | false => exact ⟨_, rfl⟩

/-! ## Whole walks -/

section Run

variable {held : σ → Word → Prop} {simple simple' : Bool} {w f u : MsgWalk σ} {log : List Visit}

/-- The kernel words a visit uses as addresses. -/
def Visit.derefs (v : Visit) : List Cell :=
  v.pointer.toList ++ v.objects ++ (v.region.map Prod.fst).toList ++ v.vmObject.toList

theorem Taken.stored {d : CopyinData σ} {r : ElementRun σ} (ht : Taken c sv size pos w i d r)
    (hc : MsgContract sv held) (htr : Translated c (w.fastPagerData c) i) :
    ∀ x ∈ (takenVisit c i d r).derefs, x.stored = true := by
  have hok := ht.ok
  have hst : ∀ x ∈ r.objects, x.stored = true := by
    rw [ht.run] at hok ⊢
    exact (copyinElements_objects hc hok).2.1
  have hp : (∀ x ∈ d.pointer.toList, x.stored = true) ∧
      ∀ x ∈ (d.region.map Prod.fst).toList, x.stored = true := by
    rw [ht.data]
    rcases copyinData_cases c sv i w with ⟨_, hd⟩ | ⟨_, _, w', _, hd⟩ | ⟨_, _, w', base, _, hd⟩ |
      ⟨hi, hmove, hd⟩
    · rw [hd]
      simp
    · rw [hd]
      simp
    · rw [hd]
      split <;> simp
    · have hz := htr.2 hi (fast_of_not_moved htr.1 hmove)
      rw [hd]
      simp [hz]
  intro x hx
  simp only [Visit.derefs, takenVisit, Option.toList_none, List.append_nil, List.mem_append] at hx
  rcases hx with (hx | hx) | hx
  · exact hp.1 x hx
  · exact hst x hx
  · exact hp.2 x hx

theorem CopyinRun.frame (h : CopyinRun c sv size pos simple w simple' f log)
    (hb : ∀ v ∈ log, Counted c v.item) :
    (∀ q ≤ pos, f.word q = w.word q) ∧ f.kernelMessage = w.kernelMessage := by
  induction h with
  | done => exact ⟨fun _ _ => rfl, rfl⟩
  | @turn pos simple simple' w f log i d r hlt ht _ ih =>
    obtain ⟨hword, hkernel⟩ := ih fun v hv => hb v (List.mem_cons_of_mem _ hv)
    have hcount : Counted c i := hb _ List.mem_cons_self
    have hgt := ht.data_gt
    have hnext := ht.next_gt
    refine ⟨fun q hq => ?_, by rw [hkernel, ht.kernel]⟩
    rw [hword q (by omega), ht.word hcount (.inl (by omega))]

theorem CopyinRun.array (h : CopyinRun c sv size pos simple w simple' f log)
    (hc : MsgContract sv held) (hpos : msgHeaderWords ≤ pos) (hb : ∀ v ∈ log, Counted c v.item)
    (htr : ∀ v ∈ log, Translated c (w.fastPagerData c) v.item) {b : Word} (hh : held w.machine b) :
    f.array b = w.array b := by
  induction h with
  | done => rfl
  | @turn pos simple simple' w f log i d r hlt ht _ ih =>
    have hcount : Counted c i := hb _ List.mem_cons_self
    have htrans : Translated c (w.fastPagerData c) i := htr _ List.mem_cons_self
    have hnext := ht.next_gt
    rw [ih (by omega) (fun v hv => hb v (List.mem_cons_of_mem _ hv))
      (fun v hv => by
        rw [ht.fast hcount hpos]
        exact htr v (List.mem_cons_of_mem _ hv))
      (ht.stillHeld hc hh)]
    exact ht.array hc hcount htrans hh

/-- A later walker at `pos`: it sees the words ahead and the arrays still to come as the run left
them. -/
structure Agrees (c : MsgConfig) (held : σ → Word → Prop) (pos : Nat) (w f u : MsgWalk σ) : Prop where
  word : ∀ q, pos ≤ q → u.word q = f.word q
  array : ∀ b, ¬ held w.machine b → u.array b = f.array b
  fast : u.fastPagerData c = w.fastPagerData c

theorem Agrees.setMachine (h : Agrees c held pos w f u) (m : σ) :
    Agrees c held pos w f (u.setMachine m) := ⟨h.word, h.array, h.fast⟩

theorem CopyinRun.walkers_agree {fuel : Nat} (h : CopyinRun c sv size pos simple w simple' f log)
    (hc : MsgContract sv held) (hpos : msgHeaderWords ≤ pos) (hfuel : size - pos < fuel)
    (hb : ∀ v ∈ log, Counted c v.item)
    (htr : ∀ v ∈ log, Translated c (w.fastPagerData c) v.item) :
    (∀ u, Agrees c held pos w f u → ∃ u', copyoutLoop c sv size fuel pos u = some (u', log)) ∧
      ∀ u, Agrees c held pos w f u → ∃ m, destroyLoop c sv size fuel pos u = some (m, log) := by
  induction h generalizing fuel with
  | done hle =>
    cases fuel with
    | zero => omega
    | succ fuel =>
      exact ⟨fun u _ => ⟨u, by rw [copyoutLoop, if_neg (by omega)]⟩,
        fun u _ => ⟨u.machine, by rw [destroyLoop, if_neg (by omega)]⟩⟩
  | @turn pos simple simple' w f log i d r hlt ht hrun ih =>
    cases fuel with
    | zero => omega
    | succ fuel =>
      have hcount : Counted c i := hb _ List.mem_cons_self
      have htrans : Translated c (w.fastPagerData c) i := htr _ List.mem_cons_self
      have hcounts := fun v hv => hb v (List.mem_cons_of_mem (takenVisit c i d r) hv)
      have hfast := ht.fast hcount hpos
      have htail : ∀ v ∈ log, Translated c (r.walk.fastPagerData c) v.item := by
        intro v hv
        rw [hfast]
        exact htr v (List.mem_cons_of_mem _ hv)
      have hnext := ht.next_gt
      have hgt := ht.data_gt
      obtain ⟨hcopyout, hdestroy⟩ := @ih fuel (by omega) (by omega) hcounts htail
      have hsees : ∀ u, Agrees c held pos w f u → Sees held pos i.next w.machine r.walk u := by
        intro u hu
        refine ⟨fun q hq hlt => ?_, fun b hfree hnow => ?_⟩
        · rw [hu.word q hq, (hrun.frame hcounts).1 q (by omega)]
        · rw [hu.array b hfree, hrun.array hc (by omega) hcounts htail hnow]
      have hitem : ∀ u, Agrees c held pos w f u → msgItem u.word pos = i := by
        intro u hu
        refine ht.item_of_word hcount fun q hq hlt => ?_
        have hle := MsgItem.data_le_next i
        exact (hsees u hu).word q hq (by omega)
      constructor
      · intro u hu
        obtain ⟨hread, _⟩ := ht.readVisit_eq hc hcount htrans (hsees u hu) hu.fast
        obtain ⟨u', hturn, hword, harray, hkernel⟩ :=
          @copyoutTurn_eq σ c sv i pos u (hitem u hu) hpos htrans.1 hcount
        have hu' : Agrees c held i.next r.walk f u' := by
          refine ⟨fun q hq => ?_, fun b hfree => ?_, ?_⟩
          · rw [hword q (.inr hq), hu.word q (by omega)]
          · rw [harray b, hu.array b fun hh => hfree (ht.stillHeld hc hh)]
            intro hi hn he
            obtain ⟨base, _, hpoint, _, hnow⟩ := ht.moved_base hc hcount htrans hi hn (hsees u hu)
            rw [hpoint] at he
            exact hfree (he ▸ hnow)
          · rw [hfast, ← hu.fast]
            unfold MsgWalk.fastPagerData
            unfold msgHeaderWords at hpos
            rw [hword 5 (.inl (by omega)), hkernel]
        obtain ⟨u'', hloop⟩ := hcopyout u' hu'
        refine ⟨u'', ?_⟩
        rw [copyoutLoop, if_pos hlt, hturn]
        dsimp only
        rw [hloop, hread]
        rfl
      · intro u hu
        obtain ⟨hread, hvalid⟩ := ht.readVisit_eq hc hcount htrans (hsees u hu) hu.fast
        obtain ⟨m, hturn⟩ := @destroyTurn_eq σ c sv i pos u (hitem u hu) htrans.1 hvalid
        have hu' : Agrees c held i.next r.walk f (u.setMachine m) := by
          refine ⟨fun q hq => hu.word q (by omega), fun b hfree => ?_, by rw [hfast]; exact hu.fast⟩
          exact hu.array b fun hh => hfree (ht.stillHeld hc hh)
        obtain ⟨m', hloop⟩ := hdestroy _ hu'
        refine ⟨m', ?_⟩
        rw [destroyLoop, if_pos hlt, hturn]
        dsimp only
        rw [if_pos rfl, hloop, hread]
        rfl

end Run

end MachVM.Ipc
