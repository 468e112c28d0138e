import MachVM.IpcMessageTurn

namespace MachVM.Ipc

variable {σ : Type} {c : MsgConfig} {sv : MsgServices σ} {i : MsgItem} {size : Nat}

/-- What is asked of one item: the descriptor lies in the body, and the elements
looked at lie in the inline data or in the copy of the out-of-line array made for this item. -/
def VisitInside (size : Nat) (v : Visit) : Prop :=
  msgHeaderWords ≤ v.item.pos ∧ 4 * v.item.data ≤ size ∧ 4 * v.visited ≤ v.item.numbytes.toNat ∧
    match v.place with
    | none => True
    | some (.body p) => p = v.item.data ∧ 4 * p + 4 * v.visited ≤ size
    | some (.array base) => v.region.map (fun r => (r.1.value, r.2)) = some (base, v.item.numbytes)

instance (size : Nat) (v : Visit) : Decidable (VisitInside size v) := by
  unfold VisitInside
  rcases v.place with _ | _ | _ <;> exact inferInstance

/-- Every item visited is inside, and one that does not fit ends the walk at once. -/
structure LogInside (size : Nat) (code : MsgReturn) (log : List Visit) : Prop where
  inside : ∀ v ∈ log, VisitInside size v
  tooSmall : ∀ l v l', log = l ++ v :: l' → ¬ v.item.Fits size → code = .msgTooSmall ∧ l' = []

/-- `msg_copyin` returns, and stayed inside the message. -/
def StaysInside (msg : UserMessage) (r : Option (CopyinReturn σ)) : Prop :=
  ∃ x, r = some x ∧ LogInside msg.size x.code x.log

/-- The condition on the port elements of one item: there are bytes for all of them, and out of line
they are not in fast pager data. -/
def PortsGood (c : MsgConfig) (fast : Bool) (size : Nat) (i : MsgItem) : Prop :=
  i.Accepted c size → msgTypePortAny c i.name = true →
    4 * i.trips ≤ i.numbytes.toNat ∧ (i.isInline = false → fast = true → i.trips = 0)

/-- The condition on one item. -/
def ItemGood (c : MsgConfig) (fast : Bool) (size : Nat) (i : MsgItem) : Prop :=
  4 * i.data ≤ size ∧ (i.tooSmall size = false → i.Fits size) ∧ PortsGood c fast size i

namespace UserMessage

def fastMessage (c : MsgConfig) (msg : UserMessage) : Bool :=
  c.fastPager && decide (msg.word 5 = 2038)

def Good (c : MsgConfig) (msg : UserMessage) : Prop :=
  msg.EveryItem c (ItemGood c (msg.fastMessage c) msg.size)

end UserMessage

theorem logInside_nil (size : Nat) (code : MsgReturn) : LogInside size code [] := by
  constructor
  · simp
  · simp

theorem logInside_cons {code : MsgReturn} {v : Visit} {log : List Visit} :
    LogInside size code (v :: log) ↔
      VisitInside size v ∧ (¬ v.item.Fits size → code = .msgTooSmall ∧ log = []) ∧
        LogInside size code log := by
  constructor
  · intro h
    refine ⟨h.inside v List.mem_cons_self, h.tooSmall [] v log rfl, ?_, ?_⟩
    · exact fun u hu => h.inside u (List.mem_cons_of_mem v hu)
    · intro l u l' hl hf
      exact h.tooSmall (v :: l) u l' (by rw [hl]; rfl) hf
  · intro ⟨hv, ht, hlog⟩
    constructor
    · intro u hu
      rcases List.mem_cons.mp hu with rfl | hu
      · exact hv
      · exact hlog.inside u hu
    · intro l u l' hl hf
      rcases List.cons_eq_append_iff.mp hl with ⟨_, hl⟩ | ⟨l₁, _, hl⟩
      · obtain ⟨rfl, rfl⟩ := List.cons.inj hl
        exact ht hf
      · exact hlog.tooSmall l₁ u l' hl hf

theorem PortsGood.bytes {fast : Bool} (h : PortsGood c fast size i) (ha : i.Accepted c size) :
    4 * i.ports c ≤ i.numbytes.toNat := by
  unfold MsgItem.ports
  split
  next hp => exact (h ha hp).1
  next => omega

theorem takenVisit_inside {fast : Bool} {w : MsgWalk σ} {n : Nat} {os : List Cell}
    (hpos : msgHeaderWords ≤ i.pos) (hs : size ≤ msgSizeMax) (hg : ItemGood c fast size i)
    (ha : i.Accepted c size) (hf : w.fastPagerData c = true → fast = true)
    (hm : (copyinData c sv i w).moved = true) (hn : n ≤ i.ports c)
    {walk : MsgWalk σ} {ok : Bool} :
    VisitInside size (takenVisit c i (copyinData c sv i w) ⟨walk, ok, n, os⟩) := by
  have hroom := (MsgItem.tooSmall_eq_false_iff hg.1 hs).mp ha.1
  have hbytes := PortsGood.bytes hg.2.2 ha
  refine ⟨hpos, hg.1, by simp only [takenVisit]; omega, ?_⟩
  unfold takenVisit
  dsimp only
  by_cases hz : i.ports c = 0
  · rw [if_neg (by simpa using hz)]
    trivial
  · rw [if_pos hz]
    rcases copyinData_cases c sv i w with ⟨hi, hd⟩ | ⟨_, _, w', _, hd⟩ | ⟨_, _, w', base, _, hd⟩ |
      ⟨hi, hmove, hd⟩
    · rw [hd]
      rw [if_pos hi] at hroom
      exact ⟨rfl, by omega⟩
    · rw [hd] at hm
      simp at hm
    · rw [hd]
      rfl
    · unfold MsgItem.ports at hz
      split at hz
      next hp =>
        have hfast : w.fastPagerData c = true := by
          unfold moveMsgData at hmove
          simpa [portAny_ne_internal hp] using hmove
        exact absurd ((hg.2.2 ha hp).2 hi (hf hfast)) hz
      next => exact absurd rfl hz

/-- What is said of a turn: the visit is inside, and only an item that fits is passed. -/
def TurnInside (c : MsgConfig) (size pos : Nat) (w : MsgWalk σ) : CopyinTurn σ → Prop
  | .fail code w' v =>
    VisitInside size v ∧ (¬ v.item.Fits size → code = .msgTooSmall) ∧ code ≠ .success ∧
      (w'.msgSize ≤ w.msgSize ∨ w'.msgSize = 4 * pos)
  | .next pos' _ w' v =>
    VisitInside size v ∧ v.item.Fits size ∧ (msgItem w.word pos).Accepted c size ∧
      pos' = (msgItem w.word pos).next ∧
      (∀ q, q < (msgItem w.word pos).data ∨ (msgItem w.word pos).next ≤ q → w'.word q = w.word q) ∧
      w'.kernelMessage = w.kernelMessage

theorem refusedVisit_inside (hpos : msgHeaderWords ≤ i.pos) (hd : 4 * i.data ≤ size) :
    VisitInside size (refusedVisit i) :=
  ⟨hpos, hd, Nat.zero_le _, trivial⟩

theorem fits_of_good {fast : Bool} (hg : ItemGood c fast size i) (ha : i.Accepted c size) :
    i.Fits size := hg.2.1 ha.1

theorem copyinTurn_inside {fast : Bool} {pos : Nat} {w : MsgWalk σ} (hpos : msgHeaderWords ≤ pos)
    (hs : size ≤ msgSizeMax) (hlt : 4 * pos < size)
    (hg : ItemGood c fast size (msgItem w.word pos)) (hf : w.fastPagerData c = true → fast = true) :
    TurnInside c size pos w (copyinTurn c sv size pos w) := by
  have hsmall : 4 * pos < 2 ^ 32 := by
    unfold msgSizeMax at hs
    omega
  obtain ⟨i, d, r, hi, hd, hr, hcase⟩ := copyinTurn_cases c sv size pos w
  have hip : msgHeaderWords ≤ i.pos := by rw [hi, MsgItem.pos_msgItem]; exact hpos
  rw [← hi] at hg
  rcases hcase with ⟨_, ht⟩ | ⟨hts, _, _, ht⟩ | ⟨ha, _, ht⟩ | ⟨ha, hm, _, ht⟩ | ⟨ha, hm, _, ht⟩
  · rw [ht]
    exact ⟨refusedVisit_inside hip hg.1, fun _ => rfl, by decide,
      .inr (setMsgSize_msgSize w hsmall)⟩
  · rw [ht]
    exact ⟨refusedVisit_inside hip hg.1, fun hn => absurd (hg.2.1 hts) hn, by decide,
      .inr (setMsgSize_msgSize w hsmall)⟩
  · rw [ht]
    exact ⟨refusedVisit_inside hip hg.1, fun hn => absurd (fits_of_good hg ha) hn, by decide,
      .inr (setMsgSize_msgSize d.walk hsmall)⟩
  · rw [ht]
    have hvis : r.visited ≤ i.ports c := by
      rw [hr]
      exact Nat.le_trans copyinElements_visited.1 (by omega)
    have hsize : r.walk.word 1 = w.word 1 := by
      rw [hr, hd]
      refine accepted_word (fun _ => PortsGood.bytes hg.2.2 ha) (by rw [← hd]; exact hm) (.inl ?_)
      have hgt := MsgItem.data_gt w.word pos
      rw [← hi] at hgt
      unfold msgHeaderWords at hpos
      omega
    refine ⟨?_, fun hn => absurd (fits_of_good hg ha) hn, by decide, .inl ?_⟩
    · rw [hd] at hm ⊢
      exact takenVisit_inside hip hs hg ha hf hm hvis
    · rw [MsgWalk.msgSize, hsize]
      exact Nat.le_refl _
  · rw [ht]
    have hvis : r.visited ≤ i.ports c := by
      rw [hr]
      exact Nat.le_trans copyinElements_visited.1 (by omega)
    refine ⟨?_, fits_of_good hg ha, by rw [← hi]; exact ha, by rw [hi], ?_, ?_⟩
    · rw [hd] at hm ⊢
      exact takenVisit_inside hip hs hg ha hf hm hvis
    · intro q hq
      rw [← hi] at hq
      rw [hr, hd]
      exact accepted_word (fun _ => PortsGood.bytes hg.2.2 ha) (by rw [← hd]; exact hm) hq
    · rw [hr, hd, copyinElements_kernel, copyinData_kernel]

/-! ## The whole walk -/

/-- The state of the walk still shows the sender's words from `pos` on, and the sender's identifier. -/
structure Untouched (word : Nat → Cell) (pos : Nat) (w : MsgWalk σ) : Prop where
  ahead : ∀ p, pos ≤ p → w.word p = word p
  msgId : w.word 5 = word 5

theorem Untouched.item {word : Nat → Cell} {pos : Nat} {w : MsgWalk σ} (h : Untouched word pos w) :
    msgItem w.word pos = msgItem word pos :=
  MsgItem.msgItem_congr_data fun p hp _ => congrArg Cell.value (h.ahead p hp)

theorem Untouched.next {word : Nat → Cell} {pos : Nat} {w w' : MsgWalk σ}
    (hpos : msgHeaderWords ≤ pos) (h : Untouched word pos w)
    (hw : ∀ q, q < (msgItem w.word pos).data ∨ (msgItem w.word pos).next ≤ q → w'.word q = w.word q) :
    Untouched word (msgItem w.word pos).next w' := by
  have hgt := MsgItem.data_gt w.word pos
  have hle := MsgItem.data_le_next (msgItem w.word pos)
  unfold msgHeaderWords at hpos
  refine ⟨fun p hp => ?_, ?_⟩
  · rw [hw p (.inr hp)]
    exact h.ahead p (by omega)
  · rw [hw 5 (.inl (by omega))]
    exact h.msgId

theorem fastPagerData_word {word : Nat → Cell} {pos : Nat} {w : MsgWalk σ}
    (h : Untouched word pos w) (hf : w.fastPagerData c = true) :
    (c.fastPager && decide ((word 5).value = 2038)) = true := by
  unfold MsgWalk.fastPagerData at hf
  rw [h.msgId] at hf
  simp only [Bool.and_eq_true] at hf ⊢
  exact hf.1

theorem copyinLoop_inside {word : Nat → Cell} {fuel pos : Nat} {simple : Bool} {w : MsgWalk σ}
    (hpos : msgHeaderWords ≤ pos) (hs : size ≤ msgSizeMax) (hfuel : size - pos < fuel)
    (hg : ItemsFrom c size word (ItemGood c (c.fastPager && decide ((word 5).value = 2038)) size) fuel pos)
    (hw : Untouched word pos w) (hsize : w.msgSize ≤ msgSizeMax) :
    ∃ r, copyinLoop c sv size fuel pos simple w = some r ∧ LogInside size r.code r.log ∧
      r.walk.msgSize ≤ msgSizeMax := by
  induction fuel generalizing pos simple w with
  | zero => omega
  | succ fuel ih =>
    unfold copyinLoop
    split
    next hlt =>
      obtain ⟨hitem, hrest⟩ := hg hlt
      have hturn : TurnInside c size pos w (copyinTurn c sv size pos w) :=
        copyinTurn_inside hpos hs hlt (by rw [hw.item]; exact hitem) (fastPagerData_word hw)
      split
      next pos' simple' w' v ht =>
        rw [ht] at hturn
        obtain ⟨hv, hfit, hacc, hp', hword, _⟩ := hturn
        have hgt := MsgItem.next_gt w.word pos
        have hone : w'.word 1 = w.word 1 := by
          refine hword 1 (.inl ?_)
          have := MsgItem.data_gt w.word pos
          unfold msgHeaderWords at hpos
          omega
        have hgood : ItemsFrom c size word (ItemGood c (c.fastPager && decide ((word 5).value = 2038)) size) fuel pos' := by
          rw [hp', hw.item]
          exact hrest (by rw [← hw.item]; exact hacc)
        obtain ⟨r, hr, hlog, hend⟩ := @ih pos' (simple && simple') w'
          (by omega) (by omega) hgood (by rw [hp']; exact hw.next hpos hword)
          (by rw [MsgWalk.msgSize, hone]; exact hsize)
        refine ⟨{ r with log := v :: r.log }, by rw [hr]; rfl, ?_, hend⟩
        exact logInside_cons.mpr ⟨hv, fun hn => absurd hfit hn, hlog⟩
      next code w' v ht =>
        rw [ht] at hturn
        obtain ⟨hv, hcode, _, hend⟩ := hturn
        refine ⟨_, rfl, ?_, by dsimp only; omega⟩
        exact logInside_cons.mpr ⟨hv, fun hn => ⟨hcode hn, rfl⟩, logInside_nil _ _⟩
    next => exact ⟨_, rfl, logInside_nil _ _, hsize⟩

theorem destroyTurn_pos {pos : Nat} {w : MsgWalk σ} (h : (destroyTurn c sv pos w).ok = true) :
    pos < (destroyTurn c sv pos w).pos := by
  have hd := MsgItem.data_gt w.word pos
  have hn := MsgItem.next_gt w.word pos
  unfold destroyTurn at h ⊢
  dsimp only at h ⊢
  split
  next hr => simp [hr] at h
  next => split_ifs <;> dsimp only <;> omega

theorem destroyLoop_terminates {fuel pos : Nat} {w : MsgWalk σ} (hfuel : size - pos < fuel) :
    ∃ r, destroyLoop c sv size fuel pos w = some r := by
  induction fuel generalizing pos w with
  | zero => omega
  | succ fuel ih =>
    unfold destroyLoop
    dsimp only
    split
    next hlt =>
      split
      next hok =>
        have hgt := destroyTurn_pos hok
        obtain ⟨r, hr⟩ := @ih (destroyTurn c sv pos w).pos
          (w.setMachine (destroyTurn c sv pos w).machine) (by omega)
        exact ⟨_, by rw [hr]; rfl⟩
      next => exact ⟨_, rfl⟩
    next => exact ⟨_, rfl⟩

theorem msgDestroy_terminates {w : MsgWalk σ} (h : w.msgSize ≤ msgSizeMax) :
    ∃ r, msgDestroy c sv w = some r := by
  unfold msgDestroy
  dsimp only
  split
  next => exact ⟨_, rfl⟩
  next =>
    obtain ⟨r, hr⟩ := @destroyLoop_terminates σ c sv w.msgSize (msgSizeMax + 1) msgHeaderWords
      (w.setMachine (releasePort sv (releasePort sv w.machine (w.word 4)) (w.word 3))) (by omega)
    exact ⟨_, by rw [hr]; rfl⟩

theorem copyinBody_inside {word : Nat → Cell} {w : MsgWalk σ} (hs : w.msgSize ≤ msgSizeMax)
    (hw : Untouched word msgHeaderWords w)
    (hg : w.msgSimple = false → ItemsFrom c w.msgSize word
      (ItemGood c (c.fastPager && decide ((word 5).value = 2038)) w.msgSize)
      (msgSizeMax + 1) msgHeaderWords) :
    ∃ x, copyinBody c sv w = some x ∧ LogInside w.msgSize x.code x.log := by
  unfold copyinBody
  split
  next => exact ⟨_, rfl, logInside_nil _ _⟩
  next hns =>
    have hloop : ∃ r, copyinLoop c sv w.msgSize (msgSizeMax + 1) msgHeaderWords true w = some r ∧
        LogInside w.msgSize r.code r.log ∧ r.walk.msgSize ≤ msgSizeMax :=
      copyinLoop_inside (Nat.le_refl _) hs (by omega) (hg (by simpa using hns)) hw hs
    obtain ⟨r, hr, hlog, hend⟩ := hloop
    rw [hr]
    simp only [Option.bind_some]
    split
    next hc => exact ⟨_, rfl, by rw [hc] at hlog; exact hlog⟩
    next hc =>
      obtain ⟨d, hd⟩ := @msgDestroy_terminates σ c sv r.walk hend
      rw [hd]
      exact ⟨_, rfl, hlog⟩

theorem translatedHeader_word {m : σ} {msg : UserMessage} {k : Bool} {dest reply : Word} {p : Nat}
    (h : p ≠ 1 ∧ p ≠ 3 ∧ p ≠ 4) :
    (translatedHeader sv m msg k dest reply).word p = msg.cells p := by
  unfold translatedHeader kernelCopy MsgWalk.setMsgSize
  rw [setWord_ne h.2.2, setWord_ne h.2.1, setWord_ne h.1]
  rfl

theorem translatedHeader_msgSize {m : σ} {msg : UserMessage} {k : Bool} {dest reply : Word}
    (h : msg.size ≤ msgSizeMax) : (translatedHeader sv m msg k dest reply).msgSize = msg.size := by
  unfold translatedHeader kernelCopy
  rw [MsgWalk.msgSize, setWord_ne (by decide), setWord_ne (by decide), ← MsgWalk.msgSize]
  exact setMsgSize_msgSize _ (by unfold msgSizeMax at h; omega)

theorem translatedHeader_msgSimple {m : σ} {msg : UserMessage} {k : Bool} {dest reply : Word} :
    (translatedHeader sv m msg k dest reply).msgSimple = decide (msg.word 0 >>> 24 ≠ 0) := by
  rw [MsgWalk.msgSimple, translatedHeader_word (by decide)]
  rfl

theorem translatedHeader_untouched {m : σ} {msg : UserMessage} {k : Bool} {dest reply : Word} :
    Untouched msg.cells msgHeaderWords (translatedHeader sv m msg k dest reply) := by
  unfold msgHeaderWords
  refine ⟨fun p hp => translatedHeader_word (by omega), translatedHeader_word (by decide)⟩

/-- The destination of the message is a port of the kernel. -/
def UserMessage.toKernel (sv : MsgServices σ) (m : σ) (msg : UserMessage) : Bool :=
  match sv.objCacheCopyin m (msg.word 4) with
  | (m', some dest) => sv.receiverIsKernel m' dest
  | (_, none) => false

theorem msgCopyin_cases (c : MsgConfig) (sv : MsgServices σ) (m : σ) (msg : UserMessage) :
    (∃ code m', code ≠ .success ∧ msgCopyin c sv m msg = some ⟨code, m', none, []⟩) ∨
      (4 * msgHeaderWords ≤ msg.size ∧ msg.size ≤ msgSizeMax ∧ msg.readable = true ∧ msg.word 4 ≠ 0 ∧
        ∃ m' dest reply, msgCopyin c sv m msg =
          copyinBody c sv (translatedHeader sv m' msg (msg.toKernel sv m) dest reply)) := by
  unfold msgCopyin refuse
  split
  next => exact .inl ⟨_, _, by decide, rfl⟩
  next hmin =>
    split
    next => exact .inl ⟨_, _, by decide, rfl⟩
    next hmax =>
      split
      next => exact .inl ⟨_, _, by decide, rfl⟩
      next hread =>
        split
        next => exact .inl ⟨_, _, by decide, rfl⟩
        next hport =>
          split
          next => exact .inl ⟨_, _, by decide, rfl⟩
          next m₁ dest hdest =>
            dsimp only
            split
            next => exact .inl ⟨_, _, by decide, rfl⟩
            next m₂ reply _ =>
              refine .inr ⟨by omega, by omega, by simpa using hread, hport, m₂, dest, reply, ?_⟩
              rw [UserMessage.toKernel, hdest]

theorem msgCopyin_inside {msg : UserMessage} (hg : msg.Good c) (sv : MsgServices σ) (m : σ) :
    StaysInside msg (msgCopyin c sv m msg) := by
  rcases msgCopyin_cases c sv m msg with ⟨code, m', _, h⟩ | ⟨hmin, hmax, hread, hport, m', dest, reply, h⟩
  · exact ⟨_, h, logInside_nil _ _⟩
  · rw [h]
    have hsize := @translatedHeader_msgSize σ sv m' msg (msg.toKernel sv m) dest reply hmax
    have hbody : ∃ x, copyinBody c sv (translatedHeader sv m' msg (msg.toKernel sv m) dest reply) = some x ∧
        LogInside (translatedHeader sv m' msg (msg.toKernel sv m) dest reply).msgSize x.code x.log := by
      refine copyinBody_inside (by omega) translatedHeader_untouched ?_
      intro hsimple
      rw [hsize]
      rw [translatedHeader_msgSimple] at hsimple
      exact hg ⟨hmin, hmax, hread, hport, by simpa using hsimple⟩
    obtain ⟨x, hx, hlog⟩ := hbody
    exact ⟨x, hx, by rw [hsize] at hlog; exact hlog⟩

/-! ## The condition is exact -/

/-- A sender whose every request succeeds, writing to a port of the kernel. -/
def obligingServices : MsgServices Unit where
  objCacheCopyin := fun _ _ => ((), some 1)
  receiverIsKernel := fun _ _ => true
  objRelease := fun _ _ => ()
  objectCopyin := fun _ _ _ _ => ((), some 1)
  vmMoveIn := fun _ _ _ _ _ => ((), some (1, fun _ => 0))
  portList := fun _ => 0
  memory := fun _ _ => 0
  destName := fun _ _ => ((), 1)
  replyName := fun _ _ => ((), 1)
  objectCopyout := fun _ _ _ => ((), 1)
  vmMapFind := fun _ _ _ => ((), 0)
  vmMoveOut := fun _ _ _ _ => ((), some 1)
  objectDestroy := fun _ _ _ => ()
  vmDeallocate := fun _ _ _ _ => ()
  vmObjectDeallocate := fun _ _ => ()

theorem obliging_elements {place : Place} {n k : Nat} {w : MsgWalk Unit} :
    (copyinElements obligingServices i place n k w).ok = true := by
  induction n generalizing k w with
  | zero => rfl
  | succ n ih =>
    unfold copyinElements
    dsimp only
    split
    next => exact ih
    next => exact ih

theorem obliging_moved {w : MsgWalk Unit} : (copyinData c obligingServices i w).moved = true := by
  rcases copyinData_cases c obligingServices i w with ⟨_, hd⟩ | ⟨_, _, w', hv, _⟩ |
    ⟨_, _, w', base, _, hd⟩ | ⟨_, _, hd⟩
  · rw [hd]
  · unfold vmMoveIn obligingServices at hv
    split at hv
    next => simp at hv
    next => simp at hv
  · rw [hd]
  · rw [hd]

theorem copyinLoop_log_nil {fuel pos : Nat} {simple : Bool} {w : MsgWalk σ} {r : CopyinEnd σ}
    (h : copyinLoop c sv size fuel pos simple w = some r) (hr : r.log = []) : r.code = .success := by
  cases fuel with
  | zero => simp [copyinLoop] at h
  | succ fuel =>
    unfold copyinLoop at h
    split at h
    next =>
      split at h
      next =>
        obtain ⟨r', _, rfl⟩ := Option.map_eq_some_iff.mp h
        simp at hr
      next =>
        cases Option.some.inj h
        simp at hr
    next =>
      cases Option.some.inj h
      rfl

theorem itemGood_of_inside {w : MsgWalk Unit} (hfits : i.Fits size)
    (hkernel : w.kernelMessage = true) {d : CopyinData Unit} {r : ElementRun Unit}
    (hd : d = copyinData c obligingServices i w)
    (hr : r = copyinElements obligingServices i d.place (i.ports c) 0 d.walk)
    (hv : VisitInside size (takenVisit c i d r)) :
    ItemGood c (c.fastPager && decide ((w.word 5).value = 2038)) size i := by
  obtain ⟨_, hdata, hbytes, hplace⟩ := hv
  have hvis : r.visited = i.ports c := by
    rw [hr, copyinElements_visited.2 obliging_elements]
    omega
  refine ⟨hdata, fun _ => hfits, fun _ hport => ?_⟩
  have hports : i.ports c = i.trips := by rw [MsgItem.ports, if_pos hport]
  refine ⟨?_, fun hi hfast => ?_⟩
  · have hb : 4 * r.visited ≤ i.numbytes.toNat := hbytes
    omega
  · by_contra hz
    have hmove : moveMsgData c w i.name = false := by
      simp only [moveMsgData, MsgWalk.fastPagerData, hkernel, Bool.and_true, hfast]
      rfl
    have hn : i.ports c ≠ 0 := by omega
    rcases copyinData_cases c obligingServices i w with ⟨hi', _⟩ | ⟨_, hm, _⟩ | ⟨_, hm, _⟩ | ⟨_, _, he⟩
    · rw [hi] at hi'
      simp at hi'
    · rw [hmove] at hm
      simp at hm
    · rw [hmove] at hm
      simp at hm
    · rw [hd, he] at hplace
      simp [takenVisit, hn] at hplace

theorem bodyGood_of_inside {word : Nat → Cell} {fuel pos : Nat} {simple : Bool} {w : MsgWalk Unit}
    {r : CopyinEnd Unit} (hpos : msgHeaderWords ≤ pos)
    (hkernel : w.kernelMessage = true) (hw : Untouched word pos w)
    (h : copyinLoop c obligingServices size fuel pos simple w = some r)
    (hlog : LogInside size r.code r.log) :
    ItemsFrom c size word (ItemGood c (c.fastPager && decide ((word 5).value = 2038)) size) fuel pos := by
  induction fuel generalizing pos simple w r with
  | zero => trivial
  | succ fuel ih =>
    intro hlt
    unfold copyinLoop at h
    rw [if_pos hlt] at h
    obtain ⟨i, d, e, hi, hd, he, hcase⟩ := copyinTurn_cases c obligingServices size pos w
    rw [hw.item] at hi
    rw [← hi]
    rcases hcase with ⟨hts, ht⟩ | ⟨hts, hport, h32, ht⟩ | ⟨_, hm, _⟩ | ⟨_, _, hok, _⟩ | ⟨ha, hm, hok, ht⟩
    · rw [ht] at h
      cases Option.some.inj h
      obtain ⟨hv, _, _⟩ := logInside_cons.mp hlog
      have hno : ¬ i.Accepted c size := fun hacc => by
        rw [hacc.1] at hts
        simp at hts
      refine ⟨⟨hv.2.1, fun hf => ?_, fun hacc => absurd hacc hno⟩, fun hacc => absurd hacc hno⟩
      rw [hf] at hts
      simp at hts
    · rw [ht] at h
      cases Option.some.inj h
      obtain ⟨hv, hsmall, _⟩ := logInside_cons.mp hlog
      have hno : ¬ i.Accepted c size := fun hacc => h32 (hacc.2 hport)
      refine ⟨⟨hv.2.1, fun _ => ?_, fun hacc => absurd hacc hno⟩, fun hacc => absurd hacc hno⟩
      by_contra hn
      simpa using (hsmall hn).1
    · rw [hd, obliging_moved] at hm
      simp at hm
    · rw [he, obliging_elements] at hok
      simp at hok
    · rw [ht] at h
      obtain ⟨r', hr', rfl⟩ := Option.map_eq_some_iff.mp h
      obtain ⟨hv, hsmall, hrest⟩ := logInside_cons.mp hlog
      have hfits : i.Fits size := by
        by_contra hn
        obtain ⟨hcode, hnil⟩ := hsmall hn
        rw [copyinLoop_log_nil hr' hnil] at hcode
        simp at hcode
      have hgood := itemGood_of_inside hfits hkernel hd he hv
      rw [hw.msgId] at hgood
      refine ⟨hgood, fun _ => ?_⟩
      have hnext : Untouched word i.next e.walk := by
        have hitem := hw.item
        rw [← hi] at hitem
        rw [← hitem]
        refine hw.next hpos fun q hq => ?_
        rw [hitem] at hq
        rw [he, hd]
        exact accepted_word (fun _ => PortsGood.bytes hgood.2.2 ha) obliging_moved hq
      have hgt := MsgItem.next_gt word pos
      rw [← hi] at hgt
      refine ih (by omega) ?_ hnext hr' hrest
      rw [he, copyinElements_kernel, hd, copyinData_kernel]
      exact hkernel

theorem copyinBody_log {w : MsgWalk σ} {x : CopyinReturn σ} (hw : w.msgSimple = false)
    (h : copyinBody c sv w = some x) :
    ∃ r, copyinLoop c sv w.msgSize (msgSizeMax + 1) msgHeaderWords true w = some r ∧
      r.code = x.code ∧ r.log = x.log := by
  unfold copyinBody at h
  rw [hw] at h
  simp only [Bool.false_eq_true, if_false] at h
  obtain ⟨r, hr, h⟩ := Option.bind_eq_some_iff.mp h
  refine ⟨r, hr, ?_⟩
  split at h
  next hc =>
    cases Option.some.inj h
    exact ⟨hc, rfl⟩
  next =>
    obtain ⟨d, _, rfl⟩ := Option.map_eq_some_iff.mp h
    exact ⟨rfl, rfl⟩

theorem obliging_msgCopyin {msg : UserMessage} (h : msg.Complex) :
    ∃ reply, msgCopyin c obligingServices () msg =
      copyinBody c obligingServices (translatedHeader obligingServices () msg true 1 reply) := by
  obtain ⟨hmin, hmax, hread, hport, _⟩ := h
  unfold msgCopyin
  rw [if_neg (by omega), if_neg (by omega), if_neg (by simp [hread]), if_neg hport]
  by_cases hl : msg.word 3 = 0
  · refine ⟨kernObjNull, ?_⟩
    simp only [if_pos hl]
    rfl
  · refine ⟨1, ?_⟩
    simp only [if_neg hl]
    rfl

/-- The parser stays inside the message for every sender exactly when the message is good: every
descriptor ends before the message does, no inline item is accepted whose size wraps around, no port
item has more elements than bytes for them, and in fast pager data no port item is out of line. -/
theorem msgCopyin_staysInside_iff (c : MsgConfig) (msg : UserMessage) :
    (∀ (σ : Type) (sv : MsgServices σ) (m : σ), StaysInside msg (msgCopyin c sv m msg)) ↔
      msg.Good c := by
  constructor
  · intro h hc
    obtain ⟨x, hx, hlog⟩ := h Unit obligingServices ()
    obtain ⟨reply, hm⟩ := @obliging_msgCopyin c msg hc
    rw [hm] at hx
    obtain ⟨r, hr, hcode, hrlog⟩ := copyinBody_log
      (by rw [translatedHeader_msgSimple]; simpa using hc.2.2.2.2) hx
    rw [translatedHeader_msgSize hc.2.1] at hr
    rw [← hcode, ← hrlog] at hlog
    exact bodyGood_of_inside (Nat.le_refl _) rfl translatedHeader_untouched hr hlog
  · intro hg σ sv m
    exact msgCopyin_inside hg sv m

/-- A message of 28 bytes whose only body word announces a long descriptor. -/
def truncatedDescriptor : UserMessage where
  word := fun p => if p = 4 then 1 else if p = 6 then 0x30000000 else 0
  size := 28
  readable := true

theorem truncatedDescriptor_not_inside :
    ¬ StaysInside truncatedDescriptor
      (msgCopyin ⟨false, false⟩ obligingServices () truncatedDescriptor) := by
  rintro ⟨x, hx, hlog⟩
  have hv : ∃ v, (msgCopyin ⟨false, false⟩ obligingServices () truncatedDescriptor).map
      (fun x => x.log) = some [v] ∧ ¬ VisitInside truncatedDescriptor.size v :=
    ⟨refusedVisit ⟨6, 9, 0, 0, 0, true, false⟩, by decide, by decide⟩
  obtain ⟨v, hv, hout⟩ := hv
  rw [hx] at hv
  refine hout (hlog.inside v ?_)
  rw [Option.map_some, Option.some_inj] at hv
  rw [hv]
  exact List.mem_singleton_self v

end MachVM.Ipc
