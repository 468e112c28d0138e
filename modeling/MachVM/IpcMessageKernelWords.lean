import MachVM.IpcMessageWalkers

namespace MachVM.Ipc

variable {σ : Type} {c : MsgConfig} {sv : MsgServices σ} {i : MsgItem} {size pos : Nat}

/-! ## What a walker does with an item that was not translated -/

theorem ports_internal (h : i.name = msgTypeInternalMemory) : i.ports c = 0 := by
  unfold MsgItem.ports
  split
  next hp => exact absurd h (portAny_ne_internal hp)
  next => rfl

theorem Taken.data_word {w : MsgWalk σ} {d : CopyinData σ} {r : ElementRun σ}
    (ht : Taken c sv size pos w i d r) (htr : ¬ Translated c (w.fastPagerData c) i) :
    r.walk.word i.data = w.word i.data := by
  have hstay : i.isInline = true ∧ i.ports c = 0 ∨
      i.isInline = false ∧ moveMsgData c w i.name = false := by
    by_cases hn : i.name = msgTypeInternalMemory
    · cases hi : i.isInline with
      | true => exact .inl ⟨rfl, ports_internal hn⟩
      | false => exact .inr ⟨rfl, by simp [moveMsgData, hn]⟩
    · right
      unfold Translated at htr
      simp only [not_and, not_forall] at htr
      obtain ⟨hi, hf, _⟩ := htr hn
      exact ⟨hi, by simp [moveMsgData, hf]⟩
  rw [ht.run, ht.data]
  rcases hstay with ⟨hi, hz⟩ | ⟨hi, hm⟩
  · rw [hz]
    show (copyinData c sv i w).walk.word i.data = _
    rw [copyinData, if_pos hi]
  · have hd : copyinData c sv i w = ⟨w, true, .array (sv.portList w.machine),
        if i.ports c ≠ 0 then some ⟨sv.portList w.machine, false⟩ else none, none⟩ := by
      simp [copyinData, hi, hm]
    rw [hd]
    exact copyinElements_word fun p hp => by cases hp

theorem copyoutTurn_internal {u : MsgWalk σ} (hi : msgItem u.word pos = i)
    (hn : i.name = msgTypeInternalMemory) :
    (copyoutTurn c sv pos u).2.2.vmObject = some (u.word i.data) := by
  unfold copyoutTurn
  dsimp only
  rw [hi, ports_internal hn, if_pos hn]
  rfl

theorem copyoutLoop_succ (c : MsgConfig) (sv : MsgServices σ) (fuel : Nat) (u : MsgWalk σ)
    (h : 4 * pos < size) :
    copyoutLoop c sv size (fuel + 1) pos u =
      (copyoutLoop c sv size fuel (copyoutTurn c sv pos u).1 (copyoutTurn c sv pos u).2.1).map
        fun r => (r.1, (copyoutTurn c sv pos u).2.2 :: r.2) := by
  rw [copyoutLoop, if_pos h]

section Run

variable {held : σ → Word → Prop} {simple simple' : Bool} {w f u u' : MsgWalk σ} {log log' : List Visit}

theorem CopyinRun.forged {fuel : Nat} (h : CopyinRun c sv size pos simple w simple' f log)
    (hpos : msgHeaderWords ≤ pos) (hb : ∀ v ∈ log, Counted c v.item)
    (hfresh : ∀ q, pos ≤ q → (w.word q).stored = false)
    (hbad : ¬ ∀ v ∈ log, Translated c (w.fastPagerData c) v.item)
    (hword : ∀ q, pos ≤ q → u.word q = f.word q) (hfast : u.fastPagerData c = w.fastPagerData c)
    (hout : copyoutLoop c sv size fuel pos u = some (u', log')) :
    ∃ v ∈ log', ∃ x ∈ v.derefs, x.stored = false := by
  induction h generalizing fuel u u' log' with
  | done hle => simp at hbad
  | @turn pos simple simple' w f log i d r hlt ht hrun ih =>
    cases fuel with
    | zero => simp [copyoutLoop] at hout
    | succ fuel =>
      have hcount : Counted c i := hb _ List.mem_cons_self
      have hcounts := fun v hv => hb v (List.mem_cons_of_mem (takenVisit c i d r) hv)
      have hnext := ht.next_gt
      have hgt := ht.data_gt
      have hle := MsgItem.data_le_next i
      have hsame : ∀ q, pos ≤ q → q ≤ i.next → u.word q = r.walk.word q := by
        intro q hq hqn
        rw [hword q hq, (hrun.frame hcounts).1 q hqn]
      have hitem : msgItem u.word pos = i :=
        ht.item_of_word hcount fun q hq hqd => hsame q hq (by omega)
      rw [copyoutLoop_succ c sv fuel u hlt] at hout
      obtain ⟨rest, hrest, hcons⟩ := Option.map_eq_some_iff.mp hout
      obtain ⟨rfl, rfl⟩ := Prod.mk.inj hcons
      by_cases htrans : Translated c (w.fastPagerData c) i
      · obtain ⟨u₁, hturn, hw₁, _, hkernel⟩ :=
          @copyoutTurn_eq σ c sv i pos u hitem hpos htrans.1 hcount
        rw [hturn] at hrest
        have htail : ¬ ∀ v ∈ log, Translated c (r.walk.fastPagerData c) v.item := by
          rw [ht.fast hcount hpos]
          intro hall
          refine hbad fun v hv => ?_
          rcases List.mem_cons.mp hv with rfl | hv
          · exact htrans
          · exact hall v hv
        obtain ⟨v, hv, hx⟩ := @ih u₁ rest.1 rest.2 fuel (by omega) hcounts
          (fun q hq => by
            rw [ht.word hcount (.inr hq)]
            exact hfresh q (by omega))
          htail
          (fun q hq => by rw [hw₁ q (.inr hq), hword q (by omega)])
          (by
            unfold msgHeaderWords at hpos
            rw [ht.fast hcount hpos, ← hfast, MsgWalk.fastPagerData, MsgWalk.fastPagerData,
              hw₁ 5 (.inl (by omega)), hkernel])
          hrest
        exact ⟨v, List.mem_cons_of_mem _ hv, hx⟩
      · have hcell : (u.word i.data).stored = false := by
          rw [hsame i.data (by omega) hle, ht.data_word htrans]
          exact hfresh i.data (by omega)
        refine ⟨_, List.mem_cons_self, u.word i.data, ?_, hcell⟩
        by_cases hn : i.name = msgTypeInternalMemory
        · have hv := @copyoutTurn_internal σ c sv i pos u hitem hn
          simp [Visit.derefs, hv]
        · obtain ⟨u₁, hturn, _⟩ := @copyoutTurn_eq σ c sv i pos u hitem hpos hn hcount
          rw [hturn]
          unfold Translated at htrans
          simp only [not_and, not_forall] at htrans
          obtain ⟨hi, _, hz⟩ := htrans hn
          simp [Visit.derefs, readVisit, listPointer, hi, hz]

theorem CopyinRun.simple_iff (h : CopyinRun c sv size pos simple w simple' f log) :
    simple' = true ↔ simple = true ∧ ∀ v ∈ log, Plain c v.item := by
  induction h with
  | done => simp
  | @turn pos simple simple' w f log i d r hlt ht hrun ih =>
    rw [ih]
    simp only [Bool.and_eq_true, Bool.not_eq_true', List.forall_mem_cons, Plain, takenVisit]
    tauto

theorem Taken.plain {d : CopyinData σ} {r : ElementRun σ} (ht : Taken c sv size pos w i d r)
    (hp : Plain c i) : (takenVisit c i d r).derefs = [] := by
  have hz : i.ports c = 0 := by simp [MsgItem.ports, hp.2]
  have hd : d = ⟨w, true, .body i.data, none, none⟩ := by
    rw [ht.data, copyinData, if_pos hp.1]
  have hr : r.objects = [] := by
    rw [ht.run, hz]
    rfl
  simp [Visit.derefs, takenVisit, hd, hr]

theorem CopyinRun.plain (h : CopyinRun c sv size pos simple w simple' f log)
    (hp : ∀ v ∈ log, Plain c v.item) : ∀ v ∈ log, v.derefs = [] := by
  induction h with
  | done => simp
  | @turn pos simple simple' w f log i d r hlt ht hrun ih =>
    intro v hv
    rcases List.mem_cons.mp hv with rfl | hv
    · exact ht.plain (hp _ List.mem_cons_self)
    · exact ih (fun u hu => hp u (List.mem_cons_of_mem _ hu)) v hv

theorem CopyinRun.stored (h : CopyinRun c sv size pos simple w simple' f log)
    (hc : MsgContract sv held) (hpos : msgHeaderWords ≤ pos) (hb : ∀ v ∈ log, Counted c v.item)
    (htr : ∀ v ∈ log, Translated c (w.fastPagerData c) v.item) :
    ∀ v ∈ log, ∀ x ∈ v.derefs, x.stored = true := by
  induction h with
  | done => simp
  | @turn pos simple simple' w f log i d r hlt ht hrun ih =>
    intro v hv
    have hcount : Counted c i := hb _ List.mem_cons_self
    have hnext := ht.next_gt
    rcases List.mem_cons.mp hv with rfl | hv
    · exact ht.stored hc (htr _ List.mem_cons_self)
    · refine ih (by omega) (fun u hu => hb u (List.mem_cons_of_mem _ hu)) (fun u hu => ?_) v hv
      rw [ht.fast hcount hpos]
      exact htr u (List.mem_cons_of_mem _ hu)

/-! ## The items of the run are the items of the message -/

theorem Taken.untouched {d : CopyinData σ} {r : ElementRun σ} {word : Nat → Cell}
    (ht : Taken c sv size pos w i d r) (hb : Counted c i) (hpos : msgHeaderWords ≤ pos)
    (hw : Untouched word pos w) : Untouched word i.next r.walk := by
  have hnext : Untouched word (msgItem w.word pos).next r.walk := by
    refine hw.next hpos fun q hq => ?_
    rw [← ht.item] at hq
    exact ht.word hb hq
  rw [← ht.item] at hnext
  exact hnext

theorem Taken.item_eq {d : CopyinData σ} {r : ElementRun σ} {word : Nat → Cell}
    (ht : Taken c sv size pos w i d r) (hw : Untouched word pos w) : msgItem word pos = i := by
  rw [ht.item, hw.item]

theorem CopyinRun.counted {word : Nat → Cell} {fuel : Nat}
    (h : CopyinRun c sv size pos simple w simple' f log) (hpos : msgHeaderWords ≤ pos)
    (hfuel : size - pos < fuel) (hw : Untouched word pos w)
    (hg : ItemsFrom c size word (fun i => i.Accepted c size → Counted c i) fuel pos) :
    ∀ v ∈ log, Counted c v.item := by
  induction h generalizing fuel with
  | done => simp
  | @turn pos simple simple' w f log i d r hlt ht hrun ih =>
    cases fuel with
    | zero => omega
    | succ fuel =>
      have hnext := ht.next_gt
      obtain ⟨hi, hrest⟩ := hg hlt
      rw [ht.item_eq hw] at hi hrest
      have hcount := hi ht.accepted
      intro v hv
      rcases List.mem_cons.mp hv with rfl | hv
      · exact hcount
      · exact ih (by omega) (by omega) (ht.untouched hcount hpos hw) (hrest ht.accepted) v hv

theorem CopyinRun.items_iff {word : Nat → Cell} {fuel : Nat} {P : MsgItem → Prop}
    (h : CopyinRun c sv size pos simple w simple' f log) (hpos : msgHeaderWords ≤ pos)
    (hfuel : size - pos < fuel) (hw : Untouched word pos w) (hb : ∀ v ∈ log, Counted c v.item) :
    ItemsFrom c size word P fuel pos ↔ ∀ v ∈ log, P v.item := by
  induction h generalizing fuel with
  | done hle =>
    cases fuel with
    | zero => omega
    | succ fuel =>
      simp only [ItemsFrom, List.not_mem_nil, false_implies, implies_true, iff_true]
      intro hlt
      omega
  | @turn pos simple simple' w f log i d r hlt ht hrun ih =>
    cases fuel with
    | zero => omega
    | succ fuel =>
      have hcount : Counted c i := hb _ List.mem_cons_self
      have hnext := ht.next_gt
      have htail := @ih fuel (by omega) (by omega) (ht.untouched hcount hpos hw)
        fun v hv => hb v (List.mem_cons_of_mem _ hv)
      rw [ItemsFrom, ht.item_eq hw, htail, List.forall_mem_cons]
      constructor
      · intro hall
        exact ⟨(hall hlt).1, (hall hlt).2 ht.accepted⟩
      · intro hall _
        exact ⟨hall.1, fun _ => hall.2⟩

end Run

end MachVM.Ipc
