import MachVM.SchedReach
import MachVM.SchedScan
import Mathlib.Data.List.Nodup

namespace MachVM.Kern.Sched

open Levels

section Collect

variable {runq : Nat → List ThreadId} {q n : Nat}

theorem scanList_eq (stuck : ThreadId → Bool) (ts : List ThreadId) (count : Int) (got : List ThreadId)
    (hgot : got.length ≤ maxStuckThreads) :
    if got.length + (ts.filter stuck).length ≤ maxStuckThreads then
      scanList stuck ts count got = (false, count - ts.length, got ++ ts.filter stuck)
    else ∃ c, scanList stuck ts count got = (true, c, (got ++ ts.filter stuck).take maxStuckThreads) := by
  induction ts generalizing count got with
  | nil =>
    rw [List.filter_nil, List.append_nil, List.length_nil, Nat.add_zero, if_pos hgot]
    simp [scanList]
  | cons t ts ih =>
    rw [scanList]
    by_cases ht : stuck t
    · rw [if_pos ht, List.filter_cons_of_pos ht]
      by_cases hfull : got.length = maxStuckThreads
      · rw [if_neg (by rw [List.length_cons]; omega), if_pos hfull]
        exact ⟨count, by rw [List.take_append_of_le_length (Nat.le_of_eq hfull.symm), List.take_of_length_le hgot]⟩
      · rw [if_neg hfull]
        have h := ih (count - 1) (got ++ [t]) (by rw [List.length_append, List.length_singleton]; omega)
        rw [List.length_append, List.length_singleton, List.append_assoc, List.singleton_append] at h
        rw [List.length_cons, List.length_cons, Nat.add_comm _ 1, ← Nat.add_assoc]
        simpa only [Int.natCast_add, Int.natCast_one, Int.sub_sub, Int.add_comm] using h
    · rw [if_neg ht, List.filter_cons_of_neg ht]
      have h := ih (count - 1) got hgot
      rw [List.length_cons]
      simpa only [Int.natCast_add, Int.natCast_one, Int.sub_sub, Int.add_comm] using h

/-- The threads of `n` lists from `q` on. -/
def queuedFrom (runq : Nat → List ThreadId) (q : Nat) : Nat → List ThreadId
  | 0 => []
  | n + 1 => runq q ++ queuedFrom runq (q + 1) n

theorem mem_queuedFrom {t : ThreadId} : t ∈ queuedFrom runq q n ↔ ∃ k, q ≤ k ∧ k < q + n ∧ t ∈ runq k := by
  induction n generalizing q with
  | zero =>
    refine iff_of_false List.not_mem_nil ?_
    rintro ⟨k, h1, h2, -⟩
    omega
  | succ n ih =>
    rw [queuedFrom, List.mem_append, ih]
    constructor
    · rintro (h | ⟨k, h1, h2, h⟩)
      · exact ⟨q, Nat.le_refl _, by omega, h⟩
      · exact ⟨k, by omega, by omega, h⟩
    · rintro ⟨k, h1, h2, h⟩
      rcases Nat.eq_or_lt_of_le h1 with rfl | hlt
      · exact .inl h
      · exact .inr ⟨k, hlt, by omega, h⟩

theorem scanLists_eq (stuck : ThreadId → Bool) (q : Nat) (count : Int) (got : List ThreadId)
    (hgot : got.length ≤ maxStuckThreads) (hcount : count = (queuedFrom runq q n).length) :
    ∃ q', q' ≤ q + n ∧
      let found := got ++ (queuedFrom runq q n).filter stuck
      scanLists stuck runq n q count got =
        some (q', decide (maxStuckThreads < found.length), found.take maxStuckThreads) := by
  induction n generalizing q count got with
  | zero =>
    refine ⟨q, Nat.le_refl _, ?_⟩
    simp only [queuedFrom, List.filter_nil, List.append_nil]
    rw [scanLists, if_pos (by rw [hcount, queuedFrom]; rfl), List.take_of_length_le hgot,
      decide_eq_false (Nat.not_lt.mpr hgot)]
  | succ n ih =>
    rw [queuedFrom, List.length_append] at hcount
    simp only [queuedFrom, List.filter_append]
    rw [scanLists]
    split
    next hzero =>
      have h₁ : runq q = [] := List.length_eq_zero_iff.mp (by omega)
      have h₂ : queuedFrom runq (q + 1) n = [] := List.length_eq_zero_iff.mp (by omega)
      refine ⟨q, by omega, ?_⟩
      rw [h₁, h₂, List.filter_nil, List.append_nil, List.append_nil, List.take_of_length_le hgot,
        decide_eq_false (Nat.not_lt.mpr hgot)]
    next hpos =>
      have hlist := scanList_eq stuck (runq q) count got hgot
      split at hlist
      next hroom =>
        rw [hlist]
        obtain ⟨q', hq', h⟩ := ih (q + 1) (count - (runq q).length) (got ++ (runq q).filter stuck)
          (by rwa [List.length_append]) (by omega)
        refine ⟨q', by omega, ?_⟩
        simp only [List.append_assoc] at h
        exact h
      next hfull =>
        obtain ⟨c, hlist⟩ := hlist
        rw [hlist]
        refine ⟨q, by omega, ?_⟩
        have hlt : maxStuckThreads < (got ++ (runq q).filter stuck).length := by
          rw [List.length_append]
          omega
        rw [← List.append_assoc, List.take_append_of_le_length (Nat.le_of_lt hlt), decide_eq_true]
        rw [List.length_append]
        omega

end Collect

section Listed

/-- A run queue that counts its threads, with nothing below `low`, and each thread once. -/
structure RunQueue.Listed (rq : RunQueue) : Prop where
  leveled : Leveled nrqs rq.runq rq.low rq.count
  within : ∀ k, nrqs ≤ k → rq.runq k = []
  nodup : ∀ k, (rq.runq k).Nodup
  alone : ∀ k k' t, t ∈ rq.runq k → t ∈ rq.runq k' → k = k'

variable {rq : RunQueue} {t : ThreadId} {k : Nat}

theorem RunQueue.Listed.lt (h : rq.Listed) (ht : t ∈ rq.runq k) : k < nrqs := by
  by_contra hk
  rw [h.within k (Nat.not_lt.mp hk)] at ht
  exact List.not_mem_nil ht

theorem RunQueue.Listed.leave (h : rq.Listed) (ht : t ∈ rq.runq k) :
    RunQueue.Listed { rq with runq := fun i => (rq.runq i).erase t, count := rq.count - 1 } := by
  have he : (fun i => (rq.runq i).erase t) = Function.update rq.runq k ((rq.runq k).erase t) := by
    funext i
    by_cases hi : i = k
    · rw [hi, Function.update_self]
    · rw [Function.update_of_ne hi]
      exact List.erase_of_not_mem fun hm => hi (h.alone i k t hm ht)
  refine ⟨?_, fun i hi => ?_, fun i => (h.nodup i).erase t, fun i j u hu hu' => ?_⟩
  · rw [he]
    exact h.leveled.leave (h.lt ht) ht
  · change (rq.runq i).erase t = []
    rw [h.within i hi, List.erase_nil]
  · exact h.alone i j u (List.mem_of_mem_erase hu) (List.mem_of_mem_erase hu')

theorem RunQueue.Listed.enter (h : rq.Listed) (ht : ∀ i, t ∉ rq.runq i) (hk : k < nrqs) :
    RunQueue.Listed { runq := Function.update rq.runq k (rq.runq k ++ [t])
                      low := if k < rq.low then k else rq.low
                      count := rq.count + 1 } := by
  have hmem : ∀ i u, u ∈ Function.update rq.runq k (rq.runq k ++ [t]) i → u ∈ rq.runq i ∨ u = t ∧ i = k := by
    intro i u hu
    by_cases hi : i = k
    · rw [hi, Function.update_self, List.mem_append, List.mem_singleton] at hu
      rw [hi]
      exact hu.imp_right fun h => ⟨h, rfl⟩
    · rw [Function.update_of_ne hi] at hu
      exact .inl hu
  refine ⟨h.leveled.enter hk, fun i hi => ?_, fun i => ?_, fun i j u hu hu' => ?_⟩
  · change Function.update rq.runq k _ i = []
    rw [Function.update_of_ne (by omega), h.within i hi]
  · change (Function.update rq.runq k _ i).Nodup
    by_cases hi : i = k
    · rw [hi, Function.update_self]
      refine List.Nodup.append (h.nodup k) (List.nodup_singleton t) ?_
      simpa [List.disjoint_singleton] using ht k
    · rw [Function.update_of_ne hi]
      exact h.nodup i
  · rcases hmem i u hu with h₁ | ⟨rfl, rfl⟩ <;> rcases hmem j u hu' with h₂ | ⟨hut, rfl⟩
    · exact h.alone i j u h₁ h₂
    · exact absurd (hut ▸ h₁) (ht i)
    · exact absurd h₂ (ht j)
    · rfl

theorem queuedFrom_length (runq : Nat → List ThreadId) (q n : Nat) :
    (queuedFrom runq q n).length = ∑ i ∈ Finset.range n, (runq (q + i)).length := by
  induction n generalizing q with
  | zero => rfl
  | succ n ih =>
    rw [queuedFrom, List.length_append, ih, Finset.sum_range_succ', Nat.add_zero, Nat.add_comm]
    congr 1
    refine Finset.sum_congr rfl fun i _ => ?_
    rw [Nat.add_assoc, Nat.add_comm 1 i]

theorem RunQueue.Listed.count (h : rq.Listed) :
    rq.count = (queuedFrom rq.runq rq.low (nrqs - rq.low)).length := by
  rw [h.leveled.total, queuedFrom_length]
  by_cases hlow : rq.low ≤ nrqs
  · conv_lhs => rw [← Nat.add_sub_cancel' hlow, Finset.sum_range_add]
    rw [Finset.sum_eq_zero, Nat.zero_add]
    intro i hi
    rw [h.leveled.below i (Finset.mem_range.mp hi), List.length_nil]
  · rw [Nat.sub_eq_zero_of_le (by omega), Finset.range_zero, Finset.sum_empty]
    refine Finset.sum_eq_zero fun i hi => ?_
    have := Finset.mem_range.mp hi
    rw [h.leveled.below i (by omega), List.length_nil]

theorem RunQueue.Listed.nodup_queuedFrom (h : rq.Listed) (q n : Nat) : (queuedFrom rq.runq q n).Nodup := by
  induction n generalizing q with
  | zero => exact List.nodup_nil
  | succ n ih =>
    refine List.Nodup.append (h.nodup q) (ih (q + 1)) fun t ht ht' => ?_
    obtain ⟨k, hk, -, htk⟩ := mem_queuedFrom.mp ht'
    have := h.alone q k t ht htk
    omega

theorem RunQueue.Listed.mem_queuedFrom (h : rq.Listed) :
    t ∈ queuedFrom rq.runq rq.low (nrqs - rq.low) ↔ ∃ k, t ∈ rq.runq k := by
  rw [Sched.mem_queuedFrom]
  constructor
  · rintro ⟨k, -, -, ht⟩
    exact ⟨k, ht⟩
  · rintro ⟨k, ht⟩
    have hlow : rq.low ≤ k := by
      by_contra hlt
      rw [h.leveled.below k (Nat.not_le.mp hlt)] at ht
      exact List.not_mem_nil ht
    have := h.lt ht
    exact ⟨k, hlow, by omega, ht⟩

end Listed

section SetPri

/-- What the scan needs of the scheduler. -/
structure State.GlobalOk (s : State) : Prop where
  listed : (s.queue .global).Listed
  runq : ∀ k t, t ∈ (s.queue .global).runq k → (s.thread t).runq = some .global
  idle : Mirror.Mirrors s.idleQueue fun c => s.cpuState c = .idle
  count : s.idleCount = s.idleQueue.length

def State.OnGlobal (s : State) (t : ThreadId) : Prop := ∃ k, t ∈ (s.queue .global).runq k

variable {s r : State} {t u : ThreadId} {c : CpuId} {cs : List CpuId}

theorem Inv.globalOk (h : Inv none s) : s.GlobalOk := by
  refine ⟨⟨h.leveled .global, fun k hk => ?_, fun k => h.lists.nodup (.global, k), fun k k' t ht ht' => ?_⟩,
    fun k t ht => (h.mem_runq.mp ht).1, h.cpus.idle, h.cpus.count⟩
  · refine List.eq_nil_iff_forall_not_mem.mpr fun t ht => ?_
    have := level_lt (s.thread t).schedPri
    rw [(h.mem_runq.mp ht).2] at this
    omega
  · rw [← (h.mem_runq.mp ht).2, ← (h.mem_runq.mp ht').2]

theorem dispatchTo_globalOk (h : s.GlobalOk) (hc : c ∈ s.idleQueue) (hcs : cs = s.idleQueue.erase c) :
    (dispatchTo s t c cs).GlobalOk := by
  subst hcs
  refine ⟨h.listed, h.runq, h.idle.erase fun d => ?_, ?_⟩
  · change Function.update s.cpuState c .dispatching d = .idle ↔ _
    by_cases hd : d = c
    · subst d
      simp
    · simp [hd]
  · change s.idleCount - 1 = (s.idleQueue.erase c).length
    rw [List.length_erase_of_mem hc, h.count]

theorem enqueueRunq_thread (q : RunqId) :
    (enqueueRunq s t q).thread = Function.update s.thread t { s.thread t with runq := some q } := rfl

theorem enqueueRunq_queue_self (q : RunqId) : (enqueueRunq s t q).queue q =
    { runq := Function.update (s.queue q).runq (level (s.thread t).schedPri)
        ((s.queue q).runq (level (s.thread t).schedPri) ++ [t])
      low := if level (s.thread t).schedPri < (s.queue q).low then level (s.thread t).schedPri else (s.queue q).low
      count := (s.queue q).count + 1 } := by
  change Function.update s.queue q _ q = _
  rw [Function.update_self]

theorem enqueueRunq_queue_local (c : CpuId) : (enqueueRunq s t (.local c)).queue .global = s.queue .global := by
  have hne : RunqId.global ≠ .local c := nofun
  simp only [enqueueRunq, State.modThread, State.setThread, State.setQueue, Function.update_of_ne hne]

theorem enqueueRunq_onGlobal (q : RunqId) (hu : u ≠ t) (k : Nat) :
    u ∈ ((enqueueRunq s t q).queue .global).runq k ↔ u ∈ (s.queue .global).runq k := by
  cases q with
  | global =>
    rw [enqueueRunq_queue_self]
    by_cases hk : k = level (s.thread t).schedPri
    · rw [hk]
      simp [hu]
    · simp [hk]
  | «local» c => rw [enqueueRunq_queue_local]

theorem enqueueRunq_globalOk (h : s.GlobalOk) (ht : ¬ s.OnGlobal t) (q : RunqId) : (enqueueRunq s t q).GlobalOk := by
  refine ⟨?_, fun k u hu => ?_, h.idle, h.count⟩
  · cases q with
    | global =>
      rw [enqueueRunq_queue_self]
      exact h.listed.enter (fun i hi => ht ⟨i, hi⟩) (level_lt _)
    | «local» c =>
      rw [enqueueRunq_queue_local]
      exact h.listed
  · rw [enqueueRunq_thread]
    by_cases hut : u = t
    · subst u
      rw [Function.update_self]
      cases q with
      | global => rfl
      | «local» c =>
        rw [enqueueRunq_queue_local] at hu
        exact absurd ⟨k, hu⟩ ht
    · rw [Function.update_of_ne hut]
      exact h.runq k u ((enqueueRunq_onGlobal q hut k).mp hu)

/-- What a thread's way to a place leaves of the others, and of its own state. -/
structure Resettled (t : ThreadId) (s r : State) : Prop where
  ok : r.GlobalOk
  others : ∀ u, u ≠ t → (r.OnGlobal u ↔ s.OnGlobal u)
  state : ∀ u, (r.thread u).state = (s.thread u).state

theorem threadSetrun_resettled (h : s.GlobalOk) (ht : ¬ s.OnGlobal t) (hq : (s.thread t).runq = none)
    (hu : (s.thread t).update = none) : ∃ r, threadSetrun s t = .ok r ∧ Resettled t s r := by
  have hup : updatePriority s t = s := by rw [updatePriority, hu]
  have henq : ∀ q, Resettled t s (enqueueRunq s t q) := fun q => by
    refine ⟨enqueueRunq_globalOk h ht q, fun u hu => exists_congr (enqueueRunq_onGlobal q hu), fun u => ?_⟩
    rw [enqueueRunq_thread]
    by_cases hut : u = t
    · rw [hut, Function.update_self]
    · rw [Function.update_of_ne hut]
  unfold threadSetrun
  simp only [hup, hq, ne_eq, not_true_eq_false, if_false]
  split
  next =>
    split
    next hpos =>
      split
      next hnil =>
        rw [h.count, hnil] at hpos
        cases hpos
      next c cs hcons =>
        have hc : c ∈ s.idleQueue := hcons ▸ List.mem_cons_self
        exact ⟨_, rfl, dispatchTo_globalOk h hc (by rw [hcons, List.erase_cons_head]), fun _ _ => .rfl, fun _ => rfl⟩
    next => exact ⟨_, rfl, henq .global⟩
  next c _ =>
    split
    next hidle =>
      have hc := (h.idle.mem_iff c).mpr hidle.2
      exact ⟨_, rfl, dispatchTo_globalOk h hc rfl, fun _ _ => .rfl, fun _ => rfl⟩
    next => exact ⟨_, rfl, henq (.local c)⟩

theorem setPri_resettled (h : s.GlobalOk) (ht : s.OnGlobal t) (hu : (s.thread t).update = none) (pri : Int) :
    ∃ r, setPri s t pri = .ok r ∧ Resettled t s r := by
  obtain ⟨k, hk⟩ := ht
  have hrunq := h.runq k t hk
  let rq : RunQueue := { s.queue .global with
    runq := fun i => ((s.queue .global).runq i).erase t, count := (s.queue .global).count - 1 }
  let off := ((s.setQueue .global rq).modThread t fun th => { th with runq := none }).modThread t
    fun th => { th with schedPri := pri }
  have hset : setPri s t pri = threadSetrun off t := by
    rw [setPri, remRunq, hrunq]
    rfl
  have hq : off.queue .global = rq := by
    change Function.update s.queue .global rq .global = rq
    rw [Function.update_self]
  have hthread : ∀ u, u ≠ t → off.thread u = s.thread u := fun u hu =>
    (modThread_of_ne hu).trans (modThread_of_ne hu)
  have hself : off.thread t = { s.thread t with runq := none, schedPri := pri } := by
    simp only [off, modThread_self]
    rfl
  have hgone : ¬ off.OnGlobal t := by
    rintro ⟨i, hi⟩
    rw [hq] at hi
    have hi' : t ∈ ((s.queue .global).runq i).erase t := hi
    exact ((h.listed.nodup i).mem_erase_iff.mp hi').1 rfl
  have hok : off.GlobalOk := by
    refine ⟨hq ▸ h.listed.leave hk, fun i u hi => ?_, h.idle, h.count⟩
    have hut : u ≠ t := by
      rintro rfl
      exact hgone ⟨i, hi⟩
    rw [hthread u hut]
    rw [hq] at hi
    exact h.runq i u (List.mem_of_mem_erase hi)
  obtain ⟨r, hr, hres⟩ := threadSetrun_resettled hok hgone (by rw [hself]) (by rw [hself]; exact hu)
  refine ⟨r, hset.trans hr, hres.ok, fun u hut => ?_, fun u => ?_⟩
  · rw [hres.others u hut]
    refine exists_congr fun i => ?_
    rw [hq]
    exact List.mem_erase_of_ne hut
  · rw [hres.state u]
    by_cases hut : u = t
    · rw [hut, hself]
    · rw [hthread u hut]

end SetPri

namespace Scan

variable {x x' : Scan} {t u : ThreadId} {ts : List ThreadId}

/-- What the scan needs. A thread on the run queue has a reference. -/
structure Ok (x : Scan) : Prop where
  sched : x.sched.GlobalOk
  refs : ∀ t, x.sched.OnGlobal t → 0 < x.refCount t

theorem Ok.of_reachable (h : Reachable x.sched) (hr : ∀ t, x.sched.OnGlobal t → 0 < x.refCount t) : x.Ok :=
  ⟨(reachable_inv h).1.globalOk, hr⟩

def lag (x : Scan) (t : ThreadId) : Nat := (x.schedTick - x.schedStamp t).toNat

/-- The second pass at the threads `ts`. -/
structure Fixed (ts : List ThreadId) (x x' : Scan) : Prop where
  ok : x'.sched.GlobalOk
  others : ∀ u, u ∉ ts → (x'.sched.OnGlobal u ↔ x.sched.OnGlobal u)
  state : ∀ u, (x'.sched.thread u).state = (x.sched.thread u).state
  fresh : ∀ u, u ∈ ts → x'.schedStamp u = x.schedTick
  stamp : ∀ u, u ∉ ts → x'.schedStamp u = x.schedStamp u
  tick : x'.schedTick = x.schedTick
  refCount : ∀ u, x'.refCount u + ts.count u = x.refCount u
  refLog : x'.refLog = x.refLog ++ ts.map .dropped
  passes : x'.passes = x.passes

theorem Fixed.stuck (h : Fixed ts x x') (u : ThreadId) : x'.stuck u = true ↔ x.stuck u = true ∧ u ∉ ts := by
  unfold Scan.stuck
  rw [h.state, h.tick]
  by_cases hu : u ∈ ts
  · rw [h.fresh u hu, BitVec.sub_self]
    simp [hu]
  · rw [h.stamp u hu]
    simp [hu]

theorem Fixed.lag (h : Fixed ts x x') (hu : u ∉ ts) : x'.lag u = x.lag u := by
  rw [Scan.lag, Scan.lag, h.tick, h.stamp u hu]

theorem updatePriority_eq (hstuck : x.stuck t) (hlag : x.lag t < 2 ^ 31) :
    x.updatePriority t = .ok { x with
      schedStamp := Function.update x.schedStamp t x.schedTick, sched := Sched.updatePriority x.sched t } := by
  have hpos : 1 < x.schedTick - x.schedStamp t := by
    have := (Bool.and_eq_true_iff.mp hstuck).2
    exact of_decide_eq_true this
  have hint : (x.schedTick - x.schedStamp t).toInt = (x.lag t : Int) := by
    rw [Scan.lag] at hlag ⊢
    exact BitVec.toInt_eq_toNat_of_lt (by omega)
  have hlt : 1 < x.lag t := by
    have := BitVec.lt_def.mp hpos
    exact this
  have hstamp : x.schedStamp t + BitVec.ofInt 32 (x.schedTick - x.schedStamp t).toInt = x.schedTick := by
    rw [BitVec.ofInt_toInt, BitVec.add_comm, BitVec.sub_add_cancel]
  unfold updatePriority
  simp only [hstamp]
  rw [if_neg]
  omega

theorem fix_spec (h : x.sched.GlobalOk) (ht : x.sched.OnGlobal t) (hstuck : x.stuck t) (hlag : x.lag t < 2 ^ 31)
    (href : 1 < x.refCount t) : ∃ x', x.fix t = .ok x' ∧ Fixed [t] x x' := by
  let s := Sched.updatePriority x.sched t
  have hqueue : s.queue = x.sched.queue := by
    simp only [s, Sched.updatePriority]
    split <;> rfl
  have hidle : s.idleQueue = x.sched.idleQueue ∧ s.cpuState = x.sched.cpuState ∧ s.idleCount = x.sched.idleCount := by
    simp only [s, Sched.updatePriority]
    split <;> exact ⟨rfl, rfl, rfl⟩
  have hthread : (s.thread t).update = none ∧ ∀ u, (s.thread u).runq = (x.sched.thread u).runq ∧
      (s.thread u).state = (x.sched.thread u).state := by
    simp only [s, Sched.updatePriority]
    split
    next hnone => exact ⟨hnone, fun u => ⟨rfl, rfl⟩⟩
    next p _ =>
      refine ⟨congrArg Thread.update modThread_self, fun u => ?_⟩
      by_cases hu : u = t
      · subst u
        rw [modThread_self]
        exact ⟨rfl, rfl⟩
      · rw [modThread_of_ne hu]
        exact ⟨rfl, rfl⟩
  have hs : s.GlobalOk := by
    refine ⟨hqueue ▸ h.listed, fun k u hu => ?_, ?_, ?_⟩
    · rw [(hthread.2 u).1]
      exact h.runq k u (hqueue ▸ hu)
    · rw [hidle.1, hidle.2.1]
      exact h.idle
    · rw [hidle.1, hidle.2.2]
      exact h.count
  have hon : ∀ u, s.OnGlobal u ↔ x.sched.OnGlobal u := fun u => by rw [State.OnGlobal, State.OnGlobal, hqueue]
  obtain ⟨r, hr, hres⟩ := setPri_resettled hs ((hon t).mpr ht) hthread.1 (s.thread t).schedPri
  let y : Scan := { x with
    schedStamp := Function.update x.schedStamp t x.schedTick
    sched := r
    refCount := Function.update x.refCount t (x.refCount t - 1)
    refLog := x.refLog ++ [.dropped t] }
  refine ⟨y, ?_, hres.ok, fun u hu => ?_, fun u => ?_, fun u hu => ?_, fun u hu => ?_, rfl, fun u => ?_, rfl, rfl⟩
  · rw [fix, if_pos hstuck, updatePriority_eq hstuck hlag]
    simp only [bind, Except.bind, setPri]
    rw [hr]
    simp only [threadDeallocate]
    rw [if_neg (by omega)]
  · rw [hres.others u (by simpa using hu), hon u]
  · rw [hres.state u, (hthread.2 u).2]
  · rw [List.mem_singleton.mp hu]
    exact Function.update_self ..
  · exact Function.update_of_ne (by simpa using hu) ..
  · change Function.update x.refCount t _ u + _ = _
    by_cases hu : u = t
    · rw [hu, Function.update_self, List.count_singleton_self]
      omega
    · rw [Function.update_of_ne hu, List.count_eq_zero_of_not_mem (by simpa using hu)]
      rfl

theorem fixAll_spec (h : x.sched.GlobalOk) (hnodup : ts.Nodup)
    (hts : ∀ t ∈ ts, x.sched.OnGlobal t ∧ x.stuck t ∧ x.lag t < 2 ^ 31 ∧ 1 < x.refCount t) :
    ∃ x', ts.foldlM fix x = .ok x' ∧ Fixed ts x x' := by
  induction ts generalizing x with
  | nil =>
    exact ⟨x, rfl, h, fun _ _ => .rfl, fun _ => rfl, fun u hu => absurd hu List.not_mem_nil, fun _ _ => rfl, rfl,
      fun _ => rfl, (List.append_nil _).symm, rfl⟩
  | cons t ts ih =>
    obtain ⟨hnot, hnodup⟩ := List.nodup_cons.mp hnodup
    obtain ⟨hon, hstuck, hlag, href⟩ := hts t List.mem_cons_self
    obtain ⟨x₁, hfix, h₁⟩ := fix_spec h hon hstuck hlag href
    have hts₁ : ∀ u ∈ ts, x₁.sched.OnGlobal u ∧ x₁.stuck u ∧ x₁.lag u < 2 ^ 31 ∧ 1 < x₁.refCount u := by
      intro u hu
      have hut : u ∉ [t] := by
        rw [List.mem_singleton]
        rintro rfl
        exact hnot hu
      obtain ⟨a, b, c, d⟩ := hts u (List.mem_cons_of_mem t hu)
      refine ⟨(h₁.others u hut).mpr a, (h₁.stuck u).mpr ⟨b, hut⟩, (h₁.lag hut).symm ▸ c, ?_⟩
      have := h₁.refCount u
      rw [List.count_eq_zero_of_not_mem hut] at this
      omega
    obtain ⟨x', hfold, h'⟩ := ih h₁.ok hnodup hts₁
    refine ⟨x', ?_, h'.ok, fun u hu => ?_, fun u => ?_, fun u hu => ?_, fun u hu => ?_, ?_, fun u => ?_, ?_, ?_⟩
    · rw [List.foldlM_cons, hfix]
      exact hfold
    · obtain ⟨hut, hu⟩ := not_or.mp (fun h => hu (List.mem_cons.mpr h))
      rw [h'.others u hu, h₁.others u (by simpa using hut)]
    · rw [h'.state u, h₁.state u]
    · by_cases hut : u ∈ ts
      · rw [h'.fresh u hut, h₁.tick]
      · rw [h'.stamp u hut]
        refine h₁.fresh u ?_
        simpa [hut] using hu
    · obtain ⟨hut, hu⟩ := not_or.mp (fun h => hu (List.mem_cons.mpr h))
      rw [h'.stamp u hu, h₁.stamp u (by simpa using hut)]
    · rw [h'.tick, h₁.tick]
    · have a := h'.refCount u
      have b := h₁.refCount u
      rw [List.count_cons]
      rw [List.count_singleton] at b
      omega
    · rw [h'.refLog, h₁.refLog, List.append_assoc]
      rfl
    · rw [h'.passes, h₁.passes]

/-- The stuck threads in the order of the walk. -/
def found (x : Scan) : List ThreadId :=
  let rq := x.sched.queue .global
  (queuedFrom rq.runq rq.low (nrqs - rq.low)).filter x.stuck

theorem mem_found (h : x.sched.GlobalOk) : t ∈ x.found ↔ x.sched.OnGlobal t ∧ x.stuck t := by
  rw [found, List.mem_filter, h.listed.mem_queuedFrom]
  rfl

theorem nodup_found (h : x.sched.GlobalOk) : x.found.Nodup := (h.listed.nodup_queuedFrom _ _).filter _

theorem collect_eq (h : x.sched.GlobalOk) : ∃ q, q ≤ nrqs ∧
    x.collect = some (q, decide (maxStuckThreads < x.found.length), x.found.take maxStuckThreads) := by
  have hcount := h.listed.count
  unfold collect
  simp only
  split
  next hpos =>
    obtain ⟨q, hq, heq⟩ := scanLists_eq x.stuck
      (x.sched.queue .global).low (x.sched.queue .global).count [] (Nat.zero_le _) (by rw [hcount])
    refine ⟨q, ?_, heq⟩
    by_cases hlow : (x.sched.queue .global).low ≤ nrqs
    · omega
    · rw [Nat.sub_eq_zero_of_le (by omega)] at hcount
      rw [hcount] at hpos
      exact absurd hpos (Nat.lt_irrefl 0)
  next hzero =>
    have hnone : queuedFrom (x.sched.queue .global).runq (x.sched.queue .global).low
        (nrqs - (x.sched.queue .global).low) = [] := List.length_eq_zero_iff.mp (by omega)
    have hnil : x.found = [] := by
      rw [found, hnone, List.filter_nil]
    refine ⟨0, Nat.zero_le _, ?_⟩
    rw [hnil]
    rfl

theorem foldl_reference (x : Scan) (ts : List ThreadId) :
    ∃ refCount, (∀ u, refCount u = x.refCount u + ts.count u) ∧
      ts.foldl reference x = { x with refCount, refLog := x.refLog ++ ts.map .took } := by
  induction ts generalizing x with
  | nil => exact ⟨x.refCount, fun _ => rfl, by rw [List.map_nil, List.append_nil]; rfl⟩
  | cons t ts ih =>
    obtain ⟨refCount, hcount, hfold⟩ := ih (x.reference t)
    refine ⟨refCount, fun u => ?_, ?_⟩
    · rw [hcount u, List.count_cons]
      change Function.update x.refCount t (x.refCount t + 1) u + _ = _
      by_cases hu : u = t
      · rw [hu, Function.update_self]
        simp only [beq_self_eq_true, if_true]
        omega
      · rw [Function.update_of_ne hu]
        simp [Ne.symm hu]
    · rw [List.foldl_cons, hfold]
      simp [reference]

theorem bind_restart {e : Except ScanHalt Scan} {b : Bool} (h : e = .ok x') :
    (e >>= fun x => Except.ok (x, b)) = .ok (x', b) := by
  rw [h]
  rfl

theorem pass_spec (h : x.Ok) (hlag : ∀ t, x.sched.OnGlobal t → x.stuck t → x.lag t < 2 ^ 31) :
    ∃ q x', q ≤ nrqs ∧ x.pass = .ok (x', decide (maxStuckThreads < x.found.length)) ∧
      x'.passes = x.passes ++ [(q, x.found.take maxStuckThreads)] ∧
      x'.refLog = x.refLog ++ ((x.found.take maxStuckThreads).map .took ++
        (x.found.take maxStuckThreads).reverse.map .dropped) ∧
      x'.refCount = x.refCount ∧ x'.Ok ∧ (∀ t, t ∈ x'.found ↔ t ∈ x.found ∧ t ∉ x.found.take maxStuckThreads) ∧
      ∀ t, x'.sched.OnGlobal t → x'.stuck t → x'.lag t < 2 ^ 31 := by
  obtain ⟨q, hq, hcollect⟩ := collect_eq h.sched
  generalize hgot : x.found.take maxStuckThreads = got at hcollect ⊢
  have hsub : ∀ t ∈ got, t ∈ x.found := fun t ht => List.mem_of_mem_take (hgot ▸ ht)
  have hnodup : got.Nodup := hgot ▸ (nodup_found h.sched).take
  obtain ⟨refCount, hrefs, hfold⟩ := foldl_reference { x with passes := x.passes ++ [(q, got)] } got
  let y : Scan := { x with refCount, refLog := x.refLog ++ got.map .took, passes := x.passes ++ [(q, got)] }
  have hready : ∀ t ∈ got.reverse, y.sched.OnGlobal t ∧ y.stuck t ∧ y.lag t < 2 ^ 31 ∧ 1 < y.refCount t := by
    intro t ht
    have ht' := List.mem_reverse.mp ht
    obtain ⟨hon, hstuck⟩ := (mem_found h.sched).mp (hsub t ht')
    refine ⟨hon, hstuck, hlag t hon hstuck, ?_⟩
    have hpos := h.refs t hon
    have hone := List.count_pos_iff.mpr ht'
    change 1 < refCount t
    rw [hrefs t]
    change 1 < x.refCount t + _
    omega
  have hy : y.sched.GlobalOk := h.sched
  obtain ⟨x', hfix, hx'⟩ := fixAll_spec hy (List.nodup_reverse.mpr hnodup) hready
  have hrefCount : x'.refCount = x.refCount := by
    funext u
    have a := hx'.refCount u
    have b := hrefs u
    change _ = refCount u at a
    change _ = x.refCount u + _ at b
    rw [List.count_reverse] at a
    omega
  have hmem : ∀ t, x'.sched.OnGlobal t ∧ x'.stuck t ↔ t ∈ x.found ∧ t ∉ got := by
    intro t
    rw [hx'.stuck t, mem_found h.sched, List.mem_reverse]
    constructor
    · rintro ⟨hon, hstuck, hnot⟩
      exact ⟨⟨(hx'.others t (by simpa using hnot)).mp hon, hstuck⟩, hnot⟩
    · rintro ⟨⟨hon, hstuck⟩, hnot⟩
      exact ⟨(hx'.others t (by simpa using hnot)).mpr hon, hstuck, hnot⟩
  refine ⟨q, x', hq, ?_, hx'.passes, ?_, hrefCount, ⟨hx'.ok, fun t hon => ?_⟩, fun t => ?_, fun t hon hstuck => ?_⟩
  · rw [pass, hcollect]
    simp only
    rw [hfold]
    exact bind_restart hfix
  · rw [hx'.refLog, List.append_assoc]
  · rw [hrefCount]
    by_cases ht : t ∈ got
    · exact h.refs t ((mem_found h.sched).mp (hsub t ht)).1
    · exact h.refs t ((hx'.others t (by simpa using ht)).mp hon)
  · rw [mem_found hx'.ok, hmem t]
  · obtain ⟨hfound, hnot⟩ := (hmem t).mp ⟨hon, hstuck⟩
    obtain ⟨hon', hstuck'⟩ := (mem_found h.sched).mp hfound
    rw [hx'.lag (by simpa using hnot)]
    exact hlag t hon' hstuck'

/-- One reference is taken and dropped for each of the threads `ts`. -/
def OneEach (ts : List ThreadId) (log : List Ref) : Prop :=
  ∀ t, log.count (.took t) = (if t ∈ ts then 1 else 0) ∧ log.count (.dropped t) = if t ∈ ts then 1 else 0

theorem OneEach.append {ts' all : List ThreadId} {log log' : List Ref} (h : OneEach ts log) (h' : OneEach ts' log')
    (hdisjoint : ∀ t ∈ ts, t ∉ ts') (hall : ∀ t, t ∈ all ↔ t ∈ ts ∨ t ∈ ts') : OneEach all (log ++ log') := by
  intro t
  rw [List.count_append, List.count_append, (h t).1, (h t).2, (h' t).1, (h' t).2]
  simp only [hall]
  by_cases ht : t ∈ ts
  · simp [ht, hdisjoint t ht]
  · simp [ht]

theorem count_map_took (ts : List ThreadId) (t : ThreadId) :
    (ts.map Ref.took).count (.took t) = ts.count t ∧ (ts.map Ref.took).count (.dropped t) = 0 := by
  have hinj : Function.Injective Ref.took := fun _ _ h => Ref.took.inj h
  refine ⟨List.count_map_of_injective ts _ hinj t, List.count_eq_zero_of_not_mem fun h => ?_⟩
  obtain ⟨u, -, hu⟩ := List.mem_map.mp h
  cases hu

theorem count_map_dropped (ts : List ThreadId) (t : ThreadId) :
    (ts.map Ref.dropped).count (.dropped t) = ts.count t ∧ (ts.map Ref.dropped).count (.took t) = 0 := by
  have hinj : Function.Injective Ref.dropped := fun _ _ h => Ref.dropped.inj h
  refine ⟨List.count_map_of_injective ts _ hinj t, List.count_eq_zero_of_not_mem fun h => ?_⟩
  obtain ⟨u, -, hu⟩ := List.mem_map.mp h
  cases hu

theorem oneEach_pass (hts : ts.Nodup) : OneEach ts (ts.map .took ++ ts.reverse.map .dropped) := by
  intro t
  rw [List.count_append, List.count_append, (count_map_took ts t).1, (count_map_took ts t).2,
    (count_map_dropped _ t).1, (count_map_dropped _ t).2, List.count_reverse, Nat.add_zero, Nat.zero_add, hts.count]
  exact ⟨rfl, rfl⟩

end Scan

open Scan in
/-- `do_thread_scan` ends with every thread of the global run queue up to date, takes and drops a reference for each one
that was not, leaves `q` at one past the last list at most and stores no more than there is room for. -/
theorem doThreadScan_spec {x : Scan} (h : x.Ok) (hlag : ∀ t, x.sched.OnGlobal t → x.stuck t → x.lag t < 2 ^ 31) :
    ∃ fuel x' passes log, doThreadScan fuel x = some (.ok x') ∧
      x'.passes = x.passes ++ passes ∧ (∀ p ∈ passes, p.1 ≤ nrqs ∧ p.2.length ≤ maxStuckThreads) ∧
      x'.refLog = x.refLog ++ log ∧ OneEach x.found log ∧ x'.refCount = x.refCount ∧
      ∀ t, x'.sched.OnGlobal t → x'.stuck t = false := by
  induction hn : x.found.length using Nat.strongRecOn generalizing x with
  | ind n ih =>
    obtain ⟨q, x₁, hq, hpass, hpasses, hlog, hrefs, h₁, hfound, hlag₁⟩ := pass_spec h hlag
    have hgot : (x.found.take maxStuckThreads).length ≤ maxStuckThreads := List.length_take_le _ _
    have htake : (x.found.take maxStuckThreads).Nodup := (nodup_found h.sched).take
    have hone := oneEach_pass htake
    by_cases hmore : maxStuckThreads < x.found.length
    · rw [decide_eq_true hmore] at hpass
      have hsub : x₁.found ⊆ x.found.drop maxStuckThreads := by
        intro t ht
        obtain ⟨hmem, hnot⟩ := (hfound t).mp ht
        rw [← List.take_append_drop maxStuckThreads x.found] at hmem
        exact (List.mem_append.mp hmem).resolve_left hnot
      have hless : x₁.found.length < n := by
        have := (List.subperm_of_subset (nodup_found h₁.sched) hsub).length_le
        rw [List.length_drop] at this
        have : 0 < maxStuckThreads := by decide
        omega
      obtain ⟨fuel, x', passes, log, hrun, hpasses', hbounds, hlog', hone', hrefs', hdone⟩ := ih _ hless h₁ hlag₁ rfl
      let first : List Ref :=
        (x.found.take maxStuckThreads).map .took ++ (x.found.take maxStuckThreads).reverse.map .dropped
      refine ⟨fuel + 1, x', (q, x.found.take maxStuckThreads) :: passes, first ++ log, ?_, ?_, ?_, ?_, ?_, ?_, hdone⟩
      · rw [doThreadScan, hpass]
        exact hrun
      · rw [hpasses', hpasses, List.append_assoc]
        rfl
      · exact List.forall_mem_cons.mpr ⟨⟨hq, hgot⟩, hbounds⟩
      · rw [hlog', hlog, List.append_assoc]
      · refine hone.append hone' (fun t ht ht' => ((hfound t).mp ht').2 ht) fun t => ?_
        have hmem : t ∈ x.found.take maxStuckThreads → t ∈ x.found := List.mem_of_mem_take
        rw [hfound t]
        tauto
      · rw [hrefs', hrefs]
    · rw [decide_eq_false hmore] at hpass
      have hall : x.found.take maxStuckThreads = x.found := List.take_of_length_le (Nat.not_lt.mp hmore)
      rw [hall] at hpasses hlog hfound hone hgot
      refine ⟨1, x₁, [(q, x.found)], _, ?_, hpasses, ?_, hlog, hone, hrefs, fun t hon => ?_⟩
      · rw [doThreadScan, hpass]
      · rw [List.forall_mem_singleton]
        exact ⟨hq, hgot⟩
      · by_contra hstuck
        obtain ⟨hmem, hnot⟩ := (hfound t).mp ((mem_found h₁.sched).mpr ⟨hon, by simpa using hstuck⟩)
        exact hnot hmem

/-- Thread 2 gets a low priority, and all three go on the run queue. -/
def threeCalls : List Action := [.setPri 2 100, .release 1, .release 2, .release 3]

def threeQueued : State := ((threeCalls.foldlM step bootState).toOption).getD bootState

theorem threeQueued_reachable : Reachable threeQueued := by
  have h : Reachable bootState := .start bootState_start
  have h := h.next (a := Action.setPri 2 100) trivial rfl
  have h := h.next (a := Action.release 1) trivial rfl
  have h := h.next (a := Action.release 2) trivial rfl
  exact h.next (a := Action.release 3) trivial rfl

/-- The stamps of the threads 1 and 2 lag. -/
def twoStuck : Scan where
  sched := threeQueued
  schedStamp t := if t = 3 then 5 else 0
  schedTick := 5
  refCount _ := 1
  refLog := []
  passes := []

theorem twoStuck_ok : twoStuck.Ok := .of_reachable threeQueued_reachable fun _ _ => Nat.one_pos

theorem twoStuck_lag (t : ThreadId) : twoStuck.lag t < 2 ^ 31 := by
  change (5 - if t = 3 then 5 else 0 : BitVec 32).toNat < _
  split <;> decide

theorem twoStuck_scanned : ∃ fuel x' log, doThreadScan fuel twoStuck = some (.ok x') ∧
    twoStuck.found = [1, 2] ∧ Scan.OneEach [1, 2] log ∧ x'.refLog = log ∧
    ∀ t, x'.sched.OnGlobal t → x'.stuck t = false := by
  obtain ⟨fuel, x', _, log, hrun, -, -, hlog, hone, -, hdone⟩ :=
    doThreadScan_spec twoStuck_ok fun t _ _ => twoStuck_lag t
  have hfound : twoStuck.found = [1, 2] := by decide
  exact ⟨fuel, x', log, hrun, hfound, hfound ▸ hone, hlog, hdone⟩

/-- A thread of the lowest priority is alone on the run queue. -/
def lowest (stamp : BitVec 32) : Scan where
  sched :=
    { thread := fun t =>
        { state := { run := true }, interruptible := false, waitEvent := 0, timerSet := false, suspendCount := 0,
          swapState := .inCore, whichq := .global, runq := if t = 1 then some .global else none, schedPri := 127,
          update := some 50, asserted := false }
      waitQueue := fun _ => []
      queue := fun _ => { runq := fun k => if k = 31 then [1] else [], low := 31, count := 1 }
      phase := fun _ => .halted
      nextThread := fun _ => none
      cpuState := fun _ => .running
      shouldExit := fun _ => false
      idleQueue := []
      idleCount := 0
      masterCpu := 0
      swapinQueue := []
      ops := fun _ => none }
  schedStamp _ := stamp
  schedTick := 5
  refCount _ := 1
  refLog := []
  passes := []

theorem lowest_ok (stamp : BitVec 32) : (lowest stamp).Ok := by
  have hmem : ∀ k t, t ∈ ((lowest stamp).sched.queue .global).runq k → k = 31 ∧ t = 1 := by
    intro k t ht
    simp only [lowest] at ht
    split at ht
    next hk => exact ⟨hk, List.mem_singleton.mp ht⟩
    next => exact absurd ht List.not_mem_nil
  have htotal : 1 = ∑ i ∈ Finset.range nrqs, (if i = 31 then [1] else []).length := by decide
  refine ⟨⟨⟨⟨htotal, fun i hi => if_neg ?_⟩, fun k hk => if_neg ?_, fun k => ?_, fun k k' t ht ht' => ?_⟩,
    fun k t ht => ?_, ⟨List.nodup_nil, by simp [lowest]⟩, rfl⟩, fun _ _ => Nat.one_pos⟩
  · have : i < 31 := hi
    omega
  · rw [nrqs] at hk
    omega
  · simp only [lowest]
    split <;> simp
  · rw [(hmem k t ht).1, (hmem k' t ht').1]
  · rw [(hmem k t ht).2]
    rfl

/-- `q` goes past the last list, and a thread whose stamp is half the range of `sched_tick` behind makes
`update_priority` panic. -/
theorem lowest_passes : (∃ x', doThreadScan 1 (lowest 0) = some (.ok x') ∧ x'.passes = [(nrqs, [1])]) ∧
    (lowest 0x80000005).Ok ∧ doThreadScan 1 (lowest 0x80000005) = some (.error .badUpdate) :=
  ⟨⟨_, rfl, rfl⟩, lowest_ok _, rfl⟩

end MachVM.Kern.Sched
