import MachVM.Callout

namespace MachVM.Bsd.KernClock

open Machine Deltas

variable {F A : Type} {s r : State F A} {ids : List CalloutId} {f : F} {arg : A} {t : Int} {p : CalloutId} {n : CallNo}

/-- The tick at which a call of `timeout` is due. -/
def State.deadline (s : State F A) (n : CallNo) : Nat := (s.calls[n]?).elim 0 Call.deadline

/-- The tick at which a pending callout is due. -/
def State.due (s : State F A) (p : CalloutId) : Int := s.deadline (s.call p)

/-- A call of a handler is for a call of `timeout` with the same function and argument, and not before it is due. -/
structure Firing.Ok (s : State F A) (e : Firing F A) : Prop where
  call : ∃ c, s.calls[e.call]? = some c ∧ c.func = e.func ∧ c.arg = e.arg
  late : e.late = s.deadline e.call - e.tick
  ripe : s.deadline e.call ≤ e.tick
  past : e.tick ≤ s.now

structure Inv (ids : List CalloutId) (s : State F A) : Prop where
  timed : Timed s.due (times s.callout) s.now s.calltodo
  lists : (s.calltodo ++ s.callfree).Perm ids
  own : ∀ p ∈ s.calltodo, ∃ c, s.calls[s.call p]? = some c ∧ c.func = (s.callout p).cFunc ∧ c.arg = (s.callout p).cArg
  once : (s.calltodo.map s.call ++ (s.fired.map Firing.call ++ s.cancelled)).Perm (List.range s.calls.length)
  fired : ∀ e ∈ s.fired, e.Ok s
  order : (s.fired.map fun e => s.deadline e.call).Pairwise (· ≤ ·)
  ahead : ∀ e ∈ s.fired, ∀ p ∈ s.calltodo, s.deadline e.call ≤ s.deadline (s.call p)

variable (h : Inv ids s) (hids : ids.Nodup)
include h hids

theorem Inv.nodup : s.calltodo.Nodup ∧ s.callfree.Nodup ∧ ∀ p ∈ s.calltodo, p ∉ s.callfree := by
  obtain ⟨h1, h2, h3⟩ := List.nodup_append.mp (h.lists.nodup_iff.mpr hids)
  exact ⟨h1, h2, fun p hp hf => h3 p hp p hf rfl⟩

omit h hids in
theorem hardclockScan_call {callout : CalloutId → Callout F A} {l : List CalloutId} :
    (hardclockScan callout l p).cFunc = (callout p).cFunc ∧ (hardclockScan callout l p).cArg = (callout p).cArg := by
  induction l generalizing callout with
  | nil => exact ⟨rfl, rfl⟩
  | cons x xs ih =>
    rw [hardclockScan]
    split
    next => exact setTime_call
    next =>
      split
      next => exact setTime_call
      next => exact ⟨ih.1.trans setTime_call.1, ih.2.trans setTime_call.2⟩

theorem Inv.of_hardclock : Inv ids (hardclock s) := by
  obtain ⟨hn, -, -⟩ := h.nodup hids
  refine { h with timed := ?_, own := fun p hp => ?_, fired := fun e he => ?_ }
  · exact (hardclockScan_timed h.timed hn).congr (fun _ _ => rfl) fun _ _ => rfl
  · obtain ⟨c, hc, hf, ha⟩ := h.own p hp
    exact ⟨c, hc, hf.trans hardclockScan_call.1.symm, ha.trans hardclockScan_call.2.symm⟩
  · obtain ⟨hc, hl, hr, hp⟩ := h.fired e he
    exact ⟨hc, hl, hr, Nat.le_succ_of_le hp⟩

omit hids in
/-- What a turn of `softclock` does when the first callout is due. -/
theorem Inv.softclock_head {p₁ : CalloutId} {rest : List CalloutId} (hl : s.calltodo = p₁ :: rest)
    (hd : (s.callout p₁).cTime ≤ 0) : (s.callout p₁).cTime = s.deadline (s.call p₁) - s.now ∧
      s.deadline (s.call p₁) ≤ s.now ∧ ∀ p ∈ rest, s.deadline (s.call p₁) ≤ s.deadline (s.call p) := by
  have ht := h.timed
  rw [hl] at ht
  have hmin := ht.head_le
  rw [timed_cons, if_pos (show times s.callout p₁ ≤ 0 from hd)] at ht
  obtain ⟨hb, -, -⟩ := ht
  change (s.deadline (s.call p₁) : Int) = s.now + (s.callout p₁).cTime at hb
  refine ⟨by omega, by omega, fun p hp => ?_⟩
  have := hmin p hp
  change (s.deadline (s.call p₁) : Int) ≤ s.deadline (s.call p) at this
  omega

omit hids in
theorem Inv.of_softclock : Inv ids (softclock s) := by
  unfold KernClock.softclock
  split
  next => exact h
  next p₁ rest hl =>
    split
    next => exact h
    next hd =>
      have hd := Int.not_lt.mp hd
      obtain ⟨hlate, hripe, hmin⟩ := h.softclock_head hl hd
      have hperm := h.lists
      have honce := h.once
      rw [hl] at hperm honce
      have ht := h.timed
      rw [hl] at ht
      have hrest : ∀ p ∈ rest, p ∈ s.calltodo := fun p hp => hl ▸ List.mem_cons_of_mem _ hp
      have hmem : p₁ ∈ s.calltodo := hl ▸ List.mem_cons_self
      refine ⟨ht.tail hd, List.perm_middle.trans hperm, fun p hp => h.own p (hrest p hp), ?_, ?_, ?_, ?_⟩
      · refine List.Perm.trans ?_ honce
        rw [List.perm_iff_count]
        intro a
        simp only [List.map_append, List.map_cons, List.map_nil, List.count_append, List.count_cons, List.count_nil]
        omega
      · intro e he
        rcases List.mem_append.mp he with he | he
        · exact ⟨(h.fired e he).call, (h.fired e he).late, (h.fired e he).ripe, (h.fired e he).past⟩
        · cases List.mem_singleton.mp he
          exact ⟨h.own p₁ hmem, hlate, hripe, le_rfl⟩
      · rw [List.map_append, List.pairwise_append]
        refine ⟨h.order, List.pairwise_singleton .., fun x hx y hy => ?_⟩
        obtain ⟨e, he, rfl⟩ := List.mem_map.mp hx
        cases List.mem_singleton.mp hy
        exact h.ahead e he p₁ hmem
      · intro e he p hp
        rcases List.mem_append.mp he with he | he
        · exact h.ahead e he p (hrest p hp)
        · cases List.mem_singleton.mp he
          exact hmin p hp

omit hids h in
theorem timeoutScan_call {callout : CalloutId → Callout F A} {pnew : CalloutId} {l : List CalloutId} :
    ((timeoutScan callout pnew t l).2 p).cFunc = (callout p).cFunc ∧
      ((timeoutScan callout pnew t l).2 p).cArg = (callout p).cArg := by
  induction l generalizing t with
  | nil => exact setTime_call
  | cons x xs ih =>
    rw [timeoutScan]
    split
    next => exact ih
    next => exact ⟨setTime_call.1.trans setTime_call.1, setTime_call.2.trans setTime_call.2⟩

omit h hids in
theorem deadline_of_lt {q : State F A} {c : Call F A} (hq : q.calls = s.calls ++ [c]) (hn : n < s.calls.length) :
    q.deadline n = s.deadline n := by
  rw [State.deadline, State.deadline, hq, List.getElem?_append_left hn]

omit hids in
theorem Inv.call_lt (hp : p ∈ s.calltodo) : s.call p < s.calls.length := by
  have hm : s.call p ∈ s.calltodo.map s.call ++ (s.fired.map Firing.call ++ s.cancelled) :=
    List.mem_append_left _ (List.mem_map_of_mem hp)
  exact List.mem_range.mp (h.once.mem_iff.mp hm)

omit hids in
theorem Inv.fired_lt {e : Firing F A} (he : e ∈ s.fired) : e.call < s.calls.length := by
  have hm : e.call ∈ s.calltodo.map s.call ++ (s.fired.map Firing.call ++ s.cancelled) :=
    List.mem_append_right _ (List.mem_append_left _ (List.mem_map_of_mem he))
  exact List.mem_range.mp (h.once.mem_iff.mp hm)

/-- What `timeout` does: one more call, for a callout that was free. -/
structure Adds (s r : State F A) (f : F) (arg : A) (t : Int) (pnew : CalloutId) : Prop where
  free : s.callfree = pnew :: r.callfree
  fresh : pnew ∉ s.calltodo
  todo : r.calltodo.Perm (pnew :: s.calltodo)
  calls : r.calls = s.calls ++ [⟨f, arg, s.now + (max t 1).toNat⟩]
  call_new : r.call pnew = s.calls.length
  call : ∀ p ∈ s.calltodo, r.call p = s.call p
  new : (r.callout pnew).cFunc = f ∧ (r.callout pnew).cArg = arg
  callout : ∀ p ∈ s.calltodo, (r.callout p).cFunc = (s.callout p).cFunc ∧ (r.callout p).cArg = (s.callout p).cArg
  now : r.now = s.now
  fired : r.fired = s.fired
  cancelled : r.cancelled = s.cancelled
  timed : Timed r.due (times r.callout) s.now r.calltodo

omit h hids in
theorem Adds.due_new {pnew : CalloutId} (ha : Adds s r f arg t pnew) :
    r.deadline s.calls.length = s.now + (max t 1).toNat := by
  rw [State.deadline, ha.calls, List.getElem?_concat_length]
  rfl

omit hids in
theorem Adds.deadline_eq {pnew : CalloutId} (ha : Adds s r f arg t pnew) (hp : p ∈ s.calltodo) :
    r.deadline (r.call p) = s.deadline (s.call p) := by
  rw [ha.call p hp, deadline_of_lt ha.calls (h.call_lt hp)]

theorem Inv.timeout_adds (hr : timeout s f arg t = some r) : ∃ pnew, Adds s r f arg t pnew := by
  unfold KernClock.timeout at hr
  dsimp only at hr
  split at hr
  next => cases hr
  next pnew free hfree =>
    have htmax : (if t ≤ 0 then 1 else t) = max t 1 := by
      split <;> omega
    rw [htmax] at hr
    set callout := Function.update s.callout pnew { s.callout pnew with cArg := arg, cFunc := f } with hcallout
    have hr := (Option.some.inj hr).symm
    have hcall : r.call = Function.update s.call pnew s.calls.length := by rw [hr]
    have hcalls : r.calls = s.calls ++ [⟨f, arg, s.now + (max t 1).toNat⟩] := by rw [hr]
    have hscan : r.calltodo = (timeoutScan callout pnew (max t 1) s.calltodo).1 ∧
        r.callout = (timeoutScan callout pnew (max t 1) s.calltodo).2 := by
      rw [hr]
      exact ⟨rfl, rfl⟩
    obtain ⟨hn, -, hdisj⟩ := h.nodup hids
    have hnew : pnew ∉ s.calltodo := fun hp => hdisj pnew hp (hfree ▸ List.mem_cons_self)
    have hne : ∀ p ∈ s.calltodo, p ≠ pnew := by
      rintro p hp rfl
      exact hnew hp
    have hsame : ∀ p ∈ s.calltodo, callout p = s.callout p := by
      intro p hp
      rw [hcallout, Function.update_of_ne (hne p hp)]
    have hold : ∀ p ∈ s.calltodo, r.call p = s.call p := by
      intro p hp
      rw [hcall, Function.update_of_ne (hne p hp)]
    have hlast : r.call pnew = s.calls.length := by rw [hcall, Function.update_self]
    refine ⟨pnew, by rw [hr]; exact hfree, hnew, by rw [hscan.1]; exact timeoutScan_perm, hcalls, hlast, hold, ?_,
      fun p hp => ?_, by rw [hr], by rw [hr], by rw [hr], ?_⟩
    · rw [hscan.2, timeoutScan_call.1, timeoutScan_call.2, hcallout, Function.update_self]
      exact ⟨rfl, rfl⟩
    · rw [hscan.2, timeoutScan_call.1, timeoutScan_call.2, hsame p hp]
      exact ⟨rfl, rfl⟩
    · have hdue : r.due pnew = s.now + max t 1 := by
        rw [State.due, hlast, State.deadline, hcalls, List.getElem?_concat_length]
        simp only [Option.elim_some]
        omega
      rw [hscan.1, hscan.2]
      refine timeoutScan_timed (h.timed.congr (fun p hp => ?_) fun p hp => ?_) hnew hn (by omega) hdue
      · rw [State.due, State.due, hold p hp, deadline_of_lt hcalls (h.call_lt hp)]
      · rw [times, hsame p hp]
        rfl

theorem Inv.of_timeout (hr : timeout s f arg t = some r) : Inv ids r := by
  obtain ⟨pnew, ha⟩ := h.timeout_adds hids hr
  have hmem : ∀ p ∈ r.calltodo, p = pnew ∨ p ∈ s.calltodo := fun p hp => List.mem_cons.mp (ha.todo.mem_iff.mp hp)
  refine ⟨by rw [ha.now]; exact ha.timed, ?_, fun p hp => ?_, ?_, fun e he => ?_, ?_, fun e he p hp => ?_⟩
  · refine (ha.todo.append_right _).trans (.trans ?_ h.lists)
    rw [ha.free]
    exact List.perm_middle.symm
  · rcases hmem p hp with rfl | hp
    · refine ⟨⟨f, arg, s.now + (max t 1).toNat⟩, ?_, ha.new.1.symm, ha.new.2.symm⟩
      rw [ha.call_new, ha.calls, List.getElem?_concat_length]
    · obtain ⟨c, hget, hf, harg⟩ := h.own p hp
      refine ⟨c, ?_, hf.trans (ha.callout p hp).1.symm, harg.trans (ha.callout p hp).2.symm⟩
      rw [ha.call p hp, ha.calls, List.getElem?_append_left (h.call_lt hp)]
      exact hget
  · have hmap : (r.calltodo.map r.call).Perm (s.calls.length :: s.calltodo.map s.call) := by
      refine (ha.todo.map r.call).trans ?_
      rw [List.map_cons, ha.call_new, List.map_congr_left ha.call]
    rw [ha.fired, ha.cancelled, ha.calls, List.length_append, List.length_singleton, List.range_succ]
    exact (hmap.append_right _).trans ((h.once.cons _).trans (List.perm_append_singleton ..).symm)
  · rw [ha.fired] at he
    have hlt := h.fired_lt he
    obtain ⟨⟨c, hc, hf, harg⟩, hl, hripe, hp⟩ := h.fired e he
    have hd := deadline_of_lt ha.calls hlt
    refine ⟨⟨c, ?_, hf, harg⟩, by rw [hd]; exact hl, by rw [hd]; exact hripe, by rw [ha.now]; exact hp⟩
    rw [ha.calls, List.getElem?_append_left hlt]
    exact hc
  · rw [ha.fired, List.map_congr_left fun e he => deadline_of_lt ha.calls (h.fired_lt he)]
    exact h.order
  · rw [ha.fired] at he
    rw [deadline_of_lt ha.calls (h.fired_lt he)]
    rcases hmem p hp with rfl | hp
    · rw [ha.call_new, ha.due_new]
      have h1 := (h.fired e he).ripe
      have h2 := (h.fired e he).past
      omega
    · rw [ha.deadline_eq h hp]
      exact h.ahead e he p hp

variable [DecidableEq F] [DecidableEq A]

omit h hids in
theorem untimeoutScan_call {callout : CalloutId → Callout F A} {l : List CalloutId}
    {q : CalloutId × List CalloutId × (CalloutId → Callout F A)} (hq : untimeoutScan callout f arg l = some q) :
    (q.2.2 p).cFunc = (callout p).cFunc ∧ (q.2.2 p).cArg = (callout p).cArg := by
  obtain ⟨l₁, l₂, -, -, -, -, -, hc⟩ := untimeoutScan_split hq
  rw [hc]
  split
  next =>
    split
    next => exact setTime_call
    next => exact ⟨rfl, rfl⟩
  next => exact ⟨rfl, rfl⟩

theorem Inv.of_untimeout : Inv ids (untimeout s f arg) := by
  unfold KernClock.untimeout
  split
  next => exact h
  next p₂ todo callout hscan =>
    obtain ⟨hn, -, -⟩ := h.nodup hids
    obtain ⟨l₁, l₂, hl, htodo, -⟩ := untimeoutScan_split hscan
    dsimp only at hl htodo
    have hperm : s.calltodo.Perm (p₂ :: todo) := by
      rw [hl, htodo]
      exact List.perm_middle
    have hrest : ∀ p ∈ todo, p ∈ s.calltodo := fun p hp => hperm.mem_iff.mpr (List.mem_cons_of_mem _ hp)
    refine ⟨?_, ?_, fun p hp => ?_, ?_, fun e he => ?_, h.order, fun e he p hp => h.ahead e he p (hrest p hp)⟩
    · exact untimeoutScan_timed h.timed hn hscan
    · exact List.perm_middle.trans ((hperm.symm.append_right _).trans h.lists)
    · obtain ⟨c, hc, hf, ha⟩ := h.own p (hrest p hp)
      have hcall := untimeoutScan_call (p := p) hscan
      exact ⟨c, hc, hf.trans hcall.1.symm, ha.trans hcall.2.symm⟩
    · refine List.Perm.trans ?_ h.once
      refine List.Perm.trans ?_ ((hperm.map s.call).symm.append_right _)
      rw [List.perm_iff_count]
      intro a
      simp only [List.map_cons, List.count_append, List.count_cons, List.count_nil]
      omega
    · exact ⟨(h.fired e he).call, (h.fired e he).late, (h.fired e he).ripe, (h.fired e he).past⟩

theorem Inv.of_step {a : Action F A} (hr : step s a = some r) : Inv ids r := by
  cases a with
  | hardclock =>
    cases Option.some.inj hr
    exact h.of_hardclock hids
  | softclock =>
    cases Option.some.inj hr
    exact h.of_softclock
  | timeout f arg t => exact h.of_timeout hids hr
  | untimeout f arg =>
    cases Option.some.inj hr
    exact h.of_untimeout hids

omit h hids

/-- The callout structures are all free at the start. -/
structure Start (ids : List CalloutId) (s : State F A) : Prop where
  nodup : ids.Nodup
  calltodo : s.calltodo = []
  callfree : s.callfree = ids
  calls : s.calls = []
  fired : s.fired = []
  cancelled : s.cancelled = []

abbrev Reachable (ids : List CalloutId) : State F A → Prop := Reach (Start ids) step fun _ _ => True

theorem reachable_inv (h : Reachable ids s) : ids.Nodup ∧ Inv ids s := by
  refine h.invariant (p := fun s => ids.Nodup ∧ Inv ids s) (fun s hs => ⟨hs.nodup, ?_⟩)
    fun s a r hp _ hr => ⟨hp.1, hp.2.of_step hp.1 hr⟩
  obtain ⟨-, h1, h2, h3, h4, h5⟩ := hs
  constructor <;> simp [h1, h2, h3, h4, h5, Timed]

end MachVM.Bsd.KernClock

namespace MachVM.Bsd.KernClock

open Machine Deltas

variable {F A : Type} {s r : State F A} {ids : List CalloutId} {f : F} {arg : A} {t : Int} {p : CalloutId} {n : CallNo}

/-- The ticks that are left of a pending callout, as its place in the list gives them. -/
def State.left (s : State F A) (p : CalloutId) : Int := remaining (times s.callout) p s.calltodo

theorem Inv.left_eq (h : Inv ids s) (hp : p ∈ s.calltodo) : s.left p = max (s.due p - s.now) 0 :=
  h.timed.remaining hp

theorem Inv.left_hardclock (h : Inv ids s) (hids : ids.Nodup) (hp : p ∈ s.calltodo) :
    (hardclock s).left p = if s.now < s.due p then s.left p - 1 else 0 := by
  have hh := (h.of_hardclock hids).left_eq (p := p) hp
  have hn : ((hardclock s).now : Int) = s.now + 1 := rfl
  have hd : (hardclock s).due p = s.due p := rfl
  rw [hh, h.left_eq hp, hn, hd]
  split
  next hlt => rw [max_eq_left (by omega), max_eq_left (by omega)]; omega
  next hle => exact max_eq_right (by omega)

theorem Inv.softclock_turn (h : Inv ids s) :
    ((∀ p ∈ s.calltodo, s.now < s.due p) ∧ softclock s = s) ∨
    ∃ p, s.calltodo = p :: (softclock s).calltodo ∧ s.due p ≤ s.now ∧ (∀ q ∈ s.calltodo, s.due p ≤ s.due q) ∧
      (softclock s).fired = s.fired ++
        [⟨s.call p, (s.callout p).cFunc, (s.callout p).cArg, s.due p - s.now, s.now⟩] := by
  unfold softclock
  split
  next hnil => exact .inl ⟨by simp [hnil], rfl⟩
  next p₁ rest hl =>
    have ht := h.timed
    rw [hl] at ht
    have hmin : ∀ q ∈ s.calltodo, s.due p₁ ≤ s.due q := by
      rw [hl]
      exact List.forall_mem_cons.mpr ⟨le_rfl, ht.head_le⟩
    split
    next hlt =>
      refine .inl ⟨fun p hp => ?_, rfl⟩
      have hnot : ¬s.due p₁ ≤ s.now := fun hle => Int.not_lt.mpr (ht.head_due.mpr hle) hlt
      have := hmin p hp
      omega
    next hle =>
      have hle := Int.not_lt.mp hle
      obtain ⟨hlate, -, -⟩ := h.softclock_head hl hle
      refine .inr ⟨p₁, hl, ht.head_due.mp hle, hmin, ?_⟩
      rw [hlate]
      rfl

theorem Inv.softclock_done (h : Inv ids s) (hs : softclock s = s) (hn : n < s.calls.length)
    (hd : s.deadline n ≤ s.now) : n ∈ s.fired.map Firing.call ∨ n ∈ s.cancelled := by
  have hidle : ∀ p ∈ s.calltodo, s.now < s.due p := by
    rcases h.softclock_turn with ⟨hidle, -⟩ | ⟨p, hl, -⟩
    · exact hidle
    · rw [hs] at hl
      exact absurd (congrArg List.length hl) (by simp)
  rcases List.mem_append.mp (h.once.mem_iff.mpr (List.mem_range.mpr hn)) with hin | hin
  · obtain ⟨p, hp, rfl⟩ := List.mem_map.mp hin
    have hlt := hidle p hp
    rw [State.due] at hlt
    omega
  · exact List.mem_append.mp hin

theorem Inv.timeout_deadline (h : Inv ids s) (hids : ids.Nodup) (hr : timeout s f arg t = some r) :
    r.calls = s.calls ++ [⟨f, arg, s.now + (max t 1).toNat⟩] ∧ r.now = s.now ∧
      (r.calltodo.map r.call).Perm (s.calls.length :: s.calltodo.map s.call) ∧
      ∀ p ∈ s.calltodo, p ∈ r.calltodo ∧ r.call p = s.call p ∧ r.due p = s.due p ∧ r.left p = s.left p := by
  obtain ⟨pnew, ha⟩ := h.timeout_adds hids hr
  have hinv := h.of_timeout hids hr
  refine ⟨ha.calls, ha.now, ?_, fun p hp => ?_⟩
  · refine (ha.todo.map r.call).trans ?_
    rw [List.map_cons, ha.call_new, List.map_congr_left ha.call]
  · have hpr : p ∈ r.calltodo := ha.todo.mem_iff.mpr (List.mem_cons_of_mem _ hp)
    have hd : r.due p = s.due p := congrArg Int.ofNat (ha.deadline_eq h hp)
    exact ⟨hpr, ha.call p hp, hd, by rw [hinv.left_eq hpr, h.left_eq hp, hd, ha.now]⟩

variable [DecidableEq F] [DecidableEq A]

/-- A pending callout for a function and an argument. -/
def State.Matches (s : State F A) (f : F) (arg : A) (p : CalloutId) : Prop :=
  (s.callout p).cFunc = f ∧ (s.callout p).cArg = arg

theorem Inv.untimeout_first (h : Inv ids s) (hids : ids.Nodup) :
    ((∀ p ∈ s.calltodo, ¬s.Matches f arg p) ∧ untimeout s f arg = s) ∨
    ∃ p l₁ l₂, s.calltodo = l₁ ++ p :: l₂ ∧ (untimeout s f arg).calltodo = l₁ ++ l₂ ∧ s.Matches f arg p ∧
      (∀ q ∈ l₁, ¬s.Matches f arg q) ∧ (untimeout s f arg).cancelled = s.cancelled ++ [s.call p] ∧
      ∀ q ∈ l₁ ++ l₂, (untimeout s f arg).call q = s.call q ∧ (untimeout s f arg).due q = s.due q ∧
        (untimeout s f arg).left q = s.left q := by
  have hinv : Inv ids (untimeout s f arg) := h.of_untimeout hids
  cases hscan : untimeoutScan s.callout f arg s.calltodo with
  | none =>
    have hs : untimeout s f arg = s := by rw [untimeout, hscan]
    exact .inl ⟨untimeoutScan_eq_none.mp hscan, hs⟩
  | some q =>
    have hs : untimeout s f arg = { s with
        calltodo := q.2.1, callfree := q.1 :: s.callfree, callout := q.2.2,
        cancelled := s.cancelled ++ [s.call q.1] } := by rw [untimeout, hscan]
    obtain ⟨l₁, l₂, hl, htodo, hf, ha, hbefore, -⟩ := untimeoutScan_split hscan
    have hr : (untimeout s f arg).calltodo = l₁ ++ l₂ := by rw [hs, htodo]
    refine .inr ⟨q.1, l₁, l₂, hl, hr, ⟨hf, ha⟩, hbefore, by rw [hs], fun p hp => ?_⟩
    have hps : p ∈ s.calltodo := by
      rw [hl]
      exact List.perm_middle.mem_iff.mpr (List.mem_cons_of_mem _ hp)
    have hd : (untimeout s f arg).due p = s.due p := by rw [hs]; rfl
    have hn : (untimeout s f arg).now = s.now := by rw [hs]
    exact ⟨by rw [hs], hd, by rw [hinv.left_eq (hr ▸ hp), h.left_eq hps, hd, hn]⟩

/-- The list of relative times keeps the deadlines of the calls. -/
theorem callouts_meet_deadlines (h : Reachable ids s) :
    (∀ p ∈ s.calltodo, s.left p = max (s.due p - s.now) 0 ∧
      (hardclock s).left p = if s.now < s.due p then s.left p - 1 else 0) ∧
    (s.calltodo.map s.call ++ (s.fired.map Firing.call ++ s.cancelled)).Perm (List.range s.calls.length) ∧
    (∀ e ∈ s.fired, e.Ok s) ∧
    (s.fired.map fun e => s.deadline e.call).Pairwise (· ≤ ·) ∧
    (((∀ p ∈ s.calltodo, s.now < s.due p) ∧ softclock s = s) ∨
      ∃ p, s.calltodo = p :: (softclock s).calltodo ∧ s.due p ≤ s.now ∧ (∀ q ∈ s.calltodo, s.due p ≤ s.due q) ∧
        (softclock s).fired = s.fired ++
          [⟨s.call p, (s.callout p).cFunc, (s.callout p).cArg, s.due p - s.now, s.now⟩]) ∧
    (softclock s = s → ∀ n < s.calls.length, s.deadline n ≤ s.now → n ∈ s.fired.map Firing.call ∨ n ∈ s.cancelled) ∧
    (∀ f arg t r, timeout s f arg t = some r → r.calls = s.calls ++ [⟨f, arg, s.now + (max t 1).toNat⟩] ∧
      r.now = s.now ∧ (r.calltodo.map r.call).Perm (s.calls.length :: s.calltodo.map s.call) ∧
      ∀ p ∈ s.calltodo, p ∈ r.calltodo ∧ r.call p = s.call p ∧ r.due p = s.due p ∧ r.left p = s.left p) ∧
    (∀ f arg, ((∀ p ∈ s.calltodo, ¬s.Matches f arg p) ∧ untimeout s f arg = s) ∨
      ∃ p l₁ l₂, s.calltodo = l₁ ++ p :: l₂ ∧ (untimeout s f arg).calltodo = l₁ ++ l₂ ∧ s.Matches f arg p ∧
        (∀ q ∈ l₁, ¬s.Matches f arg q) ∧ (untimeout s f arg).cancelled = s.cancelled ++ [s.call p] ∧
        ∀ q ∈ l₁ ++ l₂, (untimeout s f arg).call q = s.call q ∧ (untimeout s f arg).due q = s.due q ∧
          (untimeout s f arg).left q = s.left q) ∧
    (s.calltodo ++ s.callfree).Perm ids ∧ ids.Nodup := by
  obtain ⟨hids, hi⟩ := reachable_inv h
  refine ⟨fun p hp => ⟨hi.left_eq hp, hi.left_hardclock hids hp⟩, hi.once, hi.fired, hi.order, hi.softclock_turn,
    fun hs n hn hd => hi.softclock_done hs hn hd, fun f arg t r hr => hi.timeout_deadline hids hr,
    fun f arg => hi.untimeout_first hids, hi.lists, hids⟩

/-- Two callout structures, both free. -/
def bootState : State Nat Nat where
  calltodo := []
  callfree := [0, 1]
  callout _ := ⟨0, 0, 0⟩
  now := 0
  calls := []
  call _ := 0
  fired := []
  cancelled := []

/-- Two calls are made, the second for an earlier tick, and one of them fires. -/
def firedState : State Nat Nat :=
  (runIf step (fun _ _ => True) bootState
    [.timeout 7 0 3, .timeout 8 1 1, .hardclock, .softclock]).getD bootState

theorem firedState_reachable : Reachable [0, 1] firedState := by
  have hstart : Start [0, 1] bootState := ⟨by decide, rfl, rfl, rfl, rfl, rfl⟩
  have hrun : Reachable [0, 1] bootState := .start hstart
  have hrs : runIf step (fun _ _ => True) bootState
      [.timeout 7 0 3, .timeout 8 1 1, .hardclock, .softclock] = some firedState := rfl
  exact hrun.run hrs

theorem firedState_deadlines : firedState.fired = [⟨1, 8, 1, 0, 1⟩] ∧ firedState.left 0 = 2 ∧
    (hardclock firedState).left 0 = 1 := by
  obtain ⟨hleft, -⟩ := callouts_meet_deadlines firedState_reachable
  obtain ⟨h1, h2⟩ := hleft 0 (by decide)
  exact ⟨by decide, h1.trans (by decide), h2.trans (by decide)⟩

end MachVM.Bsd.KernClock
