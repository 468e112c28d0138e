import MachVM.Lib.Run
import MachVM.Suspend

namespace MachVM.Kern.Suspend

open Machine Sched

variable {s r : State} {t u who : ThreadId} {c : CpuId} {d : Call} {a : Action} {p : Prop}
  {k new : List Call}

/-- A thread that is not in use: none of the task, in no call, and as `thread_create` finds its structure. -/
structure Unused (s : State) (t : ThreadId) : Prop where
  new : t ∉ s.threadList
  idle : ∀ d ∈ s.calls, d.who ≠ t
  state : (s.sched.thread t).state = { susp := true }
  waitEvent : (s.sched.thread t).waitEvent = 0
  timerSet : (s.sched.thread t).timerSet = false
  runq : (s.sched.thread t).runq = none
  swapState : (s.sched.thread t).swapState.away = false

instance : Decidable (Unused s t) :=
  decidable_of_iff (t ∉ s.threadList ∧ (∀ d ∈ s.calls, d.who ≠ t) ∧ (s.sched.thread t).state = { susp := true } ∧
      (s.sched.thread t).waitEvent = 0 ∧ (s.sched.thread t).timerSet = false ∧ (s.sched.thread t).runq = none ∧
      (s.sched.thread t).swapState.away = false)
    ⟨fun ⟨h1, h2, h3, h4, h5, h6, h7⟩ => ⟨h1, h2, h3, h4, h5, h6, h7⟩,
      fun ⟨h1, h2, h3, h4, h5, h6, h7⟩ => ⟨h1, h2, h3, h4, h5, h6, h7⟩⟩

/-- The calls are about threads of the task, and nobody else holds, releases or halts these. -/
def ok (s : State) : Action → Prop
  | .sched a => Sched.ok s.sched a ∧ ∀ t ∈ s.threadList, a.stops ≠ some t
  | .threadSuspend _ t | .threadResume _ t | .threadGetState _ t => t ∈ s.threadList
  | .threadCreate _ t => Unused s t
  | _ => True

/-- A `thread_release` finds a suspend count that is positive, and so do all those of a `task_release`. -/
def Held (s : State) : Action → Prop
  | .proceed _ i =>
    match (s.calls[i]?).map Call.stage with
    | some (.release t) => 0 < (s.stop t).1
    | some .taskRelease => 0 < s.taskSuspendCount ∧ ∀ t ∈ s.threadList, 0 < (s.stop t).1
    | _ => True
  | _ => True

/-- What one step does. -/
structure Stepped (s : State) (p : Prop) (r : State) : Prop where
  balanced : Balanced r
  sound : p → Sound s → Sound r

theorem Sound.congr (h : Sound s) (ht : r.taskSuspendCount = s.taskSuspendCount) (hl : r.threadList = s.threadList)
    (hs : ∀ t ∈ s.threadList, r.stop t = s.stop t) : Sound r :=
  ⟨ht ▸ h.task, fun t hm => by rw [hs t (hl ▸ hm)]; exact h.thread t (hl ▸ hm)⟩

theorem asked_succ (n : Nat) : asked (n + 1) = 1 := if_pos n.succ_pos

theorem Balanced.begin {n : Nat} (h : Balanced s) (hw : ∀ d ∈ l, d.Within s.threadList)
    (ht : (l.map Call.taskDue).sum = 0) (hne : ∀ u, u ≠ t → (l.map fun d => d.due u).sum = 0)
    (hn : asked n + (l.map fun d => d.due t).sum = asked (s.userStopCount t)) :
    Balanced { s with userStopCount := Function.update s.userStopCount t n, calls := l ++ s.calls } := by
  refine Balanced.move (k := []) h rfl rfl hw ?_ fun u _ => ?_
  · simp only [ht, List.map_nil, List.sum_nil]
  · simp only [State.stop, List.map_nil, List.sum_nil]
    by_cases hu : u = t
    · subst u
      rw [Function.update_self]
      omega
    · rw [Function.update_of_ne hu, hne u hu]

theorem threadSuspend_stepped (h : Balanced s) (ht : t ∈ s.threadList) : Stepped s p (threadSuspend s who t) := by
  unfold threadSuspend
  dsimp only
  split
  next h0 =>
    refine ⟨?_, fun _ hs => hs.congr rfl rfl fun _ _ => rfl⟩
    refine h.begin (t := t) (l := [⟨who, .hold t⟩]) (by simpa [Call.Within] using ht) rfl (fun u hu => ?_) ?_
    · simp [Call.due, hu.symm]
    · rw [asked_succ, h0]
      simp [Call.due, asked]
  next h0 =>
    refine ⟨h.begin (t := t) (l := []) (by simp) rfl (fun _ _ => rfl) ?_, fun _ hs => hs.congr rfl rfl fun _ _ => rfl⟩
    rw [asked_succ, asked, if_pos (Nat.pos_of_ne_zero h0)]
    rfl

theorem threadResume_stepped (h : Balanced s) (ht : t ∈ s.threadList) :
    Stepped s p (threadResume s who t).1 := by
  unfold threadResume
  dsimp only
  split
  next hpos =>
    dsimp only
    split
    next h0 =>
      refine ⟨?_, fun _ hs => hs.congr rfl rfl fun _ _ => rfl⟩
      refine h.begin (t := t) (l := [⟨who, .release t⟩]) (by simpa [Call.Within] using ht) rfl (fun u hu => ?_) ?_
      · simp [Call.due, hu.symm]
      · rw [h0, asked, asked, if_pos hpos]
        simp [Call.due]
    next h0 =>
      refine ⟨h.begin (t := t) (l := []) (by simp) rfl (fun _ _ => rfl) ?_,
        fun _ hs => hs.congr rfl rfl fun _ _ => rfl⟩
      rw [asked, asked, if_pos hpos, if_pos (Nat.pos_of_ne_zero h0)]
      rfl
  next => exact ⟨h, fun _ hs => hs⟩

theorem Balanced.beginTask {n : Nat} (h : Balanced s) (hw : ∀ d ∈ l, d.Within s.threadList)
    (hd : ∀ t, (l.map fun d => d.due t).sum = 0)
    (hn : asked n + (l.map Call.taskDue).sum = asked s.taskUserStopCount) :
    Balanced { s with taskUserStopCount := n, calls := l ++ s.calls } := by
  refine Balanced.move (k := []) h rfl rfl hw ?_ fun t _ => ?_
  · simp only [List.map_nil, List.sum_nil]
    omega
  · rw [hd]
    rfl

theorem taskSuspend_stepped (h : Balanced s) : Stepped s p (taskSuspend s who) := by
  unfold taskSuspend
  dsimp only
  split
  next h0 =>
    refine ⟨?_, fun _ hs => hs.congr rfl rfl fun _ _ => rfl⟩
    refine h.beginTask (l := [⟨who, .taskHold⟩]) (by simp [Call.Within]) (fun _ => rfl) ?_
    rw [asked_succ, h0]
    rfl
  next h0 =>
    refine ⟨h.beginTask (l := []) (by simp) (fun _ => rfl) ?_, fun _ hs => hs.congr rfl rfl fun _ _ => rfl⟩
    rw [asked_succ, asked, if_pos (Nat.pos_of_ne_zero h0)]
    rfl

theorem taskResume_stepped (h : Balanced s) : Stepped s p (taskResume s who).1 := by
  unfold taskResume
  dsimp only
  split
  next hpos =>
    dsimp only
    split
    next h0 =>
      refine ⟨?_, fun _ hs => hs.congr rfl rfl fun _ _ => rfl⟩
      refine h.beginTask (l := [⟨who, .taskRelease⟩]) (by simp [Call.Within]) (fun _ => rfl) ?_
      rw [h0, asked, asked, if_pos hpos]
      rfl
    next h0 =>
      refine ⟨h.beginTask (l := []) (by simp) (fun _ => rfl) ?_, fun _ hs => hs.congr rfl rfl fun _ _ => rfl⟩
      rw [asked, asked, if_pos hpos, if_pos (Nat.pos_of_ne_zero h0)]
      rfl
  next => exact ⟨h, fun _ hs => hs⟩

theorem Balanced.act {q : Sched.State} (h : Balanced { s with calls := k ++ s.calls })
    (hw : ∀ d ∈ l, d.Within s.threadList) (ht : (l.map Call.taskDue).sum = (k.map Call.taskDue).sum)
    (hs : ∀ t ∈ s.threadList, (q.thread t).stop.1 - (l.map fun d => d.due t).sum =
      (s.stop t).1 - (k.map fun d => d.due t).sum) :
    Balanced { s with sched := q, calls := l ++ s.calls } := by
  refine h.move rfl rfl hw (by rw [ht]) fun t hm => ?_
  have := hs t hm
  simp only [State.stop] at this ⊢
  omega

theorem Balanced.same {q : Sched.State} (h : Balanced { s with calls := k ++ s.calls })
    (hq : ∀ t ∈ s.threadList, (q.thread t).stop = s.stop t) (hw : ∀ d ∈ l, d.Within s.threadList)
    (ht : (l.map Call.taskDue).sum = (k.map Call.taskDue).sum)
    (hs : ∀ t, (l.map fun d => d.due t).sum = (k.map fun d => d.due t).sum) :
    Balanced { s with sched := q, calls := l ++ s.calls } :=
  h.act hw ht fun t hm => by rw [hq t hm, hs t]

theorem Sound.hold {q : Sched.State} {calls : List Call} (h : Sound s)
    (hq : ∀ u ∈ s.threadList, (q.thread u).stop = s.stop u ∨ (q.thread u).stop = ((s.stop u).1 + 1, true)) :
    Sound { s with sched := q, calls } := by
  refine ⟨h.task, fun u hu => ?_⟩
  rw [State.stop]
  rcases hq u hu with he | he
  · rw [he]
    exact h.thread u hu
  · rw [he]
    exact (h.thread u hu).hold

theorem threadHold_stop_or : ((threadHold s.sched t).thread u).stop = s.stop u ∨
    ((threadHold s.sched t).thread u).stop = ((s.stop u).1 + 1, true) := by
  rw [threadHold_stop]
  split
  next => exact .inr rfl
  next => exact .inl rfl

theorem threadGetState_stepped (h : Balanced s) (ht : t ∈ s.threadList) :
    Stepped s p (threadGetState s who t).1 := by
  unfold threadGetState
  split
  next => exact ⟨h, fun _ hs => hs⟩
  next =>
    refine ⟨?_, fun _ hs => hs.hold fun u _ => threadHold_stop_or⟩
    refine Balanced.act (s := s) (k := []) (l := [⟨who, .dowait t false .getStatus⟩]) h (by simpa [Call.Within] using ht) rfl
      fun u _ => ?_
    rw [threadHold_stop]
    by_cases hu : u = t
    · subst u
      simp [Call.due, State.stop]
    · simp [Call.due, State.stop, hu, Ne.symm hu]

theorem threadCreate_stepped (h : Balanced s) (ht : Unused s t) : Stepped s p (threadCreate s t) := by
  have hself : ((threadCreate s t).stop t) = (s.taskSuspendCount + 1, true) := by
    rw [State.stop, threadCreate, setThread_self]
    rfl
  have hne : ∀ u, u ≠ t → (threadCreate s t).stop u = s.stop u := fun u hu => by
    rw [State.stop, threadCreate, setThread_of_ne hu, State.stop]
  have hmem : ∀ u ∈ (threadCreate s t).threadList, u = t ∨ u ≠ t ∧ u ∈ s.threadList := by
    intro u hu
    rcases List.mem_append.mp hu with hm | hm
    · refine .inr ⟨?_, hm⟩
      rintro rfl
      exact ht.new hm
    · exact .inl (List.mem_singleton.mp hm)
  refine ⟨⟨?_, fun d hd => ?_, h.task, fun u hu => ?_⟩, fun _ hs => ⟨hs.task, fun u hu => ?_⟩⟩
  · exact List.Nodup.append h.nodup (List.nodup_singleton t) (by simpa using ht.new)
  · exact (h.within d hd).mono fun u hu => List.mem_append_left _ hu
  · rcases hmem u hu with rfl | ⟨hu, hm⟩
    · have hdue : ((threadCreate s u).calls.map fun d => d.due u).sum = 0 :=
        due_eq_zero fun d hd => (h.within d hd).due_new ht.new (ht.idle d hd)
      rw [hself, hdue]
      simp only [threadCreate, Function.update_self, asked]
      omega
    · rw [hne u hu, h.thread u hm]
      simp only [threadCreate, Function.update_of_ne hu]
  · rcases hmem u hu with rfl | ⟨hu, hm⟩
    · rw [hself]
      exact ⟨Int.add_nonneg hs.task (by decide), iff_of_true rfl (Int.lt_add_one_of_le hs.task)⟩
    · rw [hne u hu]
      exact hs.thread u hm

theorem hold_stepped {st : Stage} (h : Balanced { s with calls := ⟨who, st⟩ :: s.calls })
    (ht : t ∈ s.threadList) (hst : ∀ u, Call.due ⟨who, st⟩ u = if t = u then -1 else 0)
    (h0 : Call.taskDue ⟨who, st⟩ = 0) :
    Stepped s p (goOn { s with sched := threadHold s.sched t } who (.dowait t false .returns)) := by
  refine ⟨?_, fun _ hs => hs.hold fun u _ => threadHold_stop_or⟩
  refine Balanced.act (s := s) (k := [⟨who, st⟩]) (l := [⟨who, .dowait t false .returns⟩]) h
    (by simpa [Call.Within] using ht) (by rw [List.map_singleton, List.map_singleton, h0]; rfl) fun u _ => ?_
  rw [threadHold_stop, List.map_cons, List.map_nil, List.sum_cons, List.sum_nil, List.map_cons, List.map_nil,
    List.sum_cons, List.sum_nil, hst u]
  by_cases hu : u = t
  · subst u
    simp [Call.due, State.stop]
  · simp [Call.due, State.stop, hu, Ne.symm hu]

theorem release_stepped (h : Balanced { s with calls := ⟨who, .release t⟩ :: s.calls })
    (hp : p → 0 < (s.stop t).1) :
    Gives (threadRelease s.sched t) (fun _ => True) fun sched => Stepped s p { s with sched } := by
  refine threadRelease_stops.mono fun r hr => ⟨?_, fun hheld hs => ⟨hs.task, fun u hu => ?_⟩⟩
  · refine Balanced.act (s := s) (k := [⟨who, .release t⟩]) (l := []) h (by simp) rfl fun u _ => ?_
    by_cases hu : u = t
    · subst u
      rw [hr.2]
      simp [Call.due, State.stop, Thread.stop]
    · rw [hr.1 u hu]
      simp [Call.due, State.stop, Ne.symm hu]
  · by_cases hut : u = t
    · subst u
      rw [State.stop, hr.2]
      exact (hs.thread t hu).release (hp hheld)
    · rw [State.stop, hr.1 u hut]
      exact hs.thread u hu

theorem taskHold_stepped (h : Balanced { s with calls := ⟨who, .taskHold⟩ :: s.calls }) :
    Stepped s p (goOn (taskHold s who) who (.taskDowait none)) := by
  have hn := h.nodup
  have hstop : ∀ u, ((taskHold s who).stop u) =
      if u ∈ s.threadList ∧ u ≠ who then ((s.stop u).1 + 1, true) else s.stop u := fun u => holdOthers_stop hn
  refine ⟨?_, fun _ hs => ⟨Int.add_nonneg hs.task (by decide), fun u hu => ?_⟩⟩
  · refine h.move (k := [⟨who, .taskHold⟩]) (l := [⟨who, .taskDowait none⟩]) rfl rfl (by simp [Call.Within]) ?_
      fun u hu => ?_
    · simp [goOn, taskHold, Call.taskDue]
      omega
    · change ((taskHold s who).stop u).1 - _ - _ - _ = _
      rw [hstop u]
      by_cases hw : u = who
      · subst u
        simp [goOn, taskHold, Call.due, State.stop]
        omega
      · rw [if_pos ⟨hu, hw⟩]
        simp [goOn, taskHold, Call.due, State.stop, Ne.symm hw]
        omega
  · change Settled ((taskHold s who).stop u)
    rw [hstop u]
    split
    next => exact (hs.thread u hu).hold
    next => exact hs.thread u hu

theorem taskRelease_stepped (h : Balanced { s with calls := ⟨who, .taskRelease⟩ :: s.calls })
    (hp : p → 0 < s.taskSuspendCount ∧ ∀ t ∈ s.threadList, 0 < (s.stop t).1) :
    Gives (taskRelease s) (fun _ => True) (Stepped s p) := by
  have hn := h.nodup
  refine Gives.map (releaseAll_stop hn) fun r hr => ⟨?_, fun hheld hs => ⟨?_, fun u hu => ?_⟩⟩
  · refine h.move (k := [⟨who, .taskRelease⟩]) (l := []) rfl rfl (by simp) ?_ fun u hu => ?_
    · simp [Call.taskDue]
      omega
    · rw [State.stop, hr u, if_pos hu]
      simp [Call.due, State.stop]
      omega
  · exact Int.sub_nonneg_of_le (hp hheld).1
  · rw [State.stop, hr u, if_pos hu]
    exact (hs.thread u hu).release ((hp hheld).2 u hu)

theorem afterDowait_stepped {b : Bool} {after : After} {q : Sched.State} (hq : SameStops s.sched q)
    (h : Balanced { s with calls := ⟨who, .dowait t b after⟩ :: s.calls }) :
    Stepped s p (afterDowait { s with sched := q } who t after) := by
  have ht : t ∈ s.threadList := h.within _ List.mem_cons_self
  cases after with
  | returns =>
    exact ⟨h.same (s := s) (k := [⟨who, .dowait t b .returns⟩]) (l := []) (fun u _ => hq u) (by simp) rfl fun _ => rfl,
      fun _ hs => hs.congr rfl rfl fun u _ => hq u⟩
  | getStatus =>
    exact ⟨h.same (s := s) (k := [⟨who, .dowait t b .getStatus⟩]) (l := [⟨who, .release t⟩]) (fun u _ => hq u)
      (by simpa [Call.Within] using ht) rfl fun _ => rfl, fun _ hs => hs.congr rfl rfl fun u _ => hq u⟩
  | nextThread =>
    exact ⟨h.same (s := s) (k := [⟨who, .dowait t b .nextThread⟩]) (l := [⟨who, .taskDowait (some t)⟩]) (fun u _ => hq u)
      (by simp [Call.Within]) rfl fun _ => rfl, fun _ hs => hs.congr rfl rfl fun u _ => hq u⟩

theorem dowait_stepped {b : Bool} {after : After} (h : Balanced { s with calls := ⟨who, .dowait t b after⟩ :: s.calls })
    (hr : dowait s who c t b after = some r) : Stepped s p r := by
  have ht : t ∈ s.threadList := h.within _ List.mem_cons_self
  unfold dowait at hr
  split at hr
  next hw =>
    subst hw
    obtain ⟨q, hq, rfl⟩ := Option.map_eq_some_iff.mp hr
    have hm : AllMove (fun _ => True) s.sched q := threadBlock_moves.of_ok (toOption_eq_some hq)
    exact afterDowait_stepped hm.stops h
  next =>
    obtain ⟨q, hq, he⟩ : ∃ q, SameStops s.sched q ∧
        (if b = true then s else { s with sched := threadDowait s.sched t }) = { s with sched := q } := by
      cases b with
      | true => exact ⟨s.sched, .refl _, rfl⟩
      | false => exact ⟨threadDowait s.sched t, (threadDowait_moves (p := fun _ => True)).stops, rfl⟩
    dsimp only at hr
    rw [he] at hr
    split at hr
    next =>
      cases Option.some.inj hr
      refine ⟨h.same (s := s) (k := [⟨who, .dowait t b after⟩]) (l := [⟨who, .dowait t true after⟩]) (fun u _ => hq u)
        (by simpa [Call.Within] using ht) ?_ fun u => ?_, fun _ hs => hs.congr rfl rfl fun u _ => hq u⟩
      · cases after <;> rfl
      · cases after <;> rfl
    next =>
      cases Option.some.inj hr
      exact afterDowait_stepped hq h

theorem threadsAfter_subset {o : Option ThreadId} (hu : u ∈ threadsAfter s o) : u ∈ s.threadList := by
  cases o with
  | none => exact hu
  | some t => exact (List.dropWhile_sublist _).subset (List.mem_of_mem_tail hu)

theorem taskDowait_stepped {o : Option ThreadId} (h : Balanced { s with calls := ⟨who, .taskDowait o⟩ :: s.calls }) :
    Stepped s p (taskDowait s who o) := by
  unfold taskDowait
  split
  next t ht =>
    have hm : t ∈ s.threadList := threadsAfter_subset (List.mem_of_find?_eq_some ht)
    exact ⟨h.same (s := s) (k := [⟨who, .taskDowait o⟩]) (l := [⟨who, .dowait t false .nextThread⟩]) (fun _ _ => rfl)
      (by simpa [Call.Within] using hm) rfl fun _ => rfl, fun _ hs => hs.congr rfl rfl fun _ _ => rfl⟩
  next =>
    split
    next hw =>
      exact ⟨h.same (s := s) (k := [⟨who, .taskDowait o⟩]) (l := [⟨who, .holdSelf⟩]) (fun _ _ => rfl)
        (by simpa [Call.Within] using hw) rfl fun _ => rfl, fun _ hs => hs.congr rfl rfl fun _ _ => rfl⟩
    next hw =>
      refine ⟨h.move (k := [⟨who, .taskDowait o⟩]) (l := []) rfl rfl (by simp) rfl fun u hu => ?_,
        fun _ hs => hs⟩
      have hne : who ≠ u := by
        rintro rfl
        exact hw hu
      simp [Call.due, hne, State.stop]

theorem callSection_stepped {st : Stage} (h : Balanced { s with calls := ⟨who, st⟩ :: s.calls })
    (hr : callSection s who c st = some r) (hrelease : ∀ t, st = .release t → p → 0 < (s.stop t).1)
    (htask : st = .taskRelease → p → 0 < s.taskSuspendCount ∧ ∀ t ∈ s.threadList, 0 < (s.stop t).1) :
    Stepped s p r := by
  cases st with
  | hold t =>
    cases Option.some.inj hr
    exact hold_stepped h (h.within _ List.mem_cons_self) (fun _ => rfl) rfl
  | dowait t b after => exact dowait_stepped h hr
  | release t =>
    obtain ⟨q, hq, rfl⟩ := Option.map_eq_some_iff.mp hr
    exact (release_stepped h (hrelease t rfl)).of_ok (toOption_eq_some hq)
  | taskHold =>
    cases Option.some.inj hr
    exact taskHold_stepped h
  | taskDowait last =>
    cases Option.some.inj hr
    exact taskDowait_stepped h
  | holdSelf =>
    cases Option.some.inj hr
    exact hold_stepped h (h.within _ List.mem_cons_self) (fun _ => rfl) rfl
  | taskRelease => exact (taskRelease_stepped h (htask rfl)).of_ok (toOption_eq_some hr)

theorem step_stepped (h : Balanced s) (ha : ok s a) (hs : step s a = some r) : Stepped s (Held s a) r := by
  cases a with
  | sched b =>
    obtain ⟨q, hq, rfl⟩ := Option.map_eq_some_iff.mp hs
    have hstop : ∀ t ∈ s.threadList, (q.thread t).stop = s.stop t := fun t ht =>
      step_stops.of_ok (toOption_eq_some hq) t (ha.2 t ht)
    exact ⟨h.same (s := s) (k := []) (l := []) hstop (by simp) rfl fun _ => rfl, fun _ hs => hs.congr rfl rfl hstop⟩
  | threadSuspend c t =>
    obtain ⟨who, -, rfl⟩ := Option.map_eq_some_iff.mp hs
    exact threadSuspend_stepped h ha
  | threadResume c t =>
    obtain ⟨who, -, rfl⟩ := Option.map_eq_some_iff.mp hs
    exact threadResume_stepped h ha
  | threadGetState c t =>
    obtain ⟨who, -, rfl⟩ := Option.map_eq_some_iff.mp hs
    exact threadGetState_stepped h ha
  | taskSuspend c =>
    obtain ⟨who, -, rfl⟩ := Option.map_eq_some_iff.mp hs
    exact taskSuspend_stepped h
  | taskResume c =>
    obtain ⟨who, -, rfl⟩ := Option.map_eq_some_iff.mp hs
    exact taskResume_stepped h
  | threadCreate c t =>
    obtain ⟨who, -, rfl⟩ := Option.map_eq_some_iff.mp hs
    exact threadCreate_stepped h ha
  | proceed c i =>
    rw [step] at hs
    split at hs
    next => simp at hs
    next d hd =>
      split at hs
      next =>
        obtain ⟨hi, rfl⟩ := List.getElem?_eq_some_iff.mp hd
        have hf : Balanced { s with calls := s.calls[i] :: s.calls.eraseIdx i } :=
          h.perm (List.getElem_cons_eraseIdx_perm hi)
        have hr := callSection_stepped (p := Held s (.proceed c i)) hf hs (fun t ht hp => ?_) fun ht hp => ?_
        · exact ⟨hr.balanced, fun hp hs => hr.sound hp ⟨hs.task, hs.thread⟩⟩
        · simp only [Held, hd, Option.map_some, ht] at hp
          exact hp
        · simp only [Held, hd, Option.map_some, ht] at hp
          exact hp
      next => simp at hs

/-- There are no calls at the start, and the counts are as the user stop counts make them. -/
structure Start (s : State) : Prop where
  sched : Sched.Start s.sched
  nodup : s.threadList.Nodup
  calls : s.calls = []
  task : s.taskSuspendCount = asked s.taskUserStopCount
  thread : ∀ t ∈ s.threadList, (s.stop t).1 = asked (s.userStopCount t) + asked s.taskUserStopCount ∧
    ((s.stop t).2 = true ↔ 0 < (s.stop t).1)

abbrev Reachable : State → Prop := Reach Start step ok

/-- The runs in which every release has something to release. -/
abbrev HeldReachable : State → Prop := Reach Start step fun s a => ok s a ∧ Held s a

theorem asked_nonneg (n : Nat) : 0 ≤ asked n := by
  unfold asked
  split <;> decide

theorem Start.balanced (h : Start s) : Balanced s := by
  refine ⟨h.nodup, by simp [h.calls], by simp [h.task, h.calls], fun t ht => ?_⟩
  rw [(h.thread t ht).1, h.task, h.calls]
  simp

theorem Start.sound (h : Start s) : Sound s := by
  refine ⟨h.task ▸ asked_nonneg _, fun t ht => ⟨?_, (h.thread t ht).2⟩⟩
  rw [(h.thread t ht).1]
  exact Int.add_nonneg (asked_nonneg _) (asked_nonneg _)

theorem reachable_balanced (h : Reachable s) : Balanced s :=
  h.invariant (fun _ hs => hs.balanced) fun _ _ _ hp ha hs => (step_stepped hp ha hs).balanced

theorem heldReachable_sound (h : HeldReachable s) : Balanced s ∧ Sound s := by
  refine Reach.invariant (p := fun s => Balanced s ∧ Sound s) (fun s hs => ⟨hs.balanced, hs.sound⟩)
    (fun s a r hp ha hs => ?_) h
  have hr := step_stepped hp.1 ha.1 hs
  exact ⟨hr.balanced, hr.sound ha.2 hp.2⟩

theorem Balanced.quiet (h : Balanced s) (hc : s.calls = []) : s.taskSuspendCount = asked s.taskUserStopCount ∧
    ∀ t ∈ s.threadList, (s.stop t).1 = asked (s.userStopCount t) + asked s.taskUserStopCount := by
  have htask : s.taskSuspendCount = asked s.taskUserStopCount := by simpa [hc] using h.task
  refine ⟨htask, fun t ht => ?_⟩
  have hs := h.thread t ht
  simpa [hc, htask] using hs

def NonNegative (s : State) : Prop := 0 ≤ s.taskSuspendCount ∧ ∀ t ∈ s.threadList, 0 ≤ (s.stop t).1

theorem Sound.nonNegative (h : Sound s) : NonNegative s := ⟨h.task, fun t ht => (h.thread t ht).1⟩

theorem held_of_nonNegative (h : Balanced s) (hs : step s a = some r) (hr : NonNegative r) : Held s a := by
  cases a with
  | proceed c i =>
    rw [step] at hs
    split at hs
    next => simp at hs
    next d hd =>
      have hw := h.within d (List.mem_of_getElem? hd)
      obtain ⟨who, st⟩ := d
      split at hs
      next =>
        cases st with
        | release t =>
          simp only [Held, hd, Option.map_some]
          obtain ⟨q, hq, rfl⟩ := Option.map_eq_some_iff.mp hs
          have hstop := (threadRelease_stops.of_ok (toOption_eq_some hq)).2
          have h0 := hr.2 t hw
          rw [State.stop, hstop] at h0
          simp only [State.stop, Thread.stop] at h0 ⊢
          omega
        | taskRelease =>
          simp only [Held, hd, Option.map_some]
          have hgive : Gives (taskRelease { s with calls := s.calls.eraseIdx i }) (fun _ => True) fun r =>
              r.taskSuspendCount = s.taskSuspendCount - 1 ∧ r.threadList = s.threadList ∧
                ∀ t ∈ s.threadList, (r.stop t).1 = (s.stop t).1 - 1 :=
            Gives.map (releaseAll_stop h.nodup) fun q hq => ⟨rfl, rfl, fun t ht => by rw [State.stop, hq t, if_pos ht]; rfl⟩
          obtain ⟨htask, hlist, hstop⟩ := hgive.of_ok (toOption_eq_some hs)
          have h0 := hr.1
          refine ⟨by omega, fun t ht => ?_⟩
          have h1 := hr.2 t (hlist ▸ ht)
          have h2 := hstop t ht
          omega
        | hold t => simp [Held, hd]
        | dowait t b after => simp [Held, hd]
        | taskHold => simp [Held, hd]
        | taskDowait last => simp [Held, hd]
        | holdSelf => simp [Held, hd]
      next => simp at hs
  | sched b => trivial
  | threadSuspend c t => trivial
  | threadResume c t => trivial
  | threadGetState c t => trivial
  | taskSuspend c => trivial
  | taskResume c => trivial
  | threadCreate c t => trivial

/-- Suspends and resumes balance in the runs in which every release finds a positive count, and no count becomes
negative before one that does not. -/
theorem suspend_resume_balance (h : HeldReachable s) :
    (0 ≤ s.taskSuspendCount ∧ ∀ t ∈ s.threadList, 0 ≤ (s.sched.thread t).suspendCount) ∧
      (s.calls = [] →
        s.taskSuspendCount = (if 0 < s.taskUserStopCount then 1 else 0) ∧
          ∀ t ∈ s.threadList, (s.sched.thread t).suspendCount =
              (if 0 < s.userStopCount t then 1 else 0) + (if 0 < s.taskUserStopCount then 1 else 0) ∧
            ((s.sched.thread t).state.susp = true ↔ 0 < (s.sched.thread t).suspendCount)) ∧
      ∀ a r, ok s a → step s a = some r →
        (Held s a ↔ 0 ≤ r.taskSuspendCount ∧ ∀ t ∈ r.threadList, 0 ≤ (r.sched.thread t).suspendCount) := by
  obtain ⟨hb, hs⟩ := heldReachable_sound h
  refine ⟨hs.nonNegative, fun hc => ⟨(hb.quiet hc).1, fun t ht => ⟨(hb.quiet hc).2 t ht, (hs.thread t ht).2⟩⟩,
    fun a r ha hr => ⟨fun hh => ?_, fun hn => held_of_nonNegative hb hr hn⟩⟩
  exact ((step_stepped hb ha hr).sound hh hs).nonNegative

/-- The threads 0 and 1 run. -/
def bootSched : Sched.State :=
  { Sched.bootState with
    thread := fun t => bootThread (if t = 0 ∨ t = 1 then { run := true } else { susp := true })
    phase := fun c => if c = 0 then .running 0 else if c = 1 then .running 1 else .halted
    cpuState := fun c => if c = 0 ∨ c = 1 then .running else .offLine }

theorem bootSched_phase {c : CpuId} (h : bootSched.phase c = .running t) : c = t ∧ (t = 0 ∨ t = 1) := by
  simp only [bootSched] at h
  split at h
  next hc =>
    cases Phase.running.inj h
    exact ⟨hc, .inl rfl⟩
  next =>
    split at h
    next hc =>
      cases Phase.running.inj h
      exact ⟨hc, .inr rfl⟩
    next => simp at h

theorem bootSched_start : Sched.Start bootSched where
  waitQueue _ := rfl
  queue _ := rfl
  nextThread _ := rfl
  idle := ⟨rfl, rfl, fun c => by simp only [bootSched]; split <;> simp⟩
  own c d t hc hd := (bootSched_phase hc).1.trans (bootSched_phase hd).1.symm
  active c t hc := by
    rcases (bootSched_phase hc).2 with rfl | rfl <;> exact ⟨rfl, rfl, rfl⟩
  suspended t ht := by
    have h0 : t ≠ 0 := by
      rintro rfl
      exact ht 0 rfl
    have h1 : t ≠ 1 := by
      rintro rfl
      exact ht 1 rfl
    simp [bootSched, bootThread, h0, h1]
  thread t := ⟨rfl, rfl, rfl, rfl⟩
  swapinQueue := rfl
  ops _ := rfl

/-- The two threads that run are those of a task. -/
def bootState : State where
  sched := bootSched
  userStopCount _ := 0
  taskUserStopCount := 0
  taskSuspendCount := 0
  threadList := [0, 1]
  calls := []

theorem bootState_start : Start bootState :=
  ⟨bootSched_start, by decide, rfl, rfl, by decide⟩

instance : Decidable (Held s a) := by
  unfold Held
  split
  · split <;> infer_instance
  · infer_instance

/-- Thread 0 suspends itself, and thread 1 resumes it. -/
def resumedState : State :=
  (runIf step (fun _ _ => True) bootState
    [.threadSuspend 0 0, .proceed 0 0, .proceed 0 0, .threadResume 1 0, .proceed 1 0]).getD bootState

example : resumedState.calls = [] := by decide

theorem resumedState_reachable : HeldReachable resumedState := by
  have h0 : HeldReachable bootState := .start bootState_start
  have h1 : HeldReachable _ := h0.next (a := .threadSuspend 0 0) ⟨List.mem_cons_self, trivial⟩ rfl
  have h2 : HeldReachable _ := h1.next (a := .proceed 0 0) ⟨trivial, trivial⟩ rfl
  have h3 : HeldReachable _ := h2.next (a := .proceed 0 0) ⟨trivial, trivial⟩ rfl
  have h4 : HeldReachable _ := h3.next (a := .threadResume 1 0) ⟨List.mem_cons_self, trivial⟩ rfl
  exact h4.next (a := .proceed 1 0) ⟨trivial, by decide⟩ rfl

theorem resumedState_balance : (resumedState.sched.thread 0).suspendCount = 0 := by
  have h := (suspend_resume_balance resumedState_reachable).2.1 (by decide)
  exact (h.2 0 (by decide)).1

/-- Thread 1 resumes thread 0, which has decided to suspend itself and not done so. -/
theorem resume_before_hold : ¬∀ s, Reachable s → s.calls = [] → ∀ t ∈ s.threadList,
    (s.sched.thread t).state.susp = true ↔ 0 < (s.sched.thread t).suspendCount := by
  intro hall
  have h0 : Reachable bootState := .start bootState_start
  have h1 : Reachable _ := h0.next (a := .threadSuspend 0 0) List.mem_cons_self rfl
  have h2 : Reachable _ := h1.next (a := .threadResume 1 0) List.mem_cons_self rfl
  have h3 : Reachable _ := h2.next (a := .proceed 1 0) trivial rfl
  have h4 : Reachable _ := h3.next (a := .proceed 0 0) trivial rfl
  have h5 : Reachable _ := h4.next (a := .proceed 0 0) trivial rfl
  have h := hall _ h5 rfl 0 List.mem_cons_self
  exact absurd (h.mp rfl) (by decide)

end MachVM.Kern.Suspend
