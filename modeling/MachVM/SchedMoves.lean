import MachVM.SchedInvariant

namespace MachVM.Kern.Sched

open Machine Levels

variable {s r : State} {t u : ThreadId} {c : CpuId} {q : RunqId} {th th' : Thread} {hand : Option ThreadId}
  {a b : Prop}

theorem Thread.Ok.congr (h : th.Ok a) (hs : th'.state = th.state) (hi : th'.interruptible = th.interruptible)
    (hw : th'.waitEvent = th.waitEvent) (hc : th'.suspendCount = th.suspendCount)
    (hsw : th'.swapState = th.swapState) (has : th'.asserted = th.asserted) (hab : a ↔ b) : th'.Ok b := by
  obtain ⟨h1, h2, h3, h4, h5, h6, h7, h8⟩ := h
  constructor <;> simp_all

theorem Thread.Ok.inactive (h : th.Ok False) (ha : ¬a) : th.Ok a :=
  h.congr rfl rfl rfl rfl rfl rfl (iff_of_false id ha)

theorem Thread.Ok.not_wait (h : th.Ok False) (hr : th.state.run = true) : th.state.wait = false := by
  cases hw : th.state.wait with
  | false => rfl
  | true => exact (h.waiting hr hw).elim

/-- A thread that is to run has a place. -/
def Thread.Runs (th : Thread) : Prop := th.state.run = true ∧ th.state.swapped = false

/-- What the moves of a thread leave as it is in every thread. -/
structure SameView (s r : State) : Prop where
  state : ∀ u, (r.thread u).state = (s.thread u).state
  interruptible : ∀ u, (r.thread u).interruptible = (s.thread u).interruptible
  waitEvent : ∀ u, (r.thread u).waitEvent = (s.thread u).waitEvent

theorem SameView.refl (s : State) : SameView s s := ⟨fun _ => rfl, fun _ => rfl, fun _ => rfl⟩

theorem SameView.trans {q : State} (h : SameView s r) (h' : SameView r q) : SameView s q :=
  ⟨fun u => (h'.state u).trans (h.state u), fun u => (h'.interruptible u).trans (h.interruptible u),
    fun u => (h'.waitEvent u).trans (h.waitEvent u)⟩

theorem sameView_of_thread (hr : r.thread = s.thread) : SameView s r :=
  ⟨fun u => by rw [hr], fun u => by rw [hr], fun u => by rw [hr]⟩

theorem sameView_update (hr : r.thread = Function.update s.thread t th) (hs : th.state = (s.thread t).state)
    (hi : th.interruptible = (s.thread t).interruptible) (hw : th.waitEvent = (s.thread t).waitEvent) :
    SameView s r := by
  refine ⟨fun u => ?_, fun u => ?_, fun u => ?_⟩ <;> rw [hr] <;> by_cases hu : u = t
  · subst u; rw [Function.update_self, hs]
  · rw [Function.update_of_ne hu]
  · subst u; rw [Function.update_self, hi]
  · rw [Function.update_of_ne hu]
  · subst u; rw [Function.update_self, hw]
  · rw [Function.update_of_ne hu]

theorem setQueue_runqList (l : List ThreadId) (k low count : Nat) :
    (s.setQueue q { runq := Function.update (s.queue q).runq k l, low, count }).runqList =
      Function.update s.runqList (q, k) l := by
  funext x
  obtain ⟨q', i⟩ := x
  by_cases hq : q' = q
  · subst q'
    by_cases hi : i = k
    · subst i
      simp [State.runqList, State.setQueue]
    · simp [State.runqList, State.setQueue, hi]
  · simp [State.runqList, State.setQueue, hq]

theorem setQueue_leveled {rq : RunQueue} (h : ∀ q, Leveled nrqs (s.queue q).runq (s.queue q).low (s.queue q).count)
    (hq : Leveled nrqs rq.runq rq.low rq.count) (q' : RunqId) :
    Leveled nrqs ((s.setQueue q rq).queue q').runq ((s.setQueue q rq).queue q').low
      ((s.setQueue q rq).queue q').count := by
  by_cases he : q' = q
  · subst q'
    simpa only [State.setQueue, Function.update_self] using hq
  · simpa only [State.setQueue, Function.update_of_ne he] using h q'

theorem enqueueRunq_inv (h : Inv (some t) s) (hr : (s.thread t).Runs) (ho : (s.thread t).Ok False) :
    Inv none (enqueueRunq s t q) := by
  have hn := h.hand_runq
  refine h.place (.queued q) ?_ ?_ ?_ ⟨h.cpus.idle, h.cpus.count, h.cpus.loop, h.cpus.slot, h.cpus.looked⟩ ?_ ?_ ?_ ?_
  · exact h.waits.keep rfl
  · exact setQueue_runqList .. ▸ h.lists.enter (by simp only [Thread.list, hn, Option.map_none]) rfl
  · exact setQueue_leveled h.leveled ((h.leveled q).enter (level_lt _))
  · exact fun u hu => Function.update_of_ne hu ..
  · intro u p
    cases p with
    | active c => simp [At, enqueueRunq, State.modThread, State.setThread, State.setQueue]
    | slot c => simp [At, enqueueRunq, State.modThread, State.setThread, State.setQueue]
    | queued q' =>
      by_cases hu : u = t
      · subst u
        simp only [At, enqueueRunq, modThread_self, true_and]
        simp [hn, eq_comm]
      · simp only [At, enqueueRunq, modThread_of_ne hu, hu, false_and, or_false]
        exact .rfl
  · rw [enqueueRunq, modThread_self]
    exact hr
  · rw [enqueueRunq, modThread_self]
    exact ho.congr rfl rfl rfl rfl rfl rfl (iff_of_false id h.hand_inactive)

theorem dispatchTo_inv {cs : List CpuId} (h : Inv (some t) s) (hr : (s.thread t).Runs) (ho : (s.thread t).Ok False)
    (hi : s.cpuState c = .idle) (hcs : cs = s.idleQueue.erase c) : Inv none (dispatchTo s t c cs) := by
  have hn : s.nextThread c = none := by
    by_contra hne
    have := h.cpus.slot c hne
    simp [hi] at this
  have hcpu : (dispatchTo s t c cs).cpuState = Function.update s.cpuState c .dispatching := rfl
  have hnext : (dispatchTo s t c cs).nextThread = Function.update s.nextThread c (some t) := rfl
  have hmem := (h.cpus.idle.mem_iff c).mpr hi
  refine h.place (.slot c) h.waits h.lists h.leveled ⟨?_, ?_, ?_, ?_, ?_⟩ (fun _ _ => rfl) ?_ hr ?_
  · subst cs
    apply h.cpus.idle.erase
    intro d
    rw [hcpu]
    by_cases hd : d = c
    · subst d
      simp
    · simp [hd]
  · change s.idleCount - 1 = cs.length
    rw [hcs, List.length_erase_of_mem hmem, h.cpus.count]
  · intro d hd
    rw [hcpu] at hd
    by_cases hdc : d = c
    · subst d
      simp at hd
    · rw [Function.update_of_ne hdc] at hd
      exact h.cpus.loop d hd
  · intro d hd
    rw [hnext] at hd
    rw [hcpu]
    by_cases hdc : d = c
    · subst d
      simp
    · rw [Function.update_of_ne hdc] at hd ⊢
      exact h.cpus.slot d hd
  · intro d hd
    have hdc : d ≠ c := by
      rintro rfl
      have := h.cpus.loop d hi
      change (s.phase d).looked = true at hd
      simp [this, Phase.looked] at hd
    rw [hnext, Function.update_of_ne hdc]
    exact h.cpus.looked d hd
  · intro u p
    cases p with
    | active d => simp [At, dispatchTo, State.setNext, State.setCpuState]
    | slot d =>
      simp only [At, hnext]
      by_cases hd : d = c
      · subst d
        rw [Function.update_self, hn]
        simp [eq_comm]
      · simp [hd]
    | queued q => simp [At, dispatchTo, State.setNext, State.setCpuState]
  · exact ho.inactive h.hand_inactive

theorem updatePriority_inv (h : Inv (some t) s) : Inv (some t) (updatePriority s t) := by
  unfold updatePriority
  split
  next => exact h
  next => exact h.setHand h.hand_runq rfl

theorem updatePriority_thread :
    ∃ p x, (updatePriority s t).thread t = { s.thread t with schedPri := p, update := x } := by
  unfold updatePriority
  split
  next => exact ⟨(s.thread t).schedPri, (s.thread t).update, rfl⟩
  next p _ => exact ⟨p, none, modThread_self⟩

theorem updatePriority_sameView (s : State) (t : ThreadId) : SameView s (updatePriority s t) := by
  unfold updatePriority
  split
  next => exact .refl s
  next => exact sameView_update rfl rfl rfl rfl

theorem threadSetrun_gives (h : Inv (some t) s) (hr : (s.thread t).Runs) (ho : (s.thread t).Ok False) :
    Gives (threadSetrun s t) (fun _ => False) fun r => Inv none r ∧ SameView s r := by
  have hu := updatePriority_inv h
  have hv := updatePriority_sameView s t
  obtain ⟨p, x, ht⟩ := updatePriority_thread (s := s) (t := t)
  have hr' : ((updatePriority s t).thread t).Runs := by rw [ht]; exact hr
  have ho' : ((updatePriority s t).thread t).Ok False := by rw [ht]; exact ho.congr rfl rfl rfl rfl rfl rfl .rfl
  have hq : ∀ q, Inv none (enqueueRunq (updatePriority s t) t q) ∧ SameView s (enqueueRunq (updatePriority s t) t q) :=
    fun q => ⟨enqueueRunq_inv hu hr' ho', hv.trans (sameView_update rfl rfl rfl rfl)⟩
  unfold threadSetrun
  dsimp only
  rw [if_neg (by simp [hu.hand_runq])]
  split
  next =>
    split
    next hc =>
      split
      next hn =>
        rw [hu.cpus.count, hn] at hc
        simp at hc
      next c cs hn =>
        have hi := (hu.cpus.idle.mem_iff c).mp (by simp [hn])
        exact ⟨dispatchTo_inv hu hr' ho' hi (by simp [hn]), hv.trans (sameView_of_thread rfl)⟩
    next => exact hq .global
  next c _ =>
    split
    next hc => exact ⟨dispatchTo_inv hu hr' ho' hc.2 rfl, hv.trans (sameView_of_thread rfl)⟩
    next => exact hq (.local c)

theorem loadContext_inv (h : Inv (some t) s) (hr : (s.thread t).Runs) (ho : (s.thread t).Ok False)
    (hp : ∀ u, s.phase c ≠ .running u) (hi : s.cpuState c ≠ .idle) : Inv none (loadContext s c t) := by
  have hth : (loadContext s c t).thread t = { s.thread t with interruptible := true, asserted := false } :=
    Function.update_self ..
  have hph : (loadContext s c t).phase = Function.update s.phase c (.running t) := rfl
  refine h.place (.active c) (h.waits.keep rfl) (h.lists.keep rfl) h.leveled
    ⟨h.cpus.idle, h.cpus.count, ?_, h.cpus.slot, ?_⟩ (fun u hu => Function.update_of_ne hu ..) ?_ ?_ ?_
  · intro d hd
    have hdc : d ≠ c := by
      rintro rfl
      exact hi hd
    rw [hph, Function.update_of_ne hdc]
    exact h.cpus.loop d hd
  · intro d hd
    rw [hph] at hd
    by_cases hdc : d = c
    · subst d
      simp [Phase.looked] at hd
    · rw [Function.update_of_ne hdc] at hd
      exact h.cpus.looked d hd
  · intro u p
    cases p with
    | active d =>
      simp only [At, hph]
      by_cases hd : d = c
      · subst d
        rw [Function.update_self]
        simp [hp u, eq_comm]
      · simp [hd]
    | slot d => simp [At, loadContext, State.setPhase, State.modThread, State.setThread]
    | queued q =>
      by_cases hu : u = t
      · subst u
        simp only [At, hth]
        simp
      · simp only [At, hu, false_and, or_false]
        rw [show (loadContext s c t).thread u = s.thread u from Function.update_of_ne hu ..]
  · rw [hth]
    exact hr
  · rw [hth]
    have hw := ho.not_wait hr.1
    exact ⟨ho.bits, ho.event, fun _ h => by simp [hw] at h, ho.away, ho.bound, ho.coming,
      fun _ h => by simp [hw] at h, ho.suspended⟩

theorem switching_inv (h : Inv none s) (hp : s.phase c = .running t) :
    Inv (some t) (s.setPhase c .switching) := by
  have hph : (s.setPhase c .switching).phase = Function.update s.phase c .switching := rfl
  refine h.unplace (.active c) hp h.waits h.lists h.leveled ⟨h.cpus.idle, h.cpus.count, ?_, h.cpus.slot, ?_⟩
    (fun _ _ => rfl) ?_
  · intro d hd
    have hdc : d ≠ c := by
      rintro rfl
      have := h.cpus.loop d hd
      simp [hp] at this
    rw [hph, Function.update_of_ne hdc]
    exact h.cpus.loop d hd
  · intro d hd
    rw [hph] at hd
    by_cases hdc : d = c
    · subst d
      simp [Phase.looked] at hd
    · rw [Function.update_of_ne hdc] at hd
      exact h.cpus.looked d hd
  · intro u p
    cases p with
    | active d =>
      simp only [At, hph]
      by_cases hd : d = c
      · subst d
        rw [Function.update_self, hp]
        simp [eq_comm]
      · simp [hd]
    | slot d => simp [At, State.setPhase]
    | queued q => simp [At, State.setPhase]

theorem Inv.runs_of_at {p : Place} (h : Inv none s) (hp : At s t p) : (s.thread t).Runs :=
  (h.placed t (by simp)).mp ⟨p, hp⟩

theorem Inv.ok_of_at {p : Place} (h : Inv none s) (hp : At s t p) (hne : ∀ c, p ≠ .active c) :
    (s.thread t).Ok False :=
  (h.ok t (by simp)).congr rfl rfl rfl rfl rfl rfl
    (iff_of_false (fun ⟨c, hc⟩ => hne c (h.unique t p (.active c) hp hc)) id)

theorem Inv.mem_runq (h : Inv hand s) {k : Nat} :
    t ∈ (s.queue q).runq k ↔ (s.thread t).runq = some q ∧ level (s.thread t).schedPri = k := by
  have := h.lists.mem_iff (q, k) t
  rw [Thread.list, Option.map_eq_some_iff] at this
  rw [State.runqList] at this
  rw [this]
  constructor
  · rintro ⟨q', hq, he⟩
    obtain ⟨rfl, rfl⟩ := Prod.mk.inj he
    exact ⟨hq, rfl⟩
  · rintro ⟨hq, rfl⟩
    exact ⟨q, hq, rfl⟩

theorem Inv.mem_waitQueue (h : Inv hand s) {b : Nat} :
    t ∈ s.waitQueue b ↔ (s.thread t).waitEvent ≠ 0 ∧ b = waitHash (s.thread t).waitEvent := by
  rw [h.waits.mem_iff, Thread.bucket]
  split
  next he => simp [he]
  next he => simp [he, eq_comm]

theorem leaveRunq_inv {low : Nat} (h : Inv none s) (hq : (s.thread t).runq = some q)
    (hlow : ∀ i, i < low → (s.queue q).runq i = []) :
    Inv (some t) ((s.setQueue q
      { runq := Function.update (s.queue q).runq (level (s.thread t).schedPri)
          (((s.queue q).runq (level (s.thread t).schedPri)).erase t)
        low, count := (s.queue q).count - 1 }).modThread t fun th => { th with runq := none }) := by
  have hmem := (h.mem_runq (k := level (s.thread t).schedPri)).mpr ⟨hq, rfl⟩
  refine h.unplace (.queued q) hq (h.waits.keep rfl) ?_ ?_
    ⟨h.cpus.idle, h.cpus.count, h.cpus.loop, h.cpus.slot, h.cpus.looked⟩ (fun u hu => Function.update_of_ne hu ..) ?_
  · exact setQueue_runqList .. ▸ h.lists.leave (by simp only [Thread.list, hq, Option.map_some]) rfl
  · exact setQueue_leveled h.leveled (((h.leveled q).raise hlow).leave (level_lt _) hmem)
  · intro u p
    cases p with
    | active c => simp [At, State.modThread, State.setThread, State.setQueue]
    | slot c => simp [At, State.modThread, State.setThread, State.setQueue]
    | queued q' =>
      by_cases hu : u = t
      · subst u
        simp only [At, modThread_self, true_and]
        simp [hq, eq_comm]
      · simp only [At, modThread_of_ne hu, hu, false_and, not_false_eq_true, and_true]
        exact .rfl

theorem remRunq_eq (h : Inv none s) (hq : (s.thread t).runq = some q) :
    (remRunq s t).2 = some q ∧ Inv (some t) (remRunq s t).1 := by
  unfold remRunq
  rw [hq]
  refine ⟨rfl, ?_⟩
  have he : (fun i => ((s.queue q).runq i).erase t) =
      Function.update (s.queue q).runq (level (s.thread t).schedPri)
        (((s.queue q).runq (level (s.thread t).schedPri)).erase t) := by
    funext i
    by_cases hi : i = level (s.thread t).schedPri
    · subst i
      rw [Function.update_self]
    · rw [Function.update_of_ne hi]
      exact List.erase_of_not_mem fun hm => hi (h.mem_runq.mp hm).2.symm
  dsimp only
  rw [he]
  exact leaveRunq_inv h hq (h.leveled q).below

theorem remRunq_none (hq : (s.thread t).runq = none) : remRunq s t = (s, none) := by
  unfold remRunq
  rw [hq]

theorem remRunq_thread : (remRunq s t).1.thread = Function.update s.thread t { s.thread t with runq := none } := by
  unfold remRunq
  split
  next hq =>
    have he : { s.thread t with runq := none } = s.thread t := by rw [← hq]
    rw [he, Function.update_eq_self]
  next => rfl

theorem takeSlot_inv (h : Inv none s) (hp : s.nextThread c = some t) {x : CpuState} (hx : x ≠ .idle) :
    Inv (some t) ((s.setNext c none).setCpuState c x) := by
  have hnext : ((s.setNext c none).setCpuState c x).nextThread = Function.update s.nextThread c none := rfl
  have hcpu : ((s.setNext c none).setCpuState c x).cpuState = Function.update s.cpuState c x := rfl
  have hs : s.cpuState c = .dispatching := h.cpus.slot c (by simp [hp])
  refine h.unplace (.slot c) hp h.waits h.lists h.leveled ⟨?_, h.cpus.count, ?_, ?_, ?_⟩ (fun _ _ => rfl) ?_
  · apply h.cpus.idle.congr
    intro d
    rw [hcpu]
    by_cases hd : d = c
    · subst d
      simp [hs, hx]
    · simp [hd]
  · intro d hd
    rw [hcpu] at hd
    by_cases hdc : d = c
    · subst d
      simp [hx] at hd
    · rw [Function.update_of_ne hdc] at hd
      exact h.cpus.loop d hd
  · intro d hd
    rw [hnext] at hd
    by_cases hdc : d = c
    · subst d
      simp at hd
    · rw [Function.update_of_ne hdc] at hd
      rw [hcpu, Function.update_of_ne hdc]
      exact h.cpus.slot d hd
  · intro d hd
    rw [hnext]
    by_cases hdc : d = c
    · subst d
      simp
    · rw [Function.update_of_ne hdc]
      exact h.cpus.looked d hd
  · intro u p
    cases p with
    | active d => simp [At, State.setNext, State.setCpuState]
    | slot d =>
      simp only [At, hnext]
      by_cases hd : d = c
      · subst d
        rw [Function.update_self, hp]
        simp [eq_comm]
      · simp [hd]
    | queued q => simp [At, State.setNext, State.setCpuState]

theorem remWaitQueue_inv (h : Inv none s) : Inv none (remWaitQueue s t) := by
  refine h.setWait ?_ rfl rfl (fun _ => .rfl) fun _ => ?_
  · by_cases he : (s.thread t).waitEvent = 0
    · have hb : (s.thread t).bucket = none := if_pos he
      have hm : t ∉ s.waitQueue (waitHash (s.thread t).waitEvent) := by simp [h.waits.mem_iff, hb]
      rw [List.erase_of_not_mem hm, Function.update_eq_self]
      exact h.waits.keep (by rw [hb]; rfl)
    · exact h.waits.leave (if_neg he) rfl
  · have ho := h.ok t (by simp)
    exact ⟨ho.bits, fun hh => absurd rfl hh, ho.waiting, ho.away, ho.bound, ho.coming, ho.asserted, ho.suspended⟩

end MachVM.Kern.Sched

namespace MachVM.Kern.Sched

open Machine

/-- A state of the documented state machine: the flag bits, and N for a thread that is not interruptible. -/
structure Code where
  run : Bool := false
  wait : Bool := false
  susp : Bool := false
  swapped : Bool := false
  nonint : Bool := false
  deriving DecidableEq, Repr

/-- The columns of the state table. -/
inductive Column
  | assertWait
  | threadBlock
  | clearWait
  | suspend
  | resume
  | swapout
  | swapin
  deriving DecidableEq, Repr

namespace Code

def r : Code := { run := true }
def rs : Code := { run := true, susp := true }
def rn : Code := { run := true, nonint := true }
def rns : Code := { run := true, susp := true, nonint := true }
def rw : Code := { run := true, wait := true }
def rwn : Code := { run := true, wait := true, nonint := true }
def rws : Code := { run := true, wait := true, susp := true }
def rwns : Code := { run := true, wait := true, susp := true, nonint := true }
def w : Code := { wait := true }
def wn : Code := { wait := true, nonint := true }
def wns : Code := { wait := true, susp := true, nonint := true }
def wo : Code := { wait := true, swapped := true }
def s : Code := { susp := true }
def so : Code := { susp := true, swapped := true }
def ws : Code := { wait := true, susp := true }
def wso : Code := { wait := true, susp := true, swapped := true }
def ro : Code := { run := true, swapped := true }
def rso : Code := { run := true, susp := true, swapped := true }

end Code

/-- The state table in the comment at the head of the source, row by row. -/
def stateTable : List (Code × Column × Code) :=
  [(.r, .assertWait, .rw), (.r, .assertWait, .rwn), (.r, .threadBlock, .r), (.r, .suspend, .rs),
    (.rs, .assertWait, .rws), (.rs, .assertWait, .rwns), (.rs, .threadBlock, .s), (.rs, .resume, .r),
    (.rn, .assertWait, .rwn), (.rn, .threadBlock, .rn), (.rn, .suspend, .rns),
    (.rns, .assertWait, .rwns), (.rns, .threadBlock, .rns), (.rns, .resume, .rn),
    (.rw, .threadBlock, .w), (.rw, .clearWait, .r), (.rw, .suspend, .rws),
    (.rwn, .threadBlock, .wn), (.rwn, .clearWait, .rn), (.rwn, .suspend, .rwns),
    (.rws, .threadBlock, .ws), (.rws, .clearWait, .rs), (.rws, .resume, .rw),
    (.rwns, .threadBlock, .wns), (.rwns, .clearWait, .rns), (.rwns, .resume, .rwn),
    (.w, .clearWait, .r), (.w, .suspend, .ws), (.w, .swapout, .wo),
    (.wn, .clearWait, .rn), (.wn, .suspend, .wns),
    (.wns, .clearWait, .rns), (.wns, .resume, .wn),
    (.wo, .clearWait, .ro), (.wo, .suspend, .wso),
    (.s, .resume, .r), (.s, .swapout, .so),
    (.so, .resume, .ro),
    (.ws, .clearWait, .s), (.ws, .resume, .w), (.ws, .swapout, .wso),
    (.wso, .clearWait, .so), (.wso, .resume, .wo),
    (.ro, .suspend, .rso), (.ro, .swapin, .r),
    (.rso, .resume, .ro), (.rso, .swapin, .rs)]

/-- What the table leaves out: a dispatched thread becomes interruptible, `thread_dowait` stops a thread that it
takes off a run queue or that is coming in, and that one may come in as it is. -/
def missingRows : List (Code × Column × Code) :=
  [(.rn, .threadBlock, .r), (.rns, .threadBlock, .rs), (.rs, .suspend, .s), (.rso, .suspend, .so), (.so, .swapin, .s)]

/-- The state of a thread stays or goes on by a row of the table or a missing one. -/
def Goes (col : Column) (x y : Code) : Prop := x = y ∨ (x, col, y) ∈ stateTable ++ missingRows

instance (col : Column) (x y : Code) : Decidable (Goes col x y) := inferInstanceAs (Decidable (_ ∨ _))

theorem Goes.refl (col : Column) (x : Code) : Goes col x x := .inl rfl

def Thread.code (th : Thread) : Code :=
  ⟨th.state.run, th.state.wait, th.state.susp, th.state.swapped, !th.interruptible⟩

/-- The states that threads may be in: those with a row in the table. -/
def Code.valid (x : Code) : Bool :=
  (x.run || x.wait || x.susp) && (!(x.run && x.wait) || !x.swapped) && (x.run || x.wait || !x.nonint) &&
    (!x.swapped || !x.nonint)

variable {s r : State} {t : ThreadId} {col : Column}

theorem Goes.valid {x y : Code} (h : Goes col x y) (hx : x.valid = true) : y.valid = true := by
  rcases h with rfl | h
  · exact hx
  · have hall : ∀ e ∈ stateTable ++ missingRows, e.2.2.valid = true := by decide
    exact hall _ h

/-- All threads are in documented states. -/
def Valid (s : State) : Prop := ∀ u, (s.thread u).code.valid = true

/-- The states of all threads go on by a column, or stay. -/
def AllGo (col : Column) (s r : State) : Prop := ∀ u, Goes col (s.thread u).code (r.thread u).code

theorem AllGo.valid (h : AllGo col s r) (hs : Valid s) : Valid r := fun u => (h u).valid (hs u)

theorem SameView.code (h : SameView s r) (u : ThreadId) : (r.thread u).code = (s.thread u).code := by
  rw [Thread.code, Thread.code, h.state, h.interruptible]

theorem SameView.allGo (h : SameView s r) : AllGo col s r := fun u => .inl (h.code u).symm

/-- One thread changes. -/
structure Changes (t : ThreadId) (th : Thread) (s r : State) : Prop where
  code : (r.thread t).code = th.code
  waitEvent : (r.thread t).waitEvent = th.waitEvent
  codes : ∀ u, u ≠ t → (r.thread u).code = (s.thread u).code
  waitEvents : ∀ u, u ≠ t → (r.thread u).waitEvent = (s.thread u).waitEvent

theorem Changes.allGo {th : Thread} (h : Changes t th s r) (hg : Goes col (s.thread t).code th.code) :
    AllGo col s r := by
  intro u
  by_cases hu : u = t
  · subst u
    rw [h.code]
    exact hg
  · rw [h.codes u hu]
    exact .refl col _

theorem changes_of_thread {th : Thread} (h : r.thread = Function.update s.thread t th) : Changes t th s r := by
  refine ⟨?_, ?_, fun u hu => ?_, fun u hu => ?_⟩ <;> rw [h]
  · rw [Function.update_self]
  · rw [Function.update_self]
  · rw [Function.update_of_ne hu]
  · rw [Function.update_of_ne hu]

theorem changes_setThread (s : State) (t : ThreadId) (th : Thread) : Changes t th s (s.setThread t th) :=
  changes_of_thread rfl

theorem Changes.view {th : Thread} {q : State} (h : Changes t th s r) (hv : SameView r q) : Changes t th s q :=
  ⟨(hv.code t).trans h.code, (hv.waitEvent t).trans h.waitEvent, fun u hu => (hv.code u).trans (h.codes u hu),
    fun u hu => (hv.waitEvent u).trans (h.waitEvents u hu)⟩

theorem Changes.after {th : Thread} {q : State} (hv : SameView s r) (h : Changes t th r q) : Changes t th s q :=
  ⟨h.code, h.waitEvent, fun u hu => (h.codes u hu).trans (hv.code u),
    fun u hu => (h.waitEvents u hu).trans (hv.waitEvent u)⟩

end MachVM.Kern.Sched
