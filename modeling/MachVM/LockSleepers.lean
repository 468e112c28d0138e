import MachVM.LockReach

namespace MachVM.Kern.Lock

open Machine

variable {w : Nat} {s q r : LState} {t u : ThreadId} {a : Action} {p : Phase}

/-- Nobody sleeps on the lock without `waiting`. -/
def Calm (s : LState) : Prop := ∀ u, (s.thread u).asleep = true → s.lock.waiting = true

def LockData.flagged (l : LockData) : Bool := l.wantWrite || l.wantUpgrade

/-- A thread past the step of an acquisition that sets `want_write` or `want_upgrade`. -/
def LState.Past (s : LState) (t : ThreadId) : Prop := ¬(s.thread t).phase.plain

/-- A section leaves a thread asleep only with `waiting` set, and where it put the thread to sleep or took a flag
down, a flag is up or the thread is one that has set a flag. -/
def Kept (s r : LState) : Prop :=
  ∀ u, (r.thread u).asleep = true → r.lock.waiting = true ∧
    ((s.thread u).asleep = true ∧ (s.lock.flagged = true → r.lock.flagged = true) ∨ r.Past u ∨
      r.lock.flagged = true)

theorem Calm.kept (h : Calm s) (ha : ∀ u, (r.thread u).asleep = true → (s.thread u).asleep = true)
    (hw : r.lock.waiting = s.lock.waiting) (hf : s.lock.flagged = true → r.lock.flagged = true) : Kept s r :=
  fun u hu => ⟨hw.trans (h u (ha u hu)), .inl ⟨ha u hu, hf⟩⟩

theorem Calm.wake (h : Calm s) (u : ThreadId) : ((wakeWaiters s).thread u).asleep = false := by
  unfold wakeWaiters
  split
  next => rfl
  next hw =>
    cases ha : (s.thread u).asleep with
    | false => rfl
    | true => exact absurd (h u ha) hw

theorem Calm.wake_kept (h : Calm q) : Kept s (wakeWaiters q) := by
  intro u hu
  rw [h.wake u] at hu
  simp at hu

theorem asleep_setThread {x : Thread} (hx : x.asleep = false)
    (hu : ((s.setThread t x).thread u).asleep = true) : (s.thread u).asleep = true := by
  rw [thread_setThread] at hu
  split at hu
  next => simp [hx] at hu
  next => exact hu

theorem Calm.returns {b : Bool} (h : Calm s) (hw : r.lock.waiting = s.lock.waiting) (ht : r.thread = s.thread)
    (hf : s.lock.flagged = true → r.lock.flagged = true) : Kept s (r.returns t b) := by
  refine h.kept (fun u hu => ?_) hw hf
  rw [← ht]
  exact asleep_setThread rfl hu

theorem kept_sleepOn (ht : q.thread = s.thread) (hq : s.lock.flagged = true → q.lock.flagged = true)
    (hb : ¬p.plain ∨ q.lock.flagged = true) : Kept s (sleepOn q t p) := by
  intro u hu
  refine ⟨rfl, ?_⟩
  by_cases he : u = t
  · refine .inr (hb.imp_left fun hn => ?_)
    rw [LState.Past, Lock.sleepOn, thread_setThread, if_pos he]
    exact hn
  · refine .inl ⟨?_, hq⟩
    rw [Lock.sleepOn, thread_setThread, if_neg he] at hu
    exact ht ▸ hu

theorem Calm.waitLoop {spun busy : Bool} {go : Option LState} (h : Calm s)
    (hw : q.lock.waiting = s.lock.waiting) (ht : q.thread = s.thread)
    (hq : s.lock.flagged = true → q.lock.flagged = true) (hb : busy = true → ¬p.plain ∨ q.lock.flagged = true)
    (hgo : go = some r → Kept s r) (hr : waitLoop w q t p spun busy go = some r) : Kept s r := by
  unfold Lock.waitLoop at hr
  split at hr
  next => exact hgo hr
  next hy =>
    have hy : busy = true := by simpa using hy
    split at hr
    next =>
      cases Option.some.inj hr
      refine h.kept (fun u hu => ?_) hw hq
      rw [← ht]
      exact asleep_setThread rfl hu
    next =>
      split at hr
      next =>
        cases Option.some.inj hr
        exact kept_sleepOn ht hq (hb hy)
      next => simp at hr

theorem Calm.leave (h : Calm s) (hw : r.lock.waiting = s.lock.waiting) (ht : r.thread = s.thread)
    (hf : s.lock.flagged = true → r.lock.flagged = true) : Kept s (r.leave t) :=
  h.returns hw ht hf

theorem Calm.writeReadersLoop {spun : Bool} (h : Calm s)
    (hw : q.lock.waiting = s.lock.waiting) (ht : q.thread = s.thread)
    (hq : s.lock.flagged = true → q.lock.flagged = true)
    (hr : writeReadersLoop w q t spun = some r) : Kept s r := by
  refine h.waitLoop hw ht hq (fun _ => .inl (by simp [Phase.plain])) (fun hg => ?_) hr
  cases Option.some.inj hg
  exact h.leave hw ht hq

theorem Calm.writeLoop {spun : Bool} (h : Calm s)
    (hr : writeLoop w s t spun = some r) : Kept s r := by
  refine h.waitLoop rfl rfl id (fun hb => .inr (by simp [LockData.flagged, hb])) (fun hg => ?_) hr
  refine h.writeReadersLoop ?_ ?_ ?_ hg
  · rfl
  · rfl
  · exact fun _ => rfl

theorem Calm.readLoop {spun : Bool} (h : Calm s)
    (hr : readLoop w s t spun = some r) : Kept s r := by
  refine h.waitLoop rfl rfl id (fun hb => .inr hb) (fun hg => ?_) hr
  cases Option.some.inj hg
  exact h.leave rfl rfl id

theorem Calm.upgradeLoop {spun : Bool} (h : Calm s)
    (hw : q.lock.waiting = s.lock.waiting) (ht : q.thread = s.thread)
    (hq : s.lock.flagged = true → q.lock.flagged = true)
    (hr : upgradeLoop w q t spun = some r) : Kept s r := by
  refine h.waitLoop hw ht hq (fun _ => .inl (by simp [Phase.plain])) (fun hg => ?_) hr
  cases Option.some.inj hg
  exact h.returns hw ht hq

theorem Calm.tryUpgradeLoop (h : Calm s) (hw : q.lock.waiting = s.lock.waiting) (ht : q.thread = s.thread)
    (hq : s.lock.flagged = true → q.lock.flagged = true) : Kept s (tryUpgradeLoop q t) := by
  unfold Lock.tryUpgradeLoop
  split
  · exact kept_sleepOn ht hq (.inl (by simp [Phase.plain]))
  · exact h.returns hw ht hq

theorem Calm.call {o : Op} (h : Calm s) (hr : call w s t o = some r) :
    Kept s r := by
  cases o with
  | write =>
    simp only [Lock.call, lockWrite] at hr
    split at hr
    next =>
      cases Option.some.inj hr
      exact h.kept (fun _ hu => hu) rfl id
    next => exact h.writeLoop hr
  | done =>
    cases Option.some.inj hr
    refine Calm.wake_kept fun u hu => ?_
    refine Eq.trans ?_ (h u hu)
    split <;> [rfl; split <;> [rfl; split <;> rfl]]
  | read =>
    simp only [Lock.call, lockRead] at hr
    split at hr
    next =>
      cases Option.some.inj hr
      exact h.kept (fun _ hu => hu) rfl id
    next => exact h.readLoop hr
  | readToWrite =>
    simp only [Lock.call, lockReadToWrite] at hr
    split at hr
    next =>
      cases Option.some.inj hr
      exact h.returns rfl rfl id
    next =>
      split at hr
      next =>
        cases Option.some.inj hr
        intro u hu
        have hd : Calm (dropReader s t) := h
        have := asleep_setThread rfl hu
        rw [hd.wake u] at this
        simp at this
      next =>
        refine h.upgradeLoop ?_ ?_ ?_ hr
        · rfl
        · rfl
        · exact fun _ => Bool.or_true _
  | writeToRead =>
    cases Option.some.inj hr
    refine Calm.wake_kept fun u hu => ?_
    refine Eq.trans ?_ (h u hu)
    split <;> [rfl; split <;> rfl]
  | tryWrite =>
    cases Option.some.inj hr
    unfold lockTryWrite
    split
    · exact h.returns rfl rfl id
    · split
      · exact h.returns rfl rfl id
      · exact h.returns rfl rfl fun _ => rfl
  | tryRead =>
    cases Option.some.inj hr
    unfold lockTryRead
    split
    · exact h.returns rfl rfl id
    · split
      · exact h.returns rfl rfl id
      · exact h.returns rfl rfl id
  | tryReadToWrite =>
    cases Option.some.inj hr
    unfold lockTryReadToWrite
    split
    · exact h.returns rfl rfl id
    · split
      · exact h.returns rfl rfl id
      · refine h.tryUpgradeLoop ?_ ?_ ?_
        · rfl
        · rfl
        · exact fun _ => Bool.or_true _
  | setRecursive =>
    simp only [Lock.call, lockSetRecursive] at hr
    split at hr
    next => simp at hr
    next =>
      cases Option.some.inj hr
      exact h.kept (fun _ hu => hu) rfl id
  | clearRecursive =>
    simp only [Lock.call, lockClearRecursive] at hr
    split at hr
    next => simp at hr
    next =>
      split at hr
      next =>
        cases Option.some.inj hr
        exact h.kept (fun _ hu => hu) rfl id
      next =>
        cases Option.some.inj hr
        exact h.kept (fun _ hu => hu) rfl id

theorem step_kept (h : Calm s) (hr : step w s a = some r) : Kept s r := by
  cases a with
  | call o t =>
    simp only [step] at hr
    split at hr
    next => exact h.call hr
    next => simp at hr
  | turn t =>
    simp only [step, nextSection] at hr
    split at hr
    next => simp at hr
    next =>
      split at hr
      next => simp at hr
      next => exact h.writeLoop hr
      next => exact h.writeReadersLoop rfl rfl id hr
      next => exact h.readLoop hr
      next => exact h.upgradeLoop rfl rfl id hr
      next =>
        cases Option.some.inj hr
        exact h.tryUpgradeLoop rfl rfl id
  | sleepable b =>
    cases Option.some.inj hr
    exact h.kept (fun _ hu => hu) rfl id

theorem Kept.calm (h : Kept s r) : Calm r := fun u hu => (h u hu).1

theorem LReach.calm {ok : LState → Action → Prop} (h : LReach w ok s) : Calm s := by
  refine Reach.invariant (fun _ ⟨b, he⟩ => ?_) (fun _ _ _ hc _ hr => (step_kept hc hr).calm) h
  subst he
  intro u hu
  simp [start] at hu

theorem Owned.past_flagged {ow ou : Option ThreadId} (h : Owned s ow ou) (hp : s.Past u) : s.lock.flagged = true := by
  by_cases hw : (s.thread u).phase = .writeReaders
  · have := h.wantWrite
    rw [h.writeReaders u hw] at this
    simp [LockData.flagged, this]
  · have hu : (s.thread u).phase = .upgrade ∨ (s.thread u).phase = .tryUpgrade := by
      by_contra hn
      exact hp ⟨hw, not_or.mp hn⟩
    have := h.wantUpgrade
    rw [h.upgrading u hu] at this
    simp [LockData.flagged, this]

theorem LReach.flagged (h : LReach w Disciplined s) (hu : (s.thread u).asleep = true) : s.lock.flagged = true := by
  induction h generalizing u with
  | start hi =>
    obtain ⟨b, rfl⟩ := hi
    simp [start] at hu
  | next h ha hs ih =>
    obtain ⟨hb, hf⟩ | hp | hf := (step_kept (LReach.calm h) hs u hu).2
    · exact hf (ih hb)
    · obtain ⟨ow, ou, ho⟩ := LReach.sound (h.next ha hs)
      exact ho.past_flagged hp
    · exact hf

theorem Owned.flags_down {ow ou : Option ThreadId} (h : Owned s ow ou) (hw : s.writers = [])
    (hp : ∀ u, ¬s.Past u) : s.lock.flagged = false := by
  have hn : ∀ t, holdsWrite s ow t = false ∧ holdsUpgrade s ou t = false := by
    intro t
    by_contra hc
    have := h.mem_of_holds (t := t) (by grind)
    rw [hw] at this
    simp at this
  have how : ow = none := by
    cases ow with
    | none => rfl
    | some t =>
      have h1 := (hn t).1
      simp only [holdsWrite, true_and, decide_eq_false_iff_not, not_not] at h1
      exact absurd (fun hc : (s.thread t).phase.plain => hc.1 h1) (hp t)
  have hou : ou = none := by
    cases ou with
    | none => rfl
    | some t =>
      have h1 := (hn t).2
      simp only [holdsUpgrade, true_and, decide_eq_false_iff_not] at h1
      exact absurd (fun hc : (s.thread t).phase.plain => h1 hc.2) (hp t)
  rw [LockData.flagged, h.wantWrite, h.wantUpgrade, how, hou]
  rfl

/-- Every sleeper has `waiting` behind it, and a lock that is held by nobody and in whose acquisition nobody is past
its flag has no sleeper. -/
theorem no_stranded_sleeper (h : LReach w (fun _ _ => True) s) :
    (∀ t, (s.thread t).asleep = true → s.lock.waiting = true) ∧
    (LReach w Disciplined s → s.readers = [] → s.writers = [] → (∀ t, ¬s.Past t) →
      ∀ t, (s.thread t).asleep = false) := by
  refine ⟨h.calm, fun hd _ hw hp t => ?_⟩
  obtain ⟨ow, ou, ho⟩ := hd.sound
  cases ha : (s.thread t).asleep with
  | false => rfl
  | true =>
    have := hd.flagged ha
    rw [ho.flags_down hw hp] at this
    simp at this

theorem not_past_of_out (h : (s.thread t).phase = .out) : ¬s.Past t := not_not.mpr (h ▸ phase_plain_out)

/-- A reader that waited for a writer that is gone. -/
def wokenCalls : List Action := [.call .write 0, .call .read 1, .call .done 0]

def wokenReader : LState := (runIf (step 0) Disciplined (start true) wokenCalls).getD (start true)

theorem wokenReader_not_stranded : (wokenReader.thread 1).phase = .read ∧ (wokenReader.thread 1).asleep = false := by
  have h : LReach 0 Disciplined wokenReader :=
    (Reach.start ⟨true, rfl⟩).run (show runIf (step 0) Disciplined (start true) wokenCalls = some wokenReader from rfl)
  have hp : ∀ t, ¬wokenReader.Past t
    | 0 => not_past_of_out rfl
    | 1 => not_not.mpr (by decide)
    | _ + 2 => not_past_of_out rfl
  exact ⟨rfl, (no_stranded_sleeper (h.mono fun _ _ _ => trivial)).2 h rfl rfl hp 1⟩

/-- A thread releases, upgrades and downgrades only what it holds, but may leave the lock recursive. -/
def Held (s : LState) : Action → Prop
  | .call .done t => t ∈ s.readers ∨ t ∈ s.writers
  | .call .readToWrite t => t ∈ s.readers
  | .call .tryReadToWrite t => t ∈ s.readers
  | .call .writeToRead t => t ∈ s.writers
  | .call .setRecursive t => t ∈ s.writers
  | _ => True

instance (s : LState) (a : Action) : Decidable (Held s a) := by
  cases a with
  | call o t => cases o <;> dsimp only [Held] <;> infer_instance
  | turn t => exact .isTrue trivial
  | sleepable b => exact .isTrue trivial

/-- The first writer goes without `lock_clear_recursive` and then uses the lock while the second has it. -/
def uncleared : List Action :=
  [.call .write 0, .call .setRecursive 0, .call .done 0, .call .write 1, .call .read 0, .call .done 1,
    .call .readToWrite 0, .call .done 0, .call .read 2]

def strandedReader : LState := (runIf (step 0) Held (start true) uncleared).getD (start true)

/-- Nobody holds the lock, nobody is past a flag, and a reader sleeps. -/
theorem uncleared_strands : LReach 0 Held strandedReader ∧ strandedReader.readers = [] ∧
    strandedReader.writers = [] ∧ (∀ t, ¬strandedReader.Past t) ∧ (strandedReader.thread 2).asleep = true := by
  have hp : ∀ t, ¬strandedReader.Past t
    | 0 => not_past_of_out rfl
    | 1 => not_past_of_out rfl
    | 2 => not_not.mpr (by decide)
    | _ + 3 => not_past_of_out rfl
  exact ⟨(Reach.start ⟨true, rfl⟩).run
    (show runIf (step 0) Held (start true) uncleared = some strandedReader from rfl), rfl, rfl, hp, rfl⟩

end MachVM.Kern.Lock
