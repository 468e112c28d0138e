import MachVM.LockSteps

namespace MachVM.Kern.Lock

open Machine

variable {w : Nat} {s r : LState} {t u : ThreadId} {ow ou : Option ThreadId} {p : Phase} {a : Action}

/-- Only what the threads wait for differs, in the same phases. -/
structure SameHolds (s r : LState) : Prop where
  lock : SameLock s.lock r.lock
  readers : r.readers = s.readers
  writers : r.writers = s.writers
  phase : ∀ u, (r.thread u).phase = (s.thread u).phase

theorem Owned.same (h : Owned s ow ou) (hs : SameHolds s r) : Owned r ow ou :=
  h.congr hs.lock hs.readers hs.writers fun u => .inl (hs.phase u)

theorem wakeWaiters_same (s : LState) : SameHolds s (wakeWaiters s) := by
  unfold wakeWaiters
  split
  · exact ⟨⟨rfl, rfl, rfl, rfl, rfl⟩, rfl, rfl, fun _ => rfl⟩
  · exact ⟨⟨rfl, rfl, rfl, rfl, rfl⟩, rfl, rfl, fun _ => rfl⟩

theorem phase_plain_out : Phase.plain .out := by simp [Phase.plain]

theorem phase_returns (s : LState) (t : ThreadId) (b : Bool) (u : ThreadId) :
    ((s.returns t b).thread u).phase = if u = t then .out else (s.thread u).phase := by
  rw [LState.returns, thread_setThread]
  split <;> rfl

theorem Owned.returns {b : Bool} (h : Owned s ow ou) (hp : (s.thread t).phase.plain) :
    Owned (s.returns t b) ow ou := by
  refine h.congr ⟨rfl, rfl, rfl, rfl, rfl⟩ rfl rfl fun u => ?_
  rw [phase_returns]
  split
  next he => exact .inr ⟨phase_plain_out, he ▸ hp⟩
  next => exact .inl rfl

theorem Owned.inPlain (h : Owned s ow ou) (hp : (s.thread t).phase.plain) (hq : p.plain) :
    Owned (s.inPhase t p) ow ou := by
  refine h.congr ⟨rfl, rfl, rfl, rfl, rfl⟩ rfl rfl fun u => ?_
  rw [phase_inPhase]
  split
  next he => exact .inr ⟨hq, he ▸ hp⟩
  next => exact .inl rfl

theorem sleepOn_same (s : LState) (t : ThreadId) (p : Phase) : SameHolds (s.inPhase t p) (sleepOn s t p) := by
  refine ⟨⟨rfl, rfl, rfl, rfl, rfl⟩, rfl, rfl, fun u => ?_⟩
  rw [phase_inPhase, sleepOn, thread_setThread]
  split <;> rfl

theorem waitLoop_cases {spun busy : Bool} {go : Option LState} (h : waitLoop w s t p spun busy go = some r) :
    busy = false ∧ go = some r ∨ busy = true ∧ SameHolds (s.inPhase t p) r := by
  unfold waitLoop at h
  split at h
  next hb => exact .inl ⟨by simpa using hb, h⟩
  next hb =>
    have hb : busy = true := by simpa using hb
    refine .inr ⟨hb, ?_⟩
    split at h
    next =>
      cases Option.some.inj h
      refine ⟨⟨rfl, rfl, rfl, rfl, rfl⟩, rfl, rfl, fun u => ?_⟩
      rw [phase_inPhase, thread_setThread]
      split <;> rfl
    next =>
      split at h
      next =>
        cases Option.some.inj h
        exact sleepOn_same s t p
      next => simp at h

theorem phase_inPhase_self (s : LState) (t : ThreadId) (p : Phase) : ((s.inPhase t p).thread t).phase = p := by
  rw [phase_inPhase, if_pos rfl]

theorem inPhase_returns (s : LState) (t : ThreadId) (p : Phase) (b : Bool) :
    (s.inPhase t p).returns t b = s.returns t b := by
  simp [LState.returns, LState.inPhase, LState.setThread]

theorem inPhase_leave (s : LState) (t : ThreadId) (p : Phase) : (s.inPhase t p).leave t = s.leave t := by
  rw [LState.leave, inPhase_returns, LState.leave, LState.inPhase, thread_setThread, if_pos rfl]

/-- The flags have owners. -/
def Sound (s : LState) : Prop := ∃ ow ou, Owned s ow ou

theorem writeReadersLoop_sound {spun : Bool} (h : Owned (s.inPhase t .writeReaders) ow ou)
    (hr : writeReadersLoop w s t spun = some r) : Sound r := by
  obtain ⟨hb, hr⟩ | ⟨_, hr⟩ := waitLoop_cases hr
  · cases Option.some.inj hr
    simp only [Bool.or_eq_false_iff, bne_eq_false_iff_eq] at hb
    have hg := h.gainWrite (phase_inPhase_self s t _) hb.1 hb.2
    rw [show ({ s.inPhase t .writeReaders with writers := t :: (s.inPhase t .writeReaders).writers } : LState) =
      LState.inPhase { s with writers := t :: s.writers } t .writeReaders from rfl, inPhase_leave] at hg
    exact ⟨_, _, hg⟩
  · exact ⟨_, _, h.same hr⟩

theorem writeLoop_sound {spun : Bool} (h : Owned s ow ou) (hp : (s.thread t).phase.plain)
    (hr : writeLoop w s t spun = some r) : Sound r := by
  obtain ⟨hb, hr⟩ | ⟨_, hr⟩ := waitLoop_cases hr
  · exact writeReadersLoop_sound (h.takeWrite hb hp) hr
  · exact ⟨_, _, (h.inPlain hp (by simp [Phase.plain])).same hr⟩

theorem readLoop_sound {spun : Bool} (h : Owned s ow ou) (hp : (s.thread t).phase.plain)
    (hr : readLoop w s t spun = some r) : Sound r := by
  obtain ⟨hb, hr⟩ | ⟨_, hr⟩ := waitLoop_cases hr
  · cases Option.some.inj hr
    simp only [Bool.or_eq_false_iff] at hb
    have hw := h.ow_none hb.1
    have hu := h.ou_none hb.2
    subst hw hu
    have hn := h.no_writer
    exact ⟨_, _, (h.acceptReader (by simp [hn])).returns hp⟩
  · exact ⟨_, _, (h.inPlain hp (by simp [Phase.plain])).same hr⟩

theorem upgradeLoop_sound {spun : Bool} (h : Owned (s.inPhase t .upgrade) ow ou)
    (hr : upgradeLoop w s t spun = some r) : Sound r := by
  obtain ⟨hb, hr⟩ | ⟨_, hr⟩ := waitLoop_cases hr
  · cases Option.some.inj hr
    rw [bne_eq_false_iff_eq] at hb
    have hg := h.gainUpgrade (b := false) (.inl (phase_inPhase_self s t _)) hb
    rw [show ({ s.inPhase t .upgrade with writers := t :: (s.inPhase t .upgrade).writers } : LState) =
      LState.inPhase { s with writers := t :: s.writers } t .upgrade from rfl, inPhase_returns] at hg
    exact ⟨_, _, hg⟩
  · exact ⟨_, _, h.same hr⟩

theorem tryUpgradeLoop_sound (h : Owned (s.inPhase t .tryUpgrade) ow ou) : Sound (tryUpgradeLoop s t) := by
  unfold tryUpgradeLoop
  split
  next => exact ⟨_, _, h.same (sleepOn_same s t _)⟩
  next hb =>
    have hb : s.lock.readCount = 0 := by simpa using hb
    have hg := h.gainUpgrade (b := true) (.inr (phase_inPhase_self s t _)) hb
    rw [show ({ s.inPhase t .tryUpgrade with writers := t :: (s.inPhase t .tryUpgrade).writers } : LState) =
      LState.inPhase { s with writers := t :: s.writers } t .tryUpgrade from rfl, inPhase_returns] at hg
    exact ⟨_, _, hg⟩

theorem lockDone_sound (h : Owned s ow ou) (hp : (s.thread t).phase = .out)
    (hd : Disciplined s (.call .done t)) : Sound (lockDone s t) := by
  obtain ⟨hm, hrec⟩ := hd
  unfold lockDone
  by_cases ht : t ∈ s.readers
  · have hc : s.lock.readCount ≠ 0 := by
      have := List.length_pos_of_mem ht
      rw [h.readCount]
      omega
    dsimp only
    rw [if_pos (show (s.lock.readCount != 0) = true by simpa using hc), if_pos ht]
    exact ⟨_, _, (h.dropReader ht).same (wakeWaiters_same _)⟩
  · have hw := hm.resolve_left ht
    have hr : s.readers = [] := by
      rw [List.eq_nil_iff_forall_not_mem]
      intro u hu
      exact ht (h.reader t u hw hu ▸ hu)
    have hc : s.lock.readCount = 0 := by
      rw [h.readCount, hr]
      rfl
    obtain ⟨ow', ou', hg⟩ := h.release hw hp fun hc => (hrec hc).resolve_left ht
    dsimp only
    rw [if_neg (show ¬(s.lock.readCount != 0) = true by simpa using hc), if_neg ht, hr, List.erase_nil, ← hr]
    exact ⟨_, _, hg.same (wakeWaiters_same _)⟩

theorem lockWriteToRead_sound (h : Owned s ow ou) (hp : (s.thread t).phase = .out)
    (hd : Disciplined s (.call .writeToRead t)) : Sound (lockWriteToRead s t) := by
  obtain ⟨hw, hrec⟩ := hd
  obtain ⟨ow', ou', hg⟩ := h.release hw hp hrec
  have hg := hg.acceptReader fun u hu => h.writer t u hw (List.mem_of_mem_erase hu)
  refine ⟨ow', ou', Owned.same ?_ (wakeWaiters_same _)⟩
  refine hg.congr ?_ rfl rfl fun _ => .inl rfl
  dsimp only [acceptReader]
  split
  · exact ⟨rfl, rfl, rfl, rfl, rfl⟩
  · split
    · exact ⟨rfl, rfl, rfl, rfl, rfl⟩
    · exact ⟨rfl, rfl, rfl, rfl, rfl⟩

theorem call_sound {o : Op} (h : Owned s ow ou) (hp : (s.thread t).phase = .out) (hd : Disciplined s (.call o t))
    (hr : call w s t o = some r) : Sound r := by
  have hplain : (s.thread t).phase.plain := hp ▸ phase_plain_out
  have hself : s.lock.thread = some t → ∀ u ∈ s.writers, u = t := fun hc u hu =>
    h.writer t u (h.mem_of_holds (h.recursive t hc)) hu
  cases o with
  | write =>
    simp only [call, lockWrite] at hr
    split at hr
    next hc =>
      cases Option.some.inj hr
      exact ⟨_, _, h.deepen hc⟩
    next => exact writeLoop_sound h hplain hr
  | done =>
    cases Option.some.inj hr
    exact lockDone_sound h hp hd
  | read =>
    simp only [call, lockRead] at hr
    split at hr
    next hc =>
      cases Option.some.inj hr
      exact ⟨_, _, h.acceptReader (hself hc)⟩
    next => exact readLoop_sound h hplain hr
  | readToWrite =>
    have hdrop := h.dropReader hd
    simp only [call, lockReadToWrite] at hr
    split at hr
    next hc =>
      cases Option.some.inj hr
      exact ⟨_, _, (hdrop.deepen hc).returns hplain⟩
    next =>
      split at hr
      next =>
        cases Option.some.inj hr
        exact ⟨_, _, (hdrop.same (wakeWaiters_same _)).returns (((wakeWaiters_same _).phase t).symm ▸ hplain)⟩
      next hu =>
        have hw : ∀ u ∈ s.writers, u = t := fun u hu => (h.reader u t hu hd).symm
        have hf : s.lock.wantUpgrade = false := Bool.eq_false_iff.mpr hu
        exact upgradeLoop_sound (hdrop.takeUpgrade hf hw hplain (.inl rfl)) hr
  | writeToRead =>
    cases Option.some.inj hr
    exact lockWriteToRead_sound h hp hd
  | tryWrite =>
    cases Option.some.inj hr
    unfold lockTryWrite
    split
    next hc => exact ⟨_, _, (h.deepen hc).returns hplain⟩
    next =>
      split
      next => exact ⟨_, _, h.returns hplain⟩
      next hf =>
        simp only [Bool.or_eq_true, bne_iff_ne, not_or, Bool.not_eq_true, ne_eq, not_not] at hf
        have hg := (h.takeWrite hf.1.1 hplain).gainWrite (phase_inPhase_self _ t _) hf.2 hf.1.2
        refine ⟨_, _, Owned.congr hg ⟨rfl, rfl, rfl, rfl, rfl⟩ rfl rfl fun u => .inl ?_⟩
        rw [LState.leave, phase_returns, phase_returns]
        split
        next => rfl
        next hne => exact (phase_inPhase _ t _ u).trans (if_neg hne) |>.symm
  | tryRead =>
    cases Option.some.inj hr
    unfold lockTryRead
    split
    next hc => exact ⟨_, _, (h.acceptReader (hself hc)).returns hplain⟩
    next =>
      split
      next => exact ⟨_, _, h.returns hplain⟩
      next hf =>
        simp only [Bool.or_eq_true, not_or, Bool.not_eq_true] at hf
        have hw := h.ow_none hf.1
        have hu := h.ou_none hf.2
        subst hw hu
        exact ⟨_, _, (h.acceptReader (by simp [h.no_writer])).returns hplain⟩
  | tryReadToWrite =>
    cases Option.some.inj hr
    unfold lockTryReadToWrite
    split
    next hc => exact ⟨_, _, ((h.dropReader hd).deepen hc).returns hplain⟩
    next =>
      split
      next => exact ⟨_, _, h.returns hplain⟩
      next hu =>
        have hw : ∀ u ∈ s.writers, u = t := fun u hu => (h.reader u t hu hd).symm
        have hf : s.lock.wantUpgrade = false := Bool.eq_false_iff.mpr hu
        exact tryUpgradeLoop_sound ((h.dropReader hd).takeUpgrade hf hw hplain (.inr rfl))
  | setRecursive =>
    simp only [call, lockSetRecursive] at hr
    split at hr
    next => simp at hr
    next =>
      cases Option.some.inj hr
      exact ⟨_, _, h.setRecursive hd⟩
  | clearRecursive =>
    simp only [call, lockClearRecursive] at hr
    split at hr
    next => simp at hr
    next =>
      split at hr
      next hz =>
        cases Option.some.inj hr
        exact ⟨_, _, h.clearRecursive hz⟩
      next =>
        cases Option.some.inj hr
        exact ⟨_, _, h⟩

theorem step_sound (h : Sound s) (hd : Disciplined s a) (hr : step w s a = some r) : Sound r := by
  obtain ⟨ow, ou, h⟩ := h
  cases a with
  | call o t =>
    simp only [step] at hr
    split at hr
    next hp => exact call_sound h hp hd hr
    next => simp at hr
  | turn t =>
    simp only [step, nextSection] at hr
    split at hr
    next => simp at hr
    next =>
      have hself : ∀ p, (s.thread t).phase = p → s.inPhase t p = s := by
        intro p hp
        subst hp
        simp [LState.inPhase, LState.setThread]
      cases hp : (s.thread t).phase with
      | out => simp [hp] at hr
      | write =>
        rw [hp] at hr
        exact writeLoop_sound h (by simp [hp, Phase.plain]) hr
      | writeReaders =>
        rw [hp] at hr
        exact writeReadersLoop_sound ((hself _ hp).symm ▸ h) hr
      | read =>
        rw [hp] at hr
        exact readLoop_sound h (by simp [hp, Phase.plain]) hr
      | upgrade =>
        rw [hp] at hr
        exact upgradeLoop_sound ((hself _ hp).symm ▸ h) hr
      | tryUpgrade =>
        rw [hp] at hr
        cases Option.some.inj hr
        exact tryUpgradeLoop_sound ((hself _ hp).symm ▸ h)
  | sleepable b =>
    cases Option.some.inj hr
    exact ⟨ow, ou, h.congr ⟨rfl, rfl, rfl, rfl, rfl⟩ rfl rfl fun _ => .inl rfl⟩

theorem start_sound (b : Bool) : Sound (start b) := by
  refine ⟨none, none, rfl, rfl, rfl, ?_, ?_, Int.le_refl _, fun _ => rfl, ?_, fun _ => rfl, ?_, ?_, fun _ _ => .inl rfl⟩
  all_goals simp [start, lockInit]

theorem LReach.sound (h : LReach w Disciplined s) : Sound s :=
  Reach.invariant (fun _ ⟨b, he⟩ => he ▸ start_sound b) (fun _ _ _ => step_sound) h

end MachVM.Kern.Lock

namespace MachVM.Kern.Lock

open Machine

variable {w : Nat} {s r : LState} {t u : ThreadId}

theorem lockReadToWrite_fails (hr : lockReadToWrite w s t = some r) (hp : (r.thread t).phase = .out)
    (hf : (r.thread t).returned = true) : r.readers = s.readers.erase t ∧ r.writers = s.writers := by
  simp only [lockReadToWrite] at hr
  split at hr
  next =>
    cases Option.some.inj hr
    simp [LState.returns, thread_setThread] at hf
  next =>
    split at hr
    next =>
      cases Option.some.inj hr
      have hs := wakeWaiters_same (dropReader s t)
      exact ⟨hs.readers, hs.writers⟩
    next =>
      obtain ⟨_, hr⟩ | ⟨_, hr⟩ := waitLoop_cases hr
      · cases Option.some.inj hr
        simp [LState.returns, thread_setThread] at hf
      · rw [hr.phase, phase_inPhase_self] at hp
        simp at hp

theorem lockTryReadToWrite_fails (hp : ((lockTryReadToWrite s t).thread t).phase = .out)
    (hf : ((lockTryReadToWrite s t).thread t).returned = false) :
    (lockTryReadToWrite s t).readers = s.readers ∧ (lockTryReadToWrite s t).writers = s.writers := by
  unfold lockTryReadToWrite at hp hf ⊢
  split at hp
  next hc =>
    rw [if_pos hc] at hf
    simp [LState.returns, thread_setThread] at hf
  next hc =>
    rw [if_neg hc] at hf ⊢
    split at hp
    next hu =>
      rw [if_pos hu]
      exact ⟨rfl, rfl⟩
    next hu =>
      rw [if_neg hu] at hf
      unfold tryUpgradeLoop at hp hf
      split at hp
      next => simp [sleepOn, thread_setThread] at hp
      next hb =>
        rw [if_neg hb] at hf
        simp [LState.returns, thread_setThread] at hf

theorem upgrade_granted (hp : (s.thread t).phase = .upgrade ∨ (s.thread t).phase = .tryUpgrade)
    (hr : nextSection w s t = some r) (ho : (r.thread t).phase = .out) : r.writers = t :: s.writers := by
  simp only [nextSection] at hr
  split at hr
  next => simp at hr
  next =>
    rcases hp with hp | hp
    · rw [hp] at hr
      obtain ⟨_, hr⟩ | ⟨_, hr⟩ := waitLoop_cases hr
      · cases Option.some.inj hr
        rfl
      · rw [hr.phase, phase_inPhase_self] at ho
        simp at ho
    · rw [hp] at hr
      cases Option.some.inj hr
      unfold tryUpgradeLoop at ho ⊢
      split at ho
      next => simp [sleepOn, thread_setThread] at ho
      next hb =>
        rw [if_neg hb]
        rfl

/-- A thread that holds the lock for writing holds it alone, `read_count` counts the read holds, and an upgrade
that fails takes the read hold it came with (`lock_read_to_write`) or nothing (`lock_try_read_to_write`). -/
theorem rwlock_exclusion (h : LReach w Disciplined s) :
    (∀ t ∈ s.writers, ∀ u, u ∈ s.writers ∨ u ∈ s.readers → u = t) ∧
    s.lock.readCount = s.readers.length ∧
    (∀ t r, step w s (.call .readToWrite t) = some r → (r.thread t).phase = .out → (r.thread t).returned = true →
      r.readers = s.readers.erase t ∧ r.writers = s.writers) ∧
    (∀ t r, step w s (.call .tryReadToWrite t) = some r → (r.thread t).phase = .out →
      (r.thread t).returned = false → r.readers = s.readers ∧ r.writers = s.writers) ∧
    ∀ t r, (s.thread t).phase = .upgrade ∨ (s.thread t).phase = .tryUpgrade → step w s (.turn t) = some r →
      (r.thread t).phase = .out → r.writers = t :: s.writers := by
  obtain ⟨ow, ou, ho⟩ := h.sound
  refine ⟨fun t ht u hu => hu.elim (ho.writer t u ht) (ho.reader t u ht), ho.readCount, ?_, ?_, ?_⟩
  · intro t r hr hp hf
    simp only [step, call] at hr
    split at hr
    next => exact lockReadToWrite_fails hr hp hf
    next => simp at hr
  · intro t r hr hp hf
    simp only [step, call] at hr
    split at hr
    next =>
      cases Option.some.inj hr
      exact lockTryReadToWrite_fails hp hf
    next => simp at hr
  · intro t r hp hr hq
    exact upgrade_granted hp hr hq

/-- Two readers, one of them twice, and the other one asks for an upgrade. -/
def contendedCalls : List Action := [.call .read 0, .call .read 0, .call .read 1, .call .readToWrite 1]

def contendedUpgrade : LState := (runIf (step 0) Disciplined (start true) contendedCalls).getD (start true)

theorem contendedUpgrade_reach : LReach 0 Disciplined contendedUpgrade :=
  (Reach.start ⟨true, rfl⟩).run
    (show runIf (step 0) Disciplined (start true) contendedCalls = some contendedUpgrade from rfl)

theorem contendedUpgrade_exclusion : (contendedUpgrade.thread 1).phase = .upgrade ∧
    (∀ t ∈ contendedUpgrade.writers, ∀ u, u ∈ contendedUpgrade.writers ∨ u ∈ contendedUpgrade.readers → u = t) ∧
    contendedUpgrade.lock.readCount = contendedUpgrade.readers.length ∧
    ∃ r, step 0 contendedUpgrade (.call .readToWrite 0) = some r ∧ r.readers = contendedUpgrade.readers.erase 0 := by
  have h := rwlock_exclusion contendedUpgrade_reach
  exact ⟨rfl, h.1, h.2.1, _, rfl, (h.2.2.1 0 _ rfl rfl rfl).1⟩

/-- A thread whose upgrade fails still has the lock for reading if it had it twice. -/
theorem failed_upgrade_keeps_hold : ∃ s r, LReach 0 Disciplined s ∧ Disciplined s (.call .readToWrite 0) ∧
    step 0 s (.call .readToWrite 0) = some r ∧ (r.thread 0).phase = .out ∧ (r.thread 0).returned = true ∧
    0 ∈ r.readers :=
  ⟨contendedUpgrade, _, contendedUpgrade_reach, by decide, rfl, rfl, rfl, by decide⟩

end MachVM.Kern.Lock
