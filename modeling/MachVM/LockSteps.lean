import MachVM.Lock

namespace MachVM.Kern.Lock

variable {w : Nat} {s r : LState} {t u : ThreadId} {ow ou : Option ThreadId}

theorem Owned.holds_write (h : Owned s ow ou) (ht : t ∈ s.writers) :
    holdsWrite s ow t ∨ holdsUpgrade s ou t := by
  have hc : 0 < s.writers.count t := List.count_pos_iff.mpr ht
  have hw := h.writers t
  unfold deeper at hw
  split at hw
  next he => exact h.recursive t he
  next =>
    by_contra hn
    simp only [not_or, Bool.not_eq_true] at hn
    rw [hn.1, hn.2] at hw
    simp only [Bool.toNat_false] at hw
    omega

theorem Owned.mem_of_holds (h : Owned s ow ou) (ht : holdsWrite s ow t ∨ holdsUpgrade s ou t) :
    t ∈ s.writers := by
  have hd : 0 ≤ deeper s.lock t := by
    unfold deeper
    split
    · exact h.depth
    · exact Int.le_refl 0
  have hw := h.writers t
  have hb : 1 ≤ (holdsWrite s ow t).toNat + (holdsUpgrade s ou t).toNat := by
    rcases ht with ht | ht <;> simp [ht]
  exact List.count_pos_iff.mp (by omega)

theorem Owned.no_writer (h : Owned s none none) : s.writers = [] := by
  rw [List.eq_nil_iff_forall_not_mem]
  intro t ht
  have := h.holds_write ht
  simp [holdsWrite, holdsUpgrade] at this

theorem Owned.acceptReader (h : Owned s ow ou) (hw : ∀ u ∈ s.writers, u = t) :
    Owned (acceptReader s t) ow ou := by
  refine ⟨h.wantWrite, h.wantUpgrade, ?_, h.writeReaders, h.upgrading, h.depth, h.flat, h.recursive, h.writers,
    h.writer, ?_, h.upgrader⟩
  · show s.lock.readCount + 1 = _
    rw [h.readCount]
    simp [Lock.acceptReader]
  · intro x u hx hu
    rcases List.mem_cons.mp hu with rfl | hu
    · exact (hw x hx).symm
    · exact h.reader x u hx hu

theorem Owned.dropReader (h : Owned s ow ou) (ht : t ∈ s.readers) : Owned (dropReader s t) ow ou := by
  refine ⟨h.wantWrite, h.wantUpgrade, ?_, h.writeReaders, h.upgrading, h.depth, h.flat, h.recursive, h.writers,
    h.writer, fun x u hx hu => h.reader x u hx (List.mem_of_mem_erase hu), h.upgrader⟩
  have hl := List.length_erase_of_mem ht
  have hp := List.length_pos_of_mem ht
  have hc := h.readCount
  show s.lock.readCount - 1 = (s.readers.erase t).length
  omega

theorem Owned.deepen (h : Owned s ow ou) (ht : s.lock.thread = some t) : Owned (deepen s t) ow ou := by
  have hm := h.mem_of_holds (h.recursive t ht)
  have hx' : ∀ x ∈ t :: s.writers, x ∈ s.writers := by
    intro x hx
    rcases List.mem_cons.mp hx with rfl | hx
    · exact hm
    · exact hx
  refine ⟨h.wantWrite, h.wantUpgrade, h.readCount, h.writeReaders, h.upgrading, ?_, ?_, h.recursive, ?_, ?_, ?_,
    h.upgrader⟩
  · have := h.depth
    show 0 ≤ s.lock.recursionDepth + 1
    omega
  · intro hn
    exact absurd (ht.symm.trans hn) (by simp)
  · intro u
    have hw := h.writers u
    show ((t :: s.writers).count u : Int) = (holdsWrite s ow u).toNat + (holdsUpgrade s ou u).toNat +
      if s.lock.thread = some u then s.lock.recursionDepth + 1 else 0
    unfold deeper at hw
    rw [ht] at hw ⊢
    rw [List.count_cons]
    by_cases he : t = u
    · subst he
      simp only [↓reduceIte, beq_self_eq_true] at hw ⊢
      omega
    · have he' : some t ≠ some u := fun hc => he (Option.some.inj hc)
      simp only [if_neg he'] at hw ⊢
      simp only [beq_iff_eq, if_neg he]
      omega
  · intro x u hx hu
    rw [h.writer t x hm (hx' x hx), h.writer t u hm (hx' u hu)]
  · intro x u hx hu
    rw [h.writer t x hm (hx' x hx), h.reader t u hm hu]

/-- A thread in a phase of its own choice, the rest as it is. -/
def LState.inPhase (s : LState) (t : ThreadId) (p : Phase) : LState :=
  s.setThread t { s.thread t with phase := p }

theorem phase_inPhase (s : LState) (t : ThreadId) (p : Phase) (u : ThreadId) :
    ((s.inPhase t p).thread u).phase = if u = t then p else (s.thread u).phase := by
  rw [LState.inPhase, thread_setThread]
  split <;> rfl

theorem Owned.ow_none (h : Owned s ow ou) (hw : s.lock.wantWrite = false) : ow = none := by
  rw [h.wantWrite] at hw
  simpa using hw

theorem Owned.ou_none (h : Owned s ow ou) (hu : s.lock.wantUpgrade = false) : ou = none := by
  rw [h.wantUpgrade] at hu
  simpa using hu

theorem Owned.takeWrite (h : Owned s ow ou) (hw : s.lock.wantWrite = false) (hp : (s.thread t).phase.plain) :
    Owned ({ s with lock := { s.lock with wantWrite := true } }.inPhase t .writeReaders) (some t) ou := by
  have hn := h.ow_none hw
  subst hn
  set r := { s with lock := { s.lock with wantWrite := true } }.inPhase t .writeReaders with hr
  have hphase : ∀ u, (r.thread u).phase = if u = t then .writeReaders else (s.thread u).phase := phase_inPhase _ t _
  have hx : ∀ u, holdsWrite r (some t) u = false := by
    intro u
    simp only [holdsWrite, hphase, decide_eq_false_iff_not]
    grind
  have hx' : ∀ u, holdsWrite s none u = false := by simp [holdsWrite]
  have hy : ∀ u, holdsUpgrade r ou u = holdsUpgrade s ou u := by
    intro u
    simp only [holdsUpgrade, hphase]
    grind [Phase.plain]
  have hd : ∀ u, deeper r.lock u = deeper s.lock u := fun _ => rfl
  refine ⟨rfl, h.wantUpgrade, h.readCount, ?_, ?_, h.depth, h.flat, ?_, ?_, h.writer, h.reader, ?_⟩
  · intro u hu
    rw [hphase] at hu
    split at hu
    next he => rw [he]
    next => exact absurd (h.writeReaders u hu) (by simp)
  · intro u hu
    rw [hphase] at hu
    split at hu
    next => simp at hu
    next => exact h.upgrading u hu
  · intro u hu
    rw [hx, hy]
    simpa [hx'] using h.recursive u hu
  · intro u
    have hw := h.writers u
    rw [hx'] at hw
    rw [hx, hy, hd]
    exact hw
  · intro u hu
    rw [hx] at hu
    simp at hu

theorem Owned.no_reader (h : Owned s ow ou) (hr : s.lock.readCount = 0) : s.readers = [] := by
  rw [h.readCount] at hr
  exact List.eq_nil_of_length_eq_zero (by omega)

theorem Owned.not_recursive (h : Owned s ow ou) (hn : s.writers = []) : s.lock.thread = none := by
  cases hc : s.lock.thread with
  | none => rfl
  | some x =>
    have := h.mem_of_holds (h.recursive x hc)
    rw [hn] at this
    simp at this

theorem Owned.gainWrite (h : Owned s ow ou) (hp : (s.thread t).phase = .writeReaders)
    (hr : s.lock.readCount = 0) (hu : s.lock.wantUpgrade = false) :
    Owned ({ s with writers := t :: s.writers }.leave t) ow ou := by
  have how := h.writeReaders t hp
  have hou := h.ou_none hu
  subst how hou
  have hn : s.writers = [] := by
    rw [List.eq_nil_iff_forall_not_mem]
    intro x hx
    have := h.holds_write hx
    simp only [holdsWrite, holdsUpgrade, decide_eq_true_eq] at this
    grind
  have hrd := h.no_reader hr
  have hthread := h.not_recursive hn
  have hdepth := h.flat hthread
  set r := ({ s with writers := t :: s.writers } : LState).leave t with hrdef
  have hphase : ∀ u, (r.thread u).phase = if u = t then .out else (s.thread u).phase := by
    intro u
    rw [hrdef, LState.leave, LState.returns, thread_setThread]
    split <;> rfl
  have hx : ∀ u, holdsWrite r (some t) u = decide (t = u) := by
    intro u
    refine decide_eq_decide.mpr ⟨fun hc => Option.some.inj hc.1, fun he => ⟨congrArg some he, ?_⟩⟩
    rw [hphase, if_pos he.symm]
    simp
  have hw : r.writers = [t] := congrArg (t :: ·) hn
  refine ⟨h.wantWrite, h.wantUpgrade, h.readCount, ?_, ?_, h.depth, h.flat, ?_, ?_, ?_, ?_, fun _ _ => .inl rfl⟩
  · intro u hu'
    rw [hphase] at hu'
    split at hu'
    next => simp at hu'
    next => exact h.writeReaders u hu'
  · intro u hu'
    rw [hphase] at hu'
    split at hu'
    next => simp at hu'
    next => exact h.upgrading u hu'
  · intro u hu'
    exact absurd (hthread.symm.trans hu') (by simp)
  · intro u
    rw [hx, hw, show deeper r.lock u = 0 by unfold deeper; split <;> [exact hdepth; rfl]]
    simp only [holdsUpgrade, List.count_singleton]
    grind
  · rw [hw]
    simp
  · intro x u hx hu'
    have : r.readers = [] := hrd
    rw [this] at hu'
    simp at hu'

theorem Owned.takeUpgrade {p : Phase} (h : Owned s ow ou) (hu : s.lock.wantUpgrade = false)
    (hw : ∀ u ∈ s.writers, u = t) (hq : (s.thread t).phase.plain) (hp : p = .upgrade ∨ p = .tryUpgrade) :
    Owned ({ s with lock := { s.lock with wantUpgrade := true } }.inPhase t p) ow (some t) := by
  have hn := h.ou_none hu
  subst hn
  set r := { s with lock := { s.lock with wantUpgrade := true } }.inPhase t p with hr
  have hphase : ∀ u, (r.thread u).phase = if u = t then p else (s.thread u).phase := phase_inPhase _ t _
  have hx : ∀ u, holdsWrite r ow u = holdsWrite s ow u := by
    intro u
    simp only [holdsWrite, hphase]
    grind [Phase.plain]
  have hy : ∀ u, holdsUpgrade r (some t) u = false := by
    intro u
    simp only [holdsUpgrade, hphase, decide_eq_false_iff_not]
    grind
  have hy' : ∀ u, holdsUpgrade s none u = false := by simp [holdsUpgrade]
  have hd : ∀ u, deeper r.lock u = deeper s.lock u := fun _ => rfl
  refine ⟨h.wantWrite, rfl, h.readCount, ?_, ?_, h.depth, h.flat, ?_, ?_, h.writer, h.reader, ?_⟩
  · intro u hu
    rw [hphase] at hu
    split at hu
    next => simp [hu] at hp
    next => exact h.writeReaders u hu
  · intro u hu
    rw [hphase] at hu
    split at hu
    next he => rw [he]
    next => exact absurd (h.upgrading u hu) (by simp)
  · intro u hu
    rw [hx, hy]
    simpa [hy'] using h.recursive u hu
  · intro u
    have hw := h.writers u
    rw [hy'] at hw
    rw [hx, hy, hd]
    exact hw
  · intro u hu
    rw [hx] at hu
    exact .inr (congrArg some (hw u (h.mem_of_holds (.inl hu))).symm)

theorem Owned.gainUpgrade {b : Bool} (h : Owned s ow ou)
    (hp : (s.thread t).phase = .upgrade ∨ (s.thread t).phase = .tryUpgrade) (hr : s.lock.readCount = 0) :
    Owned (({ s with writers := t :: s.writers } : LState).returns t b) ow ou := by
  have hou := h.upgrading t hp
  subst hou
  have hw : ∀ u ∈ s.writers, u = t := by
    intro u hu
    rcases h.holds_write hu with hx | hx
    · rcases h.upgrader u hx with he | he
      · simp at he
      · exact (Option.some.inj he).symm
    · simp only [holdsUpgrade, decide_eq_true_eq] at hx
      exact (Option.some.inj hx.1).symm
  have hrd := h.no_reader hr
  set r := ({ s with writers := t :: s.writers } : LState).returns t b with hrdef
  have hphase : ∀ u, (r.thread u).phase = if u = t then .out else (s.thread u).phase := by
    intro u
    rw [hrdef, LState.returns, thread_setThread]
    split <;> rfl
  have hx : ∀ u, holdsWrite r ow u = holdsWrite s ow u := by
    intro u
    simp only [holdsWrite, hphase]
    grind
  have hy : ∀ u, (holdsUpgrade r (some t) u).toNat = (holdsUpgrade s (some t) u).toNat + if t = u then 1 else 0 := by
    intro u
    by_cases he : t = u
    · subst he
      have hnew : holdsUpgrade r (some t) t = true := by simp [holdsUpgrade, hphase]
      have hold : holdsUpgrade s (some t) t = false := by rcases hp with hp | hp <;> simp [holdsUpgrade, hp]
      rw [hnew, hold, if_pos rfl]
      rfl
    · have hsame : holdsUpgrade r (some t) u = holdsUpgrade s (some t) u := by simp [holdsUpgrade, he]
      rw [hsame, if_neg he, Nat.add_zero]
  have hd : ∀ u, deeper r.lock u = deeper s.lock u := fun _ => rfl
  have hmem : ∀ u ∈ r.writers, u = t := by
    intro u hu
    rcases List.mem_cons.mp hu with he | hu
    · exact he
    · exact hw u hu
  refine ⟨h.wantWrite, h.wantUpgrade, h.readCount, ?_, ?_, h.depth, h.flat, ?_, ?_, ?_, ?_, ?_⟩
  · intro u hu
    rw [hphase] at hu
    split at hu
    next => simp at hu
    next => exact h.writeReaders u hu
  · intro u hu
    rw [hphase] at hu
    split at hu
    next => simp at hu
    next => exact h.upgrading u hu
  · intro u hu
    rw [hx]
    refine (h.recursive u hu).imp_right fun hb => ?_
    have := hy u
    rw [hb] at this
    grind
  · intro u
    have hc := h.writers u
    rw [hx, hy, hd, show r.writers = t :: s.writers from rfl, List.count_cons]
    simp only [beq_iff_eq]
    omega
  · intro x u hx hu
    rw [hmem x hx, hmem u hu]
  · intro x u hx hu
    have : r.readers = [] := hrd
    rw [this] at hu
    simp at hu
  · intro u hu
    rw [hx] at hu
    exact h.upgrader u hu

theorem Owned.release (h : Owned s ow ou) (ht : t ∈ s.writers) (hp : (s.thread t).phase = .out)
    (hrec : s.lock.thread = some t → 2 ≤ s.writers.count t) :
    ∃ ow' ou', Owned { s with
      lock :=
        if s.lock.recursionDepth != 0 then { s.lock with recursionDepth := s.lock.recursionDepth - 1 }
        else if s.lock.wantUpgrade then { s.lock with wantUpgrade := false }
        else { s.lock with wantWrite := false }
      writers := s.writers.erase t } ow' ou' := by
  have hone : ∀ u ∈ s.writers, u = t := fun u hu => h.writer t u ht hu
  have hcount : ∀ u, ((s.writers.erase t).count u : Int) = s.writers.count u - if t = u then 1 else 0 := by
    intro u
    have := List.count_pos_iff.mpr ht
    rw [List.count_erase]
    grind
  have hsub : ∀ u ∈ s.writers.erase t, u ∈ s.writers := fun u hu => List.mem_of_mem_erase hu
  have hself : ∀ x, s.lock.thread = some x → x = t := fun x hx => hone x (h.mem_of_holds (h.recursive x hx))
  have htw := h.writers t
  split
  next hd =>
    have hne : s.lock.recursionDepth ≠ 0 := by simpa using hd
    have hth : s.lock.thread = some t := by
      cases hc : s.lock.thread with
      | none => exact absurd (h.flat hc) hne
      | some x => rw [hself x hc]
    refine ⟨ow, ou, h.wantWrite, h.wantUpgrade, h.readCount, h.writeReaders, h.upgrading, ?_, ?_, h.recursive, ?_,
      fun x u hx hu => h.writer x u (hsub x hx) (hsub u hu), fun x u hx hu => h.reader x u (hsub x hx) hu, h.upgrader⟩
    · have := h.depth
      show 0 ≤ s.lock.recursionDepth - 1
      omega
    · intro hc
      exact absurd (hth.symm.trans hc) (by simp)
    · intro u
      have hw := h.writers u
      show ((s.writers.erase t).count u : Int) = (holdsWrite s ow u).toNat + (holdsUpgrade s ou u).toNat +
        if s.lock.thread = some u then s.lock.recursionDepth - 1 else 0
      rw [hcount]
      unfold deeper at hw
      rw [hth] at hw ⊢
      by_cases he : t = u
      · subst he
        simp only [↓reduceIte] at hw ⊢
        omega
      · simp only [Option.some.injEq, if_neg he] at hw ⊢
        omega
  next hd =>
    have hzero : s.lock.recursionDepth = 0 := by simpa using hd
    have hdeep : ∀ u, deeper s.lock u = 0 := by
      intro u
      rw [deeper, hzero, ite_self]
    have hbase : 1 ≤ (holdsWrite s ow t).toNat + (holdsUpgrade s ou t).toNat := by
      rcases h.holds_write ht with hb | hb <;> simp [hb]
    rw [hdeep] at htw
    split
    next hu =>
      have hou : ou = some t := by
        rcases h.holds_write ht with hb | hb
        · refine (h.upgrader t hb).resolve_left fun hc => ?_
          rw [h.wantUpgrade, hc] at hu
          simp at hu
        · simp only [holdsUpgrade, decide_eq_true_eq] at hb
          exact hb.1
      subst hou
      have hy : ∀ u, holdsUpgrade s (some t) u = decide (t = u) := by
        intro u
        refine decide_eq_decide.mpr ⟨fun hc => Option.some.inj hc.1, fun he => ⟨congrArg some he, ?_⟩⟩
        rw [← he, hp]
        simp
      refine ⟨ow, none, h.wantWrite, rfl, h.readCount, h.writeReaders, ?_, h.depth, h.flat, ?_, ?_,
        fun x u hx hu => h.writer x u (hsub x hx) (hsub u hu), fun x u hx hu => h.reader x u (hsub x hx) hu,
        fun _ _ => .inl rfl⟩
      · intro u hq
        have he := Option.some.inj (h.upgrading u hq)
        subst he
        have hq' : (s.thread t).phase = .upgrade ∨ (s.thread t).phase = .tryUpgrade := hq
        simp [hp] at hq'
      · intro u hc
        have he := hself u hc
        subst he
        have h2 := hrec hc
        have hb : (holdsUpgrade s (some u) u).toNat ≤ 1 := Bool.toNat_le _
        refine .inl ?_
        show holdsWrite s ow u = true
        cases hx : holdsWrite s ow u with
        | true => rfl
        | false =>
          rw [hx] at htw
          simp only [Bool.toNat_false] at htw
          omega
      · intro u
        have hw := h.writers u
        rw [hdeep, hy] at hw
        show ((s.writers.erase t).count u : Int) = (holdsWrite s ow u).toNat + 0 + deeper s.lock u
        rw [hcount, hdeep]
        by_cases he : t = u
        · simp only [he, decide_true, Bool.toNat_true, ↓reduceIte] at hw ⊢
          omega
        · simp only [he, decide_false, Bool.toNat_false, ↓reduceIte] at hw ⊢
          omega
    next hu =>
      have hou := h.ou_none (by simpa using hu)
      subst hou
      have hy : ∀ u, holdsUpgrade s none u = false := by simp [holdsUpgrade]
      have hb : holdsWrite s ow t = true := by
        cases hx : holdsWrite s ow t with
        | true => rfl
        | false =>
          rw [hx, hy] at hbase
          simp at hbase
      have how : ow = some t := by
        simp only [holdsWrite, decide_eq_true_eq] at hb
        exact hb.1
      subst how
      have hth : s.lock.thread = none := by
        cases hc : s.lock.thread with
        | none => rfl
        | some x =>
          have he := hself x hc
          subst he
          have h2 := hrec hc
          rw [hy, hb] at htw
          simp only [Bool.toNat_true, Bool.toNat_false] at htw
          omega
      have hx : ∀ u, holdsWrite s (some t) u = decide (t = u) := by
        intro u
        simp only [holdsWrite, decide_eq_true_eq] at hb ⊢
        grind
      refine ⟨none, none, rfl, h.wantUpgrade, h.readCount, ?_, h.upgrading, h.depth, h.flat, ?_, ?_,
        fun x u hx hu => h.writer x u (hsub x hx) (hsub u hu), fun x u hx hu => h.reader x u (hsub x hx) hu,
        fun _ _ => .inl rfl⟩
      · intro u hq
        have he := Option.some.inj (h.writeReaders u hq)
        subst he
        exact absurd (hp.symm.trans hq) (by simp)
      · intro u hc
        exact absurd (hth.symm.trans hc) (by simp)
      · intro u
        have hw := h.writers u
        rw [hdeep, hx, hy] at hw
        show ((s.writers.erase t).count u : Int) = 0 + 0 + deeper s.lock u
        rw [hcount, hdeep]
        by_cases he : t = u
        · simp only [he, decide_true, Bool.toNat_true, Bool.toNat_false, ↓reduceIte] at hw ⊢
          omega
        · simp only [he, decide_false, Bool.toNat_false, ↓reduceIte] at hw ⊢
          omega

theorem Owned.setRecursive (h : Owned s ow ou) (ht : t ∈ s.writers) :
    Owned { s with lock := { s.lock with thread := some t } } ow ou := by
  have hself : ∀ x, s.lock.thread = some x → x = t := fun x hx =>
    h.writer t x ht (h.mem_of_holds (h.recursive x hx))
  have hd : ∀ u, (if some t = some u then s.lock.recursionDepth else 0) = deeper s.lock u := by
    intro u
    unfold deeper
    cases hc : s.lock.thread with
    | none => simp [h.flat hc]
    | some x => rw [hself x hc]
  refine ⟨h.wantWrite, h.wantUpgrade, h.readCount, h.writeReaders, h.upgrading, h.depth, ?_, ?_, ?_, h.writer,
    h.reader, h.upgrader⟩
  · intro hc
    simp at hc
  · intro u hu
    rw [← Option.some.inj hu]
    exact h.holds_write ht
  · intro u
    have hw := h.writers u
    rw [← hd] at hw
    exact hw

theorem Owned.clearRecursive (h : Owned s ow ou) (hz : s.lock.recursionDepth = 0) :
    Owned { s with lock := { s.lock with thread := none } } ow ou := by
  refine ⟨h.wantWrite, h.wantUpgrade, h.readCount, h.writeReaders, h.upgrading, h.depth, fun _ => hz, ?_, ?_,
    h.writer, h.reader, h.upgrader⟩
  · intro u hu
    simp at hu
  · intro u
    have hw := h.writers u
    rw [deeper, hz, ite_self] at hw
    exact hw

end MachVM.Kern.Lock
