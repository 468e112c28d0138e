import MachVM.ZallocSteps

namespace MachVM.Kern.Zalloc

open Words Owns Machine

variable {c : Config} {k : ZoneId → Nat} {free : ZoneId → List Nat} {s r : ZState} {t u : ThreadId} {z y : ZoneId}
  {e x n : Nat} {a : Action}

def Sound (c : Config) (k : ZoneId → Nat) (s : ZState) : Prop := ∃ free, ZInv c k free s

theorem setPhase_setPhase (s : ZState) (t : ThreadId) (p q : Phase) :
    (s.setPhase t p).setPhase t q = s.setPhase t q := by
  simp [ZState.setPhase]

theorem setPhase_self {p : Phase} (h : s.thread t = p) : s.setPhase t p = s := by
  subst h
  simp [ZState.setPhase]

theorem cramLoop_thread (z : ZoneId) (n : Nat) (s : ZState) (mem : Nat) : (cramLoop z n s mem).thread = s.thread := by
  induction n generalizing s mem with
  | zero => rfl
  | succ n ih => exact ih (cramElement s z mem) _

theorem cramLoop_sound {mem size : Nat} (h : ZInv c k free (s.setPhase t (.cramming z mem size)))
    (hn : n * k z ≤ size) :
    Sound c k ((cramLoop z n s mem).setPhase t (.cramming z (mem + n * k z) (size - n * k z))) := by
  induction n generalizing s mem size free with
  | zero =>
    rw [Nat.zero_mul]
    exact ⟨free, h⟩
  | succ n ih =>
    rw [Nat.add_mul, Nat.one_mul] at hn
    obtain ⟨free', h'⟩ := h.cramElement (by rw [thread_setPhase, if_pos rfl]) (by omega)
    have he : (cramElement (s.setPhase t (.cramming z mem size)) z mem).setPhase t
        (.cramming z (mem + k z) (size - k z)) =
        (cramElement s z mem).setPhase t (.cramming z (mem + k z) (size - k z)) := by
      rw [show cramElement (s.setPhase t (.cramming z mem size)) z mem =
        (cramElement s z mem).setPhase t (.cramming z mem size) from rfl, setPhase_setPhase]
    rw [he] at h'
    have := ih h' (by omega)
    have hz : (s.zone z).elemSize = k z := h.size z
    rw [cramLoop, hz, Nat.add_mul, Nat.one_mul]
    rwa [Nat.add_assoc, Nat.add_comm (k z), Nat.sub_sub, Nat.add_comm (k z)] at this

theorem zcram_sound {mem size : Nat} {p : Phase} (h : ZInv c k free (s.setPhase t (.cramming z mem size)))
    (hr : zcram s z mem size = some r) (hp : p.hand k = none ∧ p.result = none) : Sound c k (r.setPhase t p) := by
  unfold zcram at hr
  dsimp only at hr
  split at hr
  next => simp at hr
  next =>
    cases Option.some.inj hr
    set q := s.setZone z { s.zone z with curSize := ((s.zone z).curSize + size) % 2 ^ 32 } with hq
    have hz : (s.zone z).elemSize = k z := h.size z
    have hi : ZInv c k free (q.setPhase t (.cramming z mem size)) := by
      refine h.quiet (fun y => ?_) rfl rfl rfl rfl rfl fun _ => .inl rfl
      show (q.zone y).elemSize = (s.zone y).elemSize ∧ (q.zone y).freeElements = (s.zone y).freeElements ∧
        (q.zone y).count = (s.zone y).count
      rw [hq, zone_setZone]
      split
      next hyz =>
        subst hyz
        exact ⟨rfl, rfl, rfl⟩
      next => exact ⟨rfl, rfl, rfl⟩
    obtain ⟨free', h'⟩ := cramLoop_sound (n := size / k z) hi (Nat.div_mul_le_self ..)
    have := h'.setQuiet (t := t) hp
    rw [setPhase_setPhase] at this
    rw [hz]
    exact ⟨free', this⟩

theorem removeFromZone_fst (s : ZState) (z : ZoneId) : (removeFromZone s z).1 = (s.zone z).freeElements := by
  unfold removeFromZone
  dsimp only
  split
  next => rfl
  next h => exact (not_not.mp h).symm

theorem removeFromZone_empty (h : (removeFromZone s z).1 = 0) : (removeFromZone s z).2 = s := by
  rw [removeFromZone_fst] at h
  rw [removeFromZone, if_neg (not_not.mpr h)]

theorem zget_sound (h : ZInv c k free s) : Sound c k (zget s z) := by
  unfold zget
  dsimp only
  split
  next hn =>
    rw [removeFromZone_fst] at hn
    obtain ⟨free', h'⟩ := h.handOut hn
    have ho : (removeFromZone s z).2.out = s.out := by
      rw [removeFromZone, if_pos hn]
      rfl
    rw [ho]
    exact ⟨free', h'⟩
  next hn =>
    rw [removeFromZone_empty (not_not.mp hn)]
    exact ⟨free, h⟩

theorem zallocTry_sound (h : ZInv c k free s) (hr : zallocTry c s t z = some r) : Sound c k r := by
  have hget : Sound c k (zget s z) := zget_sound h
  unfold zallocTry at hr
  unfold zget at hget
  dsimp only at hr hget
  split at hr
  next hn =>
    rw [if_pos hn] at hget
    obtain ⟨free', h'⟩ := hget
    cases Option.some.inj hr
    exact ⟨free', h'.setQuiet ⟨rfl, rfl⟩⟩
  next hn =>
    rw [removeFromZone_empty (not_not.mp hn)] at hr
    split at hr
    next =>
      cases Option.some.inj hr
      exact ⟨free, h.setQuiet ⟨rfl, rfl⟩⟩
    next =>
      split at hr
      next => simp at hr
      next =>
        split at hr
        next => simp at hr
        next =>
          split at hr
          all_goals
            cases Option.some.inj hr
            exact ⟨free, h.setQuiet ⟨rfl, rfl⟩⟩

theorem getSpace_sound {new : Nat} (h : ZInv c k free s)
    (hp : s.thread t = if new = 0 then .getSpace z else .haveSpace z new) : Sound c k (getSpace s t z new) := by
  have hk : (s.zone z).elemSize = k z := h.size z
  unfold getSpace
  dsimp only
  by_cases hn : noSpace s (s.zone z).elemSize = true
  · rw [if_pos hn]
    split
    next => exact ⟨free, h.setQuiet ⟨rfl, rfl⟩⟩
    next hnew =>
      rw [if_neg hnew] at hp
      rw [hk]
      have h' := h.addSpace hp (p := .getSpace z) ⟨rfl, rfl⟩
      set q := addSpace s new (spaceToAdd (k z)) with hq
      have hqk : (q.zone z).elemSize = k z := hk
      split
      next =>
        have := h'.setQuiet (t := t) (p := .kmem z) ⟨rfl, rfl⟩
        rw [setPhase_setPhase] at this
        exact ⟨free, this⟩
      next hns =>
        have hns' : noSpace (q.setPhase t (.getSpace z)) ((q.setPhase t (.getSpace z)).zone z).elemSize = false := by
          show noSpace q (q.zone z).elemSize = false
          rw [hqk]
          exact Bool.eq_false_iff.mpr hns
        have he : takeSpace (q.setPhase t (.getSpace z)) t z 0 = takeSpace q t z 0 := by
          simp [takeSpace, ZState.setPhase]
        exact ⟨free, he ▸ h'.takeSpace hns' (by simp)⟩
  · rw [if_neg hn]
    refine ⟨free, h.takeSpace (Bool.eq_false_iff.mpr hn) fun q hq => ?_⟩
    split at hq
    next hnew =>
      rw [hp, if_neg hnew, ← hq]
      rfl
    next => simp at hq

theorem kmemAlloc_sound {b : Nat} (h : ZInv c k free s) (ha : Fresh s c.limit b (wants s t))
    (hr : kmemAlloc s t b = some r) : Sound c k r := by
  obtain ⟨h0, htop, hfresh⟩ := ha
  unfold kmemAlloc at hr
  dsimp only at hr
  split at hr
  next y hp =>
    cases Option.some.inj hr
    have hw : wants s t = spaceToAdd (k y) := by simp only [wants, hp, h.size y]
    rw [hw] at hfresh htop ⊢
    have hy := h.sized y
    refine ⟨free, h.obtain hfresh ⟨by omega, by omega⟩ rfl rfl fun z new he => ?_⟩
    obtain ⟨rfl, rfl⟩ := Phase.haveSpace.inj he
    exact ⟨h0, htop⟩
  next y hp =>
    cases Option.some.inj hr
    have hy := h.sized y
    exact ⟨free, h.obtain hfresh ⟨by omega, by omega⟩ rfl rfl fun z new he => by simp at he⟩
  next => simp at hr

theorem turn_sound (h : ZInv c k free s) (hr : turn c s t = some r) : Sound c k r := by
  unfold turn at hr
  split at hr
  next z hp =>
    cases Option.some.inj hr
    exact getSpace_sound h hp
  next z new hp =>
    cases Option.some.inj hr
    exact getSpace_sound h (by rw [hp, if_neg (h.space t z new hp).1])
  next z e new hp =>
    cases Option.some.inj hr
    exact ⟨free, h.giveBack hp⟩
  next z e hp => exact ⟨free, h.countElement hp hr⟩
  next z mem size hp =>
    obtain ⟨q, hq, rfl⟩ := Option.map_eq_some_iff.mp hr
    exact zcram_sound ((setPhase_self hp).symm ▸ h) hq ⟨rfl, rfl⟩
  next z hp => exact zallocTry_sound h hr
  next => simp at hr

theorem writeElement_sound {m : Bytes} (h : ZInv c k free s) (ho : (z, e) ∈ s.out) :
    Sound c k (writeElement s z e m) := by
  refine ⟨free, ?_⟩
  refine { h with
    linked := fun y => (h.linked y).congr fun f hf i hi => ?_ }
  show (if e ≤ f + i ∧ f + i < e + (s.zone z).elemSize then m (f + i) else s.mem (f + i)) = _
  rw [h.size z]
  refine if_neg fun hc => ?_
  have hy := h.sized y
  have h1 : Zalloc.owns k free s (.out z e) (f + i) := ⟨ho, hc⟩
  have h2 : Zalloc.owns k free s (.free y f) (f + i) := ⟨hf, by show f ≤ f + i; omega, by show f + i < f + k y; omega⟩
  cases h.owns _ _ _ h1 h2

theorem step_sound (h : Sound c k s) (ha : Allowed c s a) (hr : step c s a = some r) : Sound c k r := by
  obtain ⟨free, h⟩ := h
  cases a with
  | zalloc t z =>
    simp only [step] at hr
    split at hr
    next => exact zallocTry_sound h hr
    next => simp at hr
  | zget z =>
    cases Option.some.inj hr
    exact zget_sound h
  | zfree z e =>
    cases Option.some.inj hr
    exact h.zfree ha
  | zcram t z newmem size =>
    simp only [step] at hr
    split at hr
    next hp =>
      obtain ⟨h0, htop, hfresh⟩ := ha
      have h' := h.obtain (t := t) (p := .cramming z newmem size) hfresh ⟨by omega, by omega⟩ rfl rfl
        fun _ _ he => by simp at he
      obtain ⟨free', hs⟩ := zcram_sound (p := .idle) h' hr ⟨rfl, rfl⟩
      refine ⟨free', ?_⟩
      have hidle : r.thread t = .idle := by
        unfold zcram at hr
        dsimp only at hr
        split at hr
        next => simp at hr
        next =>
          cases Option.some.inj hr
          rw [cramLoop_thread]
          exact hp
      rwa [setPhase_self hidle] at hs
    next => simp at hr
  | turn t => exact turn_sound h hr
  | kmemAlloc t b => exact kmemAlloc_sound h ha hr
  | write z e m =>
    cases Option.some.inj hr
    exact writeElement_sound h ha

/-- The runs from zones with no memory. -/
abbrev ZReach (c : Config) (ok : Zone → Prop) : ZState → Prop :=
  Reach (fun s => Start s ∧ ∀ z, ok (s.zone z)) (step c) (Allowed c)

theorem start_sound (hs : Start s) (hz : ∀ z, Sized c (s.zone z)) : Sound c (fun z => (s.zone z).elemSize) s := by
  refine ⟨fun _ => [], fun _ => rfl, fun z => ?_, ?_, fun z => ?_, fun _ => List.nodup_nil, ?_, fun z => ?_, ?_, ?_,
    fun t z new hp => by rw [hs.threads t] at hp; simp at hp⟩
  · obtain ⟨size, max, alloc, pageable, exhaustible, hzone⟩ := hs.zones z
    obtain ⟨h0, hl⟩ := hz z
    refine ⟨?_, hl⟩
    simp only [hzone, zinit] at h0 ⊢
    omega
  · intro p q x hp hq
    have hwild : ∀ p, Zalloc.owns (fun z => (s.zone z).elemSize) (fun _ => []) s p x → p = .wild := by
      intro p hp
      cases p with
      | out z e => simp [Zalloc.owns, hs.history.1] at hp
      | free z e => simp [Zalloc.owns] at hp
      | window =>
        have h1 := hp.2
        rw [hs.space.2] at h1
        omega
      | hand t => simp [Zalloc.owns, hs.threads t, Phase.hand] at hp
      | result t => simp [Zalloc.owns, hs.threads t, Phase.result] at hp
      | wild => rfl
    rw [hwild p hp, hwild q hq]
  · obtain ⟨size, max, alloc, pageable, exhaustible, hzone⟩ := hs.zones z
    rw [hzone]
    rfl
  · rw [hs.history.1]
    exact List.nodup_nil
  · obtain ⟨size, max, alloc, pageable, exhaustible, hzone⟩ := hs.zones z
    rw [hzone, hs.history.1]
    rfl
  · rw [hs.space.1, hs.space.2]
    omega
  · intro r hr
    rw [hs.history.2] at hr
    simp at hr

theorem ZReach.sound (h : ZReach c (Sized c) s) : ∃ k, Sound c k s := by
  induction h with
  | start hi => exact ⟨_, start_sound hi.1 hi.2⟩
  | next _ ha hr ih =>
    obtain ⟨k, hk⟩ := ih
    exact ⟨k, step_sound hk ha hr⟩

/-- Elements that are handed out, free elements, the space left and what the threads have in their hands have no byte in
common, and all of it is memory that was obtained; no element is handed out twice, and each zone counts the elements it
has handed out. -/
theorem zone_soundness (h : ZReach c (Sized c) s) : ∃ free : ZoneId → List Nat,
    (∀ z, Linked s.mem (s.zone z).freeElements (free z) ∧ (free z).Nodup) ∧
    Exclusive (owns (fun z => (s.zone z).elemSize) free s) ∧
    (∀ p x, p ≠ .wild → owns (fun z => (s.zone z).elemSize) free s p x → ∃ r ∈ s.got, Inside x r) ∧
    s.out.Nodup ∧
    ∀ z, (s.zone z).count = s.out.countP fun q => q.1 = z := by
  obtain ⟨k, free, hi⟩ := h.sound
  have hk : (fun z => (s.zone z).elemSize) = k := funext hi.size
  rw [hk]
  exact ⟨free, fun z => ⟨hi.linked z, hi.freeNodup z⟩, hi.owns, fun p x hp hx => hi.covered hp hx, hi.outNodup,
    hi.count⟩

/-- The zones of the examples: elements of 8 bytes, of none and of a gigabyte. -/
def exampleZone : ZoneId → Zone
  | 1 => zinit 0 4096 0 false false
  | 2 => zinit (2 ^ 30) (2 ^ 30) 0 false false
  | _ => zinit 8 4096 0 false false

def exampleConfig : Config := ⟨false, true, 0xc0800000⟩

def exampleStart (zone : ZoneId → Zone) : ZState := ⟨zone, fun _ => 0, 0, 0, fun _ => .idle, [], []⟩

theorem exampleStart_start {zone : ZoneId → Zone}
    (h : ∀ z, ∃ size max alloc pageable exhaustible, zone z = zinit size max alloc pageable exhaustible) :
    Start (exampleStart zone) :=
  ⟨h, ⟨rfl, rfl⟩, fun _ => rfl, rfl, rfl⟩

/-- A thread gets the first element of a zone, and with it a page. -/
def firstElement (z : ZoneId) : List Action := [.zalloc 0 z, .turn 0, .kmemAlloc 0 0xc0000000, .turn 0, .turn 0]

/-- The second thread's page is not needed any more when it comes. -/
def twoElements : List Action :=
  [.zalloc 0 0, .turn 0, .zalloc 1 0, .turn 1, .kmemAlloc 0 0xc0000000, .turn 0, .turn 0,
    .kmemAlloc 1 0xc0002000, .turn 1, .turn 1, .turn 1]

def smallZones : ZState := exampleStart fun _ => zinit 8 4096 0 false false

def sharedPage : ZState := (runIf (step exampleConfig) (Allowed exampleConfig) smallZones twoElements).getD smallZones

theorem sharedPage_soundness : sharedPage.out = [(0, 0xc0000008), (0, 0xc0000000)] ∧
    sharedPage.got = [(0xc0000000, 4096)] ∧ (sharedPage.zone 0).count = 2 ∧ sharedPage.out.Nodup := by
  have hsize : Sized exampleConfig (zinit 8 4096 0 false false) := by constructor <;> decide
  have h : ZReach exampleConfig (Sized exampleConfig) sharedPage :=
    (Reach.start ⟨exampleStart_start fun _ => ⟨8, 4096, 0, false, false, rfl⟩, fun _ => hsize⟩).run
      (show runIf (step exampleConfig) (Allowed exampleConfig) smallZones twoElements = some sharedPage from rfl)
  obtain ⟨_, _, _, _, ho, hc⟩ := zone_soundness h
  exact ⟨rfl, rfl, (hc 0).trans rfl, ho⟩

def exampleRun (as : List Action) : ZState :=
  (runIf (step exampleConfig) (Allowed exampleConfig) (exampleStart exampleZone) as).getD (exampleStart exampleZone)

/-- Two elements of no bytes have one address, and the gigabyte, whose end does not fit in 32 bits, is handed out of
a page. -/
def degenerateCalls : List Action :=
  firstElement 0 ++ [.zalloc 0 1, .turn 0, .turn 0, .zalloc 0 1, .turn 0, .turn 0, .zalloc 0 2, .turn 0, .turn 0]

theorem degenerate_zones : ZReach exampleConfig (fun _ => True) (exampleRun degenerateCalls) ∧
    ¬(exampleRun degenerateCalls).out.Nodup ∧
    ∃ z e x, (z, e) ∈ (exampleRun degenerateCalls).out ∧
      Inside x (e, ((exampleRun degenerateCalls).zone z).elemSize) ∧
      ∀ r ∈ (exampleRun degenerateCalls).got, ¬Inside x r := by
  have hzone : ∀ z, ∃ size max alloc pageable exhaustible,
      exampleZone z = zinit size max alloc pageable exhaustible := by
    intro z
    unfold exampleZone
    split
    · exact ⟨_, _, _, _, _, rfl⟩
    · exact ⟨_, _, _, _, _, rfl⟩
    · exact ⟨_, _, _, _, _, rfl⟩
  refine ⟨(Reach.start ⟨exampleStart_start hzone, fun _ => trivial⟩).run
    (show runIf (step exampleConfig) (Allowed exampleConfig) (exampleStart exampleZone) degenerateCalls =
      some (exampleRun degenerateCalls) from rfl), by decide, 2, 0xc0000008, 0xc0002000, by decide, by decide, by decide⟩

end MachVM.Kern.Zalloc
