import MachVM.Lib.Index
import MachVM.Sched

namespace MachVM.Kern.Sched

open Machine Levels

/-- Where a thread that is to run may be. -/
inductive Place
  | active (c : CpuId)
  | slot (c : CpuId)
  | queued (q : RunqId)

def At (s : State) (t : ThreadId) : Place → Prop
  | .active c => s.phase c = .running t
  | .slot c => s.nextThread c = some t
  | .queued q => (s.thread t).runq = some q

/-- `TH_SWAPPED` goes with these. -/
def SwapState.away : SwapState → Bool
  | .unswappable | .inCore => false
  | .goingOut | .wantIn | .out | .comingIn => true

/-- What holds of one thread, which is active or not. -/
structure Thread.Ok (th : Thread) (active : Prop) : Prop where
  bits : th.state.run = true ∨ th.state.wait = true ∨ th.state.susp = true
  event : th.waitEvent ≠ 0 → th.state.wait = true
  waiting : th.state.run = true → th.state.wait = true → active
  away : th.state.swapped = th.swapState.away
  bound : th.state.run = true → th.state.swapped = true → th.swapState = .wantIn ∨ th.swapState = .comingIn
  coming : th.swapState = .wantIn ∨ th.swapState = .comingIn → th.state.wait = false
  asserted : active → th.state.wait = true ∨ th.interruptible = false → th.asserted = true
  suspended : 0 < th.suspendCount → th.state.susp = true

/-- The wait queue that a thread is on. -/
def Thread.bucket (th : Thread) : Option Nat := if th.waitEvent = 0 then none else some (waitHash th.waitEvent)

/-- The list of a run queue that a thread is on. -/
def Thread.list (th : Thread) : Option (RunqId × Nat) := th.runq.map fun q => (q, level th.schedPri)

def State.runqList (s : State) (k : RunqId × Nat) : List ThreadId := (s.queue k.1).runq k.2

/-- Past the look at the next thread. -/
def Phase.looked : Phase → Bool
  | .hint | .chooseLocal | .chooseGlobal | .goIdle | .down | .halted => true
  | .running _ | .idle | .switching | .exiting => false

/-- The processors: those that are idle are in the idle queue and in their idle loops, a processor with a next
thread has been dispatched, and one that is past its look at the next thread has none. -/
structure CpuInv (s : State) : Prop where
  idle : Mirror.Mirrors s.idleQueue fun c => s.cpuState c = .idle
  count : s.idleCount = s.idleQueue.length
  loop : ∀ c, s.cpuState c = .idle → s.phase c = .idle
  slot : ∀ c, s.nextThread c ≠ none → s.cpuState c = .dispatching
  looked : ∀ c, (s.phase c).looked = true → s.nextThread c = none

/-- The invariant, with at most one thread in the hands of an operation: that one is nowhere, and nothing is
said of its state. -/
structure Inv (hand : Option ThreadId) (s : State) : Prop where
  waits : Mirror.Indexed s.waitQueue s.thread Thread.bucket
  lists : Mirror.Indexed s.runqList s.thread Thread.list
  leveled : ∀ q, Leveled nrqs (s.queue q).runq (s.queue q).low (s.queue q).count
  cpus : CpuInv s
  unique : ∀ t p p', At s t p → At s t p' → p = p'
  placed : ∀ t, some t ≠ hand →
    ((∃ p, At s t p) ↔ (s.thread t).state.run = true ∧ (s.thread t).state.swapped = false)
  ok : ∀ t, some t ≠ hand → (s.thread t).Ok (∃ c, s.phase c = .running t)
  nowhere : ∀ t, hand = some t → ∀ p, ¬At s t p

theorem level_lt (pri : Int) : level pri < nrqs := by
  unfold level nrqs
  split <;> omega

variable {s : State} {t u : ThreadId} {c : CpuId} {q : RunqId} {th : Thread} {hand : Option ThreadId}

@[simp] theorem setThread_self : (s.setThread t th).thread t = th := Function.update_self ..

theorem setThread_of_ne (h : u ≠ t) : (s.setThread t th).thread u = s.thread u := Function.update_of_ne h ..

@[simp] theorem modThread_self {f : Thread → Thread} : (s.modThread t f).thread t = f (s.thread t) :=
  Function.update_self ..

theorem modThread_of_ne {f : Thread → Thread} (h : u ≠ t) : (s.modThread t f).thread u = s.thread u :=
  Function.update_of_ne h ..

theorem at_setThread (hq : th.runq = (s.thread t).runq) (u : ThreadId) (p : Place) :
    At (s.setThread t th) u p ↔ At s u p := by
  cases p with
  | active c => exact .rfl
  | slot c => exact .rfl
  | queued q =>
    by_cases hu : u = t
    · subst u
      simp only [At, setThread_self, hq]
    · simp only [At, setThread_of_ne hu]

theorem Inv.setWait {wq : Nat → List ThreadId} (h : Inv hand s)
    (hw : Mirror.Indexed wq (Function.update s.thread t th) Thread.bucket) (hq : th.runq = (s.thread t).runq)
    (hl : th.list = (s.thread t).list) (hr : some t ≠ hand → (th.state.run = true ∧ th.state.swapped = false ↔
      (s.thread t).state.run = true ∧ (s.thread t).state.swapped = false))
    (ho : some t ≠ hand → th.Ok (∃ c, s.phase c = .running t)) :
    Inv hand ({ s with waitQueue := wq }.setThread t th) := by
  have hat : ∀ u p, At ({ s with waitQueue := wq }.setThread t th) u p ↔ At s u p := at_setThread hq
  refine ⟨hw, h.lists.keep hl, h.leveled, ?_, ?_, ?_, ?_, ?_⟩
  · exact ⟨h.cpus.idle, h.cpus.count, h.cpus.loop, h.cpus.slot, h.cpus.looked⟩
  · intro u p p' hup hup'
    exact h.unique u p p' ((hat u p).mp hup) ((hat u p').mp hup')
  · intro u hu
    simp only [hat]
    by_cases hut : u = t
    · subst u
      rw [h.placed t hu, setThread_self, hr hu]
    · rw [h.placed u hu, setThread_of_ne hut]
  · intro u hu
    by_cases hut : u = t
    · subst u
      rw [setThread_self]
      exact ho hu
    · rw [setThread_of_ne hut]
      exact h.ok u hu
  · intro u hu
    exact fun p hup => h.nowhere u hu p ((hat u p).mp hup)

theorem Inv.setThread (h : Inv hand s) (hq : th.runq = (s.thread t).runq) (hl : th.list = (s.thread t).list)
    (he : th.waitEvent = (s.thread t).waitEvent)
    (hr : some t ≠ hand → (th.state.run = true ∧ th.state.swapped = false ↔
      (s.thread t).state.run = true ∧ (s.thread t).state.swapped = false))
    (ho : some t ≠ hand → th.Ok (∃ c, s.phase c = .running t)) : Inv hand (s.setThread t th) :=
  h.setWait (h.waits.keep (by simp only [Thread.bucket, he])) hq hl hr ho

theorem Inv.hand_runq (h : Inv (some t) s) : (s.thread t).runq = none := by
  cases hr : (s.thread t).runq with
  | none => rfl
  | some q => exact absurd hr (h.nowhere t rfl (.queued q))

theorem Inv.setHand (h : Inv (some t) s) (hq : th.runq = none) (he : th.waitEvent = (s.thread t).waitEvent) :
    Inv (some t) (s.setThread t th) := by
  refine h.setThread (hq.trans h.hand_runq.symm) ?_ he (fun hh => absurd rfl hh)
    fun hh => absurd rfl hh
  simp only [Thread.list, hq, h.hand_runq, Option.map_none]

theorem Inv.hand_inactive (h : Inv (some t) s) : ¬∃ c, s.phase c = .running t :=
  fun ⟨c, hc⟩ => h.nowhere t rfl (.active c) hc

theorem Inv.take (h : Inv none s) (hr : ¬((s.thread t).state.run = true ∧ (s.thread t).state.swapped = false)) :
    Inv (some t) s where
  waits := h.waits
  lists := h.lists
  leveled := h.leveled
  cpus := h.cpus
  unique := h.unique
  placed u _ := h.placed u (by simp)
  ok u _ := h.ok u (by simp)
  nowhere u hu := by
    cases Option.some.inj hu
    exact fun p hp => hr ((h.placed t (by simp)).mp ⟨p, hp⟩)

theorem Inv.drop (h : Inv (some t) s) (hr : ¬((s.thread t).state.run = true ∧ (s.thread t).state.swapped = false))
    (ho : (s.thread t).Ok (∃ c, s.phase c = .running t)) : Inv none s where
  waits := h.waits
  lists := h.lists
  leveled := h.leveled
  cpus := h.cpus
  unique := h.unique
  placed u _ := by
    by_cases hu : u = t
    · subst u
      exact iff_of_false (fun ⟨p, hp⟩ => h.nowhere t rfl p hp) hr
    · exact h.placed u (by simpa using hu)
  ok u _ := by
    by_cases hu : u = t
    · subst u
      exact ho
    · exact h.ok u (by simpa using hu)
  nowhere u hu := by simp at hu

theorem Inv.place {r : State} (h : Inv (some t) s) (p₀ : Place)
    (hw : Mirror.Indexed r.waitQueue r.thread Thread.bucket) (hl : Mirror.Indexed r.runqList r.thread Thread.list)
    (hv : ∀ q, Leveled nrqs (r.queue q).runq (r.queue q).low (r.queue q).count) (hc : CpuInv r)
    (hth : ∀ u, u ≠ t → r.thread u = s.thread u) (hat : ∀ u p, At r u p ↔ At s u p ∨ u = t ∧ p = p₀)
    (hr : (r.thread t).state.run = true ∧ (r.thread t).state.swapped = false)
    (ho : (r.thread t).Ok (∃ c, r.phase c = .running t)) : Inv none r where
  waits := hw
  lists := hl
  leveled := hv
  cpus := hc
  unique u p p' hp hp' := by
    rcases (hat u p).mp hp with hp | ⟨rfl, rfl⟩ <;> rcases (hat u p').mp hp' with hp' | ⟨hu, rfl⟩
    · exact h.unique u p p' hp hp'
    · exact absurd hp (h.nowhere u (by rw [hu]) p)
    · exact absurd hp' (h.nowhere u rfl p')
    · rfl
  placed u _ := by
    by_cases hu : u = t
    · subst u
      exact iff_of_true ⟨p₀, (hat t p₀).mpr (.inr ⟨rfl, rfl⟩)⟩ hr
    · rw [hth u hu, ← h.placed u (by simpa using hu)]
      simp only [hat, hu, false_and, or_false]
  ok u _ := by
    by_cases hu : u = t
    · subst u
      exact ho
    · have he : (∃ c, r.phase c = .running u) = ∃ c, s.phase c = .running u := by
        apply propext
        apply exists_congr
        intro c
        have := hat u (.active c)
        simpa only [At, hu, false_and, or_false] using this
      rw [hth u hu, he]
      exact h.ok u (by simpa using hu)
  nowhere u hu := by simp at hu

theorem Inv.unplace {r : State} (h : Inv none s) (p₀ : Place) (hp₀ : At s t p₀)
    (hw : Mirror.Indexed r.waitQueue r.thread Thread.bucket) (hl : Mirror.Indexed r.runqList r.thread Thread.list)
    (hv : ∀ q, Leveled nrqs (r.queue q).runq (r.queue q).low (r.queue q).count) (hc : CpuInv r)
    (hth : ∀ u, u ≠ t → r.thread u = s.thread u) (hat : ∀ u p, At r u p ↔ At s u p ∧ ¬(u = t ∧ p = p₀)) :
    Inv (some t) r where
  waits := hw
  lists := hl
  leveled := hv
  cpus := hc
  unique u p p' hp hp' := h.unique u p p' ((hat u p).mp hp).1 ((hat u p').mp hp').1
  placed u hu := by
    have hu : u ≠ t := by simpa using hu
    rw [hth u hu, ← h.placed u (by simp)]
    simp only [hat, hu, false_and, not_false_eq_true, and_true]
  ok u hu := by
    have hu : u ≠ t := by simpa using hu
    have he : (∃ c, r.phase c = .running u) = ∃ c, s.phase c = .running u := by
      apply propext
      apply exists_congr
      intro c
      have := hat u (.active c)
      simpa only [At, hu, false_and, not_false_eq_true, and_true] using this
    rw [hth u hu, he]
    exact h.ok u (by simp)
  nowhere u hu := by
    cases Option.some.inj hu
    intro p hp
    obtain ⟨hp, hne⟩ := (hat t p).mp hp
    exact hne ⟨rfl, h.unique t p p₀ hp hp₀⟩

end MachVM.Kern.Sched
