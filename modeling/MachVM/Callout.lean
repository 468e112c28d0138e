import MachVM.Lib.Deltas
import MachVM.Lib.Run

namespace MachVM.Bsd.KernClock

open Machine Deltas

abbrev CalloutId := Nat

/-- A call of `timeout`, by its number. -/
abbrev CallNo := Nat

variable {F A : Type}

/-- `struct callout`. -/
structure Callout (F A : Type) where
  cTime : Int
  cArg : A
  cFunc : F

/-- A call of `timeout`, and the tick at which it is due. -/
structure Call (F A : Type) where
  func : F
  arg : A
  deadline : Nat
  deriving DecidableEq

/-- A call of a handler in `softclock`, for the call of `timeout` with a number, with the two arguments of the handler
and the tick at which it is made. -/
structure Firing (F A : Type) where
  call : CallNo
  func : F
  arg : A
  late : Int
  tick : Nat
  deriving DecidableEq

/-- The fields from `now` on are history: the ticks so far, the calls of `timeout`, which of them a pending callout is
of, which have fired, and which have been taken back. -/
structure State (F A : Type) where
  calltodo : List CalloutId
  callfree : List CalloutId
  callout : CalloutId → Callout F A
  now : Nat
  calls : List (Call F A)
  call : CalloutId → CallNo
  fired : List (Firing F A)
  cancelled : List CallNo

def setTime (callout : CalloutId → Callout F A) (p : CalloutId) (t : Int) : CalloutId → Callout F A :=
  Function.update callout p { callout p with cTime := t }

/-- The update of the timeout queue in `hardclock`. -/
def hardclockScan (callout : CalloutId → Callout F A) : List CalloutId → CalloutId → Callout F A
  | [] => callout
  | p1 :: rest =>
    let callout := setTime callout p1 ((callout p1).cTime - 1)
    if 0 < (callout p1).cTime then callout
    else if (callout p1).cTime = 0 then callout
    else hardclockScan callout rest

/-- The loop of `timeout` and what it does at its end. -/
def timeoutScan (callout : CalloutId → Callout F A) (pnew : CalloutId) :
    Int → List CalloutId → List CalloutId × (CalloutId → Callout F A)
  | t, [] => ([pnew], setTime callout pnew t)
  | t, p2 :: rest =>
    if (callout p2).cTime < t then
      let r := timeoutScan callout pnew (if 0 < (callout p2).cTime then t - (callout p2).cTime else t) rest
      (p2 :: r.1, r.2)
    else (pnew :: p2 :: rest, setTime (setTime callout pnew t) p2 ((callout p2).cTime - t))

attribute [local simp] hardclockScan timeoutScan

section Untimeout

variable [DecidableEq F] [DecidableEq A]

/-- The loop of `untimeout`: the callout it removes, with the list and the callouts afterwards. -/
def untimeoutScan (callout : CalloutId → Callout F A) (f : F) (arg : A) :
    List CalloutId → Option (CalloutId × List CalloutId × (CalloutId → Callout F A))
  | [] => none
  | p2 :: rest =>
    if (callout p2).cFunc = f ∧ (callout p2).cArg = arg then
      some (p2, rest,
        match rest with
        | next :: _ => if 0 < (callout p2).cTime then setTime callout next ((callout next).cTime + (callout p2).cTime)
          else callout
        | [] => callout)
    else (untimeoutScan callout f arg rest).map fun r => (r.1, p2 :: r.2.1, r.2.2)

end Untimeout

section Operations

variable (s : State F A)

def hardclock : State F A :=
  { s with callout := hardclockScan s.callout s.calltodo, now := s.now + 1 }

/-- One turn of the loop of `softclock`. The handler that it calls is free to call `timeout` and `untimeout`. -/
def softclock : State F A :=
  match s.calltodo with
  | [] => s
  | p1 :: rest =>
    if 0 < (s.callout p1).cTime then s
    else { s with
      calltodo := rest
      callfree := p1 :: s.callfree
      fired := s.fired ++ [⟨s.call p1, (s.callout p1).cFunc, (s.callout p1).cArg, (s.callout p1).cTime, s.now⟩] }

/-- `timeout`, which panics when there is no free callout. -/
def timeout (f : F) (arg : A) (t : Int) : Option (State F A) :=
  let t := if t ≤ 0 then 1 else t
  match s.callfree with
  | [] => none
  | pnew :: free =>
    let callout := Function.update s.callout pnew { s.callout pnew with cArg := arg, cFunc := f }
    let r := timeoutScan callout pnew t s.calltodo
    some { s with
      calltodo := r.1
      callfree := free
      callout := r.2
      calls := s.calls ++ [⟨f, arg, s.now + t.toNat⟩]
      call := Function.update s.call pnew s.calls.length }

variable [DecidableEq F] [DecidableEq A]

def untimeout (f : F) (arg : A) : State F A :=
  match untimeoutScan s.callout f arg s.calltodo with
  | none => s
  | some (p2, todo, callout) =>
    { s with calltodo := todo, callfree := p2 :: s.callfree, callout, cancelled := s.cancelled ++ [s.call p2] }

end Operations

inductive Action (F A : Type)
  | hardclock
  | softclock
  | timeout (f : F) (arg : A) (t : Int)
  | untimeout (f : F) (arg : A)

def step [DecidableEq F] [DecidableEq A] (s : State F A) : Action F A → Option (State F A)
  | .hardclock => some (hardclock s)
  | .softclock => some (softclock s)
  | .timeout f arg t => timeout s f arg t
  | .untimeout f arg => some (untimeout s f arg)

end MachVM.Bsd.KernClock

namespace MachVM.Bsd.KernClock

open Machine Deltas

variable {F A : Type} {callout : CalloutId → Callout F A} {due : CalloutId → Int} {now base t : Int}
  {l : List CalloutId} {p : CalloutId}

def times (callout : CalloutId → Callout F A) (p : CalloutId) : Int := (callout p).cTime

theorem times_setTime : times (setTime callout p t) = Function.update (times callout) p t := by
  funext q
  by_cases hq : q = p
  · subst q
    simp [times, setTime]
  · simp [times, setTime, hq]

theorem setTime_call {q : CalloutId} :
    (setTime callout p t q).cFunc = (callout q).cFunc ∧ (setTime callout p t q).cArg = (callout q).cArg := by
  by_cases hq : q = p
  · subst q
    simp [setTime]
  · simp [setTime, hq]

theorem hardclockScan_of_not_mem (hp : p ∉ l) : hardclockScan callout l p = callout p := by
  induction l generalizing callout with
  | nil => rfl
  | cons x xs ih =>
    obtain ⟨hx, hxs⟩ : p ≠ x ∧ p ∉ xs := by simpa using hp
    have hset : setTime callout x ((callout x).cTime - 1) p = callout p := Function.update_of_ne hx ..
    rw [hardclockScan]
    split
    next => exact hset
    next =>
      split
      next => exact hset
      next => rw [ih hxs, hset]

theorem hardclockScan_timed (h : Timed due (times callout) now l) (hn : l.Nodup) :
    Timed due (times (hardclockScan callout l)) (now + 1) l := by
  induction l generalizing callout with
  | nil => trivial
  | cons x xs ih =>
    obtain ⟨hx, hxs⟩ := List.nodup_cons.mp hn
    have htime : times (setTime callout x ((callout x).cTime - 1)) x = times callout x - 1 := by
      rw [times_setTime, Function.update_self]
      rfl
    have hother : ∀ y ∈ xs, times (setTime callout x ((callout x).cTime - 1)) y = times callout y := by
      intro y hy
      rw [times_setTime, Function.update_of_ne]
      rintro rfl
      exact hx hy
    rw [hardclockScan]
    change Timed due (times (if 0 < times (setTime callout x ((callout x).cTime - 1)) x then _ else
      if times (setTime callout x ((callout x).cTime - 1)) x = 0 then _ else _)) _ _
    rw [timed_cons] at h
    split at h
    next hle =>
      obtain ⟨hb, hmin, htail⟩ := h
      rw [if_neg (by omega), if_neg (by omega), timed_cons, if_pos]
      · refine ⟨?_, hmin, ih (htail.congr (fun _ _ => rfl) hother) hxs⟩
        rw [times, hardclockScan_of_not_mem hx]
        change due x = now + 1 + times (setTime callout x ((callout x).cTime - 1)) x
        omega
      · rw [times, hardclockScan_of_not_mem hx]
        change times (setTime callout x ((callout x).cTime - 1)) x ≤ 0
        omega
    next hle =>
      obtain ⟨h0, hb, hc⟩ := h
      have hc' : Chain due (times (setTime callout x ((callout x).cTime - 1))) (now + 1) (x :: xs) :=
        ⟨by omega, by omega, hc.congr (fun _ _ => rfl) hother⟩
      split
      next => exact hc'.timed
      next hz => rw [if_pos (by omega)]; exact hc'.timed

theorem timeoutScan_perm {pnew : CalloutId} : (timeoutScan callout pnew t l).1.Perm (pnew :: l) := by
  induction l generalizing t with
  | nil => exact .refl _
  | cons x xs ih =>
    rw [timeoutScan]
    split
    next => exact (ih.cons x).trans (.swap pnew x xs)
    next => exact .refl _

theorem timeoutScan_of_not_mem {pnew : CalloutId} (hp : p ∉ l) (hn : p ≠ pnew) :
    (timeoutScan callout pnew t l).2 p = callout p := by
  induction l generalizing t with
  | nil => exact Function.update_of_ne hn ..
  | cons x xs ih =>
    obtain ⟨hx, hxs⟩ : p ≠ x ∧ p ∉ xs := by simpa using hp
    rw [timeoutScan]
    split
    next => exact ih hxs
    next => exact (Function.update_of_ne hx ..).trans (Function.update_of_ne hn ..)

theorem timeoutScan_chain {pnew : CalloutId} (h : Chain due (times callout) base l) (hn : pnew ∉ l) (hnd : l.Nodup)
    (ht : 0 < t) (hd : due pnew = base + t) :
    Chain due (times (timeoutScan callout pnew t l).2) base (timeoutScan callout pnew t l).1 := by
  induction l generalizing base t with
  | nil =>
    refine ⟨?_, ?_, trivial⟩ <;> simp only [timeoutScan, times_setTime, Function.update_self] <;> omega
  | cons x xs ih =>
    obtain ⟨h0, hb, hc⟩ := h
    obtain ⟨hx, hxs⟩ := List.nodup_cons.mp hnd
    obtain ⟨hnx, hnxs⟩ : pnew ≠ x ∧ pnew ∉ xs := by simpa using hn
    rw [timeoutScan]
    split
    next hlt =>
      replace hlt : times callout x < t := hlt
      have hsame : times (timeoutScan callout pnew
          (if 0 < (callout x).cTime then t - (callout x).cTime else t) xs).2 x = times callout x := by
        rw [times, timeoutScan_of_not_mem hx hnx.symm]
        rfl
      have ht' : (if 0 < (callout x).cTime then t - (callout x).cTime else t) = t - times callout x := by
        change (if 0 < times callout x then t - times callout x else t) = _
        split <;> omega
      refine ⟨by rw [hsame]; exact h0, by rw [hsame]; exact hb, ih hc hnxs hxs ?_ ?_⟩
      · rw [ht']
        omega
      · rw [ht']
        omega
    next hle =>
      replace hle : ¬times callout x < t := hle
      have hnew : times (setTime (setTime callout pnew t) x ((callout x).cTime - t)) pnew = t := by
        rw [times_setTime, Function.update_of_ne hnx, times_setTime, Function.update_self]
      have hnext : times (setTime (setTime callout pnew t) x ((callout x).cTime - t)) x = times callout x - t := by
        rw [times_setTime, Function.update_self]
        rfl
      refine ⟨by rw [hnew]; omega, by rw [hnew]; exact hd, by rw [hnext]; omega, by rw [hnext]; omega, ?_⟩
      refine hc.congr (fun _ _ => rfl) fun y hy => ?_
      have hyx : y ≠ x := by
        rintro rfl
        exact hx hy
      have hyn : y ≠ pnew := by
        rintro rfl
        exact hnxs hy
      rw [times_setTime, Function.update_of_ne hyx, times_setTime, Function.update_of_ne hyn]

theorem timeoutScan_timed {pnew : CalloutId} (h : Timed due (times callout) now l) (hn : pnew ∉ l) (hnd : l.Nodup)
    (ht : 0 < t) (hd : due pnew = now + t) :
    Timed due (times (timeoutScan callout pnew t l).2) now (timeoutScan callout pnew t l).1 := by
  induction l with
  | nil => exact (timeoutScan_chain (l := []) trivial hn hnd ht hd).timed
  | cons x xs ih =>
    obtain ⟨hx, hxs⟩ := List.nodup_cons.mp hnd
    obtain ⟨hnx, hnxs⟩ : pnew ≠ x ∧ pnew ∉ xs := by simpa using hn
    rw [timed_cons] at h
    split at h
    next hle =>
      obtain ⟨hb, hmin, htail⟩ := h
      have hsame : times (timeoutScan callout pnew t xs).2 x = times callout x := by
        rw [times, timeoutScan_of_not_mem hx hnx.symm]
        rfl
      have hscan : timeoutScan callout pnew t (x :: xs) =
          (x :: (timeoutScan callout pnew t xs).1, (timeoutScan callout pnew t xs).2) := by
        have h1 : (callout x).cTime < t := Int.lt_of_le_of_lt hle ht
        have h2 : ¬0 < (callout x).cTime := Int.not_lt.mpr hle
        rw [timeoutScan, if_pos h1, if_neg h2]
      rw [hscan, timed_cons, hsame, if_pos hle]
      refine ⟨hb, fun y hy => ?_, ih htail hnxs hxs⟩
      rcases List.mem_cons.mp (timeoutScan_perm.mem_iff.mp hy) with rfl | hy
      · omega
      · exact hmin y hy
    next => exact (timeoutScan_chain h hn hnd ht hd).timed

section Untimeout

variable [DecidableEq F] [DecidableEq A] {f : F} {arg : A} {r : CalloutId × List CalloutId × (CalloutId → Callout F A)}

theorem untimeoutScan_nil : untimeoutScan callout f arg [] = none := rfl

theorem untimeoutScan_eq_none : untimeoutScan callout f arg l = none ↔
    ∀ p ∈ l, ¬((callout p).cFunc = f ∧ (callout p).cArg = arg) := by
  induction l with
  | nil => simp [untimeoutScan_nil]
  | cons x xs ih =>
    simp only [untimeoutScan, List.forall_mem_cons]
    split
    next hx => simp [hx]
    next hx => rw [Option.map_eq_none_iff, ih]; exact (and_iff_right hx).symm

theorem untimeoutScan_split (hr : untimeoutScan callout f arg l = some r) : ∃ l₁ l₂, l = l₁ ++ r.1 :: l₂ ∧
    r.2.1 = l₁ ++ l₂ ∧ (callout r.1).cFunc = f ∧ (callout r.1).cArg = arg ∧
    (∀ p ∈ l₁, ¬((callout p).cFunc = f ∧ (callout p).cArg = arg)) ∧
    r.2.2 = match l₂ with
      | next :: _ => if 0 < (callout r.1).cTime then setTime callout next ((callout next).cTime + (callout r.1).cTime)
        else callout
      | [] => callout := by
  induction l generalizing r with
  | nil => cases hr
  | cons x xs ih =>
    simp only [untimeoutScan] at hr
    split at hr
    next hx =>
      cases Option.some.inj hr
      exact ⟨[], xs, rfl, rfl, hx.1, hx.2, by simp, rfl⟩
    next hx =>
      obtain ⟨r', hr', rfl⟩ := Option.map_eq_some_iff.mp hr
      obtain ⟨l₁, l₂, hl, h1, hf, ha, hbefore, hc⟩ := ih hr'
      exact ⟨x :: l₁, l₂, by rw [hl]; rfl, by rw [h1]; rfl, hf, ha, List.forall_mem_cons.mpr ⟨hx, hbefore⟩, hc⟩

theorem untimeoutScan_timed (h : Timed due (times callout) now l) (hn : l.Nodup)
    (hr : untimeoutScan callout f arg l = some r) : Timed due (times r.2.2) now r.2.1 := by
  obtain ⟨l₁, l₂, rfl, h1, -, -, -, hc⟩ := untimeoutScan_split hr
  rw [h1]
  cases l₂ with
  | nil => exact h.remove (fun _ _ => by rw [hc]) (by simp) (by simp)
  | cons z zs =>
    obtain ⟨-, hsecond, hdisj⟩ := List.nodup_append.mp hn
    have hz₁ : ∀ y ∈ l₁, y ≠ z := fun y hy => hdisj y hy z (by simp)
    have hz₂ : ∀ y ∈ zs, y ≠ z := by
      rintro y hy rfl
      exact (List.nodup_cons.mp (List.nodup_cons.mp hsecond).2).1 hy
    have htimes : times r.2.2 = Function.update (times callout) z (times callout z + max (times callout r.1) 0) := by
      rw [hc]
      change times (if 0 < times callout r.1 then setTime callout z (times callout z + times callout r.1) else _) = _
      split
      next hpos => rw [times_setTime, max_eq_left hpos.le]
      next hpos => rw [max_eq_right (not_lt.mp hpos), add_zero, Function.update_eq_self]
    refine h.remove (fun y hy => ?_) (fun y hy => ?_) (fun y hy => ?_)
    · rw [htimes, Function.update_of_ne (hz₁ y hy)]
    · cases Option.some.inj hy
      rw [htimes, Function.update_self]
    · rw [htimes, Function.update_of_ne (hz₂ y hy)]

end Untimeout

end MachVM.Bsd.KernClock
