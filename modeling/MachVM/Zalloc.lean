import MachVM.Lib.Owns
import MachVM.Lib.Run
import MachVM.Lib.Words
import Mathlib.Data.List.Count
import Mathlib.Logic.Function.Basic

namespace MachVM.Kern.Zalloc

open Words

abbrev ZoneId := Nat
abbrev ThreadId := Nat

/-- `struct zone`, less what no function below reads. -/
structure Zone where
  count : Int
  freeElements : Nat
  curSize : Nat
  maxSize : Nat
  elemSize : Nat
  allocSize : Nat
  pageable : Bool
  exhaustible : Bool
  deriving DecidableEq, Repr

def pageSize : Nat := 4096

/-- `round_page`, in 32 bits. -/
def roundPage (n : Nat) : Nat := (n + (pageSize - 1)) % 2 ^ 32 / pageSize * pageSize

/-- `zinit`, with what `zchange` sets after it. -/
def zinit (size max alloc : Nat) (pageable exhaustible : Bool) : Zone where
  count := 0
  freeElements := 0
  curSize := 0
  maxSize := Nat.max (roundPage max) (roundPage (if alloc = 0 then pageSize else alloc))
  elemSize := (size + 3) % 2 ^ 32 / 4 * 4
  allocSize := roundPage (if alloc = 0 then pageSize else alloc)
  pageable := pageable
  exhaustible := exhaustible

/-- `zone_ignore_overflow`, whether `zone_map` is there, and the address at which it ends. -/
structure Config where
  ignoreOverflow : Bool
  zoneMap : Bool
  limit : Nat

/-- Where a thread is in `zalloc`. In `zget_space` it has asked for memory (`kmem`), has it and waits for
`zget_space_lock` (`haveSpace`), or has to give it back (`giveBack`); `counting` is the end of `zalloc`.
`growing`, `cramming` and `retry` are the way of a pageable zone; `cramming` has the memory that is not cut
into elements yet. -/
inductive Phase
  | idle
  | getSpace (z : ZoneId)
  | kmem (z : ZoneId)
  | haveSpace (z : ZoneId) (new : Nat)
  | giveBack (z : ZoneId) (result new : Nat)
  | counting (z : ZoneId) (result : Nat)
  | growing (z : ZoneId)
  | cramming (z : ZoneId) (mem size : Nat)
  | retry (z : ZoneId)
  deriving DecidableEq, Repr

/-- The zones, the memory, the window of `zget_space` and the threads. The two lists are history: the elements
that are handed out, and the ranges that came from `kmem_alloc` and the callers of `zcram` and were not given
back. -/
structure ZState where
  zone : ZoneId → Zone
  mem : Bytes
  nextSpace : Nat
  endOfSpace : Nat
  thread : ThreadId → Phase
  out : List (ZoneId × Nat)
  got : List (Nat × Nat)

namespace ZState

def setZone (s : ZState) (z : ZoneId) (x : Zone) : ZState := { s with zone := Function.update s.zone z x }

def setPhase (s : ZState) (t : ThreadId) (p : Phase) : ZState :=
  { s with thread := Function.update s.thread t p }

end ZState

/-- `ADD_TO_ZONE`. -/
def addToZone (s : ZState) (z : ZoneId) (e : Nat) : ZState :=
  let x := s.zone z
  { s.setZone z { x with freeElements := e, count := x.count - 1 } with mem := store32 s.mem e x.freeElements }

/-- `REMOVE_FROM_ZONE`. -/
def removeFromZone (s : ZState) (z : ZoneId) : Nat × ZState :=
  let x := s.zone z
  if x.freeElements ≠ 0 then
    (x.freeElements, s.setZone z { x with count := x.count + 1, freeElements := load32 s.mem x.freeElements })
  else (0, s)

/-- One element of the loop of `zcram`. -/
def cramElement (s : ZState) (z : ZoneId) (newmem : Nat) : ZState :=
  let s := addToZone s z newmem
  s.setZone z { s.zone z with count := (s.zone z).count + 1 }

/-- The loop of `zcram` over the elements that fit. -/
def cramLoop (z : ZoneId) : Nat → ZState → Nat → ZState
  | 0, s, _ => s
  | n + 1, s, newmem => cramLoop z n (cramElement s z newmem) (newmem + (s.zone z).elemSize)

/-- `zcram`. With an element size of 0 the loop does not end. -/
def zcram (s : ZState) (z : ZoneId) (newmem size : Nat) : Option ZState :=
  let x := s.zone z
  if x.elemSize = 0 then none
  else some (cramLoop z (size / x.elemSize) (s.setZone z { x with curSize := (x.curSize + size) % 2 ^ 32 }) newmem)

def spaceToAdd (size : Nat) : Nat := if pageSize < size then roundPage size else pageSize

/-- The end of `zget_space`: the space is taken, and a region that was not needed is to be given back. -/
def takeSpace (s : ZState) (t : ThreadId) (z : ZoneId) (new : Nat) : ZState :=
  let size := (s.zone z).elemSize
  { s with nextSpace := (s.nextSpace + size) % 2 ^ 32 }.setPhase t
    (if new ≠ 0 then .giveBack z s.nextSpace new else .counting z s.nextSpace)

/-- The new region extends the old space or replaces it. -/
def addSpace (s : ZState) (new add : Nat) : ZState :=
  { s with
    nextSpace := if new ≠ s.endOfSpace then new else s.nextSpace
    endOfSpace := (new + add) % 2 ^ 32 }

def noSpace (s : ZState) (size : Nat) : Bool := s.endOfSpace < (s.nextSpace + size) % 2 ^ 32

/-- A section of `zget_space` under its lock, with `new_space` 0 or the region that was allocated. -/
def getSpace (s : ZState) (t : ThreadId) (z : ZoneId) (new : Nat) : ZState :=
  let size := (s.zone z).elemSize
  if noSpace s size then
    if new = 0 then s.setPhase t (.kmem z)
    else
      let s := addSpace s new (spaceToAdd size)
      if noSpace s size then s.setPhase t (.kmem z) else takeSpace s t z 0
  else takeSpace s t z new

/-- `zalloc` with the zone locked, from a `REMOVE_FROM_ZONE` on. `none` is a panic. -/
def zallocTry (c : Config) (s : ZState) (t : ThreadId) (z : ZoneId) : Option ZState :=
  let (addr, s) := removeFromZone s z
  let x := s.zone z
  if addr ≠ 0 then some ({ s with out := (z, addr) :: s.out }.setPhase t .idle)
  else if x.maxSize < (x.curSize + x.elemSize) % 2 ^ 32 ∧ x.exhaustible = true then some (s.setPhase t .idle)
  else if x.maxSize < (x.curSize + x.elemSize) % 2 ^ 32 ∧ c.ignoreOverflow = false then none
  else if c.zoneMap = false then none
  else if x.pageable then some (s.setPhase t (.growing z))
  else some (s.setPhase t (.getSpace z))

def zget (s : ZState) (z : ZoneId) : ZState :=
  let (addr, s) := removeFromZone s z
  if addr ≠ 0 then { s with out := (z, addr) :: s.out } else s

def zfree (s : ZState) (z : ZoneId) (e : Nat) : ZState :=
  addToZone { s with out := s.out.erase (z, e) } z e

/-- The last section of `zalloc` of an element that `zget_space` returned. -/
def countElement (s : ZState) (t : ThreadId) (z : ZoneId) (addr : Nat) : Option ZState :=
  let x := s.zone z
  if addr = 0 then none
  else some ({ s.setZone z { x with count := x.count + 1, curSize := (x.curSize + x.elemSize) % 2 ^ 32 } with
    out := (z, addr) :: s.out }.setPhase t .idle)

/-- What a thread that calls `kmem_alloc` or `kmem_alloc_pageable` asks for. -/
def wants (s : ZState) (t : ThreadId) : Nat :=
  match s.thread t with
  | .kmem z => spaceToAdd (s.zone z).elemSize
  | .growing z => (s.zone z).allocSize
  | _ => 0

/-- `kmem_alloc` or `kmem_alloc_pageable` returns a region. -/
def kmemAlloc (s : ZState) (t : ThreadId) (a : Nat) : Option ZState :=
  let r := { s with got := (a, wants s t) :: s.got }
  match s.thread t with
  | .kmem z => some (r.setPhase t (.haveSpace z a))
  | .growing z => some (r.setPhase t (.cramming z a (wants s t)))
  | _ => none

/-- The next section of a thread in `zalloc`. -/
def turn (c : Config) (s : ZState) (t : ThreadId) : Option ZState :=
  match s.thread t with
  | .getSpace z => some (getSpace s t z 0)
  | .haveSpace z new => some (getSpace s t z new)
  | .giveBack z result new => some ({ s with
      got := s.got.erase (new, spaceToAdd (s.zone z).elemSize) }.setPhase t (.counting z result))
  | .counting z result => countElement s t z result
  | .cramming z mem size => (zcram s z mem size).map fun s => s.setPhase t (.retry z)
  | .retry z => zallocTry c s t z
  | _ => none

inductive Action
  | zalloc (t : ThreadId) (z : ZoneId)
  | zget (z : ZoneId)
  | zfree (z : ZoneId) (e : Nat)
  | zcram (t : ThreadId) (z : ZoneId) (newmem size : Nat)
  | turn (t : ThreadId)
  | kmemAlloc (t : ThreadId) (a : Nat)
  | write (z : ZoneId) (e : Nat) (m : Bytes)

/-- An element's bytes are its owner's to write. -/
def writeElement (s : ZState) (z : ZoneId) (e : Nat) (m : Bytes) : ZState :=
  { s with mem := fun x => if e ≤ x ∧ x < e + (s.zone z).elemSize then m x else s.mem x }

def step (c : Config) (s : ZState) : Action → Option ZState
  | .zalloc t z => if s.thread t = .idle then zallocTry c s t z else none
  | .zget z => some (zget s z)
  | .zfree z e => some (zfree s z e)
  | .zcram t z newmem size =>
    if s.thread t = .idle then zcram { s with got := (newmem, size) :: s.got } z newmem size else none
  | .turn t => turn c s t
  | .kmemAlloc t a => kmemAlloc s t a
  | .write z e m => some (writeElement s z e m)

/-- A range that starts above 0, lies below an address and has no byte in common with the ranges in use. -/
def Fresh (s : ZState) (top a n : Nat) : Prop :=
  a ≠ 0 ∧ a + n ≤ top ∧ ∀ r ∈ s.got, n = 0 ∨ r.2 = 0 ∨ a + n ≤ r.1 ∨ r.1 + r.2 ≤ a

instance (s : ZState) (top a n : Nat) : Decidable (Fresh s top a n) := inferInstanceAs (Decidable (_ ∧ _))

/-- The allocator below returns fresh ranges of `zone_map`, `zcram` gets memory of the caller's own, and only
elements that are handed out are freed and written. -/
def Allowed (c : Config) (s : ZState) : Action → Prop
  | .zfree z e => (z, e) ∈ s.out
  | .write z e _ => (z, e) ∈ s.out
  | .zcram _ _ newmem size => Fresh s (2 ^ 32 - 1) newmem size
  | .kmemAlloc t a => Fresh s c.limit a (wants s t)
  | _ => True

instance (c : Config) (s : ZState) (a : Action) : Decidable (Allowed c s a) := by
  unfold Allowed
  split <;> infer_instance

/-- Zones as `zinit` makes them, and no memory yet. -/
structure Start (s : ZState) : Prop where
  zones : ∀ z, ∃ size max alloc pageable exhaustible, s.zone z = zinit size max alloc pageable exhaustible
  space : s.nextSpace = 0 ∧ s.endOfSpace = 0
  threads : ∀ t, s.thread t = .idle
  history : s.out = [] ∧ s.got = []

/-- The zone's elements are not empty, and 32 bits hold an address of `zone_map` with an element after it. -/
def Sized (c : Config) (x : Zone) : Prop := x.elemSize ≠ 0 ∧ c.limit + x.elemSize < 2 ^ 32

end MachVM.Kern.Zalloc

namespace MachVM.Kern.Zalloc

open Words Owns

variable {c : Config} {k : ZoneId → Nat} {free : ZoneId → List Nat} {s r : ZState} {t u : ThreadId} {z y : ZoneId}
  {e x : Nat}

/-- What a byte can belong to: an element that is handed out or free, the space that `zget_space` has left, a
region in the hands of a thread, an element on its way out of `zget_space`, or nothing of the allocator's. -/
inductive Piece
  | out (z : ZoneId) (e : Nat)
  | free (z : ZoneId) (e : Nat)
  | window
  | hand (t : ThreadId)
  | result (t : ThreadId)
  | wild
  deriving DecidableEq

def Inside (x : Nat) (r : Nat × Nat) : Prop := r.1 ≤ x ∧ x < r.1 + r.2

instance (x : Nat) (r : Nat × Nat) : Decidable (Inside x r) := inferInstanceAs (Decidable (_ ∧ _))

/-- The region a thread has from the allocator below, `k` being the zones' element sizes. -/
def Phase.hand (k : ZoneId → Nat) : Phase → Option (Nat × Nat)
  | .haveSpace z new | .giveBack z _ new => some (new, spaceToAdd (k z))
  | .cramming _ mem size => some (mem, size)
  | _ => none

def Phase.result : Phase → Option (ZoneId × Nat)
  | .giveBack z e _ | .counting z e => some (z, e)
  | _ => none

def owns (k : ZoneId → Nat) (free : ZoneId → List Nat) (s : ZState) : Piece → Nat → Prop
  | .out z e, x => (z, e) ∈ s.out ∧ Inside x (e, k z)
  | .free z e, x => e ∈ free z ∧ Inside x (e, k z)
  | .window, x => s.nextSpace ≤ x ∧ x < s.endOfSpace
  | .hand t, x => ∃ r, (s.thread t).hand k = some r ∧ Inside x r
  | .result t, x => ∃ z e, (s.thread t).result = some (z, e) ∧ Inside x (e, k z)
  | .wild, x => ∀ r ∈ s.got, ¬Inside x r

/-- Every byte has one owner, and the free elements of each zone are linked through their first words. -/
structure ZInv (c : Config) (k : ZoneId → Nat) (free : ZoneId → List Nat) (s : ZState) : Prop where
  size : ∀ z, (s.zone z).elemSize = k z
  sized : ∀ z, 4 ≤ k z ∧ c.limit + k z < 2 ^ 32
  owns : Exclusive (owns k free s)
  linked : ∀ z, Linked s.mem (s.zone z).freeElements (free z)
  freeNodup : ∀ z, (free z).Nodup
  outNodup : s.out.Nodup
  count : ∀ z, (s.zone z).count = s.out.countP fun p => p.1 = z
  window : s.nextSpace ≤ s.endOfSpace ∧ s.endOfSpace ≤ c.limit
  bounds : ∀ r ∈ s.got, 0 < r.1 ∧ r.1 + r.2 < 2 ^ 32
  space : ∀ t z new, s.thread t = .haveSpace z new → new ≠ 0 ∧ new + spaceToAdd (k z) ≤ c.limit

theorem ZInv.covered {p : Piece} (h : ZInv c k free s) (hp : p ≠ .wild) (hx : Zalloc.owns k free s p x) :
    ∃ r ∈ s.got, Inside x r := by
  by_contra hn
  have hw : Zalloc.owns k free s .wild x := fun r hr hi => hn ⟨r, hr, hi⟩
  exact hp (h.owns p .wild x hx hw)

theorem ZInv.addr_bounds {p : Piece} (h : ZInv c k free s) (hp : p ≠ .wild) (hx : Zalloc.owns k free s p x) :
    x ≠ 0 ∧ x < 2 ^ 32 := by
  obtain ⟨r, hr, h1, h2⟩ := h.covered hp hx
  have := h.bounds r hr
  omega

theorem ZInv.out_first (h : ZInv c k free s) (he : (z, e) ∈ s.out) : Zalloc.owns k free s (.out z e) e := by
  have := h.sized z
  exact ⟨he, by show e ≤ e; omega, by show e < e + k z; omega⟩

theorem ZInv.free_first (h : ZInv c k free s) (he : e ∈ free z) : Zalloc.owns k free s (.free z e) e := by
  have := h.sized z
  exact ⟨he, by show e ≤ e; omega, by show e < e + k z; omega⟩

theorem ZInv.first_free (h : ZInv c k free s) (hn : (s.zone z).freeElements ≠ 0) :
    ∃ l, free z = (s.zone z).freeElements :: l ∧ Linked s.mem (load32 s.mem (s.zone z).freeElements) l := by
  have hl := h.linked z
  cases hf : free z with
  | nil =>
    rw [hf] at hl
    exact absurd hl hn
  | cons e l =>
    rw [hf] at hl
    obtain ⟨he, _, hl⟩ := hl
    rw [he]
    exact ⟨l, rfl, hl⟩

theorem ZInv.quiet (h : ZInv c k free s) (hz : ∀ z, (r.zone z).elemSize = (s.zone z).elemSize ∧
      (r.zone z).freeElements = (s.zone z).freeElements ∧ (r.zone z).count = (s.zone z).count)
    (hm : r.mem = s.mem) (hn : r.nextSpace = s.nextSpace) (he : r.endOfSpace = s.endOfSpace) (ho : r.out = s.out)
    (hg : r.got = s.got) (ht : ∀ t, r.thread t = s.thread t ∨ (r.thread t).hand k = none ∧ (r.thread t).result = none) :
    ZInv c k free r := by
  refine ⟨fun z => (hz z).1.trans (h.size z), h.sized, h.owns.shrink fun p x hx => ?_, fun z => ?_, h.freeNodup,
    ho ▸ h.outNodup, fun z => ?_, ?_, hg ▸ h.bounds, fun t z new hp => ?_⟩
  · cases p with
    | out z e => exact ⟨ho ▸ hx.1, hx.2⟩
    | free z e => exact hx
    | window => exact ⟨hn ▸ hx.1, he ▸ hx.2⟩
    | hand t =>
      obtain ⟨q, hq, hi⟩ := hx
      rcases ht t with hs | ⟨hs, _⟩
      · exact ⟨q, hs ▸ hq, hi⟩
      · exact absurd (hs.symm.trans hq) (by simp)
    | result t =>
      obtain ⟨z, e, hq, hi⟩ := hx
      rcases ht t with hs | ⟨_, hs⟩
      · exact ⟨z, e, hs ▸ hq, hi⟩
      · exact absurd (hs.symm.trans hq) (by simp)
    | wild =>
      intro q hq
      exact hx q (hg ▸ hq)
  · rw [hm, (hz z).2.1]
    exact h.linked z
  · rw [(hz z).2.2, ho]
    exact h.count z
  · rw [hn, he]
    exact h.window
  · rcases ht t with hs | ⟨hs, _⟩
    · exact h.space t z new (hs ▸ hp)
    · rw [hp] at hs
      simp [Phase.hand] at hs

theorem thread_setPhase (s : ZState) (t : ThreadId) (p : Phase) (u : ThreadId) :
    (s.setPhase t p).thread u = if u = t then p else s.thread u :=
  Function.update_apply ..

theorem ZInv.setQuiet {p : Phase} (h : ZInv c k free s) (hp : p.hand k = none ∧ p.result = none) :
    ZInv c k free (s.setPhase t p) := by
  refine h.quiet (fun _ => ⟨rfl, rfl, rfl⟩) rfl rfl rfl rfl rfl fun u => ?_
  rw [thread_setPhase]
  split
  · exact .inr hp
  · exact .inl rfl

theorem zone_setZone (s : ZState) (z : ZoneId) (x : Zone) (y : ZoneId) :
    (s.setZone z x).zone y = if y = z then x else s.zone y :=
  Function.update_apply ..

end MachVM.Kern.Zalloc
