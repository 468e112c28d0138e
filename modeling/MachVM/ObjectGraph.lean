import MachVM.Lib.Tally
import MachVM.Object

namespace MachVM

open Tally

/-- What one object contributes to the object graph. -/
structure ObjLink where
  alive : Bool
  shadow : Option ObjId
  shadowOffset : VmOffset
  copy : Option ObjId
  refCount : Int
  temporary : Bool
  internal : Bool
  canPersist : Bool

/-- The objects without their pages and pagers. -/
structure ObjGraph where
  next : ObjId
  link : ObjId → ObjLink
  cachedList : List ObjId

def VmObject.link (x : VmObject) : ObjLink where
  alive := x.alive
  shadow := x.shadow
  shadowOffset := x.shadowOffset
  copy := x.copy
  refCount := x.refCount
  temporary := x.temporary
  internal := x.internal
  canPersist := x.canPersist

def VmState.graph (s : VmState) : ObjGraph where
  next := s.nextObject
  link o := (s.object o).link
  cachedList := s.cachedList

/-- Whether an object's link counts as a reference to another one. -/
def shadows (l : ObjLink) (o : ObjId) : Bool := l.alive && l.shadow = some o

namespace ObjGraph

def set (g : ObjGraph) (o : ObjId) (l : ObjLink) : ObjGraph :=
  { g with link := Function.update g.link o l }

/-- The references to an object from live objects that shadow it. -/
def shadowRefs (g : ObjGraph) (o : ObjId) : Nat :=
  tally g.next fun x => shadows (g.link x) o

end ObjGraph

/-- One more reference to an object from outside the graph. -/
def plus (held : ObjId → Nat) (o : ObjId) : ObjId → Nat :=
  fun x => held x + if x = o then 1 else 0

/-- One more reference to an object that may be null. -/
def plusOpt (held : ObjId → Nat) : Option ObjId → ObjId → Nat
  | none => held
  | some o => plus held o

/-- The object graph with `held` references from outside it: reference counts are exact,
dead objects are not referred to, shadow chains descend in `rank`, and a copy object is the
one and only shadow of its source. -/
structure ObjectInv (g : ObjGraph) (held rank : ObjId → Nat) : Prop where
  fresh : ∀ o, g.next ≤ o → (g.link o).alive = false
  exact : ∀ o, (g.link o).alive = true → (g.link o).refCount = g.shadowRefs o + held o
  dead : ∀ o, (g.link o).alive = false → g.shadowRefs o = 0 ∧ held o = 0
  ranked : ∀ x b, (g.link x).alive = true → (g.link x).shadow = some b → rank b < rank x
  cached : ∀ o ∈ g.cachedList, (g.link o).alive = true ∧ (g.link o).refCount = 0 ∧
    (g.link o).temporary = false
  cached_nodup : g.cachedList.Nodup
  kind : ∀ o, (g.link o).alive = true → (g.link o).internal = (g.link o).temporary ∧
    ((g.link o).canPersist = true → (g.link o).temporary = false)
  external : ∀ o, (g.link o).alive = true → (g.link o).temporary = false → (g.link o).shadow = none
  shadow_external : ∀ x b, (g.link x).alive = true → (g.link x).shadow = some b →
    (g.link b).temporary = false → (g.link b).copy = some x ∧ (g.link x).shadowOffset = 0
  copy_spec : ∀ b c, (g.link b).alive = true → (g.link b).copy = some c →
    (g.link b).temporary = false ∧ (g.link c).alive = true ∧ (g.link c).shadow = some b ∧
      (g.link c).shadowOffset = 0

variable {g : ObjGraph} {held rank : ObjId → Nat} {o x b c : ObjId} {l : ObjLink}

@[simp] theorem set_link_self (g : ObjGraph) (o : ObjId) (l : ObjLink) : (g.set o l).link o = l := by
  simp [ObjGraph.set]

theorem set_link_of_ne (g : ObjGraph) (l : ObjLink) (h : x ≠ o) : (g.set o l).link x = g.link x := by
  simp [ObjGraph.set, h]

theorem plus_self (held : ObjId → Nat) (o : ObjId) : plus held o o = held o + 1 := by simp [plus]

theorem plus_of_ne (held : ObjId → Nat) (h : x ≠ o) : plus held o x = held x := by simp [plus, h]

theorem shadows_toNat (ha : l.alive = true) (o : ObjId) :
    (shadows l o).toNat = if l.shadow = some o then 1 else 0 := by
  by_cases hs : l.shadow = some o <;> simp [shadows, ha, hs]

theorem shadowRefs_set (hx : x < g.next) (l : ObjLink) (o : ObjId) :
    (g.set x l).shadowRefs o + (shadows (g.link x) o).toNat =
      g.shadowRefs o + (shadows l o).toNat := by
  have hq : ∀ y < g.next, y ≠ x → shadows ((g.set x l).link y) o = shadows (g.link y) o := by
    intro y _ hy
    rw [set_link_of_ne g l hy]
  have := tally_change hx hq
  rwa [set_link_self] at this

theorem shadowRefs_congr {g' : ObjGraph} (hn : g'.next = g.next)
    (h : ∀ y, shadows (g'.link y) o = shadows (g.link y) o) : g'.shadowRefs o = g.shadowRefs o := by
  rw [ObjGraph.shadowRefs, hn]
  exact tally_congr fun y _ => h y

theorem ObjectInv.lt (h : ObjectInv g held rank) (ha : (g.link o).alive = true) : o < g.next := by
  by_contra hc
  have := h.fresh o (Nat.le_of_not_lt hc)
  simp [ha] at this

theorem ObjectInv.shadowRefs_pos (h : ObjectInv g held rank) (ha : (g.link x).alive = true)
    (hs : (g.link x).shadow = some b) : 0 < g.shadowRefs b :=
  tally_pos (h.lt ha) (by simp [shadows, ha, hs])

theorem ObjectInv.shadow_alive (h : ObjectInv g held rank) (ha : (g.link x).alive = true)
    (hs : (g.link x).shadow = some b) : (g.link b).alive = true := by
  by_contra hc
  have h₀ := (h.dead b (by simpa using hc)).1
  have h₁ := h.shadowRefs_pos ha hs
  omega

theorem ObjectInv.held_alive (h : ObjectInv g held rank) (hh : 0 < held o) : (g.link o).alive = true := by
  by_contra hc
  have := (h.dead o (by simpa using hc)).2
  omega

theorem ObjectInv.shadow_ne (h : ObjectInv g held rank) (ha : (g.link x).alive = true)
    (hs : (g.link x).shadow = some b) : b ≠ x := by
  rintro rfl
  exact Nat.lt_irrefl _ (h.ranked b b ha hs)

end MachVM
