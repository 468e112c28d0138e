import MachVM.IpcSpace
import Mathlib.Data.List.Count
import Mathlib.Logic.Relation

namespace MachVM.Ipc.Space

open Mirror

/-- The references of an object that its own fields do not explain. -/
def unheld (x : KernObj) : Int := x.refs - x.held - x.inSet.toNat

def isAttached (x : Option Entry) : Bool := (onTask x).isSome

/-- The entries for an object that a task has. -/
def attached (s : SState) (o : KernObjId) : Nat := (s.objList o).countP fun e => isAttached (s.entry e)

/-- The references to an object that messages hold. -/
def inTransit (s : SState) (o : KernObjId) : Nat := s.items.countP fun i => i.obj = o

/-- The references of an object that nobody has: none, between two operations. -/
def surplus (s : SState) (o : KernObjId) : Int := unheld (s.obj o) - attached s o - inTransit s o

variable {s : SState} {t : TaskId} {o : KernObjId} {e : EntryId} {n : PortName} {x : Entry} {y : KernObj}

theorem surplus_congr {r : SState} (ho : ∀ o, unheld (r.obj o) = unheld (s.obj o))
    (ha : ∀ o, attached r o = attached s o) (hi : r.items = s.items) : surplus r = surplus s := by
  funext o
  simp only [surplus, inTransit, ho, ha, hi]

theorem surplus_setObj {d : Int} (h : unheld y = unheld (s.obj o) + d) :
    surplus (s.setObj o y) = fun p => surplus s p + if p = o then d else 0 := by
  funext p
  by_cases hp : p = o
  · subst hp
    simp only [surplus, SState.setObj, Function.update_self, h, if_true]
    simp only [attached, inTransit]
    omega
  · simp [surplus, SState.setObj, attached, inTransit, hp]

theorem surplus_setObj_same (h : unheld y = unheld (s.obj o)) : surplus (s.setObj o y) = surplus s := by
  rw [surplus_setObj (d := 0) (by omega)]
  simp

theorem surplus_flush (s : SState) (t : TaskId) (n : PortName) :
    surplus (objCacheFlush s t n) = surplus s := by
  unfold objCacheFlush
  split
  · exact surplus_congr (fun _ => rfl) (fun _ => rfl) rfl
  · rfl

theorem surplus_addItem (s : SState) (i : Item) :
    surplus { s with items := s.items ++ [i] } = fun p => surplus s p - if p = i.obj then 1 else 0 := by
  funext p
  simp only [surplus, attached, inTransit, List.countP_append, List.countP_singleton]
  by_cases hp : p = i.obj
  · simp [hp]
    omega
  · simp [hp, Ne.symm hp]

theorem surplus_dropItem {i : Item} (hi : i ∈ s.items) :
    surplus (dropItem s i) = fun p => surplus s p + if p = i.obj then 1 else 0 := by
  funext p
  simp only [surplus, attached, inTransit, dropItem, List.countP_erase]
  by_cases hp : p = i.obj
  · have hpos : 0 < s.items.countP fun j => decide (j.obj = i.obj) :=
      List.countP_pos_iff.mpr ⟨i, hi, by simp⟩
    simp only [hp, hi, decide_true, and_self, if_true]
    omega
  · simp [hp, Ne.symm hp]

section Entries

theorem entry_notMem_objList (h : Tables s) (he : s.entry e = none) (p : KernObjId) :
    e ∉ s.objList p := by
  rw [h.obj.mem_iff, he]
  simp [onObj]

theorem mem_objList (h : Tables s) (hx : s.entry e = some x) : e ∈ s.objList x.obj := by
  rw [h.obj.mem_iff, hx]
  rfl

theorem notMem_objList (h : Tables s) (hx : s.entry e = some x) {p : KernObjId} (hp : p ≠ x.obj) :
    e ∉ s.objList p := by
  rw [h.obj.mem_iff, hx]
  simp [onObj, Ne.symm hp]

theorem attached_setEntry (h : Tables s) (hx : s.entry e = some x) (z : Option Entry) (p : KernObjId) :
    (attached (s.setEntry e z) p : Int) = attached s p +
      if p = x.obj then ((isAttached z).toNat : Int) - (isAttached (s.entry e)).toNat else 0 := by
  by_cases hp : p = x.obj
  · subst hp
    have hc : (s.objList x.obj).countP (fun f => isAttached (Function.update s.entry e z f)) +
        (isAttached (s.entry e)).toNat = attached s x.obj + (isAttached z).toNat :=
      countP_update_mem (h.obj.nodup x.obj) (mem_objList h hx)
    simp only [attached] at hc
    simp only [if_true, attached, SState.setEntry]
    omega
  · rw [if_neg hp, Int.add_zero]
    simp only [attached, SState.setEntry]
    rw [countP_update_of_notMem (notMem_objList h hx hp)]

theorem attached_setEntry_same (h : Tables s) (hx : s.entry e = some x) {z : Option Entry}
    (hz : isAttached z = isAttached (s.entry e)) (p : KernObjId) :
    attached (s.setEntry e z) p = attached s p := by
  have ha := attached_setEntry h hx z p
  rw [hz] at ha
  simp only [Int.sub_self, ite_self] at ha
  omega

theorem surplus_insert {type : PortType} (h : Tables s) (he : s.entry e = none) :
    surplus (objEntryInsert s e t o n type) = surplus s := by
  funext p
  have ha : attached (objEntryInsert s e t o n type) p = attached s p + if p = o then 1 else 0 := by
    simp only [attached, objEntryInsert, SState.setEntry, SState.setObj]
    by_cases hp : p = o
    · subst hp
      rw [Function.update_self, List.countP_append, countP_update_of_notMem (entry_notMem_objList h he p)]
      simp [isAttached, onTask]
    · rw [Function.update_of_ne hp, countP_update_of_notMem (entry_notMem_objList h he p)]
      simp [hp]
  have hu : unheld ((objEntryInsert s e t o n type).obj p) =
      unheld (s.obj p) + if p = o then 1 else 0 := by
    simp only [objEntryInsert, SState.setObj, SState.setEntry]
    by_cases hp : p = o
    · subst hp
      simp only [Function.update_self, unheld, if_true]
      omega
    · simp [hp]
  have hi : inTransit (objEntryInsert s e t o n type) p = inTransit s p := rfl
  simp only [surplus, ha, hu, hi]
  split
  · omega
  · simp

theorem surplus_remove (h : Tables s) (hx : s.entry e = some x) (ht : x.task = some t) :
    surplus (objEntryRemove s t e x) = surplus s := by
  rw [objEntryRemove, surplus_flush]
  funext p
  have ha := attached_setEntry h hx (some { x with task := none }) p
  have hone : isAttached (s.entry e) = true := by simp [isAttached, onTask, hx, ht]
  have hnone : isAttached (some { x with task := none }) = false := rfl
  rw [hone, hnone] at ha
  simp only [surplus, SState.setObj]
  change unheld (Function.update s.obj x.obj _ p) - (attached (s.setEntry e (some { x with task := none })) p : Int) -
    (inTransit s p : Int) = _
  rw [ha]
  by_cases hp : p = x.obj
  · subst hp
    simp only [Function.update_self, unheld, if_true, Bool.toNat_true, Bool.toNat_false]
    omega
  · simp [hp]

theorem surplus_dealloc (h : Tables s) (hx : s.entry e = some x) (ht : x.task = none) :
    surplus (objEntryDealloc s e x.obj) = surplus s := by
  refine surplus_congr (fun _ => rfl) ?_ rfl
  intro p
  have hz : isAttached none = isAttached (s.entry e) := by simp [isAttached, onTask, hx, ht]
  rw [← attached_setEntry_same h hx hz p]
  simp only [attached, objEntryDealloc, SState.setEntry]
  by_cases hp : p = x.obj
  · subst hp
    rw [Function.update_self, List.countP_erase]
    simp [isAttached, onTask]
  · rw [Function.update_of_ne hp]

theorem surplus_retype (h : Tables s) (hx : s.entry e = some x) (type : PortType) :
    surplus (s.setEntry e (some { x with type := type })) = surplus s :=
  surplus_congr (fun _ => rfl) (attached_setEntry_same h hx (by rw [hx]; rfl)) rfl

theorem surplus_change (h : Tables s) (hx : s.entry e = some x) (t : TaskId) (n : PortName) :
    surplus (objEntryChange s t e x n) = surplus s := by
  have hz : isAttached (some { x with name := n }) = isAttached (s.entry e) := by rw [hx]; rfl
  rw [objEntryChange, surplus_flush]
  exact surplus_congr (fun _ => rfl) (attached_setEntry_same h hx hz) rfl

end Entries

end MachVM.Ipc.Space

namespace MachVM.Ipc.Space

open Mirror

/-- What the operations do to the state, piece by piece. `orphans` says whether a task may lose its
entry for a dead object, `kernels` whether the cache of a kernel task may be set. -/
inductive Move (orphans kernels : Prop) : SState → SState → Prop
  | insert {s : SState} {e : EntryId} {t : TaskId} {o : KernObjId} {n : PortName} {type : PortType}
      (he : s.entry e = none) (hn : n ≠ 0) (hl : objEntryLookup s t n = none)
      (hf : objEntryFind s t o = none) (hs : type = .set ↔ (s.obj o).isSet = true) :
      Move orphans kernels s (objEntryInsert s e t o n type)
  | detach {s : SState} {e : EntryId} {t : TaskId} {x : Entry} (hx : s.entry e = some x)
      (ht : x.task = some t) :
      Move orphans kernels s (objEntryDealloc (objEntryRemove s t e x) e x.obj)
  | orphan {s : SState} {e : EntryId} {t : TaskId} {x : Entry} (ho : orphans)
      (hx : s.entry e = some x) (ht : x.task = some t) :
      Move orphans kernels s (objEntryRemove s t e x)
  | reap {s : SState} {e : EntryId} {x : Entry} (hx : s.entry e = some x) (ht : x.task = none) :
      Move orphans kernels s (objEntryDealloc s e x.obj)
  | retype {s : SState} {e : EntryId} {x : Entry} {type : PortType} (hx : s.entry e = some x)
      (hold : x.type ≠ .set) (hnew : type ≠ .set) :
      Move orphans kernels s (s.setEntry e (some { x with type := type }))
  | change {s : SState} {e : EntryId} {t : TaskId} {x : Entry} {n : PortName}
      (hx : s.entry e = some x) (ht : x.task = some t) (hn : n ≠ 0)
      (hl : objEntryLookup s t n = none) :
      Move orphans kernels s (objEntryChange s t e x n)
  | setObj {s : SState} {o : KernObjId} {y : KernObj} (hu : unheld y = unheld (s.obj o))
      (hs : y.isSet = (s.obj o).isSet) : Move orphans kernels s (s.setObj o y)
  | fresh {s : SState} {o : KernObjId} {y : KernObj} (h : Unused s o) (hu : unheld y = 0) :
      Move orphans kernels s (s.setObj o y)
  | send {s : SState} {o : KernObjId} {rights : MsgType} (hs : (s.obj o).isSet = false) :
      Move orphans kernels s (intoMessage s o rights)
  | consume {s : SState} {i : Item} (hi : i ∈ s.items) :
      Move orphans kernels s (loseRef (dropItem s i) i.obj)
  | giveUp {s : SState} {i : Item} (hi : i ∈ s.items) :
      Move orphans kernels s (portDestroy (dropItem s i) i.obj)
  | shutDown {s : SState} {o : KernObjId} (hs : (s.obj o).isSet = false) :
      Move orphans kernels s
        (portDestroy (s.setObj o { s.obj o with refs := (s.obj o).refs + 1 }) o)
  | serve {s : SState} {i : Item} (hi : i ∈ s.items) :
      Move orphans kernels s { s with items := s.items.erase i ++ [{ i with inside := false }] }
  | cache {s : SState} {e : EntryId} {t : TaskId} {x : Entry} (hx : s.entry e = some x)
      (ht : x.task = some t) (hp : x.type ≠ .set) (ha : (s.task t).active = true)
      (hk : kernels ∨ (s.task t).kernelSpace = false) :
      Move orphans kernels s (objCacheSet s t x.name x.obj)
  | nextName {s : SState} {t : TaskId} {n : PortName} :
      Move orphans kernels s (s.setTask t { s.task t with nextName := n })
  | task {s : SState} {t : TaskId} {y : Task} :
      Move orphans kernels s
        { s.setTask t y with cache := Function.update s.cache t fun _ => noLine }

/-- What every state of the machine satisfies. -/
structure SpaceInv (s : SState) : Prop where
  tables : Tables s
  refs : ∀ o, surplus s o = 0
  kinds : ∀ e x, s.entry e = some x → (x.type = .set ↔ (s.obj x.obj).isSet = true)
  ports : ∀ i ∈ s.items, (s.obj i.obj).isSet = false

variable {orphans kernels : Prop} {s r : SState} {t : TaskId} {o : KernObjId} {e : EntryId}
  {n : PortName} {x : Entry} {y : KernObj} {i : Item}

theorem SpaceInv.of_step (h : SpaceInv s) (ht : Tables r) (hr : surplus r = surplus s)
    (ho : ∀ o, (r.obj o).isSet = (s.obj o).isSet)
    (he : ∀ f z, r.entry f = some z → s.entry f = some z ∨ (z.type = .set ↔ (s.obj z.obj).isSet = true))
    (hi : ∀ j ∈ r.items, j ∈ s.items ∨ (s.obj j.obj).isSet = false) : SpaceInv r where
  tables := ht
  refs := by intro o; rw [hr]; exact h.refs o
  kinds := by
    intro f z hz
    rw [ho]
    exact (he f z hz).elim (h.kinds f z) id
  ports := by
    intro j hj
    rw [ho]
    exact (hi j hj).elim (h.ports j) id

theorem entry_update {z w : Entry} {f : EntryId}
    (hf : Function.update s.entry e (some w) f = some z) : s.entry f = some z ∨ z = w := by
  by_cases hfe : f = e
  · subst hfe
    rw [Function.update_self] at hf
    exact .inr (Option.some.inj hf).symm
  · rw [Function.update_of_ne hfe] at hf
    exact .inl hf

theorem entry_update_none {z : Entry} {f : EntryId}
    (hf : Function.update s.entry e none f = some z) : s.entry f = some z := by
  by_cases hfe : f = e
  · subst hfe
    simp at hf
  · rwa [Function.update_of_ne hfe] at hf

@[simp] theorem objCacheFlush_entry (s : SState) (t : TaskId) (n : PortName) :
    (objCacheFlush s t n).entry = s.entry := by
  unfold objCacheFlush
  split <;> rfl

@[simp] theorem objCacheFlush_obj (s : SState) (t : TaskId) (n : PortName) :
    (objCacheFlush s t n).obj = s.obj := by
  unfold objCacheFlush
  split <;> rfl

@[simp] theorem objCacheFlush_items (s : SState) (t : TaskId) (n : PortName) :
    (objCacheFlush s t n).items = s.items := by
  unfold objCacheFlush
  split <;> rfl

@[simp] theorem objCacheFlush_task (s : SState) (t : TaskId) (n : PortName) :
    (objCacheFlush s t n).task = s.task := by
  unfold objCacheFlush
  split <;> rfl

@[simp] theorem objEntryRemove_entry (s : SState) (t : TaskId) (e : EntryId) (x : Entry) :
    (objEntryRemove s t e x).entry = Function.update s.entry e (some { x with task := none }) := by
  rw [objEntryRemove, objCacheFlush_entry]
  rfl

@[simp] theorem objEntryRemove_obj (s : SState) (t : TaskId) (e : EntryId) (x : Entry) :
    (objEntryRemove s t e x).obj =
      Function.update s.obj x.obj { s.obj x.obj with refs := (s.obj x.obj).refs - 1 } := by
  rw [objEntryRemove, objCacheFlush_obj]
  rfl

@[simp] theorem objEntryRemove_items (s : SState) (t : TaskId) (e : EntryId) (x : Entry) :
    (objEntryRemove s t e x).items = s.items := by
  rw [objEntryRemove, objCacheFlush_items]
  rfl

@[simp] theorem objEntryRemove_task (s : SState) (t : TaskId) (e : EntryId) (x : Entry) :
    (objEntryRemove s t e x).task = s.task := by
  rw [objEntryRemove, objCacheFlush_task]
  rfl

@[simp] theorem objEntryChange_entry (s : SState) (t : TaskId) (e : EntryId) (x : Entry) (n : PortName) :
    (objEntryChange s t e x n).entry = Function.update s.entry e (some { x with name := n }) := by
  rw [objEntryChange, objCacheFlush_entry]
  rfl

@[simp] theorem objEntryChange_obj (s : SState) (t : TaskId) (e : EntryId) (x : Entry) (n : PortName) :
    (objEntryChange s t e x n).obj = s.obj := by
  rw [objEntryChange, objCacheFlush_obj]
  rfl

@[simp] theorem objEntryChange_items (s : SState) (t : TaskId) (e : EntryId) (x : Entry)
    (n : PortName) : (objEntryChange s t e x n).items = s.items := by
  rw [objEntryChange, objCacheFlush_items]
  rfl

theorem obj_update_field {β : Type} {g : KernObj → β} (hg : g y = g (s.obj o)) (p : KernObjId) :
    g (Function.update s.obj o y p) = g (s.obj p) := by
  by_cases hp : p = o
  · subst hp; simpa using hg
  · simp [hp]

theorem SpaceInv.setObj (h : SpaceInv s) (hu : unheld y = unheld (s.obj o))
    (hs : y.isSet = (s.obj o).isSet) : SpaceInv (s.setObj o y) :=
  h.of_step (h.tables.setObj o y) (surplus_setObj_same hu) (obj_update_field hs)
    (fun _ _ hf => .inl hf) (fun _ hj => .inl hj)

theorem SpaceInv.insert {type : PortType} (h : SpaceInv s) (he : s.entry e = none) (hn : n ≠ 0)
    (hl : objEntryLookup s t n = none) (hf : objEntryFind s t o = none)
    (hs : type = .set ↔ (s.obj o).isSet = true) : SpaceInv (objEntryInsert s e t o n type) := by
  apply h.of_step (h.tables.insert he hn hl hf) (surplus_insert h.tables he)
  · exact obj_update_field rfl
  · intro f z hz
    rcases entry_update hz with hold | rfl
    · exact .inl hold
    · exact .inr hs
  · exact fun _ hj => .inl hj

theorem SpaceInv.remove (h : SpaceInv s) (hx : s.entry e = some x) (ht : x.task = some t) :
    SpaceInv (objEntryRemove s t e x) := by
  apply h.of_step (h.tables.remove hx ht) (surplus_remove h.tables hx ht)
  · rw [objEntryRemove_obj]
    exact obj_update_field rfl
  · intro f z hz
    rw [objEntryRemove_entry] at hz
    rcases entry_update hz with hold | rfl
    · exact .inl hold
    · exact .inr (h.kinds e x hx)
  · intro j hj
    rw [objEntryRemove_items] at hj
    exact .inl hj

theorem SpaceInv.dealloc (h : SpaceInv s) (hx : s.entry e = some x) (ht : x.task = none) :
    SpaceInv (objEntryDealloc s e x.obj) := by
  apply h.of_step (h.tables.dealloc hx ht) (surplus_dealloc h.tables hx ht) (fun _ => rfl)
  · exact fun f z hz => .inl (entry_update_none hz)
  · exact fun _ hj => .inl hj

theorem removed_entry (s : SState) (t : TaskId) (e : EntryId) (x : Entry) :
    (objEntryRemove s t e x).entry e = some { x with task := none } := by
  simp

theorem SpaceInv.detach (h : SpaceInv s) (hx : s.entry e = some x) (ht : x.task = some t) :
    SpaceInv (objEntryDealloc (objEntryRemove s t e x) e x.obj) :=
  (h.remove hx ht).dealloc (x := { x with task := none }) (removed_entry s t e x) rfl

theorem SpaceInv.retype {type : PortType} (h : SpaceInv s) (hx : s.entry e = some x)
    (hold : x.type ≠ .set) (hnew : type ≠ .set) :
    SpaceInv (s.setEntry e (some { x with type := type })) := by
  apply h.of_step (h.tables.retype hx type) (surplus_retype h.tables hx type) (fun _ => rfl)
  · intro f z hz
    rcases entry_update hz with hz | rfl
    · exact .inl hz
    · have hk := h.kinds e x hx
      simp only [hold, false_iff] at hk
      exact .inr (by simp [hnew, hk])
  · exact fun _ hj => .inl hj

theorem SpaceInv.change (h : SpaceInv s) (hx : s.entry e = some x) (ht : x.task = some t)
    (hn : n ≠ 0) (hl : objEntryLookup s t n = none) : SpaceInv (objEntryChange s t e x n) := by
  apply h.of_step (h.tables.change hx ht hn hl) (surplus_change h.tables hx t n)
  · intro p
    rw [objEntryChange_obj]
  · intro f z hz
    rw [objEntryChange_entry] at hz
    rcases entry_update hz with hold | rfl
    · exact .inl hold
    · exact .inr (h.kinds e x hx)
  · intro j hj
    rw [objEntryChange_items] at hj
    exact .inl hj

theorem unused_quiet (h : SpaceInv s) (hu : Unused s o) :
    attached s o = 0 ∧ inTransit s o = 0 ∧ unheld (s.obj o) = 0 := by
  obtain ⟨hr, _, hl⟩ := hu
  have ha : attached s o = 0 := by simp [attached, hl]
  have hs := h.refs o
  simp only [surplus, unheld, hr, ha] at hs
  refine ⟨ha, by omega, ?_⟩
  simp only [unheld, hr]
  omega

theorem SpaceInv.fresh (h : SpaceInv s) (hu : Unused s o) (hy : unheld y = 0) :
    SpaceInv (s.setObj o y) := by
  obtain ⟨ha, hi, hz⟩ := unused_quiet h hu
  constructor
  · exact h.tables.setObj o y
  · intro p
    rw [surplus_setObj_same (hy.trans hz.symm)]
    exact h.refs p
  · intro f z hf
    have hne : z.obj ≠ o := by
      intro he
      have hm := mem_objList h.tables hf
      rw [he, hu.2.2] at hm
      simp at hm
    simp only [SState.setObj, Function.update_of_ne hne]
    exact h.kinds f z hf
  · intro j hj
    have hne : j.obj ≠ o := by
      intro he
      have := List.countP_eq_zero.mp hi j hj
      simp [he] at this
    simp only [SState.setObj, Function.update_of_ne hne]
    exact h.ports j hj

section Messages

theorem surplus_loseRef (s : SState) (o : KernObjId) :
    surplus (loseRef s o) = fun p => surplus s p + if p = o then -1 else 0 := by
  apply surplus_setObj
  simp only [unheld]
  omega

theorem surplus_intoMessage (s : SState) (o : KernObjId) (rights : MsgType) :
    surplus (intoMessage s o rights) = surplus s := by
  have hs : surplus (s.setObj o { s.obj o with refs := (s.obj o).refs + 1 }) =
      fun p => surplus s p + if p = o then 1 else 0 := by
    apply surplus_setObj
    simp only [unheld]
    omega
  have ha := surplus_addItem (s.setObj o { s.obj o with refs := (s.obj o).refs + 1 }) ⟨o, rights, true⟩
  rw [hs] at ha
  refine ha.trans ?_
  funext p
  dsimp only
  omega

theorem surplus_portDestroy (s : SState) (o : KernObjId) :
    surplus (portDestroy s o) = fun p => surplus s p - if p = o then 1 else 0 := by
  unfold portDestroy
  split
  · have hs : surplus (s.setObj o { s.obj o with backup := none, receiver := .soft }) = surplus s :=
      surplus_setObj_same rfl
    have ha := surplus_addItem (s.setObj o { s.obj o with backup := none, receiver := .soft })
      ⟨o, .portAll, true⟩
    rw [hs] at ha
    exact ha
  · have hs : surplus (s.setObj o { s.obj o with inUse := false, held := (s.obj o).held + 1 }) =
        fun p => surplus s p + if p = o then -1 else 0 := by
      apply surplus_setObj
      simp only [unheld]
      omega
    rw [hs]
    funext p
    split <;> omega

theorem Tables.portDestroy (h : Tables s) (o : KernObjId) : Tables (portDestroy s o) := by
  unfold Space.portDestroy
  split
  · exact (h.setObj o _).withItems _
  · exact h.setObj o _

@[simp] theorem portDestroy_entry (s : SState) (o : KernObjId) :
    (portDestroy s o).entry = s.entry := by
  unfold portDestroy
  split <;> rfl

theorem portDestroy_isSet (s : SState) (o p : KernObjId) :
    ((portDestroy s o).obj p).isSet = (s.obj p).isSet := by
  unfold portDestroy
  split
  · apply obj_update_field (g := KernObj.isSet)
    rfl
  · apply obj_update_field (g := KernObj.isSet)
    rfl

theorem portDestroy_items (s : SState) (o : KernObjId) :
    ∀ j ∈ (portDestroy s o).items, j ∈ s.items ∨ j.obj = o := by
  unfold portDestroy
  split
  · intro j hj
    rcases List.mem_append.mp hj with hj | hj
    · exact .inl hj
    · rw [List.mem_singleton.mp hj]
      exact .inr rfl
  · exact fun j hj => .inl hj

theorem SpaceInv.portDestroy (h : SpaceInv s) (ht : Tables r) (he : r.entry = s.entry)
    (hs : ∀ p, (r.obj p).isSet = (s.obj p).isSet) (hi : ∀ j ∈ r.items, j ∈ s.items)
    (ho : (s.obj o).isSet = false)
    (hr : surplus r = fun p => surplus s p + if p = o then 1 else 0) :
    SpaceInv (portDestroy r o) := by
  apply h.of_step (ht.portDestroy o)
  · rw [surplus_portDestroy, hr]
    funext p
    dsimp only
    omega
  · intro p
    rw [portDestroy_isSet, hs]
  · intro f z hz
    rw [portDestroy_entry, he] at hz
    exact .inl hz
  · intro j hj
    rcases portDestroy_items r o j hj with hj | rfl
    · exact .inl (hi j hj)
    · exact .inr ho

theorem SpaceInv.send {rights : MsgType} (h : SpaceInv s) (hs : (s.obj o).isSet = false) :
    SpaceInv (intoMessage s o rights) := by
  apply h.of_step ((h.tables.setObj o _).withItems _) (surplus_intoMessage s o rights)
    (obj_update_field rfl) (fun _ _ hf => .inl hf)
  intro j hj
  rcases List.mem_append.mp hj with hj | hj
  · exact .inl hj
  · rw [List.mem_singleton.mp hj]
    exact .inr hs

theorem SpaceInv.consume (h : SpaceInv s) (hi : i ∈ s.items) :
    SpaceInv (loseRef (dropItem s i) i.obj) := by
  have hr : surplus (loseRef (dropItem s i) i.obj) = surplus s := by
    rw [surplus_loseRef, surplus_dropItem hi]
    funext p
    dsimp only
    split <;> omega
  exact h.of_step ((h.tables.withItems _).setObj i.obj _) hr (obj_update_field rfl)
    (fun _ _ hf => .inl hf) fun _ hj => .inl (List.mem_of_mem_erase hj)

theorem SpaceInv.giveUp (h : SpaceInv s) (hi : i ∈ s.items) :
    SpaceInv (Space.portDestroy (dropItem s i) i.obj) :=
  h.portDestroy (h.tables.withItems _) rfl (fun _ => rfl) (fun _ hj => List.mem_of_mem_erase hj)
    (h.ports i hi) (surplus_dropItem hi)

theorem SpaceInv.shutDown (h : SpaceInv s) (hs : (s.obj o).isSet = false) :
    SpaceInv (Space.portDestroy (s.setObj o { s.obj o with refs := (s.obj o).refs + 1 }) o) := by
  refine h.portDestroy (h.tables.setObj o _) rfl ?_ (fun _ hj => hj) hs (surplus_setObj ?_)
  · apply obj_update_field (g := KernObj.isSet)
    rfl
  · simp only [unheld]
    omega

theorem SpaceInv.serve (h : SpaceInv s) (hi : i ∈ s.items) :
    SpaceInv { s with items := s.items.erase i ++ [{ i with inside := false }] } := by
  have hr := surplus_addItem (dropItem s i) { i with inside := false }
  rw [surplus_dropItem hi] at hr
  refine h.of_step (h.tables.withItems _) (hr.trans ?_) (fun _ => rfl) (fun _ _ hf => .inl hf) ?_
  · funext p
    dsimp only
    omega
  · intro j hj
    rcases List.mem_append.mp hj with hj | hj
    · exact .inl (List.mem_of_mem_erase hj)
    · rw [List.mem_singleton.mp hj]
      exact .inr (h.ports i hi)

end Messages

theorem SpaceInv.move (h : SpaceInv s) (hm : Move orphans kernels s r) : SpaceInv r := by
  cases hm with
  | insert he hn hl hf hs => exact h.insert he hn hl hf hs
  | detach hx ht => exact h.detach hx ht
  | orphan _ hx ht => exact h.remove hx ht
  | reap hx ht => exact h.dealloc hx ht
  | retype hx hold hnew => exact h.retype hx hold hnew
  | change hx ht hn hl => exact h.change hx ht hn hl
  | setObj hu hs => exact h.setObj hu hs
  | fresh hu hy => exact h.fresh hu hy
  | send hs => exact h.send hs
  | consume hi => exact h.consume hi
  | giveUp hi => exact h.giveUp hi
  | shutDown hs => exact h.shutDown hs
  | serve hi => exact h.serve hi
  | cache | nextName | task =>
    exact h.of_step (h.tables.congr rfl rfl rfl rfl rfl) (surplus_congr (fun _ => rfl) (fun _ => rfl) rfl)
      (fun _ => rfl) (fun _ _ hf => .inl hf) fun _ hj => .inl hj

/-- One operation is a chain of moves. -/
abbrev Moves (orphans kernels : Prop) : SState → SState → Prop :=
  Relation.ReflTransGen (Move orphans kernels)

theorem SpaceInv.moves (h : SpaceInv s) (hm : Moves orphans kernels s r) : SpaceInv r := by
  induction hm with
  | refl => exact h
  | tail _ hm ih => exact ih.move hm

end MachVM.Ipc.Space
