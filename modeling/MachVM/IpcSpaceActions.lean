import MachVM.IpcSpaceMoves

namespace MachVM.Ipc.Space

variable {orphans kernels : Prop} {s r : SState} {t : TaskId} {o : KernObjId} {e f : EntryId}
  {n : PortName} {x : Entry} {i : Item} {rights : MsgType}

/-- A task gives its entry up while the object is still in use. -/
def Prompt (s : SState) : Action → Prop
  | .dealloc t o => objEntryFind s t o ≠ none → (s.obj o).inUse = true
  | _ => True

/-- No message with a reply port is received by a kernel task. -/
def UserReply (s : SState) : Action → Prop
  | .replyCopyout _ t _ => (s.task t).kernelSpace = false
  | _ => True

theorem freeName_spec {k : Nat} {next : PortName} (h : freeName s t k next = some n) :
    n ≠ 0 ∧ objEntryLookup s t n = none := by
  induction k generalizing next with
  | zero => cases h
  | succ k ih =>
    have hne : (if next = 0 then (1 : PortName) else next) ≠ 0 := by
      split
      · decide
      next hz => exact hz
    simp only [freeName] at h
    generalize (if next = 0 then (1 : PortName) else next) = name at h hne
    split at h
    · exact ih h
    next hl =>
      cases Option.some.inj h
      exact ⟨hne, by simpa using hl⟩

theorem objEntryCreate_cases {type : PortType} (h : objEntryCreate s e t o type = some r) :
    ∃ n, n ≠ 0 ∧ objEntryLookup s t n = none ∧
      r = (objEntryInsert s e t o n type).setTask t { s.task t with nextName := n + 1 } := by
  obtain ⟨n, hn, hr⟩ := Option.map_eq_some_iff.mp h
  exact ⟨n, (freeName_spec hn).1, (freeName_spec hn).2, hr.symm⟩

theorem objEntryMake_cases (h : objEntryMake s t o e = some (f, r)) :
    objEntryFind s t o = some f ∧ r = s ∨
    f = e ∧ s.entry e = none ∧ objEntryFind s t o = none ∧
      ∃ n, n ≠ 0 ∧ objEntryLookup s t n = none ∧
        r = (objEntryInsert s e t o n .none).setTask t { s.task t with nextName := n + 1 } := by
  unfold objEntryMake at h
  split at h
  next g hg =>
    cases Option.some.inj h
    exact .inl ⟨hg, rfl⟩
  next hf =>
    split at h
    next he =>
      obtain ⟨r', hr, heq⟩ := Option.map_eq_some_iff.mp h
      cases heq
      obtain ⟨n, hn, hl, rfl⟩ := objEntryCreate_cases hr
      exact .inr ⟨rfl, he, hf, n, hn, hl, rfl⟩
    next => cases h

theorem objectCopyoutTable_ne_set (rights : MsgType) (type : PortType) :
    objectCopyoutTable rights type ≠ .set := by
  cases rights <;> cases type <;> decide

theorem copyinEntry_cases {d : Bool} (hx : s.entry e = some x) (h : copyinEntry s t e x rights d = some r) :
    (s.obj x.obj).inUse = true ∧
    (rights = .port ∧ x.type = .send ∧ d = true ∧ r = intoMessage (objEntryDestroy s t e x) x.obj .port ∨
    rights = .port ∧ (x.type = .send ∨ x.type = .receiveOwn) ∧ d = false ∧
      r = intoMessage s x.obj .port ∨
    rights = .portAll ∧ x.type = .receiveOwn ∧ ∃ u, u =
      (portClearReceiver s x.obj .soft).setEntry e (some { x with type := .send }) ∧
      r = intoMessage (if d = true then objEntryDestroy u t e { x with type := .send } else u) x.obj
        .portAll) := by
  obtain ⟨task, obj, name, type⟩ := x
  have hsame : s.setEntry e (some ⟨task, obj, name, type⟩) = s := by
    rw [SState.setEntry, ← hx, Function.update_eq_self]
  simp only [copyinEntry] at h
  split at h
  next => cases h
  next hrow =>
    split at h
    next => cases h
    next hu =>
      refine ⟨by simpa using hu, ?_⟩
      cases Option.some.inj h
      cases rights <;> cases type <;> simp [objectCopyinTable] at hrow
      · cases d
        · right; left
          simp [objectCopyinTable, hsame]
        · left
          simp [objectCopyinTable, hsame]
      · right; left
        simp [objectCopyinTable, hsame, hrow]
      · right; right
        simp [objectCopyinTable]

section Pieces

theorem insert_moves {type : PortType} {y : Task} (he : s.entry e = none) (hn : n ≠ 0)
    (hl : objEntryLookup s t n = none) (hf : objEntryFind s t o = none)
    (hs : type = .set ↔ (s.obj o).isSet = true) (hy : y = { s.task t with nextName := n + 1 }) :
    Moves orphans kernels s ((objEntryInsert s e t o n type).setTask t y) := by
  subst hy
  refine .tail (.single (.insert he hn hl hf hs)) ?_
  exact .nextName

theorem destroy_moves (hx : s.entry e = some x) (ht : x.task = some t)
    (ho : orphans ∨ (s.obj x.obj).inUse = true) :
    Moves orphans kernels s (objEntryDestroy s t e x) := by
  unfold objEntryDestroy
  split
  · exact .single (.detach hx ht)
  next hu => exact .single (.orphan (ho.resolve_right hu) hx ht)

theorem objEntryDestroy_isSet (s : SState) (t : TaskId) (e : EntryId) (x : Entry) (p : KernObjId) :
    ((objEntryDestroy s t e x).obj p).isSet = (s.obj p).isSet := by
  have hr : ((objEntryRemove s t e x).obj p).isSet = (s.obj p).isSet := by
    rw [objEntryRemove_obj]
    apply obj_update_field (g := KernObj.isSet)
    rfl
  unfold objEntryDestroy
  split
  · exact hr
  · exact hr

theorem clear_move (s : SState) (o : KernObjId) (c : Receiver) :
    Move orphans kernels s (portClearReceiver s o c) := by
  refine .setObj ?_ rfl
  simp [unheld]
  omega

theorem reference_move (s : SState) (o : KernObjId) : Move orphans kernels s (reference s o) := by
  refine .setObj ?_ rfl
  simp only [unheld]
  omega

theorem kind_of_port (h : SpaceInv s) (hx : s.entry e = some x) (hp : x.type ≠ .set) :
    (s.obj x.obj).isSet = false := by
  have hk := h.kinds e x hx
  simpa [hp] using hk

theorem type_of_port (h : SpaceInv s) (hx : s.entry e = some x) (hp : (s.obj x.obj).isSet = false) :
    x.type ≠ .set := by
  intro ht
  rw [(h.kinds e x hx).mp ht] at hp
  cases hp

theorem make_moves (h : SpaceInv s) (ho : (s.obj o).isSet = false)
    (hm : objEntryMake s t o e = some (f, r)) : Moves orphans kernels s r := by
  rcases objEntryMake_cases hm with ⟨_, rfl⟩ | ⟨rfl, he, hf, n, hn, hl, rfl⟩
  · exact .refl
  · exact insert_moves he hn hl hf (by simp [ho]) rfl

theorem make_entry (h : SpaceInv s) (ho : (s.obj o).isSet = false)
    (hm : objEntryMake s t o e = some (f, r)) (hx : r.entry f = some x) :
    x.task = some t ∧ x.obj = o ∧ x.type ≠ .set := by
  rcases objEntryMake_cases hm with ⟨hf, rfl⟩ | ⟨rfl, _, _, n, _, _, rfl⟩
  · obtain ⟨ht, hxo⟩ := entry_of_find h.tables hf hx
    exact ⟨ht, hxo, type_of_port h hx (by rw [hxo]; exact ho)⟩
  · have hn : some (⟨some t, o, n, .none⟩ : Entry) = some x := by
      simpa [objEntryInsert, SState.setTask, SState.setObj, SState.setEntry] using hx
    cases Option.some.inj hn
    exact ⟨rfl, rfl, PortType.noConfusion⟩

theorem make_keeps (hm : objEntryMake s t o e = some (f, r)) :
    r.items = s.items ∧ (r.task t).active = (s.task t).active ∧
      (r.task t).kernelSpace = (s.task t).kernelSpace := by
  rcases objEntryMake_cases hm with ⟨_, rfl⟩ | ⟨rfl, _, _, n, _, _, rfl⟩
  · exact ⟨rfl, rfl, rfl⟩
  · exact ⟨rfl, by simp [SState.setTask], by simp [SState.setTask]⟩

end Pieces

section Actions

theorem objAlloc_moves {isSet : Bool} (h : SpaceInv s) (hr : objAlloc s t o e isSet = some r) :
    Moves orphans kernels s r := by
  unfold objAlloc at hr
  split at hr
  next hg =>
    obtain ⟨_, hu, he⟩ := hg
    obtain ⟨r', hc, rfl⟩ := Option.map_eq_some_iff.mp hr
    have hf : Move orphans kernels s (s.setObj o ⟨isSet, true, 0, .none, 0, none, false, 0⟩) :=
      .fresh hu (by simp [unheld])
    have hinv := h.move hf
    obtain ⟨n, hn, hl, rfl⟩ := objEntryCreate_cases hc
    have hnone : objEntryFind (s.setObj o ⟨isSet, true, 0, .none, 0, none, false, 0⟩) t o = none := by
      cases hq : objEntryFind (s.setObj o ⟨isSet, true, 0, .none, 0, none, false, 0⟩) t o with
      | none => rfl
      | some g =>
        obtain ⟨y, hy, _, hyo⟩ := (objEntryFind_eq_some hinv.tables).mp hq
        have hm := mem_objList h.tables hy
        rw [hyo, hu.2.2] at hm
        simp at hm
    have hs : (if isSet = true then PortType.set else PortType.receiveOwn) = .set ↔
        ((s.setObj o ⟨isSet, true, 0, .none, 0, none, false, 0⟩).obj o).isSet = true := by
      cases isSet <;> simp [SState.setObj]
    refine .tail (.trans (.single hf) (insert_moves he hn hl hnone hs rfl)) ?_
    exact .setObj rfl rfl
  next => cases hr

theorem copyinEntry_moves {d : Bool} (h : SpaceInv s) (hx : s.entry e = some x)
    (ht : x.task = some t) (hr : copyinEntry s t e x rights d = some r) :
    Moves orphans kernels s r := by
  obtain ⟨hu, ⟨_, hty, _, rfl⟩ | ⟨_, hty, _, rfl⟩ | ⟨_, hty, u, rfl, rfl⟩⟩ := copyinEntry_cases hx hr
  · have hport := kind_of_port h hx (by rw [hty]; decide)
    refine .tail (destroy_moves hx ht (.inr hu)) (.send ?_)
    rw [objEntryDestroy_isSet]
    exact hport
  · have hport := kind_of_port h hx (by rcases hty with hty | hty <;> rw [hty] <;> decide)
    exact .single (.send hport)
  · have hport := kind_of_port h hx (by rw [hty]; decide)
    have hm : Moves orphans kernels s
        ((portClearReceiver s x.obj .soft).setEntry e (some { x with type := .send })) :=
      .tail (.single (clear_move s x.obj .soft)) (.retype hx (by rw [hty]; decide) (by decide))
    generalize hw : (portClearReceiver s x.obj .soft).setEntry e (some { x with type := .send }) = w at hm
    have hwx : w.entry e = some { x with type := .send } := by simp [← hw, SState.setEntry]
    have hwo : w.obj x.obj = (portClearReceiver s x.obj .soft).obj x.obj := by rw [← hw]; rfl
    split
    · refine .tail (hm.trans (destroy_moves hwx ht (.inr ?_))) (.send ?_)
      · simpa [hwo, portClearReceiver, SState.setObj] using hu
      · rw [objEntryDestroy_isSet]
        simpa [hwo, portClearReceiver, SState.setObj] using hport
    · refine .tail hm (.send ?_)
      simpa [hwo, portClearReceiver, SState.setObj] using hport

theorem objectCopyin_cases {d : Bool} (h : Tables s) (hr : objectCopyin s t n rights d = some r) :
    ∃ e x, s.entry e = some x ∧ x.task = some t ∧ x.name = n ∧
      copyinEntry s t e x rights d = some r := by
  unfold objectCopyin at hr
  split at hr
  next =>
    obtain ⟨e, he, hr⟩ := Option.bind_eq_some_iff.mp hr
    obtain ⟨x, hx, hr⟩ := Option.bind_eq_some_iff.mp hr
    obtain ⟨ht, hn⟩ := entry_of_lookup h he hx
    exact ⟨e, x, hx, ht, hn, hr⟩
  next => cases hr

theorem objectCopyinFromKernel_cases {d : Bool} (h : Tables s)
    (hr : objectCopyinFromKernel s t o rights d = some r) :
    (rights = .port ∧ (s.obj o).isSet = false ∧ r = intoMessage s o .port) ∨
    ∃ e x, s.entry e = some x ∧ x.task = some t ∧ x.obj = o ∧
      copyinEntry s t e x rights d = some r := by
  unfold objectCopyinFromKernel at hr
  split at hr
  next hg =>
    split at hr
    next hp =>
      cases Option.some.inj hr
      exact .inl ⟨hp.1, hg.2.2, rfl⟩
    next =>
      obtain ⟨e, he, hr⟩ := Option.bind_eq_some_iff.mp hr
      obtain ⟨x, hx, hr⟩ := Option.bind_eq_some_iff.mp hr
      obtain ⟨ht, ho⟩ := entry_of_find h he hx
      exact .inr ⟨e, x, hx, ht, ho, hr⟩
  next => cases hr

theorem objCacheCopyin_cases (h : Tables s) (hr : objCacheCopyin s t n = some (o, r)) :
    n ≠ 0 ∧
    ((s.cache t (objCacheIndex n)).name = n ∧ (s.cache t (objCacheIndex n)).object = o ∧
      r = intoMessage s o .port ∨
    (s.obj o).isSet = false ∧ r = intoMessage s o .port ∨
    (s.task t).active = true ∧ (s.task t).kernelSpace = false ∧ ∃ e x, s.entry e = some x ∧
      x.task = some t ∧ x.name = n ∧ x.obj = o ∧ x.type ≠ .set ∧
      r = objCacheSet (intoMessage s o .port) t n o) := by
  simp only [objCacheCopyin] at hr
  split at hr
  next => cases hr
  next hn =>
    refine ⟨hn, ?_⟩
    split at hr
    next hhit =>
      cases Option.some.inj hr
      exact .inl ⟨hhit, rfl, rfl⟩
    next =>
      unfold objectCopyinCache at hr
      split at hr
      next => cases hr
      next ha =>
        split at hr
        next =>
          split at hr
          next hp =>
            cases Option.some.inj hr
            exact .inr (.inl ⟨hp.2, rfl⟩)
          next => cases hr
        next hk =>
          obtain ⟨e, he, hr⟩ := Option.bind_eq_some_iff.mp hr
          obtain ⟨x, hx, hr⟩ := Option.bind_eq_some_iff.mp hr
          obtain ⟨ht, hxn⟩ := entry_of_lookup h he hx
          split at hr
          next => cases hr
          next hty =>
            cases Option.some.inj hr
            exact .inr (.inr ⟨by simpa using ha, by simpa using hk, e, x, hx, ht, hxn, rfl, hty, rfl⟩)

theorem objectDestroy_cases (hr : objectDestroy s i = some r) :
    i ∈ s.items ∧
    (r = loseRef (dropItem s i) i.obj ∧ (i.rights = .port ∨ (s.obj i.obj).inUse = false ∨
      (s.obj i.obj).receiver ≠ .soft ∧ (s.obj i.obj).receiver ≠ .none) ∨
    i.rights = .portAll ∧ (s.obj i.obj).inUse = true ∧
      ((s.obj i.obj).receiver = .soft ∨ (s.obj i.obj).receiver = .none) ∧
      r = portDestroy (dropItem (s.setObj i.obj { s.obj i.obj with receiver := .none }) i) i.obj) := by
  unfold objectDestroy at hr
  split at hr
  next hi =>
    refine ⟨hi, ?_⟩
    split at hr
    next hg =>
      cases Option.some.inj hr
      unfold portDestroyReceiveOwn
      by_cases hs : (s.obj i.obj).receiver = .soft
      · right
        refine ⟨hg.1, hg.2, .inl hs, ?_⟩
        simp [dropItem, hs, SState.setObj]
      · by_cases hz : (s.obj i.obj).receiver = .none
        · right
          refine ⟨hg.1, hg.2, .inr hz, ?_⟩
          have hsame : { s.obj i.obj with receiver := .none } = s.obj i.obj := by rw [← hz]
          simp [dropItem, hz, hsame, SState.setObj]
        · left
          refine ⟨?_, .inr (.inr ⟨hs, hz⟩)⟩
          simp [dropItem, hs, hz]
    next hg =>
      cases Option.some.inj hr
      refine .inl ⟨rfl, ?_⟩
      cases hri : i.rights with
      | port => exact .inl rfl
      | portAll => exact .inr (.inl (by simpa [hri] using hg))
  next => cases hr

theorem objectDestroy_moves (hr : objectDestroy s i = some r) : Moves orphans kernels s r := by
  obtain ⟨hi, ⟨rfl, _⟩ | ⟨_, _, _, rfl⟩⟩ := objectDestroy_cases hr
  · exact .single (.consume hi)
  · refine .tail (.single (.setObj ?_ ?_)) (.giveUp hi)
    · rfl
    · rfl

theorem objectCopyout_cases (hr : objectCopyout s i t e = some r) :
    i ∈ s.items ∧ i.inside = true ∧ (objectDestroy s i = some r ∨
    (s.task t).active = true ∧ (s.obj i.obj).inUse = true ∧
      ∃ f u x w, objEntryMake s t i.obj e = some (f, u) ∧ u.entry f = some x ∧
        w = u.setEntry f (some { x with type := objectCopyoutTable i.rights x.type }) ∧
        r = loseRef (dropItem (if i.rights = .portAll then portCopyoutReceiveOwn w t i.obj x.name else w)
          i) i.obj) := by
  unfold objectCopyout at hr
  split at hr
  next hg =>
    refine ⟨hg.1, hg.2, ?_⟩
    split at hr
    next => exact .inl hr
    next hl =>
      obtain ⟨ha, hu⟩ := not_or.mp hl
      obtain ⟨⟨f, u⟩, hm, hr⟩ := Option.bind_eq_some_iff.mp hr
      obtain ⟨x, hx, hr⟩ := Option.bind_eq_some_iff.mp hr
      cases Option.some.inj hr
      exact .inr ⟨by simpa using ha, by simpa using hu, f, u, x, _, hm, hx, rfl, rfl⟩
  next => cases hr

theorem objectCopyout_moves (h : SpaceInv s) (hr : objectCopyout s i t e = some r) :
    Moves orphans kernels s r := by
  obtain ⟨hi, _, hd | ⟨_, _, f, u, x, w, hm, hx, rfl, rfl⟩⟩ := objectCopyout_cases hr
  · exact objectDestroy_moves hd
  · obtain ⟨hitems, _, _⟩ := make_keeps hm
    obtain ⟨_, _, hp⟩ := make_entry h (h.ports i hi) hm hx
    have hm : Moves orphans kernels s _ := (make_moves h (h.ports i hi) hm).tail
      (.retype hx hp (objectCopyoutTable_ne_set i.rights x.type))
    split
    · refine .tail (hm.tail (.setObj ?_ ?_)) (.consume ?_)
      · rfl
      · rfl
      · exact hitems ▸ hi
    · refine .tail hm (.consume ?_)
      exact hitems ▸ hi

theorem replyCopyout_cases (hr : replyCopyout s i t e = some r) :
    i ∈ s.items ∧ i.rights = .port ∧ (r = loseRef (dropItem s i) i.obj ∨
    (s.task t).active = true ∧ (s.obj i.obj).inUse = true ∧
      ∃ f u x w, objEntryMake s t i.obj e = some (f, u) ∧ u.entry f = some x ∧
        w = u.setEntry f (some { x with type := if x.type = .none then .send else x.type }) ∧
        r = loseRef (dropItem (objCacheSet w t x.name i.obj) i) i.obj) := by
  unfold replyCopyout at hr
  split at hr
  next hg =>
    refine ⟨hg.1, hg.2, ?_⟩
    split at hr
    next =>
      cases Option.some.inj hr
      exact .inl rfl
    next hl =>
      obtain ⟨ha, hu⟩ := not_or.mp hl
      obtain ⟨⟨f, u⟩, hm, hr⟩ := Option.bind_eq_some_iff.mp hr
      obtain ⟨x, hx, hr⟩ := Option.bind_eq_some_iff.mp hr
      cases Option.some.inj hr
      refine .inr ⟨by simpa using ha, by simpa using hu, f, u, x, _, hm, hx, rfl, ?_⟩
      split
      · rfl
      · have hsame : u.setEntry f (some x) = u := by
          rw [SState.setEntry, ← hx, Function.update_eq_self]
        rw [hsame]
  next => cases hr

theorem replyCopyout_moves (h : SpaceInv s) (hk : kernels ∨ (s.task t).kernelSpace = false)
    (hr : replyCopyout s i t e = some r) : Moves orphans kernels s r := by
  obtain ⟨hi, _, rfl | ⟨ha, _, f, u, x, w, hm, hx, rfl, rfl⟩⟩ := replyCopyout_cases hr
  · exact .single (.consume hi)
  · obtain ⟨hitems, hact, hspace⟩ := make_keeps hm
    obtain ⟨ht, ho, hp⟩ := make_entry h (h.ports i hi) hm hx
    have hty : (if x.type = .none then PortType.send else x.type) ≠ .set := by
      split
      · decide
      · exact hp
    have hm : Moves orphans kernels s _ := (make_moves h (h.ports i hi) hm).tail (.retype hx hp hty)
    generalize hw : u.setEntry f (some { x with type := if x.type = .none then .send else x.type }) = w at hm
    have hwx : w.entry f = some { x with type := if x.type = .none then .send else x.type } := by
      simp [← hw, SState.setEntry]
    have hwt : w.task = u.task := by rw [← hw]; rfl
    have hc : Move orphans kernels w (objCacheSet w t x.name x.obj) := by
      refine .cache (x := { x with type := if x.type = .none then .send else x.type }) hwx ht hty ?_ ?_
      · rw [hwt, hact]; exact ha
      · rw [hwt, hspace]; exact hk
    rw [ho] at hc
    refine .tail (hm.tail hc) (.consume ?_)
    rw [← hw]
    exact hitems ▸ hi

theorem portRename_cases {old new : PortName} (h : Tables s) (hr : portRename s t old new = some r) :
    new ≠ 0 ∧ objEntryLookup s t new = none ∧ ∃ e x, s.entry e = some x ∧ x.task = some t ∧
      x.name = old ∧ (s.obj x.obj).inUse = true ∧
      r = if x.type = .receiveOwn ∨ x.type = .set then
        (objEntryChange s t e x new).setObj x.obj
          { (objEntryChange s t e x new).obj x.obj with name := new }
      else objEntryChange s t e x new := by
  unfold portRename at hr
  split at hr
  next hg =>
    obtain ⟨e, he, hr⟩ := Option.bind_eq_some_iff.mp hr
    obtain ⟨x, hx, hr⟩ := Option.bind_eq_some_iff.mp hr
    obtain ⟨ht, hn⟩ := entry_of_lookup h he hx
    split at hr
    next hu =>
      cases Option.some.inj hr
      exact ⟨hg.1, hg.2.2, e, x, hx, ht, hn, hu, rfl⟩
    next => cases hr
  next => cases hr

theorem portRename_moves {old new : PortName} (h : Tables s) (hr : portRename s t old new = some r) :
    Moves orphans kernels s r := by
  obtain ⟨hn, hl, e, x, hx, ht, _, _, rfl⟩ := portRename_cases h hr
  have hm : Moves orphans kernels s (objEntryChange s t e x new) := .single (.change hx ht hn hl)
  split
  · exact hm.tail (.setObj rfl rfl)
  · exact hm

theorem portInsertSend_moves (hr : portInsertSend s t o n e = some r) :
    Moves orphans kernels s r := by
  unfold portInsertSend at hr
  split at hr
  next hg =>
    obtain ⟨hp, ⟨hn, _, he, hl, hf⟩, _⟩ := hg
    cases Option.some.inj hr
    exact .single (.insert he hn hl hf (by simp [hp.2]))
  next => cases hr

theorem portInsertReceive_moves (h : SpaceInv s) (hr : portInsertReceive s i t n e = some r) :
    Moves orphans kernels s r := by
  unfold portInsertReceive at hr
  split at hr
  next hg =>
    obtain ⟨hi, _, _, hn, _, he, hl, hf⟩ := hg
    cases Option.some.inj hr
    have hm : Moves orphans kernels s (objEntryInsert s e t i.obj n .receiveOwn) :=
      .single (.insert he hn hl hf (by simp [h.ports i hi]))
    refine .tail (hm.tail (.setObj ?_ ?_)) (.serve hi)
    · rfl
    · rfl
  next => cases hr

theorem portDealloc_cases (h : Tables s) (hr : portDealloc s t o = some r) :
    ∃ e x, objEntryFind s t o = some e ∧ s.entry e = some x ∧ x.task = some t ∧ x.obj = o ∧
      (x.type = .send ∧ r = objEntryDestroy s t e x ∨
      x.type = .receiveOwn ∧ ∃ u, u = portClearReceiver (objEntryDestroy s t e x) o .none ∧
        r = portDestroy (u.setObj o { u.obj o with refs := (u.obj o).refs + 1 }) o) := by
  obtain ⟨e, he, hr⟩ := Option.bind_eq_some_iff.mp hr
  obtain ⟨x, hx, hr⟩ := Option.bind_eq_some_iff.mp hr
  obtain ⟨ht, ho⟩ := entry_of_find h he hx
  refine ⟨e, x, he, hx, ht, ho, ?_⟩
  split at hr
  next hty =>
    cases Option.some.inj hr
    exact .inl ⟨hty, rfl⟩
  next hty =>
    cases Option.some.inj hr
    exact .inr ⟨hty, _, rfl, rfl⟩
  next => cases hr

theorem portDealloc_moves (h : SpaceInv s)
    (hp : orphans ∨ (objEntryFind s t o ≠ none → (s.obj o).inUse = true))
    (hr : portDealloc s t o = some r) : Moves orphans kernels s r := by
  obtain ⟨e, x, hf, hx, ht, rfl, hc⟩ := portDealloc_cases h.tables hr
  have hp : orphans ∨ (s.obj x.obj).inUse = true := hp.imp_right fun hi => hi (by rw [hf]; simp)
  have hm : Moves orphans kernels s (objEntryDestroy s t e x) := destroy_moves hx ht hp
  obtain ⟨_, rfl⟩ | ⟨hty, u, rfl, rfl⟩ := hc
  · exact hm
  · refine .tail (hm.tail (clear_move _ x.obj .none)) (.shutDown ?_)
    have hport := kind_of_port h hx (by rw [hty]; decide)
    rw [← objEntryDestroy_isSet s t e x] at hport
    simpa [portClearReceiver, SState.setObj] using hport

theorem setDestroy_cases (hr : setDestroy s t e = some r) :
    ∃ x u, s.entry e = some x ∧ x.task = some t ∧ x.type = .set ∧
      u = s.setObj x.obj { s.obj x.obj with inUse := false } ∧
      r = objEntryDealloc (objEntryRemove u t e x) e x.obj := by
  obtain ⟨x, hx, hr⟩ := Option.bind_eq_some_iff.mp hr
  split at hr
  next hg =>
    cases Option.some.inj hr
    exact ⟨x, _, hx, hg.1, hg.2, rfl, rfl⟩
  next => cases hr

theorem setDestroy_moves (hr : setDestroy s t e = some r) : Moves orphans kernels s r := by
  obtain ⟨x, u, hx, ht, _, rfl, rfl⟩ := setDestroy_cases hr
  refine .tail (.single (.setObj ?_ ?_)) (.detach hx ht)
  · rfl
  · rfl

theorem objDestroyRights_cases (h : Tables s) (hr : objDestroyRights s o = some r) :
    (s.obj o).inUse = false ∧ ∃ e x, s.entry e = some x ∧ x.obj = o ∧
      (x.task = none ∧ r = objEntryDealloc s e o ∨
      ∃ t, x.task = some t ∧ r = objEntryDealloc (objEntryRemove s t e x) e o) := by
  unfold objDestroyRights at hr
  split at hr
  next hu =>
    obtain ⟨e, he, hr⟩ := Option.bind_eq_some_iff.mp hr
    obtain ⟨x, hx, hr⟩ := Option.bind_eq_some_iff.mp hr
    have hm := (h.obj.mem_iff o e).mp (List.mem_of_head? he)
    have ho : x.obj = o := by simpa [onObj, hx] using hm
    refine ⟨hu, e, x, hx, ho, ?_⟩
    split at hr
    next ht =>
      cases Option.some.inj hr
      exact .inl ⟨ht, rfl⟩
    next t ht =>
      cases Option.some.inj hr
      exact .inr ⟨t, ht, rfl⟩
  next => cases hr

theorem objDestroyRights_moves (h : SpaceInv s) (hr : objDestroyRights s o = some r) :
    Moves orphans kernels s r := by
  obtain ⟨_, e, x, hx, rfl, ⟨ht, rfl⟩ | ⟨t, ht, rfl⟩⟩ := objDestroyRights_cases h.tables hr
  · exact .single (.reap hx ht)
  · exact .single (.detach hx ht)

theorem msgReceiveTrap_cases (h : Tables s) (hr : msgReceiveTrap s t n = some (o, r)) :
    r = reference s o ∨
    (s.task t).active = true ∧ (s.task t).kernelSpace = false ∧ ∃ e x, s.entry e = some x ∧
      x.task = some t ∧ x.name = n ∧ x.obj = o ∧ x.type = .receiveOwn ∧
      r = objCacheSet (reference s o) t n o := by
  simp only [msgReceiveTrap] at hr
  split at hr
  next => cases hr
  next hn =>
    split at hr
    next =>
      split at hr
      next => cases hr
      next =>
        cases Option.some.inj hr
        exact .inl rfl
    next =>
      split at hr
      next => cases hr
      next ha =>
        split at hr
        next =>
          split at hr
          next => cases hr
          next =>
            cases Option.some.inj hr
            exact .inl rfl
        next hk =>
          obtain ⟨e, he, hr⟩ := Option.bind_eq_some_iff.mp hr
          obtain ⟨x, hx, hr⟩ := Option.bind_eq_some_iff.mp hr
          obtain ⟨ht, hxn⟩ := entry_of_lookup h he hx
          split at hr
          next hty =>
            split at hr
            next => cases hr
            next =>
              cases Option.some.inj hr
              exact .inr ⟨by simpa using ha, by simpa using hk, e, x, hx, ht, hxn, rfl, hty, rfl⟩
          next =>
            cases Option.some.inj hr
            exact .inl rfl
          next => cases hr

theorem cache_moves {y : KernObj} {l : List Item}
    (hm : Moves orphans kernels s { s.setObj o y with items := l }) (hx : s.entry e = some x)
    (ht : x.task = some t) (hn : x.name = n) (ho : x.obj = o) (hp : x.type ≠ .set)
    (ha : (s.task t).active = true) (hk : (s.task t).kernelSpace = false) :
    Moves orphans kernels s (objCacheSet { s.setObj o y with items := l } t n o) := by
  have hc : Move orphans kernels { s.setObj o y with items := l }
      (objCacheSet { s.setObj o y with items := l } t x.name x.obj) := .cache hx ht hp ha (.inr hk)
  rw [hn, ho] at hc
  exact hm.tail hc

theorem objCacheCopyin_moves (h : SpaceInv s)
    (hl : (s.cache t (objCacheIndex n)).name = n →
      n = 0 ∨ (s.obj (s.cache t (objCacheIndex n)).object).isSet = false)
    (hr : objCacheCopyin s t n = some (o, r)) : Moves orphans kernels s r := by
  obtain ⟨hn, ⟨hhit, rfl, rfl⟩ | ⟨hp, rfl⟩ | ⟨ha, hk, e, x, hx, ht, hxn, rfl, hty, rfl⟩⟩ :=
    objCacheCopyin_cases h.tables hr
  · exact .single (.send ((hl hhit).resolve_left hn))
  · exact .single (.send hp)
  · exact cache_moves (.single (.send (kind_of_port h hx hty))) hx ht hxn rfl hty ha hk

theorem msgReceiveTrap_moves (h : Tables s) (hr : msgReceiveTrap s t n = some (o, r)) :
    Moves orphans kernels s r := by
  obtain rfl | ⟨ha, hk, e, x, hx, ht, hxn, rfl, hty, rfl⟩ := msgReceiveTrap_cases h hr
  · exact .single (reference_move s o)
  · exact cache_moves (.single (reference_move s x.obj)) hx ht hxn rfl (by rw [hty]; decide) ha hk

theorem portSetBackup_moves {b : KernObjId} (hr : portSetBackup s t n b = some r) :
    Moves orphans kernels s r := by
  unfold portSetBackup at hr
  split at hr
  next =>
    obtain ⟨e, _, hr⟩ := Option.bind_eq_some_iff.mp hr
    obtain ⟨x, _, hr⟩ := Option.bind_eq_some_iff.mp hr
    split at hr
    next =>
      cases Option.some.inj hr
      exact .tail (.single (reference_move s b)) (.setObj rfl rfl)
    next => cases hr
  next => cases hr

theorem count_moves (hr : portReference s o = some r ∨ portRelease s o = some r ∨
    setAddMember s o = some r ∨ setRemoveMember s o = some r) : Moves orphans kernels s r := by
  rcases hr with hr | hr | hr | hr
  · unfold portReference at hr
    split at hr
    · cases Option.some.inj hr
      exact .single (reference_move s o)
    · cases hr
  · unfold portRelease at hr
    split at hr
    · cases Option.some.inj hr
      refine .single (.setObj ?_ rfl)
      simp only [unheld]
      omega
    · cases hr
  · unfold setAddMember at hr
    split at hr
    next hg =>
      cases Option.some.inj hr
      refine .single (.setObj ?_ rfl)
      simp only [unheld, hg.2, Bool.toNat_true, Bool.toNat_false]
      omega
    next => cases hr
  · unfold setRemoveMember at hr
    split at hr
    next hg =>
      cases Option.some.inj hr
      refine .single (.setObj ?_ rfl)
      simp only [unheld, hg, Bool.toNat_true, Bool.toNat_false]
      omega
    next => cases hr

theorem task_moves {k : Bool} (hr : ipcTaskInit s t k = some r ∨ ipcTaskTerminate s t = some r) :
    Moves orphans kernels s r := by
  rcases hr with hr | hr
  · unfold ipcTaskInit at hr
    split at hr
    · cases Option.some.inj hr
      exact .single .task
    · cases hr
  · unfold ipcTaskTerminate at hr
    split at hr
    · cases Option.some.inj hr
      exact .single .task
    · cases hr

end Actions

end MachVM.Ipc.Space
