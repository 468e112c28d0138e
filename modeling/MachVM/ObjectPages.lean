import MachVM.ObjectGraphCopy

namespace MachVM

variable {s t : VmState} {o : ObjId} {mem : PageId}

theorem setObject_graph {x : VmObject} (h : x.link = (s.object o).link) :
    (s.setObject o x).graph = s.graph := by
  simp only [VmState.graph, VmState.setObject, ObjGraph.mk.injEq, true_and, and_true]
  funext y
  by_cases hy : y = o
  · subst hy
    rw [Function.update_self, h]
  · rw [Function.update_of_ne hy]

theorem modObject_graph (s : VmState) (o : ObjId) (f : VmObject → VmObject) :
    (s.modObject o f).graph = s.graph.set o (f (s.object o)).link := by
  simp only [VmState.graph, VmState.modObject, VmState.setObject, ObjGraph.set, ObjGraph.mk.injEq,
    true_and, and_true]
  funext y
  by_cases hy : y = o
  · subst hy
    rw [Function.update_self, Function.update_self]
  · rw [Function.update_of_ne hy, Function.update_of_ne hy]

theorem modObject_object (s : VmState) (o y : ObjId) (f : VmObject → VmObject) :
    (s.modObject o f).object y = if y = o then f (s.object o) else s.object y :=
  Function.update_apply _ _ _ _

theorem modObject_temporary {f : VmObject → VmObject} (h : ∀ x, (f x).temporary = x.temporary)
    (y : ObjId) : ((s.modObject o f).object y).temporary = (s.object y).temporary := by
  rw [modObject_object]
  split
  next hy => rw [hy, h]
  next => rfl

theorem modObject_graph_same {f : VmObject → VmObject} (h : ∀ x, (f x).link = x.link) :
    (s.modObject o f).graph = s.graph :=
  setObject_graph (h (s.object o))

@[simp] theorem setPage_graph (s : VmState) (mem : PageId) (p : VmPage) :
    (s.setPage mem p).graph = s.graph := rfl

@[simp] theorem modPage_graph (s : VmState) (mem : PageId) (f : VmPage → VmPage) :
    (s.modPage mem f).graph = s.graph := rfl

@[simp] theorem setBucket_graph (s : VmState) (b : VmOffset) (q : List PageId) :
    (s.setBucket b q).graph = s.graph := rfl

@[simp] theorem leaveActive_graph (s : VmState) (mem : PageId) : (leaveActive s mem).graph = s.graph := rfl

@[simp] theorem leaveInactive_graph (s : VmState) (mem : PageId) :
    (leaveInactive s mem).graph = s.graph := rfl

@[simp] theorem enterActive_graph (s : VmState) (mem : PageId) : (enterActive s mem).graph = s.graph := rfl

@[simp] theorem enterInactive_graph (s : VmState) (mem : PageId) :
    (enterInactive s mem).graph = s.graph := rfl

@[simp] theorem enterFree_graph (s : VmState) (mem : PageId) : (enterFree s mem).graph = s.graph := rfl

@[simp] theorem laundryRelease_graph (s : VmState) (mem : PageId) :
    (laundryRelease s mem).graph = s.graph := rfl

@[simp] theorem pageWakeup_graph (s : VmState) (mem : PageId) : (pageWakeup s mem).graph = s.graph := rfl

theorem vmPageInsert_graph {off : VmOffset} (h : vmPageInsert s mem o off = some t) :
    t.graph = s.graph := by
  unfold vmPageInsert at h
  split at h
  next => cases h
  next =>
    cases Option.some.inj h
    rw [setObject_graph]
    · simp
    · rfl

@[simp] theorem vmPageRemove_graph (s : VmState) (mem : PageId) : (vmPageRemove s mem).graph = s.graph := by
  simp only [vmPageRemove]
  split
  next =>
    rw [setPage_graph, setObject_graph, setBucket_graph]
    rfl
  next => rfl

theorem vmPageRename_graph {off : VmOffset} (h : vmPageRename s mem o off = some t) :
    t.graph = s.graph := by
  unfold vmPageRename at h
  split at h
  next => cases Option.some.inj h; rfl
  next => rw [vmPageInsert_graph h, vmPageRemove_graph]

@[simp] theorem vmPageQueuesRemove_graph (s : VmState) (mem : PageId) :
    (vmPageQueuesRemove s mem).graph = s.graph := by
  simp only [vmPageQueuesRemove]
  split <;> split <;> simp

@[simp] theorem vmObjectAbsentRelease_graph (s : VmState) (o : Option ObjId) :
    (vmObjectAbsentRelease s o).graph = s.graph := by
  cases o with
  | none => rfl
  | some o => exact setObject_graph rfl

theorem vmPageFree_graph (h : vmPageFree s mem = some t) : t.graph = s.graph := by
  unfold vmPageFree at h
  split at h
  next => cases h
  next =>
    cases Option.some.inj h
    split <;> split <;> simp

@[simp] theorem vmPageDeactivate_graph (s : VmState) (mem : PageId) :
    (vmPageDeactivate s mem).graph = s.graph := by
  unfold vmPageDeactivate
  split <;> simp

theorem vmPageActivate_graph (h : vmPageActivate s mem = some t) : t.graph = s.graph := by
  have hs : (if (s.page mem).inactive then leaveInactive s mem else s).graph = s.graph := by
    split <;> simp
  simp only [vmPageActivate] at h
  generalize (if (s.page mem).inactive then leaveInactive s mem else s) = u at h hs
  rw [← hs]
  split at h
  next =>
    split at h
    next => cases h
    next =>
      cases Option.some.inj h
      rfl
  next =>
    cases Option.some.inj h
    rfl

@[simp] theorem dequeuePage_graph (s : VmState) (mem : PageId) : (dequeuePage s mem).graph = s.graph := by
  unfold dequeuePage
  split
  · simp
  · split <;> simp

theorem foldl_graph {f : VmState → PageId → VmState} (h : ∀ s mem, (f s mem).graph = s.graph)
    (q : List PageId) (s : VmState) : (q.foldl f s).graph = s.graph := by
  induction q generalizing s with
  | nil => rfl
  | cons mem q ih => rw [List.foldl_cons, ih, h]

end MachVM
