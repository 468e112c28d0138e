import MachVM.IpcDestroy

namespace MachVM.Ipc.Destroy

open Space Machine

variable {o : KernObjId} {s₀ s r : DState} {t : TaskId} {e f : EntryId} {x y : Entry} {a : Action}

/-- An entry is as it was when the object died, or is one of the object's: removed from its task by the task
itself, or freed after it was removed by the task or by `obj_destroy_rights`. -/
inductive Stage (o : KernObjId) (s₀ s : DState) (e : EntryId) : Prop
  | whole (he : s.space.entry e = s₀.space.entry e) (ho : s.own.count e = 0) (hs : s.swept.count e = 0)
      (hf : s.freed.count e = 0)
  | half (x : Entry) (hx : s₀.space.entry e = some x) (hobj : x.obj = o)
      (he : s.space.entry e = some { x with task := none }) (ho : s.own.count e = 1)
      (hs : s.swept.count e = 0) (hf : s.freed.count e = 0)
  | gone (x : Entry) (hx : s₀.space.entry e = some x) (hobj : x.obj = o) (he : s.space.entry e = none)
      (hr : s.own.count e + s.swept.count e = 1) (hf : s.freed.count e = 1)

/-- The notification that `obj_destroy_rights` is about to send. -/
def Phase.pending : Phase → List (TaskId × PortName)
  | .notifying t n => [(t, n)]
  | _ => []

/-- The task that an entry belonged to when the object died, and its name there. -/
def ownerOf (s₀ : DState) (e : EntryId) : Option (TaskId × PortName) :=
  (s₀.space.entry e).bind fun x => x.task.map fun t => (t, x.name)

/-- The entry and the task that `obj_destroy_rights` has in its hands with the object unlocked. -/
def Phase.inHand : Phase → Option (EntryId × TaskId)
  | .unlocked e t | .taskLocked e t => some (e, t)
  | _ => none

attribute [local simp] Phase.inHand

structure DInv (o : KernObjId) (s₀ s : DState) : Prop where
  tables : Tables s.space
  dead : (s.space.obj o).inUse = false
  stages : ∀ e, Stage o s₀ s e
  notes : s.notified ++ s.phase.pending = s.swept.filterMap (ownerOf s₀)
  found : ∀ t e, s.inDealloc t = some e → ∃ x, s.space.entry e = some x ∧ x.obj = o ∧ x.task = some t
  inHand : ∀ e t, s.phase.inHand = some (e, t) →
    ∃ x, s.space.entry e = some x ∧ x.obj = o ∧ (x.task = some t ∨ x.task = none)
  locked : ∀ e t, s.phase = .taskLocked e t → s.inDealloc t = none
  leaving : ∀ t e, s.leaving t = some e → ∃ x, s.space.entry e = some x
  refs : s.held = s.otask.toList
  otask : ∀ e t, s.phase.inHand = some (e, t) → s.otask = some t
  finished : s.phase = .done → s.space.objList o = []
  stray : s.stray = []

theorem mem_objList (h : DInv o s₀ s) : e ∈ s.space.objList o ↔ ∃ x, s.space.entry e = some x ∧ x.obj = o := by
  rw [h.tables.obj.mem_iff]
  cases s.space.entry e <;> simp [onObj]

theorem objEntryRemove_objList (s : SState) (t : TaskId) (e : EntryId) (x : Entry) :
    (objEntryRemove s t e x).objList = s.objList := by
  unfold objEntryRemove objCacheFlush
  split <;> rfl

theorem objEntryDealloc_entry (s : SState) (e : EntryId) (o : KernObjId) :
    (objEntryDealloc s e o).entry = Function.update s.entry e none := rfl

theorem DInv.whole_of (h : DInv o s₀ s) (hx : s.space.entry e = some x) (ht : x.task = some t) :
    s₀.space.entry e = some x ∧ s.own.count e = 0 ∧ s.swept.count e = 0 ∧ s.freed.count e = 0 := by
  cases h.stages e with
  | whole he ho hs hf => exact ⟨he.symm.trans hx, ho, hs, hf⟩
  | half y _ _ he =>
    cases Option.some.inj (hx.symm.trans he)
    simp at ht
  | gone _ _ _ he => exact absurd (hx.symm.trans he) (by simp)

theorem DInv.half_of (h : DInv o s₀ s) (hd : Dying o s₀) (hx : s.space.entry e = some x) (hobj : x.obj = o)
    (ht : x.task = none) : ∃ y, s₀.space.entry e = some y ∧ y.obj = o ∧ s.own.count e = 1 ∧
      s.swept.count e = 0 ∧ s.freed.count e = 0 := by
  cases h.stages e with
  | whole he => exact absurd ht (hd.whole e x (he.symm.trans hx) hobj)
  | half y hy ho _ h1 h2 h3 => exact ⟨y, hy, ho, h1, h2, h3⟩
  | gone _ _ _ he => exact absurd (hx.symm.trans he) (by simp)

theorem Stage.congr (h : Stage o s₀ s e) (he : r.space.entry e = s.space.entry e)
    (ho : r.own.count e = s.own.count e) (hs : r.swept.count e = s.swept.count e)
    (hf : r.freed.count e = s.freed.count e) : Stage o s₀ r e := by
  cases h with
  | whole h1 h2 h3 h4 => exact .whole (he.trans h1) (ho.trans h2) (hs.trans h3) (hf.trans h4)
  | half x hx hobj h1 h2 h3 h4 => exact .half x hx hobj (he.trans h1) (ho.trans h2) (hs.trans h3) (hf.trans h4)
  | gone x hx hobj h1 h2 h3 => exact .gone x hx hobj (he.trans h1) (by rw [ho, hs]; exact h2) (hf.trans h3)

theorem count_snoc_ne {l : List EntryId} (hf : f ≠ e) : (l ++ [e]).count f = l.count f := by
  simp [List.count_append, hf.symm]

theorem count_snoc_self (l : List EntryId) (e : EntryId) : (l ++ [e]).count e = l.count e + 1 := by
  simp [List.count_append]

theorem DInv.free (h : DInv o s₀ s) (hd : Dying o s₀) (hx : s.space.entry e = some x) (hobj : x.obj = o)
    (ht : x.task = none) (hl : ∀ t, s.leaving t ≠ some e) (hp : s.phase.pending = []) :
    DInv o s₀ { free o s e with phase := .top } := by
  obtain ⟨y, hy, hyo, h1, h2, h3⟩ := h.half_of hd hx hobj ht
  have hne : ∀ f z, s.space.entry f = some z → z.task ≠ none → f ≠ e := by
    rintro f z hz hn rfl
    cases Option.some.inj (hz.symm.trans hx)
    exact hn ht
  refine ⟨hobj ▸ h.tables.dealloc hx ht, h.dead, fun f => ?_, ?_, fun u f hf => ?_, fun f u hc => by simp [Phase.inHand] at hc,
    fun f u hc => by simp at hc, fun u f hf => ?_, h.refs, fun f u hc => by simp [Phase.inHand] at hc,
    fun hc => by simp at hc, h.stray⟩
  · by_cases hfe : f = e
    · subst hfe
      exact .gone y hy hyo (Function.update_self ..) (by show s.own.count f + s.swept.count f = 1; omega)
        (by show (s.freed ++ [f]).count f = 1; rw [count_snoc_self, h3])
    · exact (h.stages f).congr (Function.update_of_ne hfe ..) rfl rfl (count_snoc_ne hfe)
  · have hn := h.notes
    rw [hp] at hn
    exact hn
  · obtain ⟨z, hz, ho, hzt⟩ := h.found u f hf
    exact ⟨z, (Function.update_of_ne (hne f z hz (by simp [hzt])) ..).trans hz, ho, hzt⟩
  · obtain ⟨z, hz⟩ := h.leaving u f hf
    have hfe : f ≠ e := fun hc => hl u (hc ▸ hf)
    exact ⟨z, (Function.update_of_ne hfe ..).trans hz⟩

theorem DInv.sweep (h : DInv o s₀ s) (hx : s.space.entry e = some x) (hobj : x.obj = o)
    (ht : x.task = some t) (hl : ∀ u, s.leaving u ≠ some e) (hp : s.phase.pending = [])
    (hlock : s.inDealloc t = none) :
    DInv o s₀ { Destroy.free o { s with space := objEntryRemove s.space t e x } e with
      phase := .notifying t x.name
      swept := s.swept ++ [e] } := by
  obtain ⟨h0, h1, h2, h3⟩ := h.whole_of hx ht
  have hentry : ∀ f, f ≠ e → (objEntryDealloc (objEntryRemove s.space t e x) e o).entry f = s.space.entry f := by
    intro f hf
    rw [objEntryDealloc_entry, Function.update_of_ne hf, objEntryRemove_entry, Function.update_of_ne hf]
  refine ⟨?_, ?_, fun f => ?_, ?_, fun u f hf => ?_, fun f u hc => by simp [Phase.inHand] at hc,
    fun f u hc => by simp at hc, fun u f hf => ?_, h.refs, fun f u hc => by simp [Phase.inHand] at hc,
    fun hc => by simp at hc, h.stray⟩
  · have hr := (h.tables.remove hx ht).dealloc (removed_entry s.space t e x) rfl
    exact hobj ▸ hr
  · show ((objEntryRemove s.space t e x).obj o).inUse = false
    rw [objEntryRemove_obj, hobj, Function.update_self]
    exact h.dead
  · by_cases hfe : f = e
    · subst hfe
      exact .gone x h0 hobj (Function.update_self ..)
        (by show s.own.count f + (s.swept ++ [f]).count f = 1; rw [count_snoc_self]; omega)
        (by show (s.freed ++ [f]).count f = 1; rw [count_snoc_self, h3])
    · exact (h.stages f).congr (hentry f hfe) rfl (count_snoc_ne hfe) (count_snoc_ne hfe)
  · have hn := h.notes
    rw [hp, List.append_nil] at hn
    show s.notified ++ [(t, x.name)] = (s.swept ++ [e]).filterMap (ownerOf s₀)
    rw [hn, List.filterMap_append]
    simp [ownerOf, h0, ht]
  · obtain ⟨z, hz, ho, hzt⟩ := h.found u f hf
    have hfe : f ≠ e := by
      rintro rfl
      cases Option.some.inj (hz.symm.trans hx)
      cases Option.some.inj (hzt.symm.trans ht)
      exact absurd (hlock.symm.trans hf) (by simp)
    exact ⟨z, (hentry f hfe).trans hz, ho, hzt⟩
  · obtain ⟨z, hz⟩ := h.leaving u f hf
    have hfe : f ≠ e := fun hc => hl u (hc ▸ hf)
    exact ⟨z, (hentry f hfe).trans hz⟩

theorem DInv.destroyOwn (h : DInv o s₀ s) (hx : s.space.entry e = some x) (hobj : x.obj = o)
    (ht : x.task = some t) :
    DInv o s₀ { s with
      inDealloc := Function.update s.inDealloc t none
      space := objEntryRemove s.space t e x
      own := s.own ++ [e] } := by
  obtain ⟨h0, h1, h2, h3⟩ := h.whole_of hx ht
  have hentry : ∀ f, f ≠ e → (objEntryRemove s.space t e x).entry f = s.space.entry f := by
    intro f hf
    rw [objEntryRemove_entry, Function.update_of_ne hf]
  have hself := removed_entry s.space t e x
  refine ⟨h.tables.remove hx ht, ?_, fun f => ?_, h.notes, fun u f hf => ?_, fun f u hc => ?_, fun f u hc => ?_,
    fun u f hf => ?_, h.refs, h.otask, fun hc => ?_, h.stray⟩
  · show ((objEntryRemove s.space t e x).obj o).inUse = false
    rw [objEntryRemove_obj, hobj, Function.update_self]
    exact h.dead
  · by_cases hfe : f = e
    · subst hfe
      exact .half x h0 hobj hself (by show (s.own ++ [f]).count f = 1; rw [count_snoc_self, h1]) h2 h3
    · exact (h.stages f).congr (hentry f hfe) (count_snoc_ne hfe) rfl rfl
  · by_cases hut : u = t
    · subst hut
      simp at hf
    · have hf : s.inDealloc u = some f := (Function.update_of_ne hut ..).symm.trans hf
      obtain ⟨z, hz, ho, hzt⟩ := h.found u f hf
      have hfe : f ≠ e := by
        rintro rfl
        cases Option.some.inj (hz.symm.trans hx)
        exact hut (Option.some.inj (hzt.symm.trans ht))
      exact ⟨z, (hentry f hfe).trans hz, ho, hzt⟩
  · by_cases hfe : f = e
    · subst hfe
      exact ⟨_, hself, hobj, .inr rfl⟩
    · obtain ⟨z, hz, ho⟩ := h.inHand f u hc
      exact ⟨z, (hentry f hfe).trans hz, ho⟩
  · by_cases hut : u = t
    · subst hut
      exact Function.update_self ..
    · exact (Function.update_of_ne hut ..).trans (h.locked f u hc)
  · by_cases hfe : f = e
    · subst hfe
      exact ⟨_, hself⟩
    · obtain ⟨z, hz⟩ := h.leaving u f hf
      exact ⟨z, (hentry f hfe).trans hz⟩
  · show (objEntryRemove s.space t e x).objList o = []
    rw [objEntryRemove_objList]
    exact h.finished hc

theorem DInv.enter {p : Phase} (h : DInv o s₀ s) (hq : s.phase.pending = []) (hp : p.pending = [])
    (hn : p.inHand = none) (hf : p = .done → s.space.objList o = []) : DInv o s₀ { s with phase := p } := by
  refine ⟨h.tables, h.dead, fun f => (h.stages f).congr rfl rfl rfl rfl, ?_, h.found, fun e t hc => ?_, fun e t hc => ?_, h.leaving, h.refs,
    fun e t hc => ?_, hf, h.stray⟩
  · show s.notified ++ p.pending = _
    rw [hp, ← hq]
    exact h.notes
  · exact absurd (hn.symm.trans hc) (by simp)
  · have hc : p = .taskLocked e t := hc
    simp [hc, Phase.inHand] at hn
  · exact absurd (hn.symm.trans hc) (by simp)

theorem DInv.look (h : DInv o s₀ s) (hd : Dying o s₀) (ha : Unhurried o s .look) (hr : look o s = some r) :
    DInv o s₀ r := by
  unfold Destroy.look at hr
  split at hr
  next hp =>
    have hq : s.phase.pending = [] := by rw [hp]; rfl
    split at hr
    next hl =>
      cases Option.some.inj hr
      have hi := h.enter hq (p := .done) rfl rfl fun _ => hl
      refine { hi with stages := fun f => (hi.stages f).congr rfl rfl rfl rfl, refs := ?_, otask := fun e t hc => by simp [Phase.inHand] at hc }
      show s.held.diff s.otask.toList = []
      rw [h.refs]
      cases s.otask with
      | none => rfl
      | some u => simp
    next e l hl =>
      obtain ⟨x, hx, hobj⟩ := (mem_objList h).mp (hl ▸ List.mem_cons_self)
      rw [hx] at hr
      dsimp only at hr
      split at hr
      next ht =>
        cases Option.some.inj hr
        have hfr : freeing o s .look = some e := by simp [freeing, hl, hx, ht]
        have hi := h.free hd hx hobj ht (fun u hu => ha u e hu hfr) hq
        rw [show ({ Destroy.free o s e with phase := .top } : DState) = Destroy.free o s e by
          rw [Destroy.free, ← hp]] at hi
        exact hi
      next t ht =>
        cases Option.some.inj hr
        refine ⟨h.tables, h.dead, fun f => (h.stages f).congr rfl rfl rfl rfl, ?_, h.found, fun f u hc => ?_, fun f u hc => by simp at hc, h.leaving,
          ?_, fun f u hc => ?_, fun hc => by simp at hc, h.stray⟩
        · have hn := h.notes
          rw [hq] at hn
          exact hn
        · cases Option.some.inj hc
          exact ⟨x, hx, hobj, .inl ht⟩
        · show (t :: s.held).diff s.otask.toList = [t]
          rw [h.refs]
          cases s.otask with
          | none => simp
          | some u => by_cases htu : t = u <;> simp [htu]
        · cases Option.some.inj hc
          rfl
  next => simp at hr

theorem DInv.lockTask (h : DInv o s₀ s) (hr : lockTask s = some r) : DInv o s₀ r := by
  unfold Destroy.lockTask at hr
  split at hr
  next e t hp =>
    split at hr
    next hl =>
      cases Option.some.inj hr
      refine ⟨h.tables, h.dead, fun f => (h.stages f).congr rfl rfl rfl rfl, ?_, h.found, fun f u hc => ?_, fun f u hc => ?_, h.leaving, h.refs,
        fun f u hc => ?_, fun hc => by simp at hc, h.stray⟩
      · have hn := h.notes
        rw [hp] at hn
        exact hn
      · exact h.inHand f u (by rw [hp]; exact hc)
      · obtain ⟨rfl, rfl⟩ := Phase.taskLocked.inj hc
        exact hl
      · exact h.otask f u (by rw [hp]; exact hc)
    next => simp at hr
  next => simp at hr

theorem DInv.relock (h : DInv o s₀ s) (hd : Dying o s₀) (ha : Unhurried o s .relock) (hr : relock o s = some r) :
    DInv o s₀ r := by
  unfold Destroy.relock at hr
  split at hr
  next e t hp =>
    have hfr : freeing o s .relock = some e := by simp [freeing, hp]
    have hl : ∀ u, s.leaving u ≠ some e := fun u hu => ha u e hu hfr
    have hq : s.phase.pending = [] := by rw [hp]; rfl
    obtain ⟨x, hx, hobj, ht⟩ := h.inHand e t (by rw [hp]; rfl)
    rw [hx] at hr
    dsimp only at hr
    split at hr
    next hn =>
      cases Option.some.inj hr
      exact h.free hd hx hobj hn hl hq
    next u hu =>
      cases Option.some.inj hr
      have ht : x.task = some t := ht.resolve_right (by simp [hu])
      exact h.sweep hx hobj ht hl hq (h.locked e t hp)
  next => simp at hr

theorem DInv.notify (h : DInv o s₀ s) (hr : notify s = some r) : DInv o s₀ r := by
  unfold Destroy.notify at hr
  split at hr
  next t n hp =>
    cases Option.some.inj hr
    refine ⟨h.tables, h.dead, fun f => (h.stages f).congr rfl rfl rfl rfl, ?_, h.found, fun f u hc => by simp [Phase.inHand] at hc,
      fun f u hc => by simp at hc, h.leaving, h.refs, fun f u hc => by simp [Phase.inHand] at hc,
      fun hc => by simp at hc, h.stray⟩
    have hn := h.notes
    rw [hp] at hn
    show s.notified ++ [(t, n)] ++ [] = _
    rw [List.append_nil]
    exact hn
  next => simp at hr

theorem DInv.begin (h : DInv o s₀ s) (hr : begin s = some r) : DInv o s₀ r := by
  unfold Destroy.begin at hr
  split at hr
  next hp =>
    cases Option.some.inj hr
    exact h.enter (by rw [hp]; rfl) rfl rfl (by simp)
  next => simp at hr

theorem DInv.deallocFind (h : DInv o s₀ s) (hr : deallocFind o s t = some r) : DInv o s₀ r := by
  unfold Destroy.deallocFind at hr
  split at hr
  next hfree =>
    split at hr
    next =>
      cases Option.some.inj hr
      exact h
    next e he =>
      cases Option.some.inj hr
      obtain ⟨x, hx, ht, hobj⟩ := (objEntryFind_eq_some h.tables).mp he
      refine { h with stages := fun f => (h.stages f).congr rfl rfl rfl rfl, found := fun u f hf => ?_, locked := fun f u hc => ?_ }
      · by_cases hut : u = t
        · subst hut
          cases Option.some.inj ((Function.update_self u (some e) s.inDealloc).symm.trans hf)
          exact ⟨x, hx, hobj, ht⟩
        · exact h.found u f ((Function.update_of_ne hut ..).symm.trans hf)
      · have hut : u ≠ t := fun hc' => hfree.2 f (hc' ▸ hc)
        exact (Function.update_of_ne hut ..).trans (h.locked f u hc)
  next => simp at hr

theorem DInv.deallocDestroy (h : DInv o s₀ s) (hr : deallocDestroy o s t = some r) : DInv o s₀ r := by
  unfold Destroy.deallocDestroy at hr
  split at hr
  next =>
    obtain ⟨e, he, hr⟩ := Option.bind_eq_some_iff.mp hr
    obtain ⟨x, hx, hobj, ht⟩ := h.found t e he
    dsimp only at hr
    rw [hx] at hr
    dsimp only at hr
    split at hr
    next => simp at hr
    next hdead =>
      cases Option.some.inj hr
      rw [objEntryDestroy, hobj, if_neg hdead]
      exact h.destroyOwn hx hobj ht
  next => simp at hr

theorem DInv.terminateLook (h : DInv o s₀ s) (hr : terminateLook s t = some r) : DInv o s₀ r := by
  unfold Destroy.terminateLook at hr
  split at hr
  next =>
    obtain ⟨e, he, hr⟩ := Option.bind_eq_some_iff.mp hr
    have hm := (h.tables.task.mem_iff t e).mp (List.mem_of_head? he)
    split at hr
    next hn =>
      rw [hn] at hm
      simp [onTask] at hm
    next x hx =>
      cases Option.some.inj hr
      refine { h with stages := fun f => (h.stages f).congr rfl rfl rfl rfl, leaving := fun u f hf => ?_ }
      by_cases hut : u = t
      · subst hut
        cases Option.some.inj ((Function.update_self u (some e) s.leaving).symm.trans hf)
        exact ⟨x, hx⟩
      · exact h.leaving u f ((Function.update_of_ne hut ..).symm.trans hf)
  next => simp at hr

theorem DInv.terminateRead (h : DInv o s₀ s) (hr : terminateRead s t = some r) : DInv o s₀ r := by
  unfold Destroy.terminateRead at hr
  obtain ⟨e, he, hr⟩ := Option.bind_eq_some_iff.mp hr
  obtain ⟨x, hx⟩ := h.leaving t e he
  dsimp only at hr
  rw [hx] at hr
  cases Option.some.inj hr
  refine { h with stages := fun f => (h.stages f).congr rfl rfl rfl rfl, leaving := fun u f hf => ?_ }
  by_cases hut : u = t
  · subst hut
    exact absurd ((Function.update_self ..).symm.trans hf) (by simp)
  · exact h.leaving u f ((Function.update_of_ne hut ..).symm.trans hf)

theorem step_dInv (hd : Dying o s₀) (h : DInv o s₀ s) (ha : Unhurried o s a) (hr : step o s a = some r) :
    DInv o s₀ r := by
  cases a with
  | begin => exact h.begin hr
  | look => exact h.look hd ha hr
  | lockTask => exact h.lockTask hr
  | relock => exact h.relock hd ha hr
  | notify => exact h.notify hr
  | deallocFind t => exact h.deallocFind hr
  | deallocDestroy t => exact h.deallocDestroy hr
  | terminateLook t => exact h.terminateLook hr
  | terminateRead t => exact h.terminateRead hr

theorem Dying.dInv (h : Dying o s) : DInv o s s := by
  obtain ⟨h1, h2, h3, h4⟩ := h.quiet
  obtain ⟨h5, h6, h7, h8, h9⟩ := h.history
  refine ⟨h.tables, h.dead, fun e => .whole rfl (by simp [h5]) (by simp [h6]) (by simp [h7]), ?_,
    fun t e hc => by simp [h3] at hc, fun e t hc => ?_, fun e t hc => ?_, fun t e hc => by simp [h4] at hc,
    by simp [h1, h2], fun e t hc => ?_, fun hc => ?_, h9⟩
  · simp [h8, h.phase, h6, Phase.pending]
  all_goals simp [h.phase, Phase.inHand] at hc

end MachVM.Ipc.Destroy
