import MachVM.IpcRights

namespace MachVM.Ipc.Space

variable {s r u : SState} {t : TaskId} {o p : KernObjId} {e f : EntryId} {n : PortName} {x z : Entry}
  {y : KernObj} {i j : Item}

theorem make_update (h : Tables s) (hm : objEntryMake s t o e = some (f, u)) (hx : u.entry f = some x)
    (w : Option Entry) :
    Function.update u.entry f w = Function.update s.entry f w ∧
      (∀ z, s.entry f = some z → z = x) ∧ (x.type = .none ∨ s.entry f = some x) ∧ x.task = some t ∧
      x.obj = o := by
  rcases objEntryMake_cases hm with ⟨hf, rfl⟩ | ⟨rfl, he, hf, n, hn, hl, rfl⟩
  · obtain ⟨ht, ho⟩ := entry_of_find h hf hx
    refine ⟨rfl, fun z hz => Option.some.inj (hz.symm.trans hx), .inr hx, ht, ho⟩
  · have hn : some (⟨some t, o, n, .none⟩ : Entry) = some x := by
      simpa [objEntryInsert, SState.setTask, SState.setObj, SState.setEntry] using hx
    cases Option.some.inj hn
    refine ⟨?_, fun z hz => ?_, .inl rfl, rfl, rfl⟩
    · simp [objEntryInsert, SState.setTask, SState.setObj, SState.setEntry]
    · rw [he] at hz
      cases hz

theorem make_obj (hm : objEntryMake s t o e = some (f, u)) :
    u.items = s.items ∧ ∃ y, u.obj = Function.update s.obj o y ∧ SameRight y (s.obj o) ∧
      y.inUse = (s.obj o).inUse ∧ y.backup = (s.obj o).backup := by
  rcases objEntryMake_cases hm with ⟨hf, rfl⟩ | ⟨rfl, he, hf, n, hn, hl, rfl⟩
  · exact ⟨rfl, u.obj o, by rw [Function.update_eq_self], .refl _, rfl, rfl⟩
  · exact ⟨rfl, _, rfl, ⟨rfl, rfl, fun _ => ⟨rfl, rfl⟩⟩, rfl, rfl⟩

theorem RightInv.take {l : List Item} {w : Entry} (h : RightInv s) (hs : SpaceInv s)
    (hi : i ∈ s.items) (hri : i.rights = .portAll) (hin : i.inside = true)
    (hold : ∀ z, s.entry e = some z → z.obj = i.obj) (hentry : r.entry = Function.update s.entry e (some w))
    (hwt : w.task = some t) (hwo : w.obj = i.obj) (hwty : w.type = .receiveOwn)
    (hobj : r.obj = Function.update s.obj i.obj y) (hyrec : y.receiver = .task t)
    (hyset : y.isSet = (s.obj i.obj).isSet) (hyuse : y.inUse = (s.obj i.obj).inUse)
    (hyname : y.name = w.name) (hitems : r.items = s.items.erase i ++ l)
    (hl : ∀ j ∈ l, j.obj = i.obj ∧ j.inside = false) : RightInv r := by
  obtain ⟨hrec, hone⟩ := receiver_of_holds (h i.obj) hi hri hin
  have hport := hs.ports i hi
  have huse := ((h i.obj).live hport).mpr (by rw [hrec]; simp)
  have hoy : r.obj i.obj = y := by rw [hobj, Function.update_self]
  have hlzero : ∀ p, l.countP (holdsRight p) = 0 := by
    intro p
    apply List.countP_eq_zero.mpr
    intro j hj
    simp [holdsRight, (hl j hj).2]
  have hcount : ∀ p, holding r p = (s.items.erase i).countP (holdsRight p) := by
    intro p
    rw [holding, hitems, List.countP_append, hlzero, Nat.add_zero]
  refine h.at_obj (onlyAt_of (o := i.obj) hentry hold ?_ hobj ?_ ?_) ?_
  · intro z hz
    cases Option.some.inj hz
    exact hwo
  · intro p hp
    rw [hcount]
    exact holding_erase_other hi hp
  · intro j hj hjo
    rw [hitems] at hj
    rcases List.mem_append.mp hj with hj | hj
    · exact List.mem_of_mem_erase hj
    · exact absurd (hl j hj).1 hjo
  · refine rightAt_task (e := e) (x := w) ?_ ?_ ?_ ?_ hwt hwo hwty ?_ ?_ ?_
    · rw [hoy]; exact hyrec
    · rw [hoy, hyset]; exact hport
    · rw [hoy, hyuse]; exact huse
    · rw [hentry, Function.update_self]
    · rw [hoy]; exact hyname
    · intro g z hz hzo hzt
      by_contra hg
      rw [hentry, Function.update_of_ne hg] at hz
      exact no_owner (h i.obj) (by rw [hrec]; simp) g z hz hzo hzt
    · have hc := countP_erase_holding hi i.obj
      have hh : holdsRight i.obj i = true := by simp [holdsRight, hri, hin]
      rw [hh, hone] at hc
      rw [hcount]
      simpa using hc

theorem RightInv.copyoutAll (h : RightInv s) (hs : SpaceInv s) (hi : i ∈ s.items)
    (hri : i.rights = .portAll) (hin : i.inside = true)
    (hm : objEntryMake s t i.obj e = some (f, u)) (hx : u.entry f = some x) {w : SState}
    (hw : w = u.setEntry f (some { x with type := objectCopyoutTable i.rights x.type }))
    (hr : r = loseRef (dropItem (portCopyoutReceiveOwn w t i.obj x.name) i) i.obj) : RightInv r := by
  obtain ⟨hupd, hold, htype, ht, hxo⟩ := make_update hs.tables hm hx
    (some { x with type := objectCopyoutTable i.rights x.type })
  obtain ⟨hitems, y, hobj, hsame, hyuse, _⟩ := make_obj hm
  obtain ⟨hrec, _⟩ := receiver_of_holds (h i.obj) hi hri hin
  have hty : objectCopyoutTable i.rights x.type = .receiveOwn := by
    have hset := (make_entry hs (hs.ports i hi) hm hx).2.2
    have hown : x.type ≠ .receiveOwn := by
      rcases htype with hn | hsx
      · rw [hn]; decide
      · exact no_owner (h i.obj) (by rw [hrec]; simp) f x hsx hxo
    rw [hri]
    cases hc : x.type <;> simp_all [objectCopyoutTable]
  subst hr hw
  refine h.take (t := t) (e := f) (l := []) (w := { x with type := objectCopyoutTable i.rights x.type })
    (y := { y with receiver := .task t, name := x.name, refs := y.refs - 1 }) hs hi hri hin
    ?_ hupd ht hxo hty ?_ rfl hsame.1 hyuse rfl ?_ ?_
  · intro z hz
    rw [hold z hz]
    exact hxo
  · simp only [loseRef, dropItem, portCopyoutReceiveOwn, SState.setObj, SState.setEntry, hobj,
      Function.update_self, Function.update_idem]
  · simp only [loseRef, dropItem, portCopyoutReceiveOwn, SState.setObj, SState.setEntry, hitems,
      List.append_nil]
  · intro j hj
    cases hj

theorem RightInv.insertReceive (h : RightInv s) (hs : SpaceInv s)
    (hr : portInsertReceive s i t n e = some r) : RightInv r := by
  unfold portInsertReceive at hr
  split at hr
  next hg =>
    obtain ⟨hi, hri, hin, _, _, he, _, _⟩ := hg
    cases Option.some.inj hr
    refine h.take (t := t) (e := e) (l := [{ i with inside := false }])
      (w := ⟨some t, i.obj, n, .receiveOwn⟩)
      (y := { s.obj i.obj with receiver := .task t, name := n, refs := (s.obj i.obj).refs + 1 })
      hs hi hri hin ?_ rfl rfl rfl rfl ?_ rfl rfl rfl rfl rfl ?_
    · intro z hz
      rw [he] at hz
      cases hz
    · simp only [portCopyoutReceiveOwn, objEntryInsert, SState.setObj, SState.setEntry,
        Function.update_self, Function.update_idem]
    · intro j hj
      rw [List.mem_singleton.mp hj]
      exact ⟨rfl, rfl⟩
  next => cases hr

theorem RightInv.destroy (h : RightInv s) (hs : SpaceInv s) (hr : objectDestroy s i = some r) :
    RightInv r := by
  obtain ⟨hi, ⟨rfl, hc⟩ | ⟨hri, hu, hrec, rfl⟩⟩ := objectDestroy_cases hr
  · apply h.consume hi
    intro p
    by_contra hh
    simp only [holdsRight, Bool.not_eq_false, decide_eq_true_eq] at hh
    obtain ⟨rfl, hri, hin⟩ := hh
    obtain ⟨hsoft, _⟩ := receiver_of_holds (h i.obj) hi hri hin
    have huse := ((h i.obj).live (hs.ports i hi)).mpr (by rw [hsoft]; simp)
    rcases hc with hc | hc | hc
    · rw [hri] at hc; cases hc
    · rw [huse] at hc; cases hc
    · exact hc.1 hsoft
  · have hport := hs.ports i hi
    have hsoft : (s.obj i.obj).receiver = .soft := by
      refine hrec.resolve_right fun hn => ?_
      exact ((h i.obj).live hport).mp hu hn
    have hin : i.inside = true := by
      by_contra hin
      exact (h i.obj).left i hi rfl hri (by simpa using hin) hsoft
    obtain ⟨_, hone⟩ := receiver_of_holds (h i.obj) hi hri hin
    have hdrop : OnlyAt i.obj s (dropItem (s.setObj i.obj { s.obj i.obj with receiver := .none }) i) := by
      refine ⟨?_, fun _ _ _ _ => Iff.rfl, ?_, fun j hj _ => List.mem_of_mem_erase hj⟩
      · intro p hp
        simp only [dropItem, SState.setObj, Function.update_of_ne hp]
        exact .refl _
      · intro p hp
        exact holding_erase_other hi hp
    refine h.at_obj (hdrop.trans (portDestroy_onlyAt _ i.obj)) (portDestroy_rightAt ?_ ?_ ?_ ?_ ?_ ?_)
    · intro g z hz hzo
      exact no_owner (h i.obj) (by rw [hsoft]; simp) g z hz hzo
    · have hc := countP_erase_holding hi i.obj
      have hh : holdsRight i.obj i = true := by simp [holdsRight, hri, hin]
      rw [hh, hone] at hc
      have hz : (s.items.erase i).countP (holdsRight i.obj) = 0 := by simpa using hc
      exact hz
    · intro _ j hj hjo hjr hjin
      exact (h i.obj).left j (List.mem_of_mem_erase hj) hjo hjr hjin hsoft
    · simpa [dropItem, SState.setObj] using hport
    · simpa [dropItem, SState.setObj] using hu
    · simp [dropItem, SState.setObj]

end MachVM.Ipc.Space

namespace MachVM.Ipc.Space

variable {s r u : SState} {t : TaskId} {o p : KernObjId} {e f : EntryId} {n : PortName} {x z : Entry}
  {i j : Item} {a : Action}

/-- No message that once carried the receive right of the port is left. -/
def NoRightMessage (s : SState) (o : KernObjId) : Prop :=
  ∀ i ∈ s.items, i.obj = o → i.rights ≠ .portAll

/-- The right of a port goes into a message only when no older message with it is left: a copyin of
it, or the end of a receiver whose port has a backup. -/
def Settled (s : SState) : Action → Prop
  | .copyin t n .portAll _ =>
    ∀ e x, objEntryLookup s t n = some e → s.entry e = some x → NoRightMessage s x.obj
  | .copyinFromKernel _ o .portAll _ => NoRightMessage s o
  | .dealloc t o => (s.obj o).receiver = .task t → (s.obj o).backup ≠ none → NoRightMessage s o
  | _ => True

theorem RightInv.copyin {d : Bool} {rights : MsgType} (h : RightInv s) (hs : SpaceInv s)
    (hx : s.entry e = some x) (hno : rights = .portAll → NoRightMessage s x.obj)
    (hr : copyinEntry s t e x rights d = some r) : RightInv r := by
  obtain ⟨_, ⟨_, hty, _, rfl⟩ | ⟨_, _, _, rfl⟩ | ⟨hri, hty, u, hu, hr⟩⟩ := copyinEntry_cases hx hr
  · exact (h.destroyEntry hx (by rw [hty]; decide)).send x.obj
  · exact h.send x.obj
  · exact h.copyinAll hs hx hty (hno hri) hu hr

theorem RightInv.dealloc (h : RightInv s) (hs : SpaceInv s)
    (hno : (s.obj o).receiver = .task t → (s.obj o).backup ≠ none → NoRightMessage s o)
    (hr : portDealloc s t o = some r) : RightInv r := by
  obtain ⟨e, x, _, hx, ht, rfl, ⟨hty, rfl⟩ | ⟨hty, u, rfl, rfl⟩⟩ := portDealloc_cases hs.tables hr
  · exact h.destroyEntry hx (by rw [hty]; decide)
  · obtain ⟨v, hv, hrec, _⟩ := (h x.obj).owner e x hx rfl hty
    cases Option.some.inj (hv.symm.trans ht)
    have hport := kind_of_port hs hx (by rw [hty]; decide)
    have huse := ((h x.obj).live hport).mpr (by rw [hrec]; simp)
    have hzero : holding s x.obj = 0 := by
      rw [(h x.obj).count, hrec]
      simp
    generalize hw : (portClearReceiver (objEntryDestroy s t e x) x.obj .none).setObj x.obj
      { (portClearReceiver (objEntryDestroy s t e x) x.obj .none).obj x.obj with
        refs := ((portClearReceiver (objEntryDestroy s t e x) x.obj .none).obj x.obj).refs + 1 } = w
    have hwe : w.entry = Function.update s.entry e none := by
      rw [← hw]
      simp only [SState.setObj, portClearReceiver, objEntryDestroy, huse, if_true, objEntryDealloc,
        SState.setEntry, objEntryRemove_entry, Function.update_idem]
    have hwi : w.items = s.items := by
      rw [← hw]
      exact objEntryDestroy_items s t e x
    have hwo : ∃ y, w.obj = Function.update s.obj x.obj y ∧ y.isSet = false ∧ y.inUse = true ∧
        y.receiver = .none ∧ y.backup = (s.obj x.obj).backup := by
      rw [← hw]
      simp only [SState.setObj, portClearReceiver, objEntryDestroy_obj, Function.update_idem,
        Function.update_self]
      exact ⟨_, rfl, hport, huse, rfl, rfl⟩
    obtain ⟨y, hwo, hyset, hyuse, hyrec, hyb⟩ := hwo
    have hoy : w.obj x.obj = y := by rw [hwo, Function.update_self]
    have hat : OnlyAt x.obj s w := by
      refine onlyAt_of hwe ?_ (fun z hz => by cases hz) hwo ?_ ?_
      · intro z hz
        cases Option.some.inj (hx.symm.trans hz)
        rfl
      · intro p _
        rw [holding, hwi]
        rfl
      · intro i hi _
        rwa [hwi] at hi
    refine h.at_obj (hat.trans (portDestroy_onlyAt w x.obj)) (portDestroy_rightAt ?_ ?_ ?_ ?_ ?_ ?_)
    · intro g z hz hzo hzt
      by_cases hg : g = e
      · rw [hwe, hg, Function.update_self] at hz
        cases hz
      · rw [hwe, Function.update_of_ne hg] at hz
        exact hg (owner_unique hs.tables (h x.obj) hx rfl hty hz hzo hzt)
    · rw [holding, hwi]
      exact hzero
    · intro hb i hi hio hri
      rw [hwi] at hi
      rw [hoy, hyb] at hb
      exact absurd hri (hno hrec hb i hi hio)
    · rw [hoy]; exact hyset
    · rw [hoy]; exact hyuse
    · rw [hoy]; exact hyrec

theorem RightInv.rename {old new : PortName} (h : RightInv s) (hs : SpaceInv s)
    (hr : portRename s t old new = some r) : RightInv r := by
  obtain ⟨_, _, e, x, hx, ht, _, huse, hr⟩ := portRename_cases hs.tables hr
  by_cases hty : x.type = .receiveOwn
  · rw [if_pos (.inl hty)] at hr
    obtain ⟨v, hv, hrec, _⟩ := (h x.obj).owner e x hx rfl hty
    have hport := kind_of_port hs hx (by rw [hty]; decide)
    have hzero : holding s x.obj = 0 := by
      rw [(h x.obj).count, hrec]
      simp
    have hre : r.entry = Function.update s.entry e (some { x with name := new }) := by
      rw [hr]
      exact objEntryChange_entry s t e x new
    have hri : r.items = s.items := by
      rw [hr]
      exact objEntryChange_items s t e x new
    have hro : r.obj = Function.update s.obj x.obj { s.obj x.obj with name := new } := by
      rw [hr]
      simp only [SState.setObj, objEntryChange_obj]
    have hoy : r.obj x.obj = { s.obj x.obj with name := new } := by rw [hro, Function.update_self]
    refine h.at_obj (onlyAt_of (o := x.obj) hre ?_ ?_ hro ?_ ?_) ?_
    · intro z hz
      cases Option.some.inj (hx.symm.trans hz)
      rfl
    · intro z hz
      cases Option.some.inj hz
      rfl
    · intro p _
      rw [holding, hri]
      rfl
    · intro i hi _
      rwa [hri] at hi
    · refine rightAt_task (e := e) (x := { x with name := new }) ?_ ?_ ?_ ?_ hv rfl hty ?_ ?_ ?_
      · rw [hoy]; exact hrec
      · rw [hoy]; exact hport
      · rw [hoy]; exact huse
      · rw [hre, Function.update_self]
      · rw [hoy]
      · intro g z hz hzo hzt
        by_contra hg
        rw [hre, Function.update_of_ne hg] at hz
        exact hg (owner_unique hs.tables (h x.obj) hx rfl hty hz hzo hzt)
      · rw [holding, hri]
        exact hzero
  · have hch : RightInv (objEntryChange s t e x new) := by
      apply h.setEntry (e := e) (w := some { x with name := new })
      · intro z hz
        cases Option.some.inj (hx.symm.trans hz)
        exact hty
      · intro z hz
        cases Option.some.inj hz
        exact hty
      · exact objEntryChange_entry s t e x new
      · intro p
        rw [objEntryChange_obj]
        exact .refl _
      · exact objEntryChange_items s t e x new
    subst hr
    split
    next hc =>
      have hset := (hs.kinds e x hx).mp (hc.resolve_left hty)
      apply hch.setObj
      rw [objEntryChange_obj]
      exact ⟨rfl, rfl, fun hp => by rw [hset] at hp; cases hp⟩
    next => exact hch

theorem RightInv.detach (h : RightInv s) (hx : s.entry e = some x) (hty : x.type ≠ .receiveOwn) :
    RightInv (objEntryDealloc (objEntryRemove s t e x) e x.obj) := by
  apply h.setEntry (e := e) (w := none)
  · intro z hz
    cases Option.some.inj (hx.symm.trans hz)
    exact hty
  · intro z hz
    cases hz
  · simp [objEntryDealloc, SState.setEntry]
  · rw [objEntryDealloc, SState.setEntry, objEntryRemove_obj]
    exact sameRight_update ⟨rfl, rfl, fun _ => ⟨rfl, rfl⟩⟩
  · exact objEntryRemove_items s t e x

theorem RightInv.setDestroy (h : RightInv s) (hs : SpaceInv s) (hr : setDestroy s t e = some r) :
    RightInv r := by
  obtain ⟨x, u, hx, _, hty, rfl, rfl⟩ := setDestroy_cases hr
  have hset := (hs.kinds e x hx).mp hty
  have hu : RightInv (s.setObj x.obj { s.obj x.obj with inUse := false }) :=
    h.setObj ⟨rfl, rfl, fun hp => by rw [hset] at hp; cases hp⟩
  exact hu.detach hx (by rw [hty]; decide)

theorem RightInv.destroyRights (h : RightInv s) (hs : SpaceInv s) (hr : objDestroyRights s o = some r) :
    RightInv r := by
  obtain ⟨hu, e, x, hx, rfl, hc⟩ := objDestroyRights_cases hs.tables hr
  have hty : x.type ≠ .receiveOwn := by
    intro hty
    obtain ⟨v, _, hrec, _⟩ := (h x.obj).owner e x hx rfl hty
    have hport := kind_of_port hs hx (by rw [hty]; decide)
    have := ((h x.obj).live hport).mpr (by rw [hrec]; simp)
    rw [hu] at this
    cases this
  rcases hc with ⟨_, rfl⟩ | ⟨v, _, rfl⟩
  · apply h.setEntry (e := e) (w := none)
    · intro z hz
      cases Option.some.inj (hx.symm.trans hz)
      exact hty
    · intro z hz
      cases hz
    · rfl
    · exact fun _ => .refl _
    · rfl
  · exact h.detach hx hty

theorem RightInv.copyoutPort (h : RightInv s) (hs : SpaceInv s) (hi : i ∈ s.items)
    (hri : i.rights = .port) (hm : objEntryMake s t i.obj e = some (f, u)) (hx : u.entry f = some x)
    {type : PortType} (hty : type = .receiveOwn ↔ x.type = .receiveOwn) :
    RightInv (loseRef (dropItem (u.setEntry f (some { x with type := type })) i) i.obj) := by
  have hu : RightInv u := by
    rcases objEntryMake_cases hm with ⟨_, rfl⟩ | ⟨rfl, he, _, n, _, _, rfl⟩
    · exact h
    · exact (h.insert he (by decide)).frame (fun _ => .refl _) rfl rfl
  obtain ⟨hitems, _⟩ := make_obj hm
  have hw : RightInv (u.setEntry f (some { x with type := type })) := by
    by_cases hc : x.type = .receiveOwn
    · have hsame : u.setEntry f (some { x with type := type }) = u := by
        have hz : ({ x with type := type } : Entry) = x := by
          rw [hty.mpr hc, ← hc]
        rw [hz, SState.setEntry, ← hx, Function.update_eq_self]
      rw [hsame]
      exact hu
    · exact hu.retype hx hc fun hc' => hc (hty.mp hc')
  refine hw.consume ?_ ?_
  · exact hitems ▸ hi
  · intro p
    simp [holdsRight, hri]

end MachVM.Ipc.Space

namespace MachVM.Ipc.Space

variable {s r u : SState} {t : TaskId} {o p : KernObjId} {e f : EntryId} {n : PortName} {x z : Entry}
  {y : KernObj} {i j : Item} {a : Action}

theorem RightInv.copyout (h : RightInv s) (hs : SpaceInv s) (hr : objectCopyout s i t e = some r) :
    RightInv r := by
  obtain ⟨hi, hin, hd | ⟨_, _, f, u, x, w, hm, hx, hw, hr⟩⟩ := objectCopyout_cases hr
  · exact h.destroy hs hd
  · cases hri : i.rights with
    | portAll =>
      rw [if_pos hri] at hr
      exact h.copyoutAll hs hi hri hin hm hx hw hr
    | port =>
      rw [if_neg (by rw [hri]; decide)] at hr
      subst hr hw
      apply h.copyoutPort hs hi hri hm hx
      have hp := (make_entry hs (hs.ports i hi) hm hx).2.2
      rw [hri]
      cases hc : x.type <;> simp_all [objectCopyoutTable]

theorem RightInv.reply (h : RightInv s) (hs : SpaceInv s) (hr : replyCopyout s i t e = some r) :
    RightInv r := by
  obtain ⟨hi, hri, rfl | ⟨_, _, f, u, x, w, hm, hx, rfl, rfl⟩⟩ := replyCopyout_cases hr
  · exact h.consume hi fun p => by simp [holdsRight, hri]
  · have hty : (if x.type = .none then PortType.send else x.type) = .receiveOwn ↔
        x.type = .receiveOwn := by
      cases hc : x.type <;> simp
    exact (h.copyoutPort hs hi hri hm hx hty).frame (fun _ => .refl _) rfl rfl

theorem counts_cases (hr : portReference s o = some r ∨ portRelease s o = some r ∨
    setAddMember s o = some r ∨ setRemoveMember s o = some r) :
    ∃ refs held inSet, r = s.setObj o { s.obj o with refs := refs, held := held, inSet := inSet } := by
  rcases hr with hr | hr | hr | hr
  · obtain ⟨_, hr⟩ := Option.ite_none_right_eq_some.mp hr
    exact ⟨_, _, _, (Option.some.inj hr).symm⟩
  · obtain ⟨_, hr⟩ := Option.ite_none_right_eq_some.mp hr
    exact ⟨_, _, _, (Option.some.inj hr).symm⟩
  · obtain ⟨_, hr⟩ := Option.ite_none_right_eq_some.mp hr
    exact ⟨_, _, _, (Option.some.inj hr).symm⟩
  · obtain ⟨_, hr⟩ := Option.ite_none_right_eq_some.mp hr
    exact ⟨_, _, _, (Option.some.inj hr).symm⟩

theorem RightInv.counts (h : RightInv s) (hr : portReference s o = some r ∨ portRelease s o = some r ∨
    setAddMember s o = some r ∨ setRemoveMember s o = some r) : RightInv r := by
  obtain ⟨refs, held, inSet, rfl⟩ := counts_cases hr
  exact h.setObj ⟨rfl, rfl, fun _ => ⟨rfl, rfl⟩⟩

theorem portSetBackup_cases {b : KernObjId} (hr : portSetBackup s t n b = some r) :
    ∃ o, r = (reference s b).setObj o { (reference s b).obj o with backup := some b } := by
  unfold portSetBackup at hr
  split at hr
  next =>
    obtain ⟨e, _, hr⟩ := Option.bind_eq_some_iff.mp hr
    obtain ⟨x, _, hr⟩ := Option.bind_eq_some_iff.mp hr
    split at hr
    next =>
      cases Option.some.inj hr
      exact ⟨x.obj, rfl⟩
    next => cases hr
  next => cases hr

theorem RightInv.step (h : RightInv s) (hs : SpaceInv s) (ha : Settled s a) (hr : step s a = some r) :
    RightInv r := by
  cases a with
  | taskInit t k =>
    obtain ⟨_, hr⟩ := Option.ite_none_right_eq_some.mp hr
    cases Option.some.inj hr
    exact h.frame (fun _ => .refl _) rfl rfl
  | taskTerminate t =>
    obtain ⟨_, hr⟩ := Option.ite_none_right_eq_some.mp hr
    cases Option.some.inj hr
    exact h.frame (fun _ => .refl _) rfl rfl
  | portAlloc t o e => exact h.alloc hs hr
  | setAlloc t o e => exact h.alloc hs hr
  | copyin t n rights d =>
    obtain ⟨_, hr⟩ := Option.ite_none_right_eq_some.mp hr
    obtain ⟨e, he, hr⟩ := Option.bind_eq_some_iff.mp hr
    obtain ⟨x, hx, hr⟩ := Option.bind_eq_some_iff.mp hr
    refine h.copyin hs hx ?_ hr
    rintro rfl
    exact ha e x he hx
  | copyinFromKernel t o rights d =>
    obtain ⟨_, _, rfl⟩ | ⟨e, x, hx, _, rfl, hq⟩ := objectCopyinFromKernel_cases hs.tables hr
    · exact h.send o
    · refine h.copyin hs hx ?_ hq
      rintro rfl
      exact ha
  | headerCopyin t n =>
    obtain ⟨⟨o, r'⟩, hq, rfl⟩ := Option.map_eq_some_iff.mp hr
    obtain ⟨_, ⟨_, _, rfl⟩ | ⟨_, rfl⟩ | ⟨_, _, e, x, _, _, _, _, _, rfl⟩⟩ :=
      objCacheCopyin_cases hs.tables hq
    · exact h.send o
    · exact h.send o
    · exact (h.send o).cacheSet t n o
  | copyout i t e => exact h.copyout hs hr
  | replyCopyout i t e => exact h.reply hs hr
  | destroy i => exact h.destroy hs hr
  | rename t old new => exact h.rename hs hr
  | insertSend t o n e =>
    obtain ⟨⟨_, ⟨_, _, he, _, _⟩, _⟩, hr⟩ := Option.ite_none_right_eq_some.mp hr
    cases Option.some.inj hr
    exact h.insert he (by decide)
  | insertReceive i t n e => exact h.insertReceive hs hr
  | dealloc t o => exact h.dealloc hs ha hr
  | setDestroy t e => exact h.setDestroy hs hr
  | destroyRights o => exact h.destroyRights hs hr
  | receive t n =>
    obtain ⟨⟨o, r'⟩, hq, rfl⟩ := Option.map_eq_some_iff.mp hr
    obtain rfl | ⟨_, _, e, x, _, _, _, _, _, rfl⟩ := msgReceiveTrap_cases hs.tables hq
    · exact h.refer o
    · exact (h.refer o).cacheSet t n o
  | setBackup t n b =>
    obtain ⟨o, rfl⟩ := portSetBackup_cases hr
    exact (h.refer b).setObj ⟨rfl, rfl, fun _ => ⟨rfl, rfl⟩⟩
  | reference o => exact h.counts (.inl hr)
  | release o => exact h.counts (.inr (.inl hr))
  | joinSet o => exact h.counts (.inr (.inr (.inl hr)))
  | leaveSet o => exact h.counts (.inr (.inr (.inr hr)))

theorem rightInv_empty : RightInv SState.empty := by
  intro o
  apply rightAt_none
  · rfl
  · exact fun _ => rfl
  · exact fun _ _ h => by cases h
  · rfl

theorem reach_rights {ok : SState → Action → Prop} (hok : ∀ s a, ok s a → Settled s a)
    (h : Reach ok s) : RightInv s := by
  induction h with
  | start => exact rightInv_empty
  | next hs ha hr ih => exact ih.step (reach_space hs).1 (hok _ _ ha) hr

end MachVM.Ipc.Space
