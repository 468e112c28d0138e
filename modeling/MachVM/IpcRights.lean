import MachVM.IpcSpaceCache

namespace MachVM.Ipc.Space

/-- The message still holds the receive right of the port. -/
def holdsRight (o : KernObjId) (i : Item) : Bool := i.obj = o ∧ i.rights = .portAll ∧ i.inside = true

/-- How many messages hold the receive right of a port. -/
def holding (s : SState) (o : KernObjId) : Nat := s.items.countP (holdsRight o)

/-- The receive right of a port, recorded in the port, in the entries and in the messages. A message
that the right has left may be there only while the right is in no other message. -/
structure RightAt (s : SState) (o : KernObjId) : Prop where
  owner : ∀ e x, s.entry e = some x → x.obj = o → x.type = .receiveOwn →
    ∃ t, x.task = some t ∧ (s.obj o).receiver = .task t ∧ (s.obj o).name = x.name
  owned : ∀ t, (s.obj o).receiver = .task t →
    ∃ e x, s.entry e = some x ∧ x.task = some t ∧ x.obj = o ∧ x.type = .receiveOwn
  count : holding s o = if (s.obj o).receiver = .soft then 1 else 0
  left : ∀ i ∈ s.items, i.obj = o → i.rights = .portAll → i.inside = false → (s.obj o).receiver ≠ .soft
  live : (s.obj o).isSet = false → ((s.obj o).inUse = true ↔ (s.obj o).receiver ≠ .none)
  set : (s.obj o).isSet = true → (s.obj o).receiver = .none

def RightInv (s : SState) : Prop := ∀ o, RightAt s o

/-- What the receive right sees of an object. -/
def SameRight (y x : KernObj) : Prop :=
  y.isSet = x.isSet ∧ y.receiver = x.receiver ∧ (x.isSet = false → y.name = x.name ∧ y.inUse = x.inUse)

variable {s r : SState} {t : TaskId} {o p : KernObjId} {e : EntryId} {n : PortName} {x : Entry}
  {y : KernObj} {i : Item}

theorem SameRight.refl (x : KernObj) : SameRight x x := ⟨rfl, rfl, fun _ => ⟨rfl, rfl⟩⟩

theorem sameRight_update (hy : SameRight y (s.obj o)) (p : KernObjId) :
    SameRight (Function.update s.obj o y p) (s.obj p) := by
  by_cases hp : p = o
  · subst hp
    rwa [Function.update_self]
  · rw [Function.update_of_ne hp]
    exact .refl _

theorem RightAt.congr (h : RightAt s o) (ho : SameRight (r.obj o) (s.obj o))
    (he : ∀ e x, x.obj = o → x.type = .receiveOwn → (r.entry e = some x ↔ s.entry e = some x))
    (hc : holding r o = holding s o)
    (hl : ∀ i ∈ r.items, i.obj = o → i.rights = .portAll → i.inside = false → i ∈ s.items) :
    RightAt r o := by
  obtain ⟨hset, hrec, hname⟩ := ho
  constructor
  · intro e x hx hxo hty
    obtain ⟨t, ht, hr, hn⟩ := h.owner e x ((he e x hxo hty).mp hx) hxo hty
    have hport : (s.obj o).isSet = false := by
      by_contra hs
      rw [h.set (by simpa using hs)] at hr
      cases hr
    exact ⟨t, ht, hrec.trans hr, (hname hport).1.trans hn⟩
  · intro t hr
    obtain ⟨e, x, hx, ht, hxo, hty⟩ := h.owned t (hrec.symm.trans hr)
    exact ⟨e, x, (he e x hxo hty).mpr hx, ht, hxo, hty⟩
  · rw [hc, hrec]; exact h.count
  · intro i hi hio hri hin
    rw [hrec]
    exact h.left i (hl i hi hio hri hin) hio hri hin
  · intro hs
    rw [hset] at hs
    rw [(hname hs).2, hrec]
    exact h.live hs
  · intro hs
    rw [hset] at hs
    rw [hrec]
    exact h.set hs

theorem owner_update {w : Option Entry} (hold : ∀ x, s.entry e = some x → x.obj = o → x.type ≠ .receiveOwn)
    (hnew : ∀ x, w = some x → x.obj = o → x.type ≠ .receiveOwn) (f : EntryId) (x : Entry)
    (hxo : x.obj = o) (hty : x.type = .receiveOwn) :
    Function.update s.entry e w f = some x ↔ s.entry f = some x := by
  by_cases hf : f = e
  · subst hf
    rw [Function.update_self]
    exact ⟨fun hw => absurd hty (hnew x hw hxo), fun hx => absurd hty (hold x hx hxo)⟩
  · rw [Function.update_of_ne hf]

section Quiet

theorem RightInv.frame (h : RightInv s) (ho : ∀ o, SameRight (r.obj o) (s.obj o))
    (he : r.entry = s.entry) (hi : r.items = s.items) : RightInv r := by
  intro o
  apply (h o).congr (ho o)
  · intro e x _ _
    rw [he]
  · rw [holding, hi]; rfl
  · intro i hr _ _ _
    rwa [hi] at hr

theorem RightInv.setObj (h : RightInv s) (hy : SameRight y (s.obj o)) : RightInv (s.setObj o y) :=
  h.frame (sameRight_update hy) rfl rfl

theorem RightInv.setEntry {w : Option Entry} (h : RightInv s)
    (hold : ∀ x, s.entry e = some x → x.type ≠ .receiveOwn)
    (hnew : ∀ x, w = some x → x.type ≠ .receiveOwn) (he : r.entry = Function.update s.entry e w)
    (ho : ∀ o, SameRight (r.obj o) (s.obj o)) (hi : r.items = s.items) : RightInv r := by
  intro o
  apply (h o).congr (ho o)
  · intro f x hxo hty
    rw [he]
    exact owner_update (fun x hx _ => hold x hx) (fun x hx _ => hnew x hx) f x hxo hty
  · rw [holding, hi]; rfl
  · intro i hr _ _ _
    rwa [hi] at hr

theorem RightInv.insert {type : PortType} (h : RightInv s) (he : s.entry e = none)
    (hty : type ≠ .receiveOwn) : RightInv (objEntryInsert s e t o n type) := by
  apply h.setEntry (e := e) (w := some ⟨some t, o, n, type⟩)
  · intro x hx
    rw [he] at hx
    cases hx
  · intro x hx
    cases Option.some.inj hx
    exact hty
  · rfl
  · exact sameRight_update ⟨rfl, rfl, fun _ => ⟨rfl, rfl⟩⟩
  · rfl

theorem RightInv.retype {type : PortType} (h : RightInv s) (hx : s.entry e = some x)
    (hold : x.type ≠ .receiveOwn) (hnew : type ≠ .receiveOwn) :
    RightInv (s.setEntry e (some { x with type := type })) := by
  apply h.setEntry (e := e) (w := some { x with type := type })
  · intro z hz
    cases Option.some.inj (hx.symm.trans hz)
    exact hold
  · intro z hz
    cases Option.some.inj hz
    exact hnew
  · rfl
  · exact fun _ => .refl _
  · rfl

@[simp] theorem objEntryDestroy_items (s : SState) (t : TaskId) (e : EntryId) (x : Entry) :
    (objEntryDestroy s t e x).items = s.items := by
  unfold objEntryDestroy
  split
  · exact objEntryRemove_items s t e x
  · exact objEntryRemove_items s t e x

@[simp] theorem objEntryDestroy_obj (s : SState) (t : TaskId) (e : EntryId) (x : Entry) :
    (objEntryDestroy s t e x).obj =
      Function.update s.obj x.obj { s.obj x.obj with refs := (s.obj x.obj).refs - 1 } := by
  unfold objEntryDestroy
  split
  · exact objEntryRemove_obj s t e x
  · exact objEntryRemove_obj s t e x

theorem objEntryDestroy_entry (s : SState) (t : TaskId) (e : EntryId) (x : Entry) :
    (objEntryDestroy s t e x).entry = Function.update s.entry e none ∨
      (objEntryDestroy s t e x).entry = Function.update s.entry e (some { x with task := none }) := by
  unfold objEntryDestroy
  split
  · left
    simp [objEntryDealloc, SState.setEntry]
  · right
    exact objEntryRemove_entry s t e x

theorem RightInv.destroyEntry (h : RightInv s) (hx : s.entry e = some x) (hty : x.type ≠ .receiveOwn) :
    RightInv (objEntryDestroy s t e x) := by
  have hold : ∀ z, s.entry e = some z → z.type ≠ .receiveOwn := by
    intro z hz
    cases Option.some.inj (hx.symm.trans hz)
    exact hty
  have ho : ∀ o, SameRight ((objEntryDestroy s t e x).obj o) (s.obj o) := by
    rw [objEntryDestroy_obj]
    exact sameRight_update ⟨rfl, rfl, fun _ => ⟨rfl, rfl⟩⟩
  rcases objEntryDestroy_entry s t e x with he | he
  · exact h.setEntry hold (fun z hz => by cases hz) he ho (objEntryDestroy_items s t e x)
  · refine h.setEntry hold ?_ he ho (objEntryDestroy_items s t e x)
    intro z hz
    cases Option.some.inj hz
    exact hty

theorem RightInv.withItems {l : List Item} (h : RightInv s)
    (hc : ∀ o, l.countP (holdsRight o) = holding s o)
    (hl : ∀ i ∈ l, i.rights = .portAll → i.inside = false → i ∈ s.items) :
    RightInv { s with items := l } := by
  intro o
  refine (h o).congr (.refl _) ?_ ?_ ?_
  · exact fun _ _ _ _ => Iff.rfl
  · exact hc o
  · exact fun i hi _ => hl i hi

theorem RightInv.send (h : RightInv s) (o : KernObjId) : RightInv (intoMessage s o .port) := by
  have hs : RightInv (s.setObj o { s.obj o with refs := (s.obj o).refs + 1 }) :=
    h.setObj ⟨rfl, rfl, fun _ => ⟨rfl, rfl⟩⟩
  apply hs.withItems
  · intro p
    rw [List.countP_append, List.countP_singleton]
    simp [holdsRight, holding, SState.setObj]
  · intro i hi hri hin
    rcases List.mem_append.mp hi with hi | hi
    · exact hi
    · rw [List.mem_singleton.mp hi] at hri
      cases hri

theorem countP_erase_holding (hi : i ∈ s.items) (o : KernObjId) :
    (s.items.erase i).countP (holdsRight o) + (holdsRight o i).toNat = holding s o := by
  rw [List.countP_erase]
  cases hh : holdsRight o i with
  | false => simp [holding]
  | true =>
    have hpos : 0 < s.items.countP (holdsRight o) := List.countP_pos_iff.mpr ⟨i, hi, hh⟩
    simp only [hi, and_self, if_true, holding, Bool.toNat_true]
    omega

theorem RightInv.consume (h : RightInv s) (hi : i ∈ s.items) (hh : ∀ o, holdsRight o i = false) :
    RightInv (loseRef (dropItem s i) i.obj) := by
  have hd : RightInv (dropItem s i) := by
    apply h.withItems
    · intro o
      have hc := countP_erase_holding hi o
      rw [hh o] at hc
      exact hc
    · exact fun j hj _ _ => List.mem_of_mem_erase hj
  exact hd.setObj ⟨rfl, rfl, fun _ => ⟨rfl, rfl⟩⟩

theorem RightInv.cacheSet (h : RightInv s) (t : TaskId) (n : PortName) (o : KernObjId) :
    RightInv (objCacheSet s t n o) :=
  h.frame (fun _ => .refl _) rfl rfl

theorem RightInv.refer (h : RightInv s) (o : KernObjId) : RightInv (reference s o) :=
  h.setObj ⟨rfl, rfl, fun _ => ⟨rfl, rfl⟩⟩

end Quiet

end MachVM.Ipc.Space

namespace MachVM.Ipc.Space

/-- Only what belongs to one object changed. -/
structure OnlyAt (o : KernObjId) (s r : SState) : Prop where
  obj : ∀ p, p ≠ o → SameRight (r.obj p) (s.obj p)
  entry : ∀ e x, x.obj ≠ o → x.type = .receiveOwn → (r.entry e = some x ↔ s.entry e = some x)
  count : ∀ p, p ≠ o → holding r p = holding s p
  left : ∀ i ∈ r.items, i.obj ≠ o → i ∈ s.items

variable {s r u : SState} {t : TaskId} {o p : KernObjId} {e f : EntryId} {n : PortName} {x z : Entry}
  {y : KernObj} {i j : Item}

theorem RightInv.at_obj (h : RightInv s) (ho : OnlyAt o s r) (hr : RightAt r o) : RightInv r := by
  intro p
  by_cases hp : p = o
  · rwa [hp]
  · apply (h p).congr (ho.obj p hp)
    · intro e x hxo hty
      exact ho.entry e x (by rw [hxo]; exact hp) hty
    · exact ho.count p hp
    · intro i hi hio _ _
      exact ho.left i hi (by rw [hio]; exact hp)

theorem onlyAt_of {w : Option Entry} (he : r.entry = Function.update s.entry e w)
    (hold : ∀ x, s.entry e = some x → x.obj = o) (hnew : ∀ x, w = some x → x.obj = o)
    (ho : r.obj = Function.update s.obj o y)
    (hc : ∀ p, p ≠ o → holding r p = holding s p) (hl : ∀ i ∈ r.items, i.obj ≠ o → i ∈ s.items) :
    OnlyAt o s r where
  obj := by
    intro p hp
    rw [ho, Function.update_of_ne hp]
    exact .refl _
  entry := by
    intro f x hxo _
    rw [he]
    by_cases hf : f = e
    · subst hf
      rw [Function.update_self]
      exact ⟨fun hw => absurd (hnew x hw) hxo, fun hx => absurd (hold x hx) hxo⟩
    · rw [Function.update_of_ne hf]
  count := hc
  left := hl

theorem holdsRight_other (hp : p ≠ i.obj) : holdsRight p i = false := by
  simp [holdsRight, Ne.symm hp]

theorem holding_erase_other (hi : i ∈ s.items) (hp : p ≠ i.obj) :
    (s.items.erase i).countP (holdsRight p) = holding s p := by
  have hc := countP_erase_holding hi p
  rw [holdsRight_other hp] at hc
  exact hc

theorem countP_append_item (l : List Item) (j : Item) (p : KernObjId) :
    (l ++ [j]).countP (holdsRight p) = l.countP (holdsRight p) + (holdsRight p j).toNat := by
  rw [List.countP_append, List.countP_singleton]
  cases holdsRight p j <;> rfl

theorem owner_unique (ht : Tables s) (h : RightAt s o) (hx : s.entry e = some x) (hxo : x.obj = o)
    (hty : x.type = .receiveOwn) (hz : s.entry f = some z) (hzo : z.obj = o)
    (hzt : z.type = .receiveOwn) : f = e := by
  obtain ⟨t, hxt, hr, _⟩ := h.owner e x hx hxo hty
  obtain ⟨v, hzv, hv, _⟩ := h.owner f z hz hzo hzt
  cases Receiver.task.inj (hr.symm.trans hv)
  exact ht.rights f e (t, o) (rightKey_eq_some.mpr ⟨z, hz, hzv, hzo⟩)
    (rightKey_eq_some.mpr ⟨x, hx, hxt, hxo⟩)

theorem receiver_of_holds (h : RightAt s i.obj) (hi : i ∈ s.items) (hr : i.rights = .portAll)
    (hin : i.inside = true) : (s.obj i.obj).receiver = .soft ∧ holding s i.obj = 1 := by
  have hpos : 0 < holding s i.obj :=
    List.countP_pos_iff.mpr ⟨i, hi, by simp [holdsRight, hr, hin]⟩
  have hc := h.count
  split at hc
  next hs => exact ⟨hs, hc⟩
  next => omega

theorem no_owner (h : RightAt s o) (hr : ∀ t, (s.obj o).receiver ≠ .task t) (e : EntryId) (x : Entry)
    (hx : s.entry e = some x) (hxo : x.obj = o) : x.type ≠ .receiveOwn := by
  intro hty
  obtain ⟨t, _, ht, _⟩ := h.owner e x hx hxo hty
  exact hr t ht

theorem rightAt_task (hr : (r.obj o).receiver = .task t) (hs : (r.obj o).isSet = false)
    (hu : (r.obj o).inUse = true) (hx : r.entry e = some x) (ht : x.task = some t) (ho : x.obj = o)
    (hty : x.type = .receiveOwn) (hn : (r.obj o).name = x.name)
    (hone : ∀ f z, r.entry f = some z → z.obj = o → z.type = .receiveOwn → f = e)
    (hc : holding r o = 0) : RightAt r o where
  owner := by
    intro f z hz hzo hzt
    cases hone f z hz hzo hzt
    cases Option.some.inj (hx.symm.trans hz)
    exact ⟨t, ht, hr, hn⟩
  owned := by
    intro v hv
    cases Receiver.task.inj (hr.symm.trans hv)
    exact ⟨e, x, hx, ht, ho, hty⟩
  count := by simp [hr, hc]
  left := by simp [hr]
  live := by simp [hr, hu]
  set := by simp [hs]

theorem rightAt_message (hr : (r.obj o).receiver = .soft) (hs : (r.obj o).isSet = false)
    (hu : (r.obj o).inUse = true)
    (hnone : ∀ f z, r.entry f = some z → z.obj = o → z.type ≠ .receiveOwn) (hc : holding r o = 1)
    (hl : ∀ i ∈ r.items, i.obj = o → i.rights = .portAll → i.inside ≠ false) : RightAt r o where
  owner := fun f z hz hzo hzt => absurd hzt (hnone f z hz hzo)
  owned := by simp [hr]
  count := by simp [hr, hc]
  left := fun i hi hio hri hin => absurd hin (hl i hi hio hri)
  live := by simp [hr, hu]
  set := by simp [hs]

theorem rightAt_none (hr : (r.obj o).receiver = .none)
    (hu : (r.obj o).isSet = false → (r.obj o).inUse = false)
    (hnone : ∀ f z, r.entry f = some z → z.obj = o → z.type ≠ .receiveOwn)
    (hc : holding r o = 0) : RightAt r o where
  owner := fun f z hz hzo hzt => absurd hzt (hnone f z hz hzo)
  owned := by simp [hr]
  count := by simp [hr, hc]
  left := by simp [hr]
  live := by
    intro hs
    simp [hr, hu hs]
  set := fun _ => hr

theorem portDestroy_rightAt
    (he : ∀ e x, u.entry e = some x → x.obj = o → x.type ≠ .receiveOwn) (hc : holding u o = 0)
    (hl : (u.obj o).backup ≠ none → ∀ i ∈ u.items, i.obj = o → i.rights = .portAll → i.inside ≠ false)
    (hs : (u.obj o).isSet = false) (hu : (u.obj o).inUse = true) (hr : (u.obj o).receiver = .none) :
    RightAt (portDestroy u o) o := by
  unfold portDestroy
  split
  next b hb =>
    apply rightAt_message
    · simp [SState.setObj]
    · simpa [SState.setObj] using hs
    · simpa [SState.setObj] using hu
    · exact he
    · rw [holding, countP_append_item]
      rw [holding] at hc
      simp [holdsRight, hc]
    · intro i hi hio hri
      rcases List.mem_append.mp hi with hi | hi
      · exact hl (by rw [hb]; simp) i hi hio hri
      · rw [List.mem_singleton.mp hi]
        exact Bool.noConfusion
  next hb =>
    apply rightAt_none
    · simpa [SState.setObj] using hr
    · simp [SState.setObj]
    · exact he
    · exact hc

theorem portDestroy_onlyAt (u : SState) (o : KernObjId) : OnlyAt o u (portDestroy u o) := by
  unfold portDestroy
  split
  · refine ⟨?_, fun _ _ _ _ => Iff.rfl, ?_, ?_⟩
    · intro p hp
      simp only [SState.setObj, Function.update_of_ne hp]
      exact .refl _
    · intro p hp
      rw [holding, countP_append_item, holdsRight_other hp]
      rfl
    · intro i hi hio
      rcases List.mem_append.mp hi with hi | hi
      · exact hi
      · rw [List.mem_singleton.mp hi] at hio
        exact absurd rfl hio
  · refine ⟨?_, fun _ _ _ _ => Iff.rfl, fun _ _ => rfl, fun _ hi _ => hi⟩
    intro p hp
    simp only [SState.setObj, Function.update_of_ne hp]
    exact .refl _

theorem OnlyAt.trans (h : OnlyAt o s u) (h' : OnlyAt o u r) : OnlyAt o s r where
  obj := by
    intro p hp
    obtain ⟨ha, hb, hc⟩ := h.obj p hp
    obtain ⟨ha', hb', hc'⟩ := h'.obj p hp
    refine ⟨ha'.trans ha, hb'.trans hb, fun hs => ?_⟩
    obtain ⟨hn, hu⟩ := hc hs
    obtain ⟨hn', hu'⟩ := hc' (ha.trans hs)
    exact ⟨hn'.trans hn, hu'.trans hu⟩
  entry := fun e x hx hty => (h'.entry e x hx hty).trans (h.entry e x hx hty)
  count := fun p hp => (h'.count p hp).trans (h.count p hp)
  left := fun i hi hio => h.left i (h'.left i hi hio) hio

section Actions

theorem objAlloc_cases {isSet : Bool} (hr : objAlloc s t o e isSet = some r) :
    Unused s o ∧ s.entry e = none ∧ ∃ n y, r.obj = Function.update s.obj o y ∧ r.items = s.items ∧
      r.entry = Function.update s.entry e
        (some ⟨some t, o, n, if isSet = true then .set else .receiveOwn⟩) ∧
      y.isSet = isSet ∧ y.inUse = true ∧ y.name = n ∧
      y.receiver = if isSet = true then .none else .task t := by
  unfold objAlloc at hr
  split at hr
  next hg =>
    obtain ⟨_, hu, he⟩ := hg
    obtain ⟨r', hc, hr⟩ := Option.map_eq_some_iff.mp hr
    obtain ⟨n, _, _, rfl⟩ := objEntryCreate_cases hc
    refine ⟨hu, he, n, r.obj o, ?_, ?_, ?_, ?_, ?_, ?_, ?_⟩
    · funext p
      by_cases hp : p = o
      · rw [hp, Function.update_self]
      · simp [← hr, SState.setObj, SState.setTask, objEntryInsert, SState.setEntry, hp]
    · rw [← hr]; rfl
    · rw [← hr]; rfl
    · simp [← hr, SState.setTask, objEntryInsert, SState.setEntry, SState.setObj]
    · simp [← hr, SState.setTask, objEntryInsert, SState.setEntry, SState.setObj]
    · simp [← hr, SState.setTask, objEntryInsert, SState.setEntry, SState.setObj]
    · simp [← hr, SState.setObj]
  next => cases hr

theorem RightInv.alloc {isSet : Bool} (h : RightInv s) (hs : SpaceInv s)
    (hr : objAlloc s t o e isSet = some r) : RightInv r := by
  obtain ⟨hu, he, n, y, hobj, hitems, hentry, hyset, hyuse, hyname, hyrec⟩ := objAlloc_cases hr
  obtain ⟨_, htr, _⟩ := unused_quiet hs hu
  have hnoent : ∀ f z, s.entry f = some z → z.obj ≠ o := by
    intro f z hz hzo
    have hm := mem_objList hs.tables hz
    rw [hzo, hu.2.2] at hm
    simp at hm
  have hzero : holding r o = 0 := by
    apply List.countP_eq_zero.mpr
    intro i hi
    rw [hitems] at hi
    have := List.countP_eq_zero.mp htr i hi
    simp only [decide_eq_true_eq] at this
    simp [holdsRight, this]
  have hoy : r.obj o = y := by rw [hobj, Function.update_self]
  refine h.at_obj (onlyAt_of (o := o) hentry ?_ ?_ hobj ?_ ?_) ?_
  · intro z hz
    rw [he] at hz
    cases hz
  · intro z hz
    cases Option.some.inj hz
    rfl
  · intro p _
    rw [holding, hitems]
    rfl
  · intro i hi _
    rwa [hitems] at hi
  · cases isSet with
    | false =>
      refine rightAt_task (e := e) (x := ⟨some t, o, n, .receiveOwn⟩) ?_ ?_ ?_ ?_ rfl rfl rfl ?_ ?_ hzero
      · rw [hoy]; exact hyrec
      · rw [hoy]; exact hyset
      · rw [hoy]; exact hyuse
      · rw [hentry]; simp
      · rw [hoy]; exact hyname
      · intro f z hz hzo _
        by_contra hf
        rw [hentry, Function.update_of_ne hf] at hz
        exact hnoent f z hz hzo
    | true =>
      apply rightAt_none
      · rw [hoy]; exact hyrec
      · rw [hoy, hyset]; simp
      · intro f z hz hzo
        rw [hentry] at hz
        rcases entry_update hz with hz | rfl
        · exact absurd hzo (hnoent f z hz)
        · exact PortType.noConfusion
      · exact hzero

theorem RightInv.copyinAll {d : Bool} (h : RightInv s) (hs : SpaceInv s) (hx : s.entry e = some x)
    (hty : x.type = .receiveOwn) (hno : ∀ i ∈ s.items, i.obj = x.obj → i.rights ≠ .portAll)
    (hu : u = (portClearReceiver s x.obj .soft).setEntry e (some { x with type := .send }))
    (hr : r = intoMessage (if d = true then objEntryDestroy u t e { x with type := .send } else u) x.obj
      .portAll) : RightInv r := by
  obtain ⟨v, hv, hrec, hname⟩ := (h x.obj).owner e x hx rfl hty
  have hport := kind_of_port hs hx (by rw [hty]; decide)
  have huse := ((h x.obj).live hport).mpr (by rw [hrec]; simp)
  -- the entry is a send right or gone
  have hentry : ∃ w, r.entry = Function.update s.entry e w ∧ ∀ z, w = some z → z.obj = x.obj ∧ z.type = .send := by
    subst hr hu
    split
    · rcases objEntryDestroy_entry ((portClearReceiver s x.obj .soft).setEntry e
        (some { x with type := .send })) t e { x with type := .send } with he | he
      · refine ⟨none, ?_, fun z hz => by cases hz⟩
        simp only [intoMessage, SState.setObj, he]
        simp [SState.setEntry, portClearReceiver, SState.setObj]
      · refine ⟨some { x with task := none, type := .send }, ?_, ?_⟩
        · simp only [intoMessage, SState.setObj, he]
          simp [SState.setEntry, portClearReceiver, SState.setObj]
        · intro z hz
          cases Option.some.inj hz
          exact ⟨rfl, rfl⟩
    · refine ⟨some { x with type := .send }, rfl, ?_⟩
      intro z hz
      cases Option.some.inj hz
      exact ⟨rfl, rfl⟩
  have hobj : ∃ y, r.obj = Function.update s.obj x.obj y ∧ y.receiver = .soft ∧ y.isSet = false ∧
      y.inUse = true := by
    subst hr hu
    split
    · simp only [intoMessage, objEntryDestroy_obj, SState.setObj, SState.setEntry, portClearReceiver,
        Function.update_idem, Function.update_self]
      exact ⟨_, rfl, rfl, hport, huse⟩
    · simp only [intoMessage, SState.setObj, SState.setEntry, portClearReceiver, Function.update_idem,
        Function.update_self]
      exact ⟨_, rfl, rfl, hport, huse⟩
  have hitems : r.items = s.items ++ [⟨x.obj, .portAll, true⟩] := by
    subst hr hu
    split
    · simp only [intoMessage, objEntryDestroy_items]
      rfl
    · rfl
  obtain ⟨w, hentry, hw⟩ := hentry
  obtain ⟨y, hobj, hyrec, hyset, hyuse⟩ := hobj
  have hoy : r.obj x.obj = y := by rw [hobj, Function.update_self]
  have hzero : holding s x.obj = 0 := by
    rw [(h x.obj).count, hrec]
    simp
  refine h.at_obj (onlyAt_of (o := x.obj) hentry ?_ (fun z hz => (hw z hz).1) hobj ?_ ?_) ?_
  · intro z hz
    cases Option.some.inj (hx.symm.trans hz)
    rfl
  · intro p hp
    rw [holding, hitems, countP_append_item, holdsRight_other hp]
    rfl
  · intro i hi hio
    rw [hitems] at hi
    rcases List.mem_append.mp hi with hi | hi
    · exact hi
    · rw [List.mem_singleton.mp hi] at hio
      exact absurd rfl hio
  · apply rightAt_message
    · rw [hoy]; exact hyrec
    · rw [hoy]; exact hyset
    · rw [hoy]; exact hyuse
    · intro f z hz hzo hzt
      by_cases hf : f = e
      · subst hf
        rw [hentry, Function.update_self] at hz
        rw [(hw z hz).2] at hzt
        cases hzt
      · rw [hentry, Function.update_of_ne hf] at hz
        exact hf (owner_unique hs.tables (h x.obj) hx rfl hty hz hzo hzt)
    · rw [holding, hitems, countP_append_item]
      rw [holding] at hzero
      simp [holdsRight, hzero]
    · intro i hi hio hri
      rw [hitems] at hi
      rcases List.mem_append.mp hi with hi | hi
      · exact absurd hri (hno i hi hio)
      · rw [List.mem_singleton.mp hi]
        exact Bool.noConfusion

end Actions

end MachVM.Ipc.Space
