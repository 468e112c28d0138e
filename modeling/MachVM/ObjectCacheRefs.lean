import MachVM.Lib.Mirror
import MachVM.ObjectCache
import MachVM.ObjectGraph

namespace MachVM

open Mirror Tally

/-- The object whose reference a call in progress holds. -/
def CacheCall.pin : CacheCall → Option ObjId
  | .deallocate o => some o
  | .trim => none
  | .enter _ _ newObject => newObject
  | .associate o _ internal => if internal then none else some o
  | .attach o _ internal => if internal then none else some o
  | .ready o internal => if internal then none else some o

/-- Whether an object refers to another one as its shadow. -/
def shadowsObject (o : ObjId) (x : VmObject) : Bool := x.alive && x.shadow = some o

/-- An object nothing refers to. -/
def idle (x : VmObject) : Bool := x.alive && x.refCount = 0

namespace CacheState

/-- The references to an object from the calls in progress. -/
def pins (s : CacheState) (o : ObjId) : Nat := s.calls.countP fun c => c.pin = some o

def shadowRefs (s : CacheState) (o : ObjId) : Nat :=
  tally s.nextObject fun x => shadowsObject o (s.object x)

/-- All references to an object. -/
def refs (s : CacheState) (o : ObjId) : Nat := s.held o + s.pins o + s.shadowRefs o

/-- The deallocations that have overflowed the cache and not trimmed it yet. -/
def trims (s : CacheState) : Nat := s.calls.count .trim

end CacheState

/-- Reference counts are exact, the cached list holds the live objects without references, and
each object above the limit has a deallocation that will look at it. The references in `extra`
and `spare` further trims are in the hands of the step being taken. -/
structure RefInv (s : CacheState) (extra : ObjId → Nat) (spare : Nat) : Prop where
  fresh : ∀ o, s.nextObject ≤ o → (s.object o).alive = false
  exact : ∀ o, (s.object o).alive = true → (s.object o).refCount = s.refs o + extra o
  dead : ∀ o, (s.object o).alive = false → s.refs o + extra o = 0
  listed : Mirrors s.cachedList fun o => idle (s.object o) = true
  cached : s.cached = s.cachedList.length
  overflow : s.cached ≤ s.cacheMax + s.trims + spare

/-- No reference in hand. -/
def noRef : ObjId → Nat := fun _ => 0

variable {s t : CacheState} {extra : ObjId → Nat} {spare : Nat} {o x b p : ObjId} {c : CacheCall}
  {shadow : Option ObjId}

theorem RefInv.lt (h : RefInv s extra spare) (ha : (s.object o).alive = true) : o < s.nextObject := by
  by_contra hc
  have := h.fresh o (Nat.le_of_not_lt hc)
  simp [ha] at this

theorem RefInv.alive (h : RefInv s extra spare) (hr : 0 < s.refs o + extra o) :
    (s.object o).alive = true := by
  by_contra hc
  have := h.dead o (by simpa using hc)
  omega

theorem RefInv.congr (h : RefInv s extra spare) (hn : t.nextObject = s.nextObject)
    (ha : ∀ o, (t.object o).alive = (s.object o).alive)
    (hr : ∀ o, (t.object o).refCount = (s.object o).refCount)
    (hs : ∀ o, (t.object o).shadow = (s.object o).shadow) (hl : t.cachedList = s.cachedList)
    (hc : t.cached = s.cached) (hm : t.cacheMax = s.cacheMax) (hk : t.calls = s.calls)
    (hh : t.held = s.held) : RefInv t extra spare := by
  have hrefs : ∀ o, t.refs o = s.refs o := by
    intro o
    simp only [CacheState.refs, CacheState.pins, CacheState.shadowRefs, hn, hk, hh, shadowsObject, ha, hs]
  refine ⟨?_, ?_, ?_, ?_, by rw [hc, hl, h.cached], ?_⟩
  · intro o ho
    rw [ha]
    exact h.fresh o (hn ▸ ho)
  · intro o ho
    rw [hr, hrefs]
    exact h.exact o (ha o ▸ ho)
  · intro o ho
    rw [hrefs]
    exact h.dead o (ha o ▸ ho)
  · rw [hl]
    apply h.listed.congr
    intro o
    simp only [idle, ha, hr]
  · have := h.overflow
    simp only [CacheState.trims, hc, hm, hk] at this ⊢
    omega

theorem RefInv.spares (h : RefInv s extra 0) (n : Nat) : RefInv s extra n :=
  ⟨h.fresh, h.exact, h.dead, h.listed, h.cached, by have := h.overflow; omega⟩

theorem RefInv.touch (h : RefInv s extra spare) {f : VmObject → VmObject}
    (ha : ∀ x, (f x).alive = x.alive) (hr : ∀ x, (f x).refCount = x.refCount)
    (hs : ∀ x, (f x).shadow = x.shadow) : RefInv (s.modObject o f) extra spare := by
  have hu : ∀ y, (s.modObject o f).object y = if y = o then f (s.object o) else s.object y := by
    intro y
    simp only [CacheState.modObject, CacheState.setObject, Function.update_apply]
  refine h.congr rfl ?_ ?_ ?_ rfl rfl rfl rfl rfl
  all_goals
    intro y
    rw [hu]
    split
    next hy => simp only [ha, hr, hs, hy]
    next => rfl

theorem RefInv.setPort (h : RefInv s extra spare) (p : PortId) (x : KernPort) :
    RefInv (s.setPort p x) extra spare :=
  h.congr rfl (fun _ => rfl) (fun _ => rfl) (fun _ => rfl) rfl rfl rfl rfl rfl

theorem RefInv.portAlloc (h : RefInv s extra spare) (x : PortObject) :
    RefInv (s.portAlloc x) extra spare :=
  h.congr rfl (fun _ => rfl) (fun _ => rfl) (fun _ => rfl) rfl rfl rfl rfl rfl

theorem RefInv.move {e : ObjId → Nat} {spare' : Nat} (h : RefInv s extra spare)
    (hn : t.nextObject = s.nextObject) (ho : t.object = s.object) (hl : t.cachedList = s.cachedList)
    (hc : t.cached = s.cached) (hm : t.cacheMax = s.cacheMax)
    (hr : ∀ o, t.held o + t.pins o + e o = s.held o + s.pins o + extra o)
    (ht : s.trims + spare ≤ t.trims + spare') : RefInv t e spare' := by
  have hsh : ∀ o, t.shadowRefs o = s.shadowRefs o := by
    intro o
    simp only [CacheState.shadowRefs, hn, ho]
  have hrefs : ∀ o, t.refs o + e o = s.refs o + extra o := by
    intro o
    have := hr o
    have := hsh o
    unfold CacheState.refs
    omega
  refine ⟨?_, ?_, ?_, by rw [hl, ho]; exact h.listed, by rw [hc, hl, h.cached], ?_⟩
  · intro o hle
    rw [ho]
    exact h.fresh o (hn ▸ hle)
  · intro o ha
    have h₁ := h.exact o (ho ▸ ha)
    have h₂ := hrefs o
    rw [ho]
    omega
  · intro o ha
    have h₁ := h.dead o (ho ▸ ha)
    have h₂ := hrefs o
    omega
  · have := h.overflow
    omega

theorem countP_erase_add {α : Type} [DecidableEq α] {l : List α} {a : α} (h : a ∈ l) (q : α → Bool) :
    (l.erase a).countP q + (q a).toNat = l.countP q := by
  rw [(List.perm_cons_erase h).countP_eq q, List.countP_cons]
  cases q a <;> rfl

theorem pin_toNat (c : CacheCall) (extra : ObjId → Nat) (o : ObjId) :
    plusOpt extra c.pin o = extra o + (decide (c.pin = some o)).toNat := by
  cases hc : c.pin with
  | none => simp [plusOpt]
  | some x =>
    by_cases hx : o = x
    · subst hx
      simp [plusOpt, plus]
    · have : ¬ x = o := fun h => hx h.symm
      simp [plusOpt, plus, hx, this]

/-- The trim a call owes the cache. -/
def CacheCall.owes (c : CacheCall) : Nat := if c = .trim then 1 else 0

theorem RefInv.takeCall (h : RefInv s noRef 0) (hc : c ∈ s.calls) :
    RefInv { s with calls := s.calls.erase c } (plusOpt noRef c.pin) c.owes := by
  refine h.move rfl rfl rfl rfl rfl ?_ ?_
  · intro o
    have := countP_erase_add hc fun d => d.pin = some o
    rw [pin_toNat]
    simp only [CacheState.pins, noRef] at this ⊢
    omega
  · have := countP_erase_add hc (· == .trim)
    simp only [CacheState.trims, CacheCall.owes, List.count] at this ⊢
    split
    next ht => simp only [ht] at this ⊢; simp at this ⊢; omega
    next ht => rw [beq_false_of_ne ht] at this; simp at this ⊢; omega

theorem RefInv.goOn {d : CacheCall} (h : RefInv s (plusOpt extra d.pin) d.owes) :
    RefInv (s.goOn (some d)) extra 0 := by
  refine h.move rfl rfl rfl rfl rfl ?_ ?_
  · intro o
    rw [pin_toNat]
    simp only [CacheState.pins, CacheState.goOn, Option.toList_some, List.singleton_append,
      List.countP_cons]
    cases hd : decide (d.pin = some o) with
    | false => simp
    | true =>
      simp
      omega
  · simp only [CacheState.trims, CacheState.goOn, Option.toList_some, List.singleton_append,
      List.count_cons, CacheCall.owes]
    by_cases hd : d = .trim <;> simp [hd]

theorem RefInv.hand (h : RefInv s (plus extra o) spare) : RefInv (s.hand o) extra spare := by
  refine h.move rfl rfl rfl rfl rfl ?_ (Nat.le_refl _)
  intro y
  show (Function.update s.held o (s.held o + 1)) y + s.pins y + extra y = _
  by_cases hy : y = o
  · subst hy
    rw [Function.update_self, plus_self]
    omega
  · rw [Function.update_of_ne hy, plus_of_ne extra hy]

theorem RefInv.donate (h : RefInv s extra spare) (hh : 0 < s.held o) :
    RefInv (s.donate o) (plus extra o) spare := by
  refine h.move rfl rfl rfl rfl rfl ?_ (Nat.le_refl _)
  intro y
  show (Function.update s.held o (s.held o - 1)) y + s.pins y + plus extra o y = _
  by_cases hy : y = o
  · subst hy
    rw [Function.update_self, plus_self]
    omega
  · rw [Function.update_of_ne hy, plus_of_ne extra hy]

theorem shadowRefs_setObject (hx : x < s.nextObject) (v : VmObject) (o : ObjId) :
    (s.setObject x v).shadowRefs o + (shadowsObject o (s.object x)).toNat =
      s.shadowRefs o + (shadowsObject o v).toNat := by
  have hq : ∀ y < s.nextObject, y ≠ x →
      shadowsObject o ((s.setObject x v).object y) = shadowsObject o (s.object y) := by
    intro y _ hy
    simp only [CacheState.setObject, Function.update_of_ne hy]
  have := tally_change hx hq
  simpa only [CacheState.shadowRefs, CacheState.setObject, Function.update_self] using this

theorem setObject_of_ne (s : CacheState) (v : VmObject) (h : x ≠ o) : (s.setObject o v).object x = s.object x := by
  simp only [CacheState.setObject, Function.update_of_ne h]

@[simp] theorem setObject_self (s : CacheState) (o : ObjId) (v : VmObject) : (s.setObject o v).object o = v := by
  simp only [CacheState.setObject, Function.update_self]

theorem RefInv.recount {e : ObjId → Nat} {v : VmObject} {l : List ObjId} {n : Int}
    (h : RefInv s extra spare) (ha : (s.object o).alive = true) (hv : v.alive = true)
    (hs : v.shadow = (s.object o).shadow) (hr : v.refCount = s.refs o + e o)
    (he : ∀ y, y ≠ o → e y = extra y)
    (hl : Mirrors l fun y => idle ((s.setObject o v).object y) = true) (hn : n = l.length)
    (hm : n ≤ s.cacheMax + s.trims + spare) :
    RefInv { s.setObject o v with cachedList := l, cached := n } e spare := by
  have hsh : ∀ y, (s.setObject o v).shadowRefs y = s.shadowRefs y := by
    intro y
    have hset := shadowRefs_setObject (h.lt ha) v y
    have hsame : shadowsObject y v = shadowsObject y (s.object o) := by simp only [shadowsObject, hs, ha, hv]
    rw [hsame] at hset
    omega
  have hrefs : ∀ y, ({ s.setObject o v with cachedList := l, cached := n } : CacheState).refs y = s.refs y := by
    intro y
    have := hsh y
    show s.held y + s.pins y + (s.setObject o v).shadowRefs y = _
    unfold CacheState.refs
    omega
  refine ⟨?_, ?_, ?_, hl, hn, hm⟩
  · intro y hy
    have hyo : y ≠ o := by
      rintro rfl
      exact Nat.not_le_of_lt (h.lt ha) hy
    have := h.fresh y hy
    rwa [← setObject_of_ne s v hyo] at this
  · intro y hy
    rw [hrefs]
    by_cases hyo : y = o
    · subst hyo
      rw [setObject_self]
      exact hr
    · rw [he y hyo]
      rw [setObject_of_ne s v hyo] at hy ⊢
      exact h.exact y hy
  · intro y hy
    rw [hrefs]
    by_cases hyo : y = o
    · subst hyo
      simp [hv] at hy
    · rw [he y hyo]
      rw [setObject_of_ne s v hyo] at hy
      exact h.dead y hy

theorem idle_iff (v : VmObject) : idle v = true ↔ v.alive = true ∧ v.refCount = 0 := by
  simp [idle]

theorem RefInv.takeReference (h : RefInv s extra spare) (ha : (s.object o).alive = true) :
    RefInv (takeReference s o) (plus extra o) spare := by
  have hx := h.exact o ha
  have hp := plus_self extra o
  have hup : idle { s.object o with refCount := (s.object o).refCount + 1 } = false := by
    rw [Bool.eq_false_iff]
    intro hi
    have := ((idle_iff _).mp hi).2
    simp only at this
    omega
  have hr : ((s.object o).refCount + 1 : Int) = s.refs o + plus extra o o := by omega
  unfold MachVM.takeReference
  by_cases h₀ : (s.object o).refCount = 0
  · have hi : idle (s.object o) = true := (idle_iff _).mpr ⟨ha, h₀⟩
    have hlen := h.listed.length_erase hi
    have hc := h.cached
    have hov := h.overflow
    have := h.recount (v := { s.object o with refCount := (s.object o).refCount + 1 })
      (l := s.cachedList.erase o) (n := s.cached - 1) ha ha rfl hr (fun y hy => plus_of_ne extra hy)
      (h.listed.lower hup) (by omega) (by omega)
    simpa only [h₀, if_true, queueRemove, CacheState.modObject, CacheState.setObject] using this
  · have hi : idle (s.object o) = false := by
      rw [Bool.eq_false_iff]
      exact fun hi => h₀ ((idle_iff _).mp hi).2
    have := h.recount (v := { s.object o with refCount := (s.object o).refCount + 1 })
      (l := s.cachedList) (n := s.cached) ha ha rfl hr (fun y hy => plus_of_ne extra hy)
      (h.listed.keep (hup.trans hi.symm)) h.cached h.overflow
    simpa only [h₀, if_false, CacheState.modObject, CacheState.setObject] using this

theorem RefInv.allocate (shadow : Option ObjId) (h : RefInv s (plusOpt extra shadow) spare) (size : VmSize)
    (hb : ∀ b, shadow = some b → b < s.nextObject) :
    RefInv (s.allocate size shadow) (plus extra s.nextObject) spare := by
  have hnew : (s.allocate size shadow).object s.nextObject = { size := size, shadow := shadow } := by
    simp [CacheState.allocate]
  have hold : ∀ y, y ≠ s.nextObject → (s.allocate size shadow).object y = s.object y := by
    intro y hy
    simp only [CacheState.allocate]
    exact setObject_of_ne s _ hy
  have hsh : ∀ y, (s.allocate size shadow).shadowRefs y + extra y =
      s.shadowRefs y + plusOpt extra shadow y := by
    intro y
    have hlow : tally s.nextObject (fun x => shadowsObject y ((s.allocate size shadow).object x)) =
        s.shadowRefs y := tally_congr fun x hx => by rw [hold x (Nat.ne_of_lt hx)]
    have hsucc : (s.allocate size shadow).shadowRefs y =
        tally (s.nextObject + 1) fun x => shadowsObject y ((s.allocate size shadow).object x) := rfl
    rw [hsucc, tally_succ, hlow, hnew]
    cases shadow with
    | none => simp [shadowsObject, plusOpt]
    | some b =>
      by_cases hy : y = b
      · subst hy
        simp [shadowsObject, plusOpt, plus]
        omega
      · have : ¬ b = y := fun hby => hy hby.symm
        simp [shadowsObject, plusOpt, plus, hy, this]
  have hrefs : ∀ y, (s.allocate size shadow).refs y + extra y = s.refs y + plusOpt extra shadow y := by
    intro y
    have := hsh y
    show s.held y + s.pins y + (s.allocate size shadow).shadowRefs y + extra y = _
    unfold CacheState.refs
    omega
  have hn := h.fresh s.nextObject (Nat.le_refl _)
  have hlt := h.dead s.nextObject hn
  have hne : plusOpt extra shadow s.nextObject = extra s.nextObject := by
    cases shadow with
    | none => rfl
    | some b => exact plus_of_ne extra (Nat.ne_of_gt (hb b rfl))
  refine ⟨?_, ?_, ?_, ?_, h.cached, h.overflow⟩
  · intro y hy
    have hy' : s.nextObject + 1 ≤ y := hy
    rw [hold y (Nat.ne_of_gt hy')]
    exact h.fresh y (Nat.le_of_succ_le hy')
  · intro y hy
    have hr := hrefs y
    by_cases hyn : y = s.nextObject
    · subst hyn
      rw [hnew, plus_self]
      simp only
      omega
    · rw [hold y hyn] at hy ⊢
      rw [plus_of_ne extra hyn]
      have := h.exact y hy
      omega
  · intro y hy
    have hr := hrefs y
    by_cases hyn : y = s.nextObject
    · subst hyn
      rw [hnew] at hy
      cases hy
    · rw [hold y hyn] at hy
      rw [plus_of_ne extra hyn]
      have := h.dead y hy
      omega
  · show Mirrors s.cachedList _
    have hi : idle (s.object s.nextObject) = false := by simp [idle, hn]
    apply h.listed.keep
    rw [hi]
    rfl

theorem RefInv.retire {e : ObjId → Nat} {v : VmObject} {l : List ObjId} {n : Int}
    (h : RefInv s extra spare) (ha : (s.object o).alive = true) (hv : v.alive = false)
    (hr : s.refs o + e o = 0) (he : ∀ y, y ≠ o → e y = extra y)
    (hl : Mirrors l fun y => idle ((s.setObject o v).object y) = true) (hn : n = l.length)
    (hm : n ≤ s.cacheMax + s.trims + spare) :
    RefInv { s.setObject o v with cachedList := l, cached := n }
      (plusOpt e (s.object o).shadow) spare := by
  have hsh : ∀ y, (s.setObject o v).shadowRefs y + plusOpt e (s.object o).shadow y =
      s.shadowRefs y + e y := by
    intro y
    have hset := shadowRefs_setObject (h.lt ha) v y
    have hdead : shadowsObject y v = false := by simp [shadowsObject, hv]
    rw [hdead] at hset
    cases hs : (s.object o).shadow with
    | none =>
      have hno : shadowsObject y (s.object o) = false := by simp [shadowsObject, hs]
      rw [hno] at hset
      simp only [plusOpt]
      omega
    | some b =>
      by_cases hy : y = b
      · subst hy
        have hyes : shadowsObject y (s.object o) = true := by simp [shadowsObject, hs, ha]
        rw [hyes] at hset
        simp only [plusOpt, plus_self]
        simp at hset
        omega
      · have hno : shadowsObject y (s.object o) = false := by
          simp only [shadowsObject, hs, Option.some.injEq, Bool.and_eq_false_imp, decide_eq_false_iff_not]
          exact fun _ hb => hy hb.symm
        rw [hno] at hset
        simp only [plusOpt, plus_of_ne e hy]
        omega
  have hrefs : ∀ y, ({ s.setObject o v with cachedList := l, cached := n } : CacheState).refs y +
      plusOpt e (s.object o).shadow y = s.refs y + e y := by
    intro y
    have := hsh y
    show s.held y + s.pins y + (s.setObject o v).shadowRefs y + _ = _
    unfold CacheState.refs
    omega
  refine ⟨?_, ?_, ?_, hl, hn, hm⟩
  · intro y hy
    by_cases hyo : y = o
    · subst hyo
      exact (congrArg VmObject.alive (setObject_self s y v)).trans hv
    · have := h.fresh y hy
      rwa [← setObject_of_ne s v hyo] at this
  · intro y hy
    by_cases hyo : y = o
    · subst hyo
      rw [setObject_self, hv] at hy
      cases hy
    · have h₁ := hrefs y
      rw [he y hyo] at h₁
      rw [setObject_of_ne s v hyo] at hy ⊢
      have := h.exact y hy
      omega
  · intro y hy
    have h₁ := hrefs y
    by_cases hyo : y = o
    · subst hyo
      omega
    · rw [he y hyo] at h₁
      rw [setObject_of_ne s v hyo] at hy
      have := h.dead y hy
      omega

theorem removePort_port {kind : PortObject → Bool} {q : Option PortId} (h : removePort kind s q = some t) :
    t = { s with port := t.port } ∧ ∀ p, t.port p =
      if q = some p then { s.port p with object := .none } else s.port p := by
  cases q with
  | none =>
    cases Option.some.inj h
    exact ⟨rfl, fun p => rfl⟩
  | some r =>
    simp only [removePort] at h
    split at h
    next =>
      cases Option.some.inj h
      refine ⟨rfl, ?_⟩
      intro p
      by_cases hr : r = p
      · subst hr
        simp [CacheState.portObjectSet, CacheState.setPort]
      · have : p ≠ r := fun he => hr he.symm
        simp [CacheState.portObjectSet, CacheState.setPort, hr, this]
    next =>
      split at h
      next hp =>
        cases Option.some.inj h
        refine ⟨rfl, ?_⟩
        intro p
        split
        next hr =>
          cases Option.some.inj hr
          rw [← hp]
        next => rfl
      next => cases h

theorem vmObjectRemove_port (h : vmObjectRemove s o = some t) :
    t = { s with port := t.port } ∧ ∀ p, t.port p =
      if (s.object o).pager = some p ∨ (s.object o).pagerRequest = some p then
        { s.port p with object := .none }
      else s.port p := by
  obtain ⟨m, hm, ht⟩ := Option.bind_eq_some_iff.mp h
  obtain ⟨hs₁, hp₁⟩ := removePort_port hm
  obtain ⟨hs₂, hp₂⟩ := removePort_port ht
  refine ⟨by rw [hs₂, hs₁], ?_⟩
  intro p
  rw [hp₂, hp₁]
  by_cases h₁ : (s.object o).pager = some p <;> by_cases h₂ : (s.object o).pagerRequest = some p <;>
    simp [h₁, h₂]

theorem RefInv.setPorts (h : RefInv s extra spare) (port : PortId → KernPort) :
    RefInv { s with port := port } extra spare :=
  h.congr rfl (fun _ => rfl) (fun _ => rfl) (fun _ => rfl) rfl rfl rfl rfl rfl

theorem RefInv.remove (h : RefInv s extra spare) (ht : vmObjectRemove s o = some t) :
    RefInv t extra spare := by
  rw [(vmObjectRemove_port ht).1]
  exact h.setPorts t.port

theorem RefInv.goOn_shadow (h : RefInv s (plusOpt extra shadow) 0) :
    RefInv (s.goOn (shadow.map .deallocate)) extra 0 := by
  cases shadow with
  | none => exact h
  | some b => exact RefInv.goOn (d := .deallocate b) h

theorem terminateSection_refs {v : VmObject}
    (h : RefInv (s.setObject o { v with alive := false }) (plusOpt extra v.shadow) 0)
    (hv : s.object o = v) (ht : terminateSection s o = some t) : RefInv t extra 0 := by
  obtain ⟨m, hm, rfl⟩ := Option.map_eq_some_iff.mp ht
  subst hv
  exact (h.remove hm).goOn_shadow

theorem enterCache_full (h : s.cached + 1 > s.cacheMax) : enterCache s o =
    { s with cachedList := s.cachedList ++ [o], cached := s.cached + 1 }.goOn (some .trim) := by
  simp only [enterCache, queueEnter, h, decide_true, if_true]

theorem enterCache_fits (h : ¬ s.cached + 1 > s.cacheMax) : enterCache s o =
    { s with cachedList := s.cachedList ++ [o], cached := s.cached + 1 } := by
  simp only [enterCache, queueEnter, h, decide_false, Bool.false_eq_true, if_false]
  rfl

theorem idle_eq_false {v : VmObject} (h : v.refCount ≠ 0) : idle v = false := by
  rw [Bool.eq_false_iff]
  exact fun hi => h ((idle_iff v).mp hi).2

theorem deallocateSection_refs (h : RefInv s (plus extra o) 0) (ht : deallocateSection s o = some t) :
    RefInv t extra 0 := by
  have hp := plus_self extra o
  have ha : (s.object o).alive = true := h.alive (by omega)
  have hx := h.exact o ha
  have hc := h.cached
  have hov := h.overflow
  have hnot : idle (s.object o) = false := idle_eq_false (by omega)
  have hne : ∀ y, y ≠ o → extra y = plus extra o y := fun y hy => (plus_of_ne extra hy).symm
  have hva : (loseReference (s.object o)).alive = true := ha
  have hvs : (loseReference (s.object o)).shadow = (s.object o).shadow := rfl
  have hvr : (loseReference (s.object o)).refCount = s.refs o + extra o := by
    show (s.object o).refCount - 1 = _
    omega
  simp only [deallocateSection, CacheState.modObject, setObject_self] at ht
  generalize loseReference (s.object o) = v at hva hvs hvr ht
  split at ht
  next hpos =>
    cases Option.some.inj ht
    have hi : idle v = false := idle_eq_false (by omega)
    exact h.recount ha hva hvs hvr hne (h.listed.keep (hi.trans hnot.symm)) h.cached h.overflow
  next hzero =>
    split at ht
    next =>
      cases Option.some.inj ht
      have hi : idle v = true := (idle_iff v).mpr ⟨hva, by omega⟩
      have hl := h.listed.raise hi hnot
      have hlen : s.cached + 1 = ((s.cachedList ++ [o]).length : Int) := by
        rw [List.length_append, hc]
        simp
      by_cases hfull : s.cached + 1 > s.cacheMax
      · have hm : s.cached + 1 ≤ s.cacheMax + s.trims + (1 : Nat) := by omega
        rw [enterCache_full (s := s.setObject o v) hfull]
        exact RefInv.goOn (d := .trim) ((h.spares 1).recount ha hva hvs hvr hne hl hlen hm)
      · have hm : s.cached + 1 ≤ s.cacheMax + s.trims + (0 : Nat) := by omega
        rw [enterCache_fits (s := s.setObject o v) hfull]
        exact h.recount ha hva hvs hvr hne hl hlen hm
    next =>
      refine terminateSection_refs ?_ (setObject_self s o v) ht
      have hd : idle { v with alive := false } = false := rfl
      have hr := h.retire (v := { v with alive := false }) ha rfl (by omega) hne
        (h.listed.keep (hd.trans hnot.symm)) h.cached h.overflow
      rw [← hvs] at hr
      simpa only [CacheState.setObject, Function.update_idem] using hr

theorem trimSection_refs (h : RefInv s extra 1) (ht : trimSection s = some t) : RefInv t extra 0 := by
  simp only [trimSection] at ht
  have hov := h.overflow
  split at ht
  next hfit =>
    cases Option.some.inj ht
    exact ⟨h.fresh, h.exact, h.dead, h.listed, h.cached, by omega⟩
  next hfull =>
    split at ht
    next => cases ht
    next o rest hl =>
      refine terminateSection_refs ?_ rfl ht
      have hi : idle (s.object o) = true := (h.listed.mem_iff o).mp (by rw [hl]; exact List.mem_cons_self)
      obtain ⟨ha, h₀⟩ := (idle_iff _).mp hi
      have hx := h.exact o ha
      have hd : idle { s.object o with alive := false } = false := rfl
      have hlow := h.listed.lower hd (x := o)
      have hc := h.cached
      rw [hl, List.erase_cons_head] at hlow
      rw [hl, List.length_cons] at hc
      have := h.retire (v := { s.object o with alive := false }) (l := rest) (n := s.cached - 1)
        (e := extra) ha rfl (by omega) (fun _ _ => rfl) hlow (by omega) (by omega)
      exact ⟨this.fresh, this.exact, this.dead, this.listed, this.cached, by
        show s.cached - 1 ≤ s.cacheMax + s.trims + ((0 : Nat) : Int)
        omega⟩

end MachVM
