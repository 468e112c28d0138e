import MachVM.IpcCopyinLedger

namespace MachVM.Ipc

open Space (SState Item KernObjId)

variable {τ : Type} {a : IpcMaps} {c : MsgConfig} {t : TaskId} {sv : MsgServices (KernelState τ)}
  {copy : τ → Word → Word → Bool → τ × Option (Nat → Word)}

/-- The references that a visit took. -/
def Visit.items (v : Visit) : List Item :=
  v.objects.map fun x => ⟨x.value.toNat, msgRights v.item.name, true⟩

/-- The region that a visit took. -/
def Visit.regions (c : MsgConfig) (v : Visit) : List Region :=
  v.region.toList.map fun r => ⟨msgTypePortAny c v.item.name, r.1.value, r.2⟩

/-- What the message under way holds: the references `items` and the regions `regions`, besides a kernel
message. -/
structure Holds (a : IpcMaps) (k₀ k : KernelState τ) (items : List Item) (regions : List Region) :
    Prop where
  reach : Space.Reach Space.Any k.space
  transit : Transit k.space
  mine : k.mine.Perm items
  inside : ∀ i, k.mine.count i ≤ k.space.items.count i
  fits : ∀ r ∈ regions, r.Fits a
  pages : ∀ b p, (k.pages b p).toNat = (k₀.pages b p).toNat + regions.countP (Region.covers a b p)
  kmsgs : k.kmsgs = k₀.kmsgs + 1

section Ledger

variable {k₀ k k' : KernelState τ} {items items' : List Item} {regions regions' : List Region} {i : Item}
  {r : Region}

theorem Holds.perm (h : Holds a k₀ k items regions) (hi : items.Perm items')
    (hr : regions.Perm regions') : Holds a k₀ k items' regions' where
  reach := h.reach
  transit := h.transit
  mine := h.mine.trans hi
  inside := h.inside
  fits := fun r hr' => h.fits r (hr.mem_iff.mpr hr')
  pages := by
    intro b p
    rw [← hr.countP_eq]
    exact h.pages b p
  kmsgs := h.kmsgs

theorem Holds.take {s : SState} (h : Holds a k₀ k items regions) (ht : Took k.space s i) :
    Holds a k₀ (k.take s i) (i :: items) regions where
  reach := ht.reach h.reach
  transit := ht.transit h.transit
  mine := (List.perm_append_singleton i k.mine).trans (h.mine.cons i)
  inside := by
    intro j
    have hle := h.inside j
    show (k.mine ++ [i]).count j ≤ s.items.count j
    rw [ht.items, List.count_append, List.count_append]
    omega
  fits := h.fits
  pages := h.pages
  kmsgs := h.kmsgs

theorem Holds.drop (h : Holds a k₀ k (i :: items) regions) : Holds a k₀ (k.drop i) items regions := by
  have hmine : i ∈ k.mine := h.mine.mem_iff.mpr List.mem_cons_self
  have hmem : i ∈ k.space.items := by
    have hle := h.inside i
    have hpos := List.count_pos_iff.mpr hmine
    exact List.count_pos_iff.mp (by omega)
  obtain ⟨⟨l, hl⟩, htransit⟩ := objectDestroyItem_dropped hmem
  have hstep : Space.step k.space (.destroy i) = some (objectDestroyItem k.space i) :=
    objectDestroyItem_step hmem
  constructor
  · exact .next h.reach trivial hstep
  · exact htransit h.transit
  · have hp := h.mine.erase i
    rwa [List.erase_cons_head] at hp
  · intro j
    have hle := h.inside j
    show (k.mine.erase i).count j ≤ (objectDestroyItem k.space i).items.count j
    rw [hl, List.count_append, List.count_erase, List.count_erase]
    omega
  · exact h.fits
  · exact h.pages
  · exact h.kmsgs

theorem Holds.allocate (h : Holds a k₀ k items regions) (hb : r.bytes ≠ 0) (ha : k.Allocated a k' r) :
    Holds a k₀ k' items (r :: regions) := by
  constructor
  · rw [ha.space]
    exact h.reach
  · rw [ha.space]
    exact h.transit
  · rw [ha.mine]
    exact h.mine
  · rw [ha.mine, ha.space]
    exact h.inside
  · intro r' hr
    rcases List.mem_cons.mp hr with rfl | hr
    · exact ha.fits
    · exact h.fits r' hr
  · intro b p
    have hp := h.pages b p
    rw [ha.pages, KernelState.setPages_pages, List.countP_cons]
    by_cases hc : b = r.isPort ∧ r.first a ≤ p ∧ p < r.last a
    · have hcov : r.covers a b p = true := Region.covers_iff.mpr ⟨hc.1, hb, hc.2⟩
      have hfree := ha.free p hc.2.1 hc.2.2
      rw [← hc.1] at hfree
      rw [hfree] at hp
      rw [if_pos hc, if_pos hcov]
      simp only [Bool.toNat_false, Bool.toNat_true] at hp ⊢
      omega
    · have hcov : ¬ r.covers a b p = true := fun hh =>
        hc ⟨(Region.covers_iff.mp hh).1, (Region.covers_iff.mp hh).2.2⟩
      rw [if_neg hc, if_neg hcov, hp]
      omega
  · rw [ha.kmsgs]
    exact h.kmsgs

theorem Holds.nothing (h : Holds a k₀ k items regions) (b : Bool) :
    Holds a k₀ k items (⟨b, 0, 0⟩ :: regions) := by
  refine ⟨h.reach, h.transit, h.mine, h.inside, ?_, ?_, h.kmsgs⟩
  · intro r hr
    rcases List.mem_cons.mp hr with rfl | hr
    · have hle := a.pageSize_le
      unfold Region.Fits
      show 0 + 0 + a.pageSize ≤ 2 ^ 32
      omega
    · exact h.fits r hr
  · intro b' p
    rw [List.countP_cons, if_neg fun hc => (Region.covers_iff.mp hc).2.1 rfl]
    exact h.pages b' p

theorem Holds.deallocate (h : Holds a k₀ k items (r :: regions)) :
    Holds a k₀ (k.vmDeallocate a r.isPort r.address r.bytes) items regions := by
  have hfits := h.fits r List.mem_cons_self
  have hsame : (k.vmDeallocate a r.isPort r.address r.bytes).space = k.space ∧
      (k.vmDeallocate a r.isPort r.address r.bytes).mine = k.mine ∧
      (k.vmDeallocate a r.isPort r.address r.bytes).kmsgs = k.kmsgs := by
    unfold KernelState.vmDeallocate
    split
    next => exact ⟨rfl, rfl, rfl⟩
    next => exact ⟨rfl, rfl, rfl⟩
  constructor
  · rw [hsame.1]
    exact h.reach
  · rw [hsame.1]
    exact h.transit
  · rw [hsame.2.1]
    exact h.mine
  · rw [hsame.1, hsame.2.1]
    exact h.inside
  · exact fun r' hr => h.fits r' (List.mem_cons_of_mem r hr)
  · intro b p
    have hp := h.pages b p
    have hle := Bool.toNat_le (k.pages b p)
    rw [List.countP_cons] at hp
    rw [KernelState.vmDeallocate_pages hfits]
    split
    next hc =>
      rw [if_pos hc] at hp
      rw [Bool.toNat_false]
      omega
    next hc =>
      rw [if_neg hc] at hp
      exact hp
  · rw [hsame.2.2]
    exact h.kmsgs

end Ledger

/-! ## The walk of `msg_copyin` -/

section Walk

variable {k₀ : KernelState τ} {items : List Item} {regions : List Region} {i : MsgItem} {place : Place}
  {w w' f : MsgWalk (KernelState τ)} {size pos pos' n j : Nat} {log : List Visit} {v : Visit}
  {code : MsgReturn}

theorem copyinElements_holds (h : Holds a k₀ w.machine items regions) :
    Holds a k₀ (copyinElements (copyinServices a copy t sv) i place n j w).walk.machine
      ((copyinElements (copyinServices a copy t sv) i place n j w).objects.map
        (fun x => (⟨x.value.toNat, msgRights i.name, true⟩ : Item)) ++ items) regions := by
  induction n generalizing j w items with
  | zero => exact h
  | succ n ih =>
    rw [copyinElements]
    dsimp only
    split
    next => exact ih h
    next =>
      rcases @copyinServices_objectCopyin τ a copy t sv w.machine (w.cell place j).value i.name
        i.deallocate with he | ⟨s, x, htook, _, _, he⟩
      · rw [he]
        dsimp only
        rw [setCell_machine]
        exact h
      · rw [he]
        dsimp only
        have hnext : Holds a k₀
            (((w.setMachine (w.machine.take s ⟨x.toNat, msgRights i.name, true⟩)).setCell place j
              ⟨x, true⟩).machine) (⟨x.toNat, msgRights i.name, true⟩ :: items) regions := by
          rw [setCell_machine]
          exact h.take htook
        refine (ih hnext).perm ?_ (.refl _)
        rw [List.map_cons, List.cons_append]
        exact List.perm_middle

theorem copyinData_holds (h : Holds a k₀ w.machine items regions)
    (hm : (copyinData c (copyinServices a copy t sv) i w).moved = true) :
    Holds a k₀ (copyinData c (copyinServices a copy t sv) i w).walk.machine items
      ((copyinData c (copyinServices a copy t sv) i w).region.toList.map
        (fun r => (⟨msgTypePortAny c i.name, r.1.value, r.2⟩ : Region)) ++ regions) := by
  rcases copyinData_cases c (copyinServices a copy t sv) i w with ⟨_, hd⟩ | ⟨_, _, w', _, hd⟩ |
    ⟨_, _, w', base, hv, hd⟩ | ⟨_, _, hd⟩
  · rw [hd]
    exact h
  · rw [hd] at hm
    simp at hm
  · rw [hd]
    unfold vmMoveIn at hv
    by_cases hz : i.numbytes = 0
    · rw [if_pos hz] at hv
      cases hv
      rw [hz]
      exact h.nothing _
    · rw [if_neg hz, copyinServices_vmMoveIn ⟨hz, i.numbytes_lt⟩] at hv
      rcases @KernelState.vmMove_cases τ a w.machine (msgTypePortAny c i.name) (w.word i.data).value
        i.numbytes copy i.deallocate ⟨hz, i.numbytes_lt⟩ with ⟨_, he⟩ | ⟨k', x, _, halloc, he⟩
      · rw [he] at hv
        cases hv
      · rw [he] at hv
        cases hr : (copy w.machine.sender (w.word i.data).value i.numbytes i.deallocate).2 with
        | none =>
          rw [hr] at hv
          cases hv
        | some data =>
          rw [hr] at hv
          cases hv
          exact h.allocate hz halloc
  · rw [hd]
    exact h

theorem Taken.holds {d : CopyinData (KernelState τ)} {r : ElementRun (KernelState τ)}
    (ht : Taken c (copyinServices a copy t sv) size pos w i d r)
    (h : Holds a k₀ w.machine items regions) :
    Holds a k₀ r.walk.machine ((takenVisit c i d r).items ++ items)
      ((takenVisit c i d r).regions c ++ regions) := by
  have hm := ht.moved
  rw [ht.data] at hm
  unfold Visit.items Visit.regions takenVisit
  rw [ht.run, ht.data]
  exact copyinElements_holds (copyinData_holds h hm)

theorem CopyinSteps.holds (hs : CopyinSteps c (copyinServices a copy t sv) size pos w pos' w' log)
    (h : Holds a k₀ w.machine items regions) :
    Holds a k₀ w'.machine (log.flatMap Visit.items ++ items)
      (log.flatMap (Visit.regions c) ++ regions) := by
  induction hs generalizing items regions with
  | refl => exact h
  | @step pos pos' w w' log i d r _ ht _ ih =>
    refine (ih (ht.holds h)).perm ?_ ?_
    · rw [List.flatMap_cons, ← List.append_assoc]
      exact (List.perm_append_comm).append_right items
    · rw [List.flatMap_cons, ← List.append_assoc]
      exact (List.perm_append_comm).append_right regions

end Walk

/-! ## The walk of `msg_destroy` -/

section Undo

variable {k₀ k : KernelState τ} {items : List Item} {regions : List Region} {log : List Visit} {v : Visit}

theorem Holds.dropObjects (h : Holds a k₀ k (v.items ++ items) regions) :
    Holds a k₀ (v.dropObjects (copyinServices a copy t sv) k) items regions := by
  unfold Visit.items at h
  unfold Visit.dropObjects
  generalize v.objects = l at h
  induction l generalizing k with
  | nil => exact h
  | cons x l ih => exact ih h.drop

theorem Holds.undo (hv : v.vmObject = none)
    (h : Holds a k₀ k (v.items ++ items) (v.regions c ++ regions)) :
    Holds a k₀ (v.undo c (copyinServices a copy t sv) k) items regions := by
  have hdrop : Holds a k₀ (v.dropObjects (copyinServices a copy t sv) k) items (v.regions c ++ regions) :=
    h.dropObjects
  unfold Visit.undo
  unfold Visit.dropObjects Visit.regions at hdrop
  rw [hv]
  cases hr : v.region with
  | none =>
    rw [hr] at hdrop
    exact hdrop
  | some r =>
    rw [hr] at hdrop
    exact hdrop.deallocate

end Undo

/-! ## The whole call -/

section Call

variable {k₀ k k' : KernelState τ} {items : List Item} {regions : List Region}

theorem Holds.header (h : Holds a k₀ k items regions) (copy : τ → Word → Word → Bool → τ × Option (Nat → Word))
    (t : TaskId) (sv : MsgServices (KernelState τ)) (name : Word) {k' : KernelState τ} {o : Option Word}
    (he : (copyinServices a copy t sv).objCacheCopyin k name = (k', o)) :
    (o = none ∧ k' = k) ∨ ∃ x, o = some x ∧ x ≠ kernObjNull ∧
      Holds a k₀ k' (⟨x.toNat, .port, true⟩ :: items) regions := by
  rcases copyinServices_objCacheCopyin h.reach name with h' | ⟨s, x, htook, hnull, h'⟩
  · cases h'.symm.trans he
    exact .inl ⟨rfl, rfl⟩
  · cases h'.symm.trans he
    exact .inr ⟨x, rfl, hnull, h.take htook⟩

/-- The reference to a port of the header. -/
def headerItems (x : Word) : List Item := if x = kernObjNull then [] else [⟨x.toNat, .port, true⟩]

theorem Holds.releasePort {x : Word} (h : Holds a k₀ k (headerItems x ++ items) regions) :
    Holds a k₀ (releasePort (copyinServices a copy t sv) k ⟨x, true⟩) items regions := by
  unfold Ipc.releasePort
  unfold headerItems at h
  split
  next hz =>
    rw [if_pos hz] at h
    exact h
  next hz =>
    rw [if_neg hz] at h
    exact h.drop

end Call

/-! ## An array with an unknown name -/

end MachVM.Ipc
