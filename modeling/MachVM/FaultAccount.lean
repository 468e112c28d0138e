import MachVM.FaultPage
import Mathlib.Algebra.BigOperators.Group.List.Basic
import Mathlib.Tactic.SplitIfs
import Mathlib.Algebra.Ring.Int.Defs

namespace MachVM

variable {depth : ObjId → Nat} {a : FaultArgs} {st : Search} {t : Turn depth}
  {kept : List (ObjId × PageId)} {refs : ObjId → Int}

def FaultEvent.paging (x : ObjId) : FaultEvent → Int
  | .pagingBegin o => if x = o then 1 else 0
  | .pagingEnd o => if x = o then -1 else 0
  | _ => 0

/-- Paging references taken on an object, less those given up. -/
def pagingNet (x : ObjId) (ev : List FaultEvent) : Int := (ev.map (FaultEvent.paging x)).sum

def dropPage (o : ObjId) (m : PageId) (kept : List (ObjId × PageId)) : List (ObjId × PageId) :=
  kept.filter fun p => p ≠ (o, m)

/-- The pages that the thread has made busy and not let go. -/
def busyStep (busy : List (ObjId × PageId)) : FaultEvent → List (ObjId × PageId)
  | .alloc o m => (o, m) :: dropPage o m busy
  | .setBusy o m => (o, m) :: dropPage o m busy
  | .free o m => dropPage o m busy
  | .clearBusy o m => dropPage o m busy
  | _ => busy

/-- The same without the pages that a memory manager has been asked for. -/
def keptStep (kept : List (ObjId × PageId)) : FaultEvent → List (ObjId × PageId)
  | .request o m => dropPage o m kept
  | e => busyStep kept e

attribute [local simp] FaultEvent.paging busyStep keptStep

/-- The change of the paging references of an object, counted from before the caller donated
one on the first object. -/
def pagingChange (a : FaultArgs) (ev : List FaultEvent) (x : ObjId) : Int :=
  (if x = a.firstObject then 1 else 0) + pagingNet x ev

/-- One reference for the object at hand, and one for the first object if that is another. -/
def heldPaging (a : FaultArgs) (o x : ObjId) : Int :=
  (if x = o then 1 else 0) + (if x = a.firstObject ∧ o ≠ a.firstObject then 1 else 0)

def PageSeen.unavailable (p : PageSeen) : Bool := p.absent && !p.busy && !p.error

/-- A page that must be resident is, and an unavailable page that is to be filled is not locked
against the fault. -/
def Turn.Plain (a : FaultArgs) (t : Turn depth) : Prop :=
  (a.mustBeResident = true → ∃ p, t.page = some p ∧ p.unavailable = false) ∧
  ∀ p, t.page = some p → p.unavailable = true → a.faultType &&& t.pageLock = 0

/-- Paging references and busy pages at the end of a call. -/
def ConservesPaging (a : FaultArgs) (refs : ObjId → Int) (kept : List (ObjId × PageId)) :
    FaultEnd → Prop
  | .success o m top _ => (∀ x, refs x = heldPaging a o x) ∧ (top.isSome ↔ o ≠ a.firstObject) ∧
      (o, m) ∈ kept ∧ ∀ m ∈ top, (a.firstObject, m) ∈ kept
  | .failed _ => (∀ x, refs x = 0) ∧ ∀ m, (a.firstObject, m) ∉ kept
  | .crashed => False
  | .running => True

@[simp]
theorem pagingNet_nil (x : ObjId) : pagingNet x [] = 0 := rfl

@[simp]
theorem pagingNet_cons (x : ObjId) (e : FaultEvent) (ev : List FaultEvent) :
    pagingNet x (e :: ev) = e.paging x + pagingNet x ev := by
  simp [pagingNet]

@[simp]
theorem pagingNet_append (x : ObjId) (ev ev' : List FaultEvent) :
    pagingNet x (ev ++ ev') = pagingNet x ev + pagingNet x ev' := by
  simp [pagingNet]

/-- Where the search stands: the top page is missing exactly in the first object. -/
structure Search.Good (depth : ObjId → Nat) (a : FaultArgs) (st : Search) : Prop where
  top : st.firstM = none ↔ st.object = a.firstObject
  deep : depth a.firstObject ≤ depth st.object

def Search.topKept (a : FaultArgs) (st : Search) : List (ObjId × PageId) :=
  st.firstM.toList.map fun m => (a.firstObject, m)

/-- The account after a piece of the search. -/
def Settled (depth : ObjId → Nat) (a : FaultArgs) (refs : ObjId → Int) (kept : List (ObjId × PageId)) :
    SearchNext → Prop
  | .again st => st.Good depth a ∧ (∀ x, refs x = heldPaging a st.object x) ∧ kept = st.topKept a
  | .found st m => st.Good depth a ∧ (∀ x, refs x = heldPaging a st.object x) ∧
      kept = (st.object, m) :: st.topKept a
  | .stop (.failed _) => (∀ x, refs x = 0) ∧ kept = []
  | .stop _ => False

attribute [local simp] Settled

/-- A piece of the search that starts at `st` leaves a settled account. -/
def LeavesAccount (depth : ObjId → Nat) (a : FaultArgs) (o : ObjId) (kept : List (ObjId × PageId))
    (r : List FaultEvent × SearchNext) : Prop :=
  Settled depth a (fun x => heldPaging a o x + pagingNet x r.1) (r.1.foldl keptStep kept) r.2

theorem unlockThings_account (h : st.Good depth a) (r : FaultCode) :
    ∃ c, (unlockThings a st r).2 = .failed c ∧
      (∀ x, heldPaging a st.object x + pagingNet x (unlockThings a st r).1 = 0) ∧
      (unlockThings a st r).1.foldl keptStep (st.topKept a) = [] := by
  unfold unlockThings
  by_cases ho : st.object = a.firstObject
  · refine ⟨r, by simp [ho], ?_, ?_⟩
    · intro x
      simp only [ho, if_true, pagingNet_cons, FaultEvent.paging, pagingNet_nil, heldPaging]
      split_ifs <;> simp_all
    · simp [ho, keptStep, busyStep, Search.topKept, h.top.mpr ho]
  · obtain ⟨m, hm⟩ := Option.ne_none_iff_exists'.mp fun hn => ho (h.top.mp hn)
    refine ⟨r, by simp [ho, hm], ?_, ?_⟩
    · intro x
      simp only [ho, hm, if_false, pagingNet_cons, FaultEvent.paging, pagingNet_nil, heldPaging]
      split_ifs <;> simp_all
    · simp [ho, hm, keptStep, busyStep, dropPage, Search.topKept]

theorem giveUp_account (h : st.Good depth a) {ev : List FaultEvent}
    (hp : ∀ x, pagingNet x ev = 0) (hk : ev.foldl keptStep kept = st.topKept a) (r : FaultCode) :
    LeavesAccount depth a st.object kept (giveUp a st ev r) := by
  obtain ⟨c, he, hr, hb⟩ := unlockThings_account h r
  unfold LeavesAccount giveUp
  simp only [he, Settled, pagingNet_append, hp, zero_add, List.foldl_append, hk, hb]
  exact ⟨hr, trivial⟩

theorem andThen_account {o o' : ObjId} {kept' : List (ObjId × PageId)} {ev : List FaultEvent}
    {p : List FaultEvent × SearchNext} (h : LeavesAccount depth a o' kept' p)
    (hp : ∀ x, heldPaging a o x + pagingNet x ev = heldPaging a o' x)
    (hk : ev.foldl keptStep kept = kept') : LeavesAccount depth a o kept (andThen ev p) := by
  unfold LeavesAccount andThen at *
  simp only [pagingNet_append, List.foldl_append, hk, ← add_assoc, hp]
  exact h

theorem Search.Good.topKept_first (h : st.Good depth a) (ho : st.object = a.firstObject) :
    st.topKept a = [] := by
  simp [Search.topKept, h.top.mpr ho]

theorem Search.Good.dropPage_topKept (h : st.Good depth a) (m : PageId) :
    dropPage st.object m (st.topKept a) = st.topKept a := by
  by_cases ho : st.object = a.firstObject
  · simp [h.topKept_first ho, dropPage]
  · simp only [dropPage, Search.topKept, List.filter_eq_self, List.mem_map]
    rintro p ⟨m', -, rfl⟩
    simp [Ne.symm ho]

theorem dropPage_cons_self (o : ObjId) (m : PageId) : dropPage o m ((o, m) :: kept) = dropPage o m kept := by
  simp [dropPage]

theorem lockCheck_account (h : st.Good depth a) (m : PageId) :
    LeavesAccount depth a st.object (st.topKept a) (lockCheck a t st m) := by
  unfold lockCheck
  split
  · simp [LeavesAccount, Settled, FaultEvent.paging, keptStep, busyStep, h, h.dropPage_topKept]
  · split
    · exact giveUp_account h (by simp [FaultEvent.paging]) (by simp [keptStep, busyStep]) _
    · split
      · exact giveUp_account h (by simp [FaultEvent.paging]) (by simp [keptStep, busyStep]) _
      · simp only
        split
        · exact giveUp_account h (by simp [FaultEvent.paging]) (by simp [keptStep, busyStep]) _
        · simp [LeavesAccount, Settled, FaultEvent.paging, keptStep, busyStep, h]

theorem lockCheck_claimed (h : st.Good depth a) {m : PageId} (hl : a.faultType &&& t.pageLock = 0) :
    LeavesAccount depth a st.object ((st.object, m) :: st.topKept a) (lockCheck a t st m) := by
  have hd := h.dropPage_topKept m
  simp [lockCheck, hl, LeavesAccount, Settled, FaultEvent.paging, keptStep, busyStep, h,
    dropPage_cons_self, hd]

theorem Search.Good.start (depth : ObjId → Nat) (a : FaultArgs) :
    Search.Good depth a { object := a.firstObject, firstM := none } :=
  ⟨by simp, Nat.le_refl _⟩

theorem heldPaging_down {o next : ObjId} (hn : next ≠ a.firstObject) (ev : List FaultEvent)
    (hp : ∀ x, pagingNet x ev =
      (if x = next then 1 else 0) - (if x = o ∧ o ≠ a.firstObject then 1 else 0)) (x : ObjId) :
    heldPaging a o x + pagingNet x ev = heldPaging a next x := by
  rw [hp]
  simp only [heldPaging]
  split_ifs <;> grind

theorem unavailableBottom_account (h : st.Good depth a) (m : PageId)
    (hl : a.faultType &&& t.pageLock = 0) :
    LeavesAccount depth a st.object (st.topKept a) (unavailableBottom a t st m) := by
  unfold unavailableBottom
  by_cases ho : st.object = a.firstObject
  · rw [if_pos ho]
    apply andThen_account (lockCheck_claimed h hl)
    · simp [FaultEvent.paging]
    · simp [keptStep, busyStep, h.dropPage_topKept]
  · obtain ⟨firstM, hm⟩ := Option.ne_none_iff_exists'.mp fun hn => ho (h.top.mp hn)
    simp only [if_neg ho, hm]
    apply andThen_account (lockCheck_claimed (Search.Good.start depth a) hl)
    · intro x
      simp only [heldPaging, List.cons_append, List.nil_append, pagingNet_cons, pagingNet_nil,
        FaultEvent.paging]
      split_ifs <;> simp_all
    · have := h.dropPage_topKept m
      simp only [List.cons_append, List.nil_append, List.foldl_cons, keptStep, busyStep, this,
        List.foldl_nil]
      simp [Search.topKept, hm]

theorem Search.Good.down (h : st.Good depth a) {next : ObjId} (hd : depth st.object < depth next)
    {m : Option PageId} (hm : m ≠ none) : Search.Good depth a { object := next, firstM := m } := by
  have := h.deep
  refine ⟨?_, by simp only; omega⟩
  constructor
  · exact fun hn => absurd hn hm
  · rintro rfl
    omega

theorem Search.Good.ne_first (h : st.Good depth a) {next : ObjId} (hd : depth st.object < depth next) :
    next ≠ a.firstObject := by
  rintro rfl
  have := h.deep
  omega

theorem unavailableShadowed_account (h : st.Good depth a) (m : PageId) {next : ObjId}
    (hd : depth st.object < depth next) (hr : a.mustBeResident = false) :
    LeavesAccount depth a st.object (st.topKept a) (unavailableShadowed a st m next) := by
  have hn := h.ne_first hd
  unfold unavailableShadowed
  rw [if_neg (by simp [hr])]
  by_cases ho : st.object = a.firstObject
  · rw [if_pos ho]
    refine ⟨h.down hd (by simp), heldPaging_down hn _ ?_, ?_⟩
    · intro x
      simp [FaultEvent.paging, ho]
    · rw [h.topKept_first ho]
      simp [keptStep, busyStep, dropPage, Search.topKept, ho]
  · rw [if_neg ho]
    refine ⟨h.down hd fun hm => ho (h.top.mp hm), heldPaging_down hn _ ?_, ?_⟩
    · intro x
      simp only [List.cons_append, List.nil_append, pagingNet_cons, pagingNet_nil, FaultEvent.paging]
      split_ifs <;> simp_all
    · simp only [List.cons_append, List.nil_append, List.foldl_cons, keptStep, busyStep,
        h.dropPage_topKept, List.foldl_nil]
      rfl

theorem residentPage_account (h : st.Good depth a) (ht : t.Plain a) {p : PageSeen}
    (hp : t.page = some p) : LeavesAccount depth a st.object (st.topKept a) (residentPage a t st p) := by
  unfold residentPage
  split
  · apply giveUp_account h (by simp [FaultEvent.paging])
    simp [keptStep, busyStep, h.dropPage_topKept]
  next he =>
    split
    · simp only
      split
      · simp [LeavesAccount, Settled, FaultEvent.paging, keptStep, busyStep, h]
      · exact giveUp_account h (by simp [FaultEvent.paging]) (by simp [keptStep, busyStep]) _
      · exact giveUp_account h (by simp [FaultEvent.paging]) (by simp [keptStep, busyStep]) _
    next hb =>
      split
      next ha =>
        have hu : p.unavailable = true := by simp [PageSeen.unavailable, he, hb, ha]
        split
        · exact unavailableBottom_account h p.page (ht.2 p hp hu)
        next next hs =>
          apply unavailableShadowed_account h p.page (t.deeper _ _ hs)
          by_contra hr
          obtain ⟨q, hq, hqu⟩ := ht.1 (by simpa using hr)
          cases Option.some.inj (hp.symm.trans hq)
          simp [hu] at hqu
      · exact lockCheck_account h p.page

theorem requestPage_account (h : st.Good depth a) (m : PageId) :
    LeavesAccount depth a st.object ((st.object, m) :: st.topKept a) (requestPage a t st m) := by
  unfold requestPage
  split
  · apply giveUp_account h (by simp [FaultEvent.paging])
    simp [keptStep, busyStep, dropPage_cons_self, h.dropPage_topKept]
  · split
    · apply giveUp_account h (by simp [FaultEvent.paging])
      simp [keptStep, busyStep, dropPage_cons_self, h.dropPage_topKept]
    · split
      · apply giveUp_account h (by simp [FaultEvent.paging])
        simp [keptStep, busyStep, dropPage_cons_self, h.dropPage_topKept]
      · simp [LeavesAccount, Settled, FaultEvent.paging, keptStep, busyStep, h, dropPage_cons_self,
          h.dropPage_topKept]

theorem zeroFill_account (depth : ObjId → Nat) (a : FaultArgs) (m : PageId) :
    LeavesAccount depth a a.firstObject [(a.firstObject, m)] (zeroFill a (some m)) := by
  simp [zeroFill, LeavesAccount, Settled, FaultEvent.paging, keptStep, busyStep, Search.topKept,
    Search.Good.start]

theorem moveOn_first (h : st.Good depth a) (ho : st.object = a.firstObject) (m : PageId) :
    LeavesAccount depth a st.object [(st.object, m)] (moveOn a t st (some m)) := by
  unfold moveOn
  simp only [ho, if_true]
  split
  · exact zeroFill_account depth a m
  next next hs =>
    have hd : depth st.object < depth next := t.deeper _ _ (by rw [ho]; exact hs)
    refine ⟨h.down hd (by simp), ?_, by simp [keptStep, busyStep, Search.topKept]⟩
    apply heldPaging_down (h.ne_first hd)
    simp [FaultEvent.paging]

theorem moveOn_below (h : st.Good depth a) (ho : st.object ≠ a.firstObject)
    (hr : a.mustBeResident = false) (m : Option PageId) :
    LeavesAccount depth a st.object (st.topKept a) (moveOn a t st m) := by
  obtain ⟨firstM, hm⟩ := Option.ne_none_iff_exists'.mp fun hn => ho (h.top.mp hn)
  have hk : st.topKept a = [(a.firstObject, firstM)] := by simp [Search.topKept, hm]
  unfold moveOn
  simp only [if_neg ho, hm, hk]
  split
  · apply andThen_account (zeroFill_account depth a firstM)
    · intro x
      simp only [heldPaging, pagingNet_cons, pagingNet_nil, FaultEvent.paging]
      split_ifs <;> simp_all
    · simp [keptStep, busyStep]
  next next hs =>
    have hd := t.deeper _ _ hs
    rw [if_pos ⟨ho, hr⟩]
    refine ⟨h.down hd (by simp), ?_, by simp [keptStep, busyStep, Search.topKept]⟩
    apply heldPaging_down (h.ne_first hd)
    intro x
    simp only [List.cons_append, List.nil_append, pagingNet_cons, pagingNet_nil, FaultEvent.paging]
    split_ifs <;> simp_all

theorem missingPage_account (h : st.Good depth a) (hr : a.mustBeResident = false) :
    LeavesAccount depth a st.object (st.topKept a) (missingPage a t st) := by
  unfold missingPage
  simp only
  split
  next hc =>
    split
    · exact giveUp_account h (by simp) (by simp) _
    next m _ =>
      have hk : [FaultEvent.alloc st.object m].foldl keptStep (st.topKept a) =
          (st.object, m) :: st.topKept a := by
        simp [keptStep, busyStep, h.dropPage_topKept]
      split
      · exact andThen_account (requestPage_account h m) (by simp [FaultEvent.paging]) hk
      next hl =>
        have ho : st.object = a.firstObject := hc.1.resolve_left hl
        apply andThen_account (moveOn_first h ho m) (by simp [FaultEvent.paging])
        rw [hk, h.topKept_first ho]
  next hc =>
    apply moveOn_below h _ hr
    intro ho
    exact hc ⟨Or.inr ho, hr⟩

theorem searchTurn_account (h : st.Good depth a) (ht : t.Plain a) :
    LeavesAccount depth a st.object (st.topKept a) (searchTurn a t st) := by
  unfold searchTurn
  split
  next p hp => exact residentPage_account h ht hp
  next hp =>
    apply missingPage_account h
    by_contra hr
    obtain ⟨q, hq, -⟩ := ht.1 (by simpa using hr)
    rw [hp] at hq
    cases hq

theorem searchLoop_account {turns : List (Turn depth)} (h : st.Good depth a)
    (ht : ∀ t ∈ turns, t.Plain a) :
    LeavesAccount depth a st.object (st.topKept a) (searchLoop a st turns) := by
  induction turns generalizing st with
  | nil => simp [searchLoop, LeavesAccount, Settled, h]
  | cons t turns ih =>
    have hs := searchTurn_account h (ht t (by simp))
    unfold searchLoop
    split
    next ev st' he =>
      rw [he] at hs
      obtain ⟨hg, hp, hk⟩ := hs
      exact andThen_account (ih hg fun t h => ht t (by simp [h])) hp hk
    next => exact hs

end MachVM

namespace MachVM

variable {depth : ObjId → Nat} {a : FaultArgs} {st : Search} {kept : List (ObjId × PageId)}

/-- A stretch that ends the call, from a state that holds what is said. -/
def Concludes (a : FaultArgs) (o : ObjId) (kept : List (ObjId × PageId))
    (r : List FaultEvent × FaultEnd) : Prop :=
  ConservesPaging a (fun x => heldPaging a o x + pagingNet x r.1) (r.1.foldl keptStep kept) r.2

theorem Concludes.prepend {o o' : ObjId} {kept' : List (ObjId × PageId)} {ev : List FaultEvent}
    {p : List FaultEvent × FaultEnd} (h : Concludes a o' kept' p)
    (hp : ∀ x, heldPaging a o x + pagingNet x ev = heldPaging a o' x)
    (hk : ev.foldl keptStep kept = kept') : Concludes a o kept (ev ++ p.1, p.2) := by
  unfold Concludes at *
  simp only [pagingNet_append, List.foldl_append, hk, ← add_assoc, hp]
  exact h

theorem faultSuccess_concludes {o : ObjId} {m : PageId} {top : Option PageId} (protection : VmProt)
    (ht : top.isSome ↔ o ≠ a.firstObject) (hm : (o, m) ∈ kept)
    (hk : ∀ m ∈ top, (a.firstObject, m) ∈ kept) :
    Concludes a o kept (faultSuccess a o m top protection) := by
  unfold faultSuccess
  split <;> simpa [Concludes, ConservesPaging, FaultEvent.paging, keptStep, busyStep, ht, hm] using hk

theorem foundBelow_concludes (h : st.Good depth a) (ho : st.object ≠ a.firstObject) (m : PageId)
    (protection : VmProt) :
    Concludes a st.object ((st.object, m) :: st.topKept a) (foundBelow a st m protection) := by
  obtain ⟨firstM, hm⟩ := Option.ne_none_iff_exists'.mp fun hn => ho (h.top.mp hn)
  unfold foundBelow
  split
  · apply faultSuccess_concludes
    · simp [hm, ho]
    · simp
    · simp [Search.topKept, hm]
  · simp only [hm]
    have hs : Concludes a a.firstObject (st.topKept a)
        (faultSuccess a a.firstObject firstM none protection) := by
      apply faultSuccess_concludes
      · simp
      · simp [Search.topKept, hm]
      · simp
    apply hs.prepend
    · intro x
      simp only [heldPaging, pagingNet_cons, pagingNet_nil, FaultEvent.paging]
      split_ifs <;> simp_all
    · simp [keptStep, busyStep, dropPage_cons_self, h.dropPage_topKept]

theorem leaveCopy_concludes (m : PageId) {copy : ObjId} (r : FaultCode) :
    Concludes a a.firstObject [(a.firstObject, m)] (leaveCopy a m copy r) := by
  simp only [leaveCopy, unlockThings, if_true, Concludes, ConservesPaging]
  constructor
  · intro x
    simp only [heldPaging, List.cons_append, List.nil_append, pagingNet_cons, pagingNet_nil,
      FaultEvent.paging]
    split_ifs <;> simp_all
  · simp [keptStep, busyStep, dropPage]

theorem firstPage_concludes (m : PageId) (protection : VmProt) :
    Concludes a a.firstObject [(a.firstObject, m)] (faultSuccess a a.firstObject m none protection) := by
  apply faultSuccess_concludes <;> simp

theorem finishCopy_concludes (m : PageId) {copy : ObjId} (protection : VmProt) :
    Concludes a a.firstObject [(a.firstObject, m)] (finishCopy a m copy protection) := by
  apply Concludes.prepend (firstPage_concludes m protection)
  · simp [FaultEvent.paging]
  · simp [keptStep, busyStep]

theorem Concludes.aside {m : PageId} {ev : List FaultEvent} {p : List FaultEvent × FaultEnd}
    (h : Concludes a a.firstObject [(a.firstObject, m)] p) (hp : ∀ x, pagingNet x ev = 0)
    (hk : ev.foldl keptStep [(a.firstObject, m)] = [(a.firstObject, m)]) :
    Concludes a a.firstObject [(a.firstObject, m)] (ev ++ p.1, p.2) := by
  apply h.prepend _ hk
  intro x
  rw [hp x, add_zero]

theorem pagingNet_wakeWanted (x : ObjId) (m : PageId) (w : Bool) : pagingNet x (wakeWanted a m w) = 0 := by
  cases w <;> simp [wakeWanted, FaultEvent.paging]

theorem keptStep_wakeWanted (m : PageId) (w : Bool) : (wakeWanted a m w).foldl keptStep kept = kept := by
  cases w <;> simp [wakeWanted, keptStep, busyStep]

theorem pushLoop_concludes (m : PageId) (protection : VmProt) (turns : List CopyTurn) :
    Concludes a a.firstObject [(a.firstObject, m)] (pushLoop a m protection turns) := by
  induction turns with
  | nil => trivial
  | cons t turns ih =>
    unfold pushLoop
    split
    · exact firstPage_concludes m protection
    next copy _ =>
      split
      · exact firstPage_concludes m _
      · split
        · exact firstPage_concludes m protection
        · split
          · apply ih.aside
            · simp [FaultEvent.paging]
            · simp [keptStep, busyStep]
          next hn =>
            have hc : ¬ a.firstObject = copy := fun h => hn (Or.inr h.symm)
            have hd : ∀ q, dropPage copy q [(a.firstObject, m)] = [(a.firstObject, m)] := by
              simp [dropPage, hc]
            simp only
            split
            next q _ =>
              split
              · show Concludes a _ _ ([.lock copy, .writeObject copy, .writePage copy q.page] ++
                  (leaveCopy a m copy t.wait.faultCode).1, _)
                apply (leaveCopy_concludes m _).aside
                · simp [FaultEvent.paging]
                · simp [keptStep, busyStep]
              · apply (finishCopy_concludes m protection).aside
                · simp [FaultEvent.paging]
                · simp [keptStep, busyStep]
            · split
              · apply (leaveCopy_concludes m _).aside
                · simp [FaultEvent.paging]
                · simp [keptStep, busyStep]
              · split
                · apply (finishCopy_concludes m protection).aside
                  · simp [FaultEvent.paging, pagingNet_wakeWanted]
                  · simp [keptStep, busyStep, keptStep_wakeWanted, dropPage_cons_self, hd]
                · split
                  · apply ih.aside
                    · simp [FaultEvent.paging]
                    · simp [keptStep, busyStep, dropPage_cons_self, hd]
                  · apply (finishCopy_concludes m protection).aside
                    · simp [FaultEvent.paging, pagingNet_wakeWanted]
                    · simp [keptStep, busyStep, keptStep_wakeWanted, dropPage_cons_self, hd]

theorem pageFound_concludes (h : st.Good depth a) (m : PageId) (copies : List CopyTurn) :
    Concludes a st.object ((st.object, m) :: st.topKept a) (pageFound a st m copies) := by
  unfold pageFound
  simp only
  split
  next ho =>
    rw [h.topKept_first ho, ho]
    exact pushLoop_concludes m _ copies
  next ho => exact foundBelow_concludes h ho m _

/-- A call gives back every paging reference it was given or took, apart from one on the object
of the result page and one on the first object if that is another, which then has a busy top
page. A call that fails leaves no busy page in the first object except those it has asked the
memory manager for. -/
theorem vmFaultPage_conserves (a : FaultArgs) (turns : List (Turn depth)) (copies : List CopyTurn)
    (ht : ∀ t ∈ turns, t.Plain a) :
    ConservesPaging a (pagingChange a (vmFaultPage a turns copies).1)
      ((vmFaultPage a turns copies).1.foldl keptStep []) (vmFaultPage a turns copies).2 := by
  have hs := searchLoop_account (Search.Good.start depth a) ht
  have hc : ∀ (ev : List FaultEvent) x, pagingChange a ev x = heldPaging a a.firstObject x + pagingNet x ev := by
    simp [pagingChange, heldPaging]
  simp only [funext (hc _)]
  unfold vmFaultPage
  split
  · trivial
  next ev e he =>
    rw [he] at hs
    cases e with
    | failed r =>
      obtain ⟨hr, hk⟩ := hs
      refine ⟨hr, ?_⟩
      intro m
      rw [show ev.foldl keptStep [] = [] from hk]
      simp
    | success | crashed | running => exact hs.elim
  next ev st m he =>
    rw [he] at hs
    obtain ⟨hg, hr, hk⟩ := hs
    exact (pageFound_concludes hg m copies).prepend hr hk

/-- The page is two objects down, and the first object has no pager. -/
def twoDown : List (Turn id) :=
  [{ alloc := some 7, shadow := fun o => some (o + 1), deeper := by simp +contextual },
   { shadow := fun o => some (o + 1), deeper := by simp +contextual },
   { page := some { page := 9 } }]

theorem twoDown_conserves :
    ConservesPaging { firstObject := 0, faultType := protWrite }
      (pagingChange { firstObject := 0, faultType := protWrite }
        (vmFaultPage { firstObject := 0, faultType := protWrite } twoDown []).1)
      ((vmFaultPage { firstObject := 0, faultType := protWrite } twoDown []).1.foldl keptStep [])
      (vmFaultPage { firstObject := 0, faultType := protWrite } twoDown []).2 := by
  apply vmFaultPage_conserves
  simp [twoDown, Turn.Plain, PageSeen.unavailable]

/-- Data is requested for a new page and the wait for it is interrupted. -/
def interruptedRequest : List (Turn id) :=
  [{ pagerCreated := true, alloc := some 7 },
   { page := some { page := 7, busy := true, absent := true }, wait := .interrupted }]

theorem interruptedRequest_leavesBusy :
    ¬ ConservesPaging { firstObject := 0, faultType := protRead }
      (pagingChange { firstObject := 0, faultType := protRead }
        (vmFaultPage { firstObject := 0, faultType := protRead } interruptedRequest []).1)
      ((vmFaultPage { firstObject := 0, faultType := protRead } interruptedRequest []).1.foldl busyStep [])
      (vmFaultPage { firstObject := 0, faultType := protRead } interruptedRequest []).2 := by
  intro h
  apply h.2 7
  decide

end MachVM
