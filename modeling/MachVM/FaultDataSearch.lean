import MachVM.FaultData

namespace MachVM
namespace FaultData

/-- Some object of the chain has the page. -/
inductive Supplied (s : VmState) : ObjId → VmOffset → Prop
  | own {o : ObjId} {off : VmOffset} : ownData s o off ≠ none → Supplied s o off
  | deeper {o b : ObjId} {off : VmOffset} : (s.object o).shadow = some b →
      Supplied s b (off + (s.object o).shadowOffset) → Supplied s o off

/-- What the machine is told about a pager is so: an object with a pager is marked, and a page that
is known to be absent, or has been found to be unavailable, is not there. -/
structure Honest (w : World) (s : VmState) : Prop where
  created : ∀ o, (s.object o).pager ≠ none → (s.object o).pagerCreated = true
  known : ∀ o off, w.knownAbsent o off = true → pagerHas s o off = none
  unavailable : ∀ m o, (s.page m).tabled = true → (s.page m).object = some o → (s.page m).absent = true →
    (s.page m).busy = false → pagerHas s o (s.page m).offset = none

/-- What may happen while the thread sleeps on a page: the page may come, go or be changed, as long as
every object has what it had. A busy page is left to the thread that made it busy, and no other
object gains or loses a page that the table did not know of before. -/
structure Meanwhile (w : World) (s t : VmState) (m : PageId) : Prop where
  resident : ResidentInv t
  honest : Honest w t
  links : ∀ x, SameLinks (s.object x) (t.object x)
  pagerData : t.pagerData = s.pagerData
  next : s.nextObject ≤ t.nextObject
  own : ∀ x off, ownData t x off = ownData s x off
  held : ∀ p, p ≠ m → (s.page p).busy = true → t.page p = s.page p
  table : ∀ x off, (s.page m).object ≠ some x →
    (vmPageLookup t x off).isSome = (vmPageLookup s x off).isSome

/-- Nothing else happens while the thread sleeps or waits for a message to be sent. -/
structure Calm (w : World) : Prop where
  block : ∀ n s m, ResidentInv s → Honest w s → (s.page m).tabled = true → Meanwhile w s (w.block n s m).1 m
  request : ∀ n s m, ResidentInv s → Honest w s → (s.page m).tabled = true →
    Meanwhile w s (w.request n s m).1 m
  unlockRequest : ∀ n s m, ResidentInv s → Honest w s → (s.page m).tabled = true →
    Meanwhile w s (w.unlockRequest n s m).1 m

/-- The copy object of the first object shadows it, and is in use. -/
structure CopyLinked (s : VmState) (first : ObjId) : Prop where
  shadow : ∀ c, (s.object first).copy = some c → (s.object c).shadow = some first
  held : ∀ c, (s.object first).copy = some c → 0 < (s.object c).refCount
  known : ∀ c, (s.object first).copy = some c → c < s.nextObject

/-- What the search keeps. Only the page it is to fill may be another one. -/
structure Kept (w : World) (a : FaultCall) (s₀ s : VmState) : Prop where
  resident : ResidentInv s
  honest : Honest w s
  links : ∀ x, SameLinks (s₀.object x) (s.object x)
  pagerData : s.pagerData = s₀.pagerData
  next : s₀.nextObject ≤ s.nextObject
  own : ∀ x off, ¬(x = a.firstObject ∧ off = a.firstOffset) → ownData s x off = ownData s₀ x off
  table : ∀ c, (s₀.object a.firstObject).copy = some c → ∀ off,
    (vmPageLookup s c off).isSome = (vmPageLookup s₀ c off).isSome

/-- The page of the first object, and the thread's own: busy, there, and on no pageout queue. -/
structure Ours (a : FaultCall) (s : VmState) (m : PageId) : Prop where
  tabled : (s.page m).tabled = true
  object : (s.page m).object = some a.firstObject
  offset : (s.page m).offset = a.firstOffset
  busy : (s.page m).busy = true
  present : (s.page m).absent = false
  unqueued : (s.page m).active = false ∧ (s.page m).inactive = false

/-- The search is in the first object. -/
structure AtTop (a : FaultCall) (s₀ s : VmState) (p : Place) : Prop where
  object : p.object = a.firstObject
  offset : p.offset = a.firstOffset
  shown : ∀ d, ownData s a.firstObject a.firstOffset = some d → Content s₀ a.firstObject a.firstOffset d
  empty : ownData s a.firstObject a.firstOffset = none → ownData s₀ a.firstObject a.firstOffset = none
  atHome : ownData s a.firstObject a.firstOffset ≠ none →
    ownData s₀ a.firstObject a.firstOffset ≠ none ∨ ¬Supplied s₀ a.firstObject a.firstOffset

/-- The first object does not have the page, and has one of its own to put it in. What the search will
find is what the first object shows. -/
structure Under (a : FaultCall) (s₀ s : VmState) (length : Nat) (p : Place) (first : PageId) : Prop where
  firstM : p.firstM = some first
  ours : Ours a s first
  empty : ownData s₀ a.firstObject a.firstOffset = none
  chain : ∃ n, n ≤ length ∧ ShadowChain s₀ p.object n
  deeper : ∀ d, Content s₀ p.object p.offset d → Content s₀ a.firstObject a.firstOffset d
  supplied : Supplied s₀ a.firstObject a.firstOffset ↔ Supplied s₀ p.object p.offset

/-- Where a search may be. -/
inductive Where (a : FaultCall) (s₀ s : VmState) (length : Nat) (p : Place) : Prop
  | top : AtTop a s₀ s p → Where a s₀ s length p
  | below (first : PageId) : Under a s₀ s length p first → p.object ≠ a.firstObject →
      Where a s₀ s length p

/-- How the page is found: in the first object, or below it with a page to copy it to. -/
inductive FoundAt (a : FaultCall) (s₀ s : VmState) (p : Place) (m : PageId) : Prop
  | top : p.object = a.firstObject → Ours a s m →
      ownData s₀ a.firstObject a.firstOffset ≠ none ∨ ¬Supplied s₀ a.firstObject a.firstOffset →
      FoundAt a s₀ s p m
  | below (first : PageId) : p.object ≠ a.firstObject →
      (∀ c, (s₀.object a.firstObject).copy = some c → c ≠ p.object) → p.firstM = some first → Ours a s first →
      (s.page m).tabled = true → (s.page m).object = some p.object → (s.page m).busy = true →
      (s.page m).absent = false → (s.page m).active = false ∧ (s.page m).inactive = false →
      ownData s₀ a.firstObject a.firstOffset = none → Supplied s₀ a.firstObject a.firstOffset →
      FoundAt a s₀ s p m

/-- What a turn of the search gives. -/
def Good (w : World) (a : FaultCall) (s₀ : VmState) (length : Nat) : Searched → Prop
  | .again s p => Kept w a s₀ s ∧ Where a s₀ s length p
  | .found s p m => Kept w a s₀ s ∧ FoundAt a s₀ s p m ∧ Content s₀ a.firstObject a.firstOffset (s.page m).data
  | .failed _ _ => True

variable {w : World} {a : FaultCall} {s₀ s t : VmState} {p : Place} {m first : PageId} {o x b : ObjId}
  {off : VmOffset} {d : PageData} {n length fuel : Nat} {r : Searched}

theorem Kept.refl (hs : ResidentInv s) (hh : Honest w s) : Kept w a s s :=
  ⟨hs, hh, fun _ => SameLinks.refl _, rfl, Nat.le_refl _, fun _ _ _ => rfl, fun _ _ _ => rfl⟩

theorem copy_ne (hc : CopyLinked s a.firstObject) (hl : ShadowChain s a.firstObject length)
    (hx : ShadowChain s x n) (hn : n ≤ length) : ∀ c, (s.object a.firstObject).copy = some c → c ≠ x := by
  rintro c hcopy rfl
  have := hx.unique (.next (hc.shadow c hcopy) hl)
  omega

theorem Honest.touch (h : Honest w s) (ht : Touched s t m x)
    (hh : (t.page m).tabled = true → (t.page m).absent = true → (t.page m).busy = false →
      pagerHas t x (t.page m).offset = none) : Honest w t := by
  have hhas : ∀ y off, pagerHas t y off = pagerHas s y off := fun y off =>
    pagerHas_congr (ht.links y).pager (ht.links y).pagingOffset ht.pagerData off
  refine ⟨?_, ?_, ?_⟩
  · intro y hy
    rw [(ht.links y).pager] at hy
    rw [(ht.links y).pagerCreated]
    exact h.created y hy
  · intro y off hk
    rw [hhas]
    exact h.known y off hk
  · intro q y hq ho ha hb
    by_cases hqm : q = m
    · subst hqm
      cases Option.some.inj (ho.symm.trans (ht.after hq))
      exact hh hq ha hb
    · rw [hhas, ht.others q hqm]
      rw [ht.others q hqm] at hq ho ha hb
      exact h.unavailable q y hq ho ha hb

theorem Kept.touch (h : Kept w a s₀ s) (ht : Touched s t m x)
    (hx : ∀ c, (s₀.object a.firstObject).copy = some c → c ≠ x)
    (hh : (t.page m).tabled = true → (t.page m).absent = true → (t.page m).busy = false →
      pagerHas t x (t.page m).offset = none)
    (hown : ∀ off, ¬(x = a.firstObject ∧ off = a.firstOffset) → ∀ d,
      cell t m = some (x, off, false, d) ↔ cell s m = some (x, off, false, d)) : Kept w a s₀ t where
  resident := ht.resident
  honest := h.honest.touch ht hh
  links := fun y => (h.links y).trans (ht.links y)
  pagerData := ht.pagerData.trans h.pagerData
  next := by
    rw [ht.next]
    exact h.next
  own := by
    intro y off hy
    rw [← h.own y off hy]
    by_cases hyx : y = x
    · subst hyx
      exact ht.ownData h.resident (hown off hy)
    · exact ht.ownData_ne h.resident hyx off
  table := by
    intro c hc off
    rw [ht.lookup_ne h.resident (hx c hc), h.table c hc]

theorem Kept.sleep (h : Kept w a s₀ s) (hm : Meanwhile w s t m)
    (hx : ∀ c, (s₀.object a.firstObject).copy = some c → (s.page m).object ≠ some c) : Kept w a s₀ t where
  resident := hm.resident
  honest := hm.honest
  links := fun y => (h.links y).trans (hm.links y)
  pagerData := hm.pagerData.trans h.pagerData
  next := Nat.le_trans h.next hm.next
  own := fun y off hy => (hm.own y off).trans (h.own y off hy)
  table := fun c hc off => (hm.table c off (hx c hc)).trans (h.table c hc off)

theorem Ours.of_page (h : Ours a s m) (hp : t.page m = s.page m) : Ours a t m := by
  constructor <;> rw [hp]
  · exact h.tabled
  · exact h.object
  · exact h.offset
  · exact h.busy
  · exact h.present
  · exact h.unqueued

theorem Ours.cell (h : Ours a s m) :
    cell s m = some (a.firstObject, a.firstOffset, false, (s.page m).data) :=
  cell_eq_some.mpr ⟨h.tabled, h.object, h.offset, h.present, rfl⟩

theorem AtTop.congr (h : AtTop a s₀ s p)
    (ho : ownData t a.firstObject a.firstOffset = ownData s a.firstObject a.firstOffset) : AtTop a s₀ t p :=
  ⟨h.object, h.offset, by rw [ho]; exact h.shown, by rw [ho]; exact h.empty, by rw [ho]; exact h.atHome⟩

theorem Under.congr (h : Under a s₀ s length p first) (hp : t.page first = s.page first) :
    Under a s₀ t length p first :=
  ⟨h.firstM, h.ours.of_page hp, h.empty, h.chain, h.deeper, h.supplied⟩

theorem AtTop.of_zero (ho : p.object = a.firstObject) (hoff : p.offset = a.firstOffset)
    (hz : ownData s a.firstObject a.firstOffset = some zeroPage)
    (hc : Content s₀ a.firstObject a.firstOffset zeroPage)
    (hn : ¬Supplied s₀ a.firstObject a.firstOffset) : AtTop a s₀ s p := by
  refine ⟨ho, hoff, ?_, ?_, fun _ => .inr hn⟩
  · intro d hd
    cases Option.some.inj (hz.symm.trans hd)
    exact hc
  · rw [hz]
    exact fun h => nomatch h

theorem Under.next (h : Under a s₀ s length p first) (hl : ShadowChain s₀ a.firstObject length)
    (hn : ownData s₀ p.object p.offset = none) (hs : (s₀.object p.object).shadow = some b) :
    Under a s₀ s length
        { p with object := b, offset := p.offset + (s₀.object p.object).shadowOffset } first ∧
      b ≠ a.firstObject := by
  obtain ⟨k, hk, hchain⟩ := h.chain
  cases hchain with
  | last hs' => exact absurd (hs.symm.trans hs') (by simp)
  | @next _ c k hs' hb =>
    cases Option.some.inj (hs.symm.trans hs')
    refine ⟨⟨h.firstM, h.ours, h.empty, ⟨k, by omega, hb⟩, fun d hd => h.deeper d (.deeper hn hs hd), ?_⟩, ?_⟩
    · rw [h.supplied]
      constructor
      · intro hsup
        cases hsup with
        | own ho => exact absurd hn ho
        | deeper hs' hb' =>
          cases Option.some.inj (hs.symm.trans hs')
          exact hb'
      · exact .deeper hs
    · rintro rfl
      have := hb.unique hl
      omega

theorem Under.bottom (h : Under a s₀ s length p first) (hn : ownData s₀ p.object p.offset = none)
    (hs : (s₀.object p.object).shadow = none) :
    Content s₀ a.firstObject a.firstOffset zeroPage ∧ ¬Supplied s₀ a.firstObject a.firstOffset := by
  refine ⟨h.deeper _ (.zero hn hs), ?_⟩
  rw [h.supplied]
  intro hsup
  cases hsup with
  | own ho => exact ho hn
  | deeper hs' => exact absurd (hs.symm.trans hs') (by simp)

end FaultData
end MachVM
