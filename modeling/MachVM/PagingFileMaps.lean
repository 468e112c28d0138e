import MachVM.Lib.Blocks
import MachVM.Lib.Mirror
import MachVM.PagingFile
import Mathlib.Data.List.Range
import Mathlib.Order.Lattice.Nat

namespace MachVM.Builtin.PagingFile

open Machine Blocks

variable {s r : State} {is : IstructId} {x : Istruct} {flag : Flag} {kalloc : Bool} {slot : Slot} {page fOffset : Nat}
  {pageSize : Nat} {pf : PagerFile}

def emptyLeaf : List Slot := List.replicate pagemapEntries none

/-- The leaves of a map, those that have not been made like empty ones. -/
def filled (leaves : List (Option (List Slot))) : List (List Slot) := leaves.map fun leaf => leaf.getD emptyLeaf

/-- The entries of a page map, in the order of the pages of the object. -/
def PageMap.slots : PageMap → List Slot
  | .direct slots => slots
  | .indirect leaves => (filled leaves).flatten

/-- The sizes of the arrays of a page map. -/
def PageMap.sizes : PageMap → List Nat
  | .direct slots => [slots.length * 4]
  | .indirect leaves => leaves.length * 4 :: leaves.reduceOption.map fun leaf => leaf.length * 4

/-- A page map has the form and the lengths that go with the size of the object. -/
def Istruct.WellFormed (x : Istruct) : Prop :=
  match x.pmap with
  | .direct slots => indirectPagemap x.size = false ∧ slots.length = x.size
  | .indirect leaves => indirectPagemap x.size = true ∧ leaves.length = indirectPagemapEntries x.size ∧
    ∀ leaf, some leaf ∈ leaves → leaf.length = pagemapEntries

/-- Is there an array for the entry of a page? -/
def PageMap.hasLeaf (page : Nat) : PageMap → Bool
  | .direct _ => true
  | .indirect leaves => (leaves[page / pagemapEntries]?.join).isSome

theorem pagemapEntries_pos : 0 < pagemapEntries := by decide

theorem length_filled {leaves : List (Option (List Slot))}
    (h : ∀ leaf, some leaf ∈ leaves → leaf.length = pagemapEntries) :
    ∀ l ∈ filled leaves, l.length = pagemapEntries := by
  intro l hl
  obtain ⟨leaf, hm, rfl⟩ := List.mem_map.mp hl
  cases leaf with
  | none => exact List.length_replicate ..
  | some leaf => exact h leaf hm

theorem Istruct.WellFormed.length_slots (h : x.WellFormed) : x.pmap.slots.length =
    if indirectPagemap x.size then indirectPagemapEntries x.size * pagemapEntries else x.size := by
  unfold Istruct.WellFormed at h
  split at h
  next slots hm =>
    rw [hm, h.1, if_neg (by simp), ← h.2]
    rfl
  next leaves hm =>
    obtain ⟨hi, hl, hleaf⟩ := h
    rw [hm, hi, if_pos rfl, PageMap.slots, length_flatten (length_filled hleaf), filled, List.length_map, hl]

theorem Istruct.WellFormed.size_le (h : x.WellFormed) : x.size ≤ x.pmap.slots.length := by
  rw [h.length_slots]
  split
  next hi =>
    have hpos : 512 < x.size * 4 := of_decide_eq_true hi
    simp only [indirectPagemapEntries, pagemapEntries, pagemapThreshold]
    omega
  next => exact Nat.le_refl _

theorem Istruct.WellFormed.outside_iff (h : x.WellFormed) : page ≤ x.size ∧ x.pmap.slots.length ≤ page ↔
    page = x.size ∧ (indirectPagemap x.size = false ∨ x.size % pagemapEntries = 0) := by
  have hle := h.size_le
  have hlen := h.length_slots
  cases hi : indirectPagemap x.size with
  | false =>
    rw [hi, if_neg (by simp)] at hlen
    rw [hlen]
    simp only [true_or, and_true]
    omega
  | true =>
    rw [hi, if_pos rfl] at hlen
    have hpos : 512 < x.size * 4 := of_decide_eq_true hi
    simp only [indirectPagemapEntries, pagemapEntries, pagemapThreshold] at hlen ⊢
    simp only [Bool.true_eq_false, false_or]
    omega

/-- What `pf_bmap` makes of a state when it has found or chosen the value of an entry. -/
structure Bmapped (s r : State) (is : IstructId) (page : Nat) (q : Slot × PagerFile) : Prop where
  pagerFile : r.pagerFile = Function.update s.pagerFile (s.istruct is).pfInfo q.2
  live : r.live = s.live
  istruct : ∃ pmap, r.istruct = Function.update s.istruct is { s.istruct is with pmap } ∧
    pmap.slots = (s.istruct is).pmap.slots.set page q.1 ∧ { s.istruct is with pmap }.WellFormed ∧
    (r.kmem = s.kmem ∧ pmap.sizes = (s.istruct is).pmap.sizes ∨
      ∃ n, r.kmem = n :: s.kmem ∧ pmap.sizes.Perm (n :: (s.istruct is).pmap.sizes))

section Leaves

variable {leaves : List (Option (List Slot))} {leaf : Option (List Slot)} {l : List Slot}
  (hleaf : ∀ leaf, some leaf ∈ leaves → leaf.length = pagemapEntries)
  (hk : leaves[page / pagemapEntries]? = some leaf) (hl : leaf.getD emptyLeaf = l)
include hleaf hk hl

theorem length_leaf : l.length = pagemapEntries :=
  length_filled hleaf l (List.mem_map.mpr ⟨leaf, List.mem_of_getElem? hk, hl⟩)

theorem slots_set_leaf (v : Slot) :
    (PageMap.indirect (leaves.set (page / pagemapEntries) (some (l.set (page % pagemapEntries) v)))).slots =
      (PageMap.indirect leaves).slots.set page v := by
  have hget : (filled leaves)[page / pagemapEntries]? = some l := by
    rw [filled, List.getElem?_map, hk, Option.map_some, hl]
  rw [PageMap.slots, PageMap.slots, filled, List.map_set]
  exact flatten_set pagemapEntries_pos (length_filled hleaf) hget

theorem wellFormed_set_leaf (v : Slot) : ∀ leaf', some leaf' ∈ leaves.set (page / pagemapEntries)
    (some (l.set (page % pagemapEntries) v)) → leaf'.length = pagemapEntries := by
  intro leaf' hm
  rcases List.mem_or_eq_of_mem_set hm with hm | hm
  · exact hleaf leaf' hm
  · cases Option.some.inj hm
    rw [List.length_set]
    exact length_leaf hleaf hk hl

omit hleaf hl in
/-- A leaf that was there keeps its size. -/
theorem sizes_set_leaf (v : Slot) (hs : leaf = some l) :
    (PageMap.indirect (leaves.set (page / pagemapEntries) (some (l.set (page % pagemapEntries) v)))).sizes =
      (PageMap.indirect leaves).sizes := by
  obtain ⟨hi, hget⟩ := List.getElem?_eq_some_iff.mp hk
  rw [PageMap.sizes, PageMap.sizes, List.length_set]
  refine congrArg _ ?_
  rw [← List.reduceOption_map, ← List.reduceOption_map, List.map_set]
  refine congrArg _ ?_
  have hsame : (some (l.set (page % pagemapEntries) v)).map (fun leaf => leaf.length * 4) =
      leaf.map fun leaf => leaf.length * 4 := by
    rw [hs, Option.map_some, Option.map_some, List.length_set]
  rw [hsame, ← hget, ← List.map_set, List.set_getElem_self]

theorem sizes_new_leaf (v : Slot) (hs : leaf = none) :
    (PageMap.indirect (leaves.set (page / pagemapEntries) (some (l.set (page % pagemapEntries) v)))).sizes.Perm
      (pagemapThreshold :: (PageMap.indirect leaves).sizes) := by
  have hlen := length_leaf hleaf hk hl
  rw [PageMap.sizes, PageMap.sizes, List.length_set]
  refine List.Perm.trans ?_ (.swap ..)
  refine List.Perm.cons _ ?_
  refine ((reduceOption_set (hs ▸ hk)).map _).trans ?_
  rw [List.map_cons, List.length_set, hlen]
  exact .refl _

end Leaves

theorem setPmap_bmapped {pmap : PageMap} {q : Slot × PagerFile}
    (hslots : pmap.slots = (s.istruct is).pmap.slots.set page q.1) (hw : { s.istruct is with pmap }.WellFormed)
    (hsizes : pmap.sizes = (s.istruct is).pmap.sizes) :
    Bmapped s ((s.setPagerFile (s.istruct is).pfInfo q.2).setPmap is pmap) is page q :=
  ⟨rfl, rfl, pmap, rfl, hslots, hw, .inl ⟨rfl, hsizes⟩⟩

theorem pfBmap_cases (flag : Flag) (kalloc : Bool) (hw : (s.istruct is).WellFormed) (hpage : fOffset / pageSize = page)
    (hin : page ≤ (s.istruct is).size → page < (s.istruct is).pmap.slots.length) :
    (((s.istruct is).size < page ∨ page ≤ (s.istruct is).size ∧ (s.istruct is).pmap.slots[page]? = some none ∧
        (s.istruct is).pmap.hasLeaf page = false ∧ (flag = .read ∨ kalloc = false)) ∧
      pfBmap pageSize s is fOffset flag kalloc = .ok (none, s)) ∨
    page ≤ (s.istruct is).size ∧ ((s.istruct is).pmap.hasLeaf page = true ∨ kalloc = true) ∧
      ∃ slot, (s.istruct is).pmap.slots[page]? = some slot ∧
      ∃ R : Slot × PagerFile → State, (∀ q, Bmapped s (R q) is page q) ∧
        pfBmap pageSize s is fOffset flag kalloc =
          (pageSlot (s.pagerFile (s.istruct is).pfInfo) slot flag).map
            fun q => (q.1.map fun p => fOffset % pageSize + p * pageSize, R q) := by
  unfold pfBmap
  dsimp only
  rw [hpage]
  by_cases hsz : (s.istruct is).size < page
  · exact .inl ⟨.inl hsz, if_pos hsz⟩
  rw [if_neg hsz]
  have hle : page ≤ (s.istruct is).size := Nat.le_of_not_lt hsz
  obtain ⟨slot, hget⟩ : ∃ slot, (s.istruct is).pmap.slots[page]? = some slot :=
    ⟨_, List.getElem?_eq_getElem (hin hle)⟩
  have hwf := hw
  unfold Istruct.WellFormed at hwf
  cases hm : (s.istruct is).pmap with
  | direct slots =>
    rw [hm] at hwf hget
    obtain ⟨hind, hlen⟩ := hwf
    refine .inr ⟨hle, .inl rfl, slot, hget, fun q => (s.setPagerFile (s.istruct is).pfInfo q.2).setPmap is
      (.direct (slots.set page q.1)), fun q => ?_, ?_⟩
    · refine setPmap_bmapped (by rw [hm]; rfl) ⟨hind, ?_⟩ ?_
      · rw [List.length_set]
        exact hlen
      · rw [hm, PageMap.sizes, PageMap.sizes, List.length_set]
    · change slots[page]? = some slot at hget
      simp only [hget]
  | indirect leaves =>
    rw [hm] at hwf hget
    obtain ⟨hind, hlen, hleaf⟩ := hwf
    have hslots := hget
    change (filled leaves).flatten[page]? = some slot at hslots
    rw [getElem?_flatten pagemapEntries_pos (length_filled hleaf)] at hslots
    obtain ⟨l, hl, hslot⟩ := Option.bind_eq_some_iff.mp hslots
    obtain ⟨leaf, hk, hl⟩ : ∃ leaf, leaves[page / pagemapEntries]? = some leaf ∧ leaf.getD emptyLeaf = l := by
      rw [filled, List.getElem?_map] at hl
      exact Option.map_eq_some_iff.mp hl
    have hwf' : ∀ v, Istruct.WellFormed { s.istruct is with
        pmap := .indirect (leaves.set (page / pagemapEntries) (some (l.set (page % pagemapEntries) v))) } :=
      fun v => ⟨hind, by rw [List.length_set]; exact hlen, wellFormed_set_leaf hleaf hk hl v⟩
    have hhas : (PageMap.indirect leaves).hasLeaf page = leaf.isSome := by
      rw [PageMap.hasLeaf, hk]
      rfl
    simp only [hk]
    cases leaf with
    | some leaf =>
      cases hl
      refine .inr ⟨hle, .inl hhas, slot, hget, fun q => (s.setPagerFile (s.istruct is).pfInfo q.2).setPmap is
        (.indirect (leaves.set (page / pagemapEntries) (some (leaf.set (page % pagemapEntries) q.1)))), fun q => ?_, ?_⟩
      · refine setPmap_bmapped ?_ (hwf' q.1) ?_
        · rw [hm]
          exact slots_set_leaf hleaf hk rfl q.1
        · rw [hm]
          exact sizes_set_leaf hk q.1 rfl
      · change leaf[page % pagemapEntries]? = some slot at hslot
        simp only [pageLeaf, hslot]
    | none =>
      have hnone : slot = none := by
        have hm := List.mem_of_getElem? hslot
        rw [← hl] at hm
        exact List.eq_of_mem_replicate hm
      subst hnone
      by_cases hread : flag = .read ∨ kalloc = false
      · refine .inl ⟨.inr ⟨hle, hget, hhas, hread⟩, ?_⟩
        rcases hread with rfl | rfl
        · rfl
        · simp [pageLeaf]
      · obtain ⟨hwrite, hkalloc⟩ := not_or.mp hread
        have hkalloc : kalloc = true := by simpa using hkalloc
        subst hl
        refine .inr ⟨hle, .inr hkalloc, none, hget, fun q =>
          (State.setPagerFile { s with kmem := pagemapThreshold :: s.kmem } (s.istruct is).pfInfo q.2).setPmap is
            (.indirect (leaves.set (page / pagemapEntries) (some (emptyLeaf.set (page % pagemapEntries) q.1)))),
          fun q => ?_, ?_⟩
        · refine ⟨rfl, rfl, _, rfl, ?_, hwf' q.1, .inr ⟨pagemapThreshold, rfl, ?_⟩⟩
          · rw [hm]
            exact slots_set_leaf hleaf hk rfl q.1
          · rw [hm]
            exact sizes_new_leaf hleaf hk rfl q.1 rfl
        · change emptyLeaf[page % pagemapEntries]? = some none at hslot
          have hmake : pageLeaf s none flag kalloc =
              some (emptyLeaf, { s with kmem := pagemapThreshold :: s.kmem }) := by
            simp [pageLeaf, hwrite, hkalloc, emptyLeaf]
          simp only [hmake, hslot]

end MachVM.Builtin.PagingFile

namespace MachVM.Builtin.PagingFile

open Machine Blocks Mirror

variable {pf pf' : PagerFile} {held : List Nat} {page bp i : Nat} {bmap : Nat → Bool} {slots : List Slot} {flag : Flag}

/-- The map of a paging file has the bits of the pages that are held, and the count of free pages is right. -/
structure Space (pf : PagerFile) (held : List Nat) : Prop where
  mirror : Mirrors held fun p => p < pf.pfNpgs ∧ pf.pfBmap p = true
  free : pf.pfPfree = pf.pfNpgs - held.length

theorem Space.perm {held' : List Nat} (h : Space pf held) (hp : held.Perm held') : Space pf held' :=
  ⟨h.mirror.perm hp, by rw [← hp.length_eq]; exact h.free⟩

theorem Space.length_le (h : Space pf held) : held.length ≤ pf.pfNpgs := by
  have hsub : held.Subperm (List.range pf.pfNpgs) :=
    List.subperm_of_subset h.mirror.nodup fun p hp => List.mem_range.mpr ((h.mirror.mem_iff p).mp hp).1
  simpa using hsub.length_le

theorem Space.countP_eq (h : Space pf held) : (List.range pf.pfNpgs).countP pf.pfBmap = held.length := by
  have hp : ((List.range pf.pfNpgs).filter pf.pfBmap).Perm held := by
    refine (List.perm_ext_iff_of_nodup (List.nodup_range.filter _) h.mirror.nodup).mpr fun p => ?_
    rw [List.mem_filter, List.mem_range, h.mirror.mem_iff p]
  rw [List.countP_eq_length_filter, hp.length_eq]

theorem Space.exists_clear (h : Space pf held) (hf : pf.pfPfree ≠ 0) : ∃ p < pf.pfNpgs, pf.pfBmap p = false := by
  by_contra hn
  push Not at hn
  have hall : ∀ p ∈ List.range pf.pfNpgs, pf.pfBmap p = true := fun p hp => by simpa using hn p (List.mem_range.mp hp)
  have hc := h.countP_eq
  rw [List.countP_eq_length.mpr hall, List.length_range] at hc
  have := h.free
  omega

theorem bytemask_eq_true : bytemask bmap bp = true ↔ ∀ i < 8, bmap (bp * 8 + i) = true := by
  simp [bytemask, List.all_eq_true]

theorem pfAllocatePage_gives (h : Space pf held) : Gives (pfAllocatePage pf) (fun _ => False) fun q =>
    (q.1 = none ∧ q.2 = pf ∧ pf.pfPfree = 0) ∨ ∃ p, q.1 = some p ∧ Space q.2 (p :: held) ∧ pf.pfPfree ≠ 0 ∧
      q.2.pfNpgs = pf.pfNpgs ∧ q.2.pfCount = pf.pfCount := by
  unfold pfAllocatePage
  split
  next hz => exact .inl ⟨rfl, rfl, hz⟩
  next hz =>
    obtain ⟨p, hp, hclear⟩ := h.exists_clear hz
    have hbyte : bytemask pf.pfBmap (p / 8) = false := by
      refine Bool.eq_false_iff.mpr fun hb => ?_
      have := bytemask_eq_true.mp hb (p % 8) (Nat.mod_lt _ (by decide))
      rw [show p / 8 * 8 + p % 8 = p by omega, hclear] at this
      exact absurd this (by simp)
    have hmem : p / 8 < howmany pf.pfNpgs 8 := by
      unfold howmany
      omega
    split
    next hnone =>
      rw [List.find?_eq_none] at hnone
      exact absurd hbyte (by simpa using hnone (p / 8) (List.mem_range.mpr hmem))
    next bp hsome =>
      obtain ⟨hbp, -, hbefore⟩ := List.find?_range_eq_some.mp hsome
      have hfull : bytemask pf.pfBmap bp = false := by simpa using hbp
      have hle : bp ≤ p / 8 := by
        by_contra hlt
        exact absurd hbyte (by simpa using hbefore (p / 8) (by omega))
      obtain ⟨i, hi⟩ : ∃ i, (List.range 8).find? (fun i => !pf.pfBmap (bp * 8 + i)) = some i := by
        refine Option.isSome_iff_exists.mp ?_
        rw [List.find?_isSome]
        by_contra hno
        push Not at hno
        have : bytemask pf.pfBmap bp = true :=
          bytemask_eq_true.mpr fun i hi => by simpa using hno i (List.mem_range.mpr hi)
        exact absurd (hfull.symm.trans this) (by simp)
      obtain ⟨hbit, hi8, hfirst⟩ := List.find?_range_eq_some.mp hi
      have hbit : pf.pfBmap (bp * 8 + i) = false := by simpa using hbit
      have hi8 := List.mem_range.mp hi8
      have hlt : bp * 8 + i < pf.pfNpgs := by
        by_cases hb : bp = p / 8
        · have hip : i ≤ p % 8 := by
            by_contra hlt
            have hset : pf.pfBmap (bp * 8 + p % 8) = true := by simpa using hfirst (p % 8) (by omega)
            rw [hb, show p / 8 * 8 + p % 8 = p by omega, hclear] at hset
            exact absurd hset (by simp)
          omega
        · omega
      rw [hi]
      dsimp only [Option.getD_some]
      rw [if_neg (by omega)]
      refine .inr ⟨bp * 8 + i, rfl, ⟨?_, ?_⟩, hz, rfl, rfl⟩
      · refine (h.mirror.append (x := bp * 8 + i) (fun hx => absurd (hx.2.symm.trans hbit) (by simp)) fun y => ?_).perm
          (List.perm_append_singleton ..)
        dsimp only
        by_cases hy : y = bp * 8 + i
        · subst hy
          simp [hlt]
        · rw [Function.update_of_ne hy]
          simp [hy]
      · dsimp only
        rw [List.length_cons, h.free]
        omega

theorem pfDeallocatePage_gives (h : Space pf (page :: held)) : Gives (pfDeallocatePage pf page) (fun _ => False) fun q =>
    Space q held ∧ q.pfNpgs = pf.pfNpgs ∧ q.pfCount = pf.pfCount := by
  obtain ⟨hlt, -⟩ := (h.mirror.mem_iff page).mp List.mem_cons_self
  unfold pfDeallocatePage
  rw [if_neg (by omega)]
  refine ⟨⟨?_, ?_⟩, rfl, rfl⟩
  · have he := h.mirror.erase (x := page) (g := fun p => p < pf.pfNpgs ∧ Function.update pf.pfBmap page false p = true)
      fun y => by
        by_cases hy : y = page
        · subst hy
          simp
        · rw [Function.update_of_ne hy]
          simp [hy]
    rwa [List.erase_cons_head] at he
  · have := h.free
    rw [List.length_cons] at this
    dsimp only
    omega

theorem deallocateSlots_gives (h : Space pf (slots.reduceOption ++ held)) :
    Gives (visit deallocateSlot pf slots) (fun _ => False) fun q =>
      Space q held ∧ q.pfNpgs = pf.pfNpgs ∧ q.pfCount = pf.pfCount := by
  induction slots generalizing pf with
  | nil => exact ⟨h, rfl, rfl⟩
  | cons slot slots ih =>
    cases slot with
    | none => exact ih h
    | some page =>
      refine (pfDeallocatePage_gives h).bind fun q ⟨hq, hn, hc⟩ => ?_
      refine Gives.mono (ih hq) fun r ⟨hr, hnr, hcr⟩ => ⟨hr, hnr.trans hn, hcr.trans hc⟩

theorem pageSlot_gives (slot : Slot) (flag : Flag) (h : Space pf held) : Gives (pageSlot pf slot flag) (fun _ => False) fun q =>
    q.2.pfNpgs = pf.pfNpgs ∧ q.2.pfCount = pf.pfCount ∧
      (q = (slot, pf) ∧ (slot = none → flag = .read ∨ pf.pfPfree = 0) ∨
        ∃ p, slot = none ∧ flag = .write ∧ pf.pfPfree ≠ 0 ∧ q.1 = some p ∧ Space q.2 (p :: held)) := by
  unfold pageSlot
  split
  next p => exact ⟨rfl, rfl, .inl ⟨rfl, fun hn => absurd hn (by simp)⟩⟩
  next =>
    split
    next hf => exact ⟨rfl, rfl, .inl ⟨rfl, fun _ => .inl hf⟩⟩
    next hf =>
      have hw : flag = .write := by
        cases flag with
        | read => exact absurd rfl hf
        | write => rfl
      refine Gives.mono (pfAllocatePage_gives h) fun q hq => ?_
      rcases hq with ⟨h1, h2, hz⟩ | ⟨p, h1, h2, hz, hn, hc⟩
      · exact ⟨by rw [h2], by rw [h2], .inl ⟨Prod.ext h1 h2, fun _ => .inr hz⟩⟩
      · exact ⟨hn, hc, .inr ⟨p, rfl, hw, hz, h1, h2⟩⟩

end MachVM.Builtin.PagingFile
