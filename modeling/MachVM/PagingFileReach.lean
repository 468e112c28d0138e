import MachVM.Lib.Run
import MachVM.PagingFileMaps

namespace MachVM.Builtin.PagingFile

open Machine Blocks Mirror

variable {s r : State} {is : IstructId} {x : Istruct} {pf : PagerFile} {f : PfId} {flag : Flag} {kalloc : Bool}
  {page pageSize fOffset size n : Nat} {own rest kmem : List Nat} {q : Slot × PagerFile}

/-- The pages of a paging file that a structure has. -/
def heldBy (f : PfId) (x : Istruct) : List Nat := if x.pfInfo = f then x.pmap.slots.reduceOption else []

def State.held (s : State) (f : PfId) : List Nat := s.live.flatMap fun is => heldBy f (s.istruct is)

structure Inv (s : State) : Prop where
  live : s.live.Nodup
  wellFormed : ∀ is ∈ s.live, (s.istruct is).WellFormed
  space : ∀ f, Space (s.pagerFile f) (s.held f)
  count : ∀ f, (s.pagerFile f).pfCount = s.live.countP fun is => (s.istruct is).pfInfo = f
  kmem : s.kmem.Perm (s.live.flatMap fun is => (s.istruct is).pmap.sizes)

theorem heldBy_self : heldBy x.pfInfo x = x.pmap.slots.reduceOption := if_pos rfl

theorem heldBy_of_ne (h : x.pfInfo ≠ f) : heldBy f x = [] := if_neg h

/-- The pages of the others that a step on one structure leaves alone. -/
def State.others (s : State) (is : IstructId) (f : PfId) : List Nat :=
  (s.live.erase is).flatMap fun j => heldBy f (s.istruct j)

theorem held_split (hl : is ∈ s.live) : (s.held (s.istruct is).pfInfo).Perm
    ((s.istruct is).pmap.slots.reduceOption ++ s.others is (s.istruct is).pfInfo) := by
  have := flatMap_split (fun j => heldBy (s.istruct is).pfInfo (s.istruct j)) hl
  rw [heldBy_self] at this
  exact this

theorem Inv.bmapped {slot : Slot} (h : Inv s) (hl : is ∈ s.live) (hr : Bmapped s r is page q)
    (hslot : (s.istruct is).pmap.slots[page]? = some slot)
    (hn : q.2.pfNpgs = (s.pagerFile (s.istruct is).pfInfo).pfNpgs)
    (hc : q.2.pfCount = (s.pagerFile (s.istruct is).pfInfo).pfCount)
    (hq : q = (slot, s.pagerFile (s.istruct is).pfInfo) ∨
      ∃ p, slot = none ∧ q.1 = some p ∧ Space q.2 (p :: s.held (s.istruct is).pfInfo)) : Inv r := by
  obtain ⟨pmap, hi, hslots, hw, hk⟩ := hr.istruct
  have hcollect : ∀ {β : Type} (g : Istruct → List β), (r.live.flatMap fun j => g (r.istruct j)).Perm
      (g { s.istruct is with pmap } ++ (s.live.erase is).flatMap fun j => g (s.istruct j)) := by
    intro β g
    rw [hr.live, hi]
    exact flatMap_update g h.live hl
  refine ⟨hr.live ▸ h.live, fun j hj => ?_, fun f => ?_, fun f => ?_, ?_⟩
  · rw [hi]
    by_cases hji : j = is
    · rw [hji, Function.update_self]
      exact hw
    · rw [Function.update_of_ne hji]
      exact h.wellFormed j (hr.live ▸ hj)
  · have hheld : (r.held f).Perm (heldBy f { s.istruct is with pmap } ++ s.others is f) := hcollect (heldBy f)
    rw [hr.pagerFile]
    by_cases hf : f = (s.istruct is).pfInfo
    · subst hf
      rw [Function.update_self]
      rw [show heldBy (s.istruct is).pfInfo { s.istruct is with pmap } =
        ((s.istruct is).pmap.slots.set page q.1).reduceOption from heldBy_self.trans (congrArg _ hslots)] at hheld
      have hsplit := held_split hl
      rcases hq with hq | ⟨p, hnone, hp, hspace⟩
      · rw [hq]
        refine (h.space _).perm (hsplit.trans (.trans ?_ hheld.symm))
        rw [hq, set_of_getElem? hslot]
      · refine hspace.perm ((hsplit.cons p).trans (.trans ?_ hheld.symm))
        rw [hp]
        exact ((reduceOption_set (hnone ▸ hslot)).append_right _).symm
    · rw [Function.update_of_ne hf]
      refine (h.space f).perm (.trans ?_ hheld.symm)
      have hsplit := flatMap_split (fun j => heldBy f (s.istruct j)) hl
      rw [heldBy_of_ne (Ne.symm hf)] at hsplit
      rw [heldBy_of_ne (show { s.istruct is with pmap }.pfInfo ≠ f from Ne.symm hf)]
      exact hsplit
  · have hcount : r.live.countP (fun j => decide ((r.istruct j).pfInfo = f)) =
        s.live.countP fun j => decide ((s.istruct j).pfInfo = f) := by
      rw [hr.live]
      refine List.countP_congr fun j _ => ?_
      rw [hi]
      by_cases hji : j = is
      · subst hji
        rw [Function.update_self]
      · rw [Function.update_of_ne hji]
    rw [hcount, ← h.count f, hr.pagerFile]
    by_cases hf : f = (s.istruct is).pfInfo
    · subst hf
      rw [Function.update_self, hc]
    · rw [Function.update_of_ne hf]
  · have hsizes := hcollect fun x => x.pmap.sizes
    have hsplit := flatMap_split (fun j => (s.istruct j).pmap.sizes) hl
    rcases hk with ⟨hk, he⟩ | ⟨n, hk, hp⟩
    · rw [hk]
      refine (h.kmem.trans hsplit).trans (.trans ?_ hsizes.symm)
      dsimp only
      rw [he]
    · rw [hk]
      refine ((h.kmem.trans hsplit).cons n).trans (.trans ?_ hsizes.symm)
      exact (hp.append_right _).symm

/-- A page that has no entry in the map of its object. -/
def Outside (x : Istruct) (page : Nat) : Prop :=
  page = x.size ∧ (indirectPagemap x.size = false ∨ x.size % pagemapEntries = 0)

theorem pfBmap_gives (h : Inv s) (hl : is ∈ s.live) (ho : ¬Outside (s.istruct is) (fOffset / pageSize)) :
    Gives (pfBmap pageSize s is fOffset flag kalloc) (fun _ => False) fun r => Inv r.2 := by
  have hw := h.wellFormed is hl
  have hin : fOffset / pageSize ≤ (s.istruct is).size → fOffset / pageSize < (s.istruct is).pmap.slots.length := by
    intro hle
    by_contra hge
    exact ho (hw.outside_iff.mp ⟨hle, Nat.le_of_not_lt hge⟩)
  rcases pfBmap_cases flag kalloc hw rfl hin with ⟨-, he⟩ | ⟨-, -, slot, hslot, R, hR, he⟩
  · rw [he]
    exact h
  · rw [he]
    refine Gives.map (pageSlot_gives slot flag (h.space _)) fun q ⟨hn, hc, hq⟩ => ?_
    refine h.bmapped hl (hR q) hslot hn hc ?_
    rcases hq with ⟨hq, -⟩ | ⟨p, hslot, -, -, hp, hspace⟩
    · exact .inl hq
    · exact .inr ⟨p, hslot, hp, hspace⟩

theorem pfBmap_outside (hw : (s.istruct is).WellFormed) (ho : Outside (s.istruct is) (fOffset / pageSize)) :
    pfBmap pageSize s is fOffset flag kalloc = .error .outOfRange := by
  obtain ⟨hle, hlen⟩ := hw.outside_iff.mpr ho
  unfold pfBmap
  dsimp only
  rw [if_neg (Nat.not_lt.mpr hle)]
  unfold Istruct.WellFormed at hw
  split
  next leaves hm =>
    rw [hm] at hw hlen
    rw [PageMap.slots, length_flatten (length_filled hw.2.2), filled, List.length_map] at hlen
    have hout : leaves.length ≤ fOffset / pageSize / pagemapEntries :=
      (Nat.le_div_iff_mul_le pagemapEntries_pos).mpr hlen
    rw [List.getElem?_eq_none hout]
  next slots hm =>
    rw [hm] at hlen
    change slots.length ≤ fOffset / pageSize at hlen
    rw [List.getElem?_eq_none hlen]

theorem newMap_spec {npgs : Nat} {m : PageMap}
    (hm : m = if indirectPagemap npgs then .indirect (List.replicate (indirectPagemapEntries npgs) none)
      else .direct (List.replicate npgs none)) :
    m.slots.reduceOption = [] ∧
      m.sizes = [if indirectPagemap npgs then indirectPagemapSize npgs else pagemapSize npgs] ∧
      Istruct.WellFormed { size := npgs, pfInfo := f, pmap := m } := by
  subst hm
  split
  next hi =>
    refine ⟨?_, by simp [PageMap.sizes, indirectPagemapSize], hi, List.length_replicate .., fun leaf hm => absurd hm (by simp)⟩
    refine List.eq_nil_iff_forall_not_mem.mpr fun p hp => ?_
    have hp := List.reduceOption_mem_iff.mp hp
    simp [PageMap.slots, filled, emptyLeaf] at hp
  next hi =>
    exact ⟨List.reduceOption_replicate_none, by simp [PageMap.sizes, pagemapSize], Bool.eq_false_iff.mpr hi,
      List.length_replicate ..⟩

theorem pfPagerCreate_inv (h : Inv s) (hn : is ∉ s.live) : Inv (pfPagerCreate pageSize s is f size kalloc) := by
  unfold pfPagerCreate
  cases kalloc with
  | false => exact h
  | true =>
    dsimp only
    rw [if_neg (by simp)]
    set npgs := size / pageSize
    set pmap : PageMap :=
      if indirectPagemap npgs then .indirect (List.replicate (indirectPagemapEntries npgs) none)
      else .direct (List.replicate npgs none) with hpmap
    obtain ⟨hempty, hsizes, hwf⟩ := newMap_spec (f := f) hpmap
    have hne : ∀ j ∈ s.live, j ≠ is := by
      rintro j hj rfl
      exact hn hj
    have hcollect : ∀ {β : Type} (g : Istruct → List β), ((is :: s.live).flatMap fun j =>
        g (Function.update s.istruct is { size := npgs, pfInfo := f, pmap } j)) =
        g { size := npgs, pfInfo := f, pmap } ++ s.live.flatMap fun j => g (s.istruct j) := by
      intro β g
      rw [List.flatMap_cons, Function.update_self]
      exact congrArg _ (flatMap_congr fun j hj => by rw [Function.update_of_ne (hne j hj)])
    refine ⟨List.nodup_cons.mpr ⟨hn, h.live⟩, fun j hj => ?_, fun g => ?_, fun g => ?_, ?_⟩
    · dsimp only
      rcases List.mem_cons.mp hj with rfl | hj
      · rw [Function.update_self]
        exact hwf
      · rw [Function.update_of_ne (hne j hj)]
        exact h.wellFormed j hj
    · have hheld : State.held { s with
          istruct := Function.update s.istruct is { size := npgs, pfInfo := f, pmap }, live := is :: s.live } g =
          s.held g := by
        refine (hcollect (heldBy g)).trans ?_
        have hnone : heldBy g { size := npgs, pfInfo := f, pmap } = [] := by
          unfold heldBy
          split
          · exact hempty
          · rfl
        rw [hnone]
        rfl
      refine Eq.mpr (congrArg (Space _) hheld) ?_
      dsimp only
      by_cases hg : g = f
      · subst hg
        rw [Function.update_self]
        exact ⟨(h.space g).mirror, (h.space g).free⟩
      · rw [Function.update_of_ne hg]
        exact h.space g
    · dsimp only
      rw [List.countP_cons]
      simp only [Function.update_self]
      have hold : s.live.countP (fun j => decide
          ((Function.update s.istruct is { size := npgs, pfInfo := f, pmap } j).pfInfo = g)) =
          s.live.countP fun j => decide ((s.istruct j).pfInfo = g) :=
        List.countP_congr fun j hj => by rw [Function.update_of_ne (hne j hj)]
      rw [hold]
      by_cases hg : g = f
      · subst hg
        rw [Function.update_self, if_pos (by simp)]
        dsimp only
        rw [h.count g]
        rfl
      · rw [Function.update_of_ne hg, if_neg (by simpa using Ne.symm hg)]
        exact h.count g
    · dsimp only
      rw [hcollect fun x => x.pmap.sizes, hsizes]
      exact h.kmem.cons _

end MachVM.Builtin.PagingFile

namespace MachVM.Builtin.PagingFile

open Machine Blocks Mirror

variable {s r : State} {is : IstructId} {x : Istruct} {pf : PagerFile} {f : PfId} {page pageSize size n : Nat}
  {own rest kmem : List Nat} {m : PageMap} {a : Action}

theorem entries_length {α : Type} {l : List α} (h : l.length = n) : entries l n = .ok l := by
  subst h
  rw [entries, if_pos (Nat.le_refl _), List.take_length]

theorem kfree_gives (size : Nat) (hn : n * 4 = size) (hk : kmem.Perm (size :: rest)) :
    Gives (kfree kmem n size) (fun _ => False) fun q => q.Perm rest := by
  unfold kfree
  rw [if_pos ⟨hn, hk.mem_iff.mpr List.mem_cons_self⟩]
  have := hk.erase size
  rwa [List.erase_cons_head] at this

theorem deallocateLeaves_gives {leaves : List (Option (List Slot))}
    (hleaf : ∀ leaf, some leaf ∈ leaves → leaf.length = pagemapEntries)
    (h : Space pf ((filled leaves).flatten.reduceOption ++ own))
    (hk : kmem.Perm ((leaves.reduceOption.map fun leaf => leaf.length * 4) ++ rest)) :
    Gives (visit deallocateLeaf (pf, kmem) leaves) (fun _ => False) fun q =>
      Space q.1 own ∧ q.2.Perm rest ∧ q.1.pfNpgs = pf.pfNpgs ∧ q.1.pfCount = pf.pfCount := by
  induction leaves generalizing pf kmem with
  | nil => exact ⟨h, hk, rfl, rfl⟩
  | cons leaf leaves ih =>
    have hrest : ∀ leaf, some leaf ∈ leaves → leaf.length = pagemapEntries :=
      fun leaf hm => hleaf leaf (List.mem_cons_of_mem _ hm)
    rw [filled, List.map_cons, List.flatten_cons, List.reduceOption_append, List.append_assoc] at h
    cases leaf with
    | none =>
      rw [Option.getD_none, emptyLeaf, List.reduceOption_replicate_none, List.nil_append] at h
      exact ih hrest h hk
    | some leaf =>
      have hlen := hleaf leaf List.mem_cons_self
      rw [List.reduceOption_cons_of_some, List.map_cons, List.cons_append, hlen] at hk
      rw [Option.getD_some] at h
      have hturn : Gives (deallocateLeaf (pf, kmem) (some leaf)) (fun _ => False) fun q =>
          Space q.1 ((filled leaves).flatten.reduceOption ++ own) ∧
            q.2.Perm ((leaves.reduceOption.map fun leaf => leaf.length * 4) ++ rest) ∧
            q.1.pfNpgs = pf.pfNpgs ∧ q.1.pfCount = pf.pfCount := by
        rw [deallocateLeaf, entries_length hlen]
        refine (deallocateSlots_gives h).bind fun q hgives => ?_
        obtain ⟨hq, hn, hc⟩ := hgives
        refine (kfree_gives pagemapThreshold (by rw [hlen]; rfl) hk).bind fun k hk => ?_
        exact ⟨hq, hk, hn, hc⟩
      refine hturn.bind fun q hgives => ?_
      obtain ⟨hq, hk, hn, hc⟩ := hgives
      exact Gives.mono (ih hrest hq hk) fun r hr => ⟨hr.1, hr.2.1, hr.2.2.1.trans hn, hr.2.2.2.trans hc⟩

theorem deallocatePmap_gives (hw : x.WellFormed) (h : Space pf (x.pmap.slots.reduceOption ++ own))
    (hk : kmem.Perm (x.pmap.sizes ++ rest)) :
    Gives (deallocatePmap x.size (pf, kmem) x.pmap) (fun _ => False) fun q =>
      Space q.1 own ∧ q.2.Perm rest ∧ q.1.pfNpgs = pf.pfNpgs ∧ q.1.pfCount = pf.pfCount := by
  unfold Istruct.WellFormed at hw
  cases hm : x.pmap with
  | direct slots =>
    rw [hm] at hw h hk
    obtain ⟨-, hlen⟩ := hw
    rw [deallocatePmap, entries_length hlen]
    refine (deallocateSlots_gives h).bind fun q hgives => ?_
    obtain ⟨hq, hn, hc⟩ := hgives
    rw [PageMap.sizes, hlen] at hk
    refine (kfree_gives (pagemapSize x.size) (by rw [hlen]; rfl) hk).bind fun k hk => ?_
    exact ⟨hq, hk, hn, hc⟩
  | indirect leaves =>
    rw [hm] at hw h hk
    obtain ⟨-, hlen, hleaf⟩ := hw
    have hlast : kmem.Perm ((leaves.reduceOption.map fun leaf => leaf.length * 4) ++
        (indirectPagemapSize x.size :: rest)) := by
      refine hk.trans (.trans ?_ List.perm_middle.symm)
      rw [PageMap.sizes, hlen]
      exact .refl _
    rw [deallocatePmap, entries_length hlen]
    refine (deallocateLeaves_gives hleaf h hlast).bind fun q hgives => ?_
    obtain ⟨hq, hk, hn, hc⟩ := hgives
    refine (kfree_gives (indirectPagemapSize x.size) (by rw [hlen]; rfl) hk).bind fun k hk => ?_
    exact ⟨hq, hk, hn, hc⟩

theorem pfDealloc_gives (h : Inv s) (hl : is ∈ s.live) : Gives (pfDealloc s is) (fun _ => False) Inv := by
  have hspace := (h.space (s.istruct is).pfInfo).perm (held_split hl)
  have hkmem := h.kmem.trans (flatMap_split (fun j => (s.istruct j).pmap.sizes) hl)
  refine (deallocatePmap_gives (h.wellFormed is hl) hspace hkmem).bind fun q ⟨hq, hk, hn, hc⟩ => ?_
  have hmem : ∀ j ∈ s.live.erase is, j ∈ s.live := fun j hj => List.mem_of_mem_erase hj
  refine ⟨h.live.erase _, fun j hj => h.wellFormed j (hmem j hj), fun f => ?_, fun f => ?_, hk⟩
  · dsimp only
    by_cases hf : f = (s.istruct is).pfInfo
    · subst hf
      rw [Function.update_self]
      exact ⟨hq.mirror, hq.free⟩
    · rw [Function.update_of_ne hf]
      have hsplit := flatMap_split (fun j => heldBy f (s.istruct j)) hl
      rw [heldBy_of_ne (Ne.symm hf)] at hsplit
      exact (h.space f).perm hsplit
  · have hcount := (List.perm_cons_erase hl).countP_eq fun j => decide ((s.istruct j).pfInfo = f)
    rw [List.countP_cons, ← Int.natCast_inj, ← h.count f] at hcount
    dsimp only
    by_cases hf : f = (s.istruct is).pfInfo
    · subst hf
      rw [if_pos (by simp)] at hcount
      rw [Function.update_self, hc]
      dsimp only
      omega
    · rw [if_neg (by simpa using Ne.symm hf)] at hcount
      rw [Function.update_of_ne hf]
      exact hcount

/-- The paging files have been set up and nothing uses them. -/
structure Start (s : State) : Prop where
  live : s.live = []
  kmem : s.kmem = []
  free : ∀ f, (s.pagerFile f).pfPfree = (s.pagerFile f).pfNpgs
  count : ∀ f, (s.pagerFile f).pfCount = 0
  clear : ∀ f, ∀ p < (s.pagerFile f).pfNpgs, (s.pagerFile f).pfBmap p = false

/-- `pf_bmap` is not called for the page after the last entry of a page map. -/
def ok (pageSize : Nat) (s : State) : Action → Prop
  | .pfBmap is fOffset _ _ => ¬Outside (s.istruct is) (fOffset / pageSize)
  | _ => True

abbrev Reachable (pageSize : Nat) : State → Prop := Reach Start (fun s a => (step pageSize s a).toOption) (ok pageSize)

theorem Start.inv (h : Start s) : Inv s := by
  obtain ⟨h1, h2, h3, h4, h5⟩ := h
  refine ⟨by simp [h1], by simp [h1], fun f => ⟨?_, ?_⟩, fun f => by simp [h1, h4], by simp [h1, h2]⟩
  · have hnil : s.held f = [] := by simp [State.held, h1]
    rw [hnil]
    refine mirrors_nil.congr fun p => ⟨False.elim, fun hp => ?_⟩
    exact absurd (h5 f p hp.1) (by simp [hp.2])
  · simp [State.held, h1, h3]

theorem step_gives (h : Inv s) (ha : ok pageSize s a) :
    Gives (step pageSize s a) (fun e => e = .disabled) Inv := by
  cases a with
  | pfPagerCreate is f size kalloc =>
    rw [step]
    split
    next => rfl
    next hn => exact pfPagerCreate_inv h hn
  | pfBmap is fOffset flag kalloc =>
    rw [step]
    split
    next hl =>
      exact ((pfBmap_gives h hl ha).map fun _ hr => hr).weaken fun _ => False.elim
    next => rfl
  | pfDealloc is =>
    rw [step]
    split
    next hl => exact (pfDealloc_gives h hl).weaken fun _ => False.elim
    next => rfl

theorem reachable_inv (h : Reachable pageSize s) : Inv s :=
  h.invariant (fun _ hs => hs.inv) fun _ _ _ hi ha hr => (step_gives hi ha).of_ok (toOption_eq_some hr)

/-- An entry of the page map of an object holds a page of a paging file. -/
structure Holds (s : State) (f : PfId) (p : Nat) (w : IstructId × Nat) : Prop where
  live : w.1 ∈ s.live
  pfInfo : (s.istruct w.1).pfInfo = f
  slot : (s.istruct w.1).pmap.slots[w.2]? = some (some p)

theorem Holds.mem_heldBy {p : Nat} {w : IstructId × Nat} (hw : Holds s f p w) : p ∈ heldBy f (s.istruct w.1) := by
  rw [heldBy, if_pos hw.pfInfo]
  exact List.reduceOption_mem_iff.mpr (List.mem_of_getElem? hw.slot)

theorem mem_held {p : Nat} : p ∈ s.held f ↔ ∃ w, Holds s f p w := by
  refine ⟨fun hp => ?_, fun ⟨w, hw⟩ => List.mem_flatMap.mpr ⟨w.1, hw.live, hw.mem_heldBy⟩⟩
  obtain ⟨is, hl, hp⟩ := List.mem_flatMap.mp hp
  rw [heldBy] at hp
  split at hp
  next hf =>
    obtain ⟨i, hi⟩ := List.mem_iff_getElem?.mp (List.reduceOption_mem_iff.mp hp)
    exact ⟨(is, i), hl, hf, hi⟩
  next => cases hp

theorem Inv.holds_inj {p : Nat} {v w : IstructId × Nat} (h : Inv s) (hv : Holds s f p v) (hw : Holds s f p w) : v = w := by
  have hn := (h.space f).mirror.nodup
  have hsplit := flatMap_split (fun j => heldBy f (s.istruct j)) hv.live
  obtain ⟨hown, -, hdisj⟩ := List.nodup_append.mp ((hsplit.nodup_iff).mp hn)
  have hsame : w.1 = v.1 := by
    by_contra hne
    have hm : p ∈ s.others v.1 f :=
      List.mem_flatMap.mpr ⟨w.1, h.live.mem_erase_iff.mpr ⟨hne, hw.live⟩, hw.mem_heldBy⟩
    exact hdisj p hv.mem_heldBy p hm rfl
  rw [heldBy, if_pos hv.pfInfo] at hown
  have hslot := hw.slot
  rw [hsame] at hslot
  exact Prod.ext hsame.symm (reduceOption_inj hown hv.slot hslot)

/-- The space of the paging files is neither shared nor lost. -/
theorem paging_space (h : Reachable pageSize s) :
    (∀ f, ∀ p < (s.pagerFile f).pfNpgs, (s.pagerFile f).pfBmap p = true ↔ ∃! w, Holds s f p w) ∧
    (∀ f p w, Holds s f p w → p < (s.pagerFile f).pfNpgs) ∧
    (∀ f, (s.pagerFile f).pfPfree =
      (s.pagerFile f).pfNpgs - (List.range (s.pagerFile f).pfNpgs).countP (s.pagerFile f).pfBmap) ∧
    (∀ f, ∃ q, pfAllocatePage (s.pagerFile f) = .ok q ∧
      (q.1 = none → ∀ p < (s.pagerFile f).pfNpgs, (s.pagerFile f).pfBmap p = true) ∧
      ∀ p, q.1 = some p → p < (s.pagerFile f).pfNpgs ∧ ∀ w, ¬Holds s f p w) ∧
    (∀ is ∈ s.live, ∀ fOffset flag kalloc, pfBmap pageSize s is fOffset flag kalloc = .error .outOfRange ↔
      Outside (s.istruct is) (fOffset / pageSize)) ∧
    (∀ a, ok pageSize s a → ∀ e, step pageSize s a = .error e → e = .disabled) ∧
    (s.live = [] → (∀ f, (s.pagerFile f).pfPfree = (s.pagerFile f).pfNpgs) ∧ s.kmem = []) := by
  have hi := reachable_inv h
  refine ⟨fun f p hp => ⟨fun hb => ?_, fun ⟨w, hw, _⟩ => ?_⟩, fun f p w hw => ?_, fun f => ?_, fun f => ?_,
    fun is hl fOffset flag kalloc => ⟨fun he => ?_, fun ho => pfBmap_outside (hi.wellFormed is hl) ho⟩,
    fun a ha e he => (step_gives hi ha).of_error he, fun hl => ⟨fun f => ?_, ?_⟩⟩
  · obtain ⟨w, hw⟩ := mem_held.mp (((hi.space f).mirror.mem_iff p).mpr ⟨hp, hb⟩)
    exact ⟨w, hw, fun v hv => hi.holds_inj hv hw⟩
  · exact (((hi.space f).mirror.mem_iff p).mp (mem_held.mpr ⟨w, hw⟩)).2
  · exact (((hi.space f).mirror.mem_iff p).mp (mem_held.mpr ⟨w, hw⟩)).1
  · rw [(hi.space f).countP_eq]
    exact (hi.space f).free
  · obtain ⟨q, hq, hres⟩ := (pfAllocatePage_gives (hi.space f)).exists_ok fun _ => id
    refine ⟨q, hq, fun hnone => ?_, fun p hp => ?_⟩
    · rcases hres with ⟨-, -, hz⟩ | ⟨p, hp, -⟩
      · intro p hp
        by_contra hclear
        have hfree := (hi.space f).free
        have hc := (hi.space f).countP_eq
        have hfull : (List.range (s.pagerFile f).pfNpgs).countP (s.pagerFile f).pfBmap =
            (List.range (s.pagerFile f).pfNpgs).length := by
          rw [List.length_range]
          omega
        exact hclear (List.countP_eq_length.mp hfull p (List.mem_range.mpr hp))
      · exact absurd (hnone.symm.trans hp) (by simp)
    · rcases hres with ⟨hnone, -⟩ | ⟨p', hp', hspace, -, hn, -⟩
      · exact absurd (hnone.symm.trans hp) (by simp)
      · cases Option.some.inj (hp.symm.trans hp')
        refine ⟨hn ▸ ((hspace.mirror.mem_iff p).mp List.mem_cons_self).1, fun w hw => ?_⟩
        exact (List.nodup_cons.mp hspace.mirror.nodup).1 (mem_held.mpr ⟨w, hw⟩)
  · by_contra ho
    exact Gives.of_error (pfBmap_gives hi hl ho) he
  · have hfree := (hi.space f).free
    rw [State.held, hl, List.flatMap_nil, List.length_nil] at hfree
    simpa using hfree
  · have hk := hi.kmem
    rw [hl, List.flatMap_nil] at hk
    exact hk.eq_nil

/-- One paging file of ten pages, of which the last byte of the map has bits that are never cleared. -/
def bootState : State where
  pagerFile _ := { pfNpgs := 10, pfPfree := 10, pfCount := 0, pfBmap := fun p => 10 ≤ p }
  istruct _ := { size := 0, pfInfo := 0, pmap := .direct [] }
  live := []
  kmem := []

theorem bootState_start : Start bootState := ⟨rfl, rfl, fun _ => rfl, fun _ => rfl, fun _ p hp => by
  have hp : p < 10 := hp
  simp [bootState, hp]⟩

/-- An object of two pages, of which one has been written. -/
def writtenState : State :=
  (runIf (fun s a => (step 4096 s a).toOption) (fun _ _ => True) bootState
    [.pfPagerCreate 1 0 8192 true, .pfBmap 1 4096 .write true]).getD bootState

theorem writtenState_reachable : Reachable 4096 writtenState := by
  have h1 : Reachable 4096 (pfPagerCreate 4096 bootState 1 0 8192 true) :=
    .next (.start bootState_start) (a := .pfPagerCreate 1 0 8192 true) trivial rfl
  refine h1.next (a := .pfBmap 1 4096 .write true) ?_ rfl
  rintro ⟨hpage, -⟩
  exact absurd hpage (by decide)

theorem writtenState_space : ∃! w, Holds writtenState 0 0 w := by
  obtain ⟨hbit, -⟩ := paging_space writtenState_reachable
  exact (hbit 0 0 (by decide)).mp (by decide)

/-- The page after the last one of a small object is looked up outside its page map. -/
theorem pfBmap_after_map : ¬∀ s, Reach Start (fun s a => (step 4096 s a).toOption) (fun _ _ => True) s →
    ∀ a e, step 4096 s a = .error e → e = .disabled := by
  intro hall
  have h1 : Reach Start (fun s a => (step 4096 s a).toOption) (fun _ _ => True)
      (pfPagerCreate 4096 bootState 1 0 4096 true) :=
    .next (.start bootState_start) (a := .pfPagerCreate 1 0 4096 true) trivial rfl
  exact absurd (hall _ h1 (.pfBmap 1 4096 .write true) .outOfRange rfl) (by decide)

end MachVM.Builtin.PagingFile
