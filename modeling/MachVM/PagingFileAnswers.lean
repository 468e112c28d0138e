import MachVM.PagingFile
import MachVM.PagingFileReach

namespace MachVM.Builtin.PagingFile

open Machine Blocks

variable {pageSize : Nat} {s r : State} {is j : IstructId} {page p : Nat} {q : Slot × PagerFile} {flag : Flag}
  {kalloc : Bool} {disk : Nat → UInt8} {data : PageData pageSize}

theorem inodeRead_inodeWrite {offset : Nat} : inodeRead (inodeWrite disk offset data) offset = data := by
  funext i
  have hlt : offset ≤ offset + i.val ∧ offset + i.val - offset < pageSize := ⟨by omega, by omega⟩
  rw [inodeRead, inodeWrite, dif_pos hlt]
  exact congrArg data (Fin.ext (by dsimp only; omega))

theorem inodeRead_inodeWrite_of_ne {p' : Nat} (hp : p' ≠ p) :
    inodeRead (inodeWrite disk (p * pageSize) data) (p' * pageSize) = (inodeRead disk (p' * pageSize) : PageData pageSize) := by
  funext i
  rw [inodeRead, inodeWrite, dif_neg, inodeRead]
  rintro ⟨hle, hlt⟩
  have hi := i.isLt
  rcases Nat.lt_or_gt_of_ne hp with hlt' | hlt'
  · have hmul : (p' + 1) * pageSize ≤ p * pageSize := Nat.mul_le_mul_right _ hlt'
    rw [Nat.add_mul, Nat.one_mul] at hmul
    omega
  · have hmul : (p + 1) * pageSize ≤ p' * pageSize := Nat.mul_le_mul_right _ hlt'
    rw [Nat.add_mul, Nat.one_mul] at hmul
    omega

theorem Bmapped.slots_eq (h : Bmapped s r is page q) : (r.istruct j).size = (s.istruct j).size ∧
    (r.istruct j).pfInfo = (s.istruct j).pfInfo ∧
    (r.istruct j).pmap.slots = if j = is then (s.istruct j).pmap.slots.set page q.1 else (s.istruct j).pmap.slots := by
  obtain ⟨pmap, hi, hslots, -⟩ := h.istruct
  rw [hi]
  by_cases hj : j = is
  · subst hj
    rw [Function.update_self, if_pos rfl]
    exact ⟨rfl, rfl, hslots⟩
  · rw [Function.update_of_ne hj, if_neg hj]
    exact ⟨rfl, rfl, rfl⟩

/-- There is room for a page: it has its block, or there is a block for it and an array for its entry. -/
def Fits (x : Istruct) (pf : PagerFile) (page : Nat) (kalloc : Bool) : Prop :=
  page ≤ x.size ∧ ∃ slot, x.pmap.slots[page]? = some slot ∧
    (slot = none → pf.pfPfree ≠ 0 ∧ (x.pmap.hasLeaf page = true ∨ kalloc = true))

theorem page_offset (pageSize : Nat) [NeZero pageSize] : page * pageSize / pageSize = page ∧ page * pageSize % pageSize = 0 :=
  ⟨Nat.mul_div_cancel _ (Nat.pos_of_ne_zero (NeZero.ne pageSize)), Nat.mul_mod_left ..⟩

theorem pfBmap_write (pageSize : Nat) [NeZero pageSize] (h : Inv s) (hl : is ∈ s.live)
    (hfit : Fits (s.istruct is) (s.pagerFile (s.istruct is).pfInfo) page kalloc) :
    ∃ p r q, pfBmap pageSize s is (page * pageSize) .write kalloc = .ok (some (p * pageSize), r) ∧ Inv r ∧
      Bmapped s r is page q ∧ q.1 = some p := by
  obtain ⟨hle, slot, hslot, hroom⟩ := hfit
  have hin : page ≤ (s.istruct is).size → page < (s.istruct is).pmap.slots.length :=
    fun _ => (List.getElem?_eq_some_iff.mp hslot).1
  rcases pfBmap_cases .write kalloc (h.wellFormed is hl) (page_offset pageSize).1 hin with
    ⟨hno, -⟩ | ⟨-, -, slot', hslot', R, hR, he⟩
  · exfalso
    rcases hno with hlt | ⟨-, hnone, hleaf, hk⟩
    · omega
    · cases Option.some.inj (hslot.symm.trans hnone)
      rcases (hroom rfl).2 with hl | hk'
      · exact absurd (hleaf.symm.trans hl) (by simp)
      · rcases hk with hk | hk
        · cases hk
        · exact absurd (hk.symm.trans hk') (by simp)
  · cases Option.some.inj (hslot.symm.trans hslot')
    obtain ⟨q, hq, hn, hc, hres⟩ := (pageSlot_gives slot .write (h.space _)).exists_ok fun _ => id
    rw [hq] at he
    have hoff : ∀ p, page * pageSize % pageSize + p * pageSize = p * pageSize := by
      intro p
      rw [(page_offset pageSize).2, Nat.zero_add]
    simp only [Except.map, hoff] at he
    rcases hres with ⟨hsame, hfull⟩ | ⟨p, hnone, -, -, hp, hspace⟩
    · cases slot with
      | none =>
        rcases hfull rfl with hf | hz
        · cases hf
        · exact absurd hz (hroom rfl).1
      | some p =>
        have hq1 : q.1 = some p := by rw [hsame]
        rw [hq1] at he
        exact ⟨p, R q, q, he, h.bmapped hl (hR q) hslot hn hc (.inl hsame), hR q, hq1⟩
    · rw [hp] at he
      exact ⟨p, R q, q, he, h.bmapped hl (hR q) hslot hn hc (.inr ⟨p, hnone, hp, hspace⟩), hR q, hp⟩

theorem pfBmap_read (pageSize : Nat) [NeZero pageSize] (h : Inv s) (hl : is ∈ s.live) (ho : ¬Outside (s.istruct is) page) :
    ∃ slot r, pfBmap pageSize s is (page * pageSize) .read false = .ok (slot.map fun p => p * pageSize, r) ∧ Inv r ∧
      r.live = s.live ∧ (∀ j, (r.istruct j).size = (s.istruct j).size ∧ (r.istruct j).pfInfo = (s.istruct j).pfInfo ∧
        (r.istruct j).pmap.slots = (s.istruct j).pmap.slots) ∧
      ((s.istruct is).size < page ∧ slot = none ∨ page ≤ (s.istruct is).size ∧
        (s.istruct is).pmap.slots[page]? = some slot) := by
  have hw := h.wellFormed is hl
  have hin : page ≤ (s.istruct is).size → page < (s.istruct is).pmap.slots.length := by
    intro hle
    by_contra hge
    exact ho (hw.outside_iff.mp ⟨hle, Nat.le_of_not_lt hge⟩)
  rcases pfBmap_cases .read false hw (page_offset pageSize).1 hin with
    ⟨hno, he⟩ | ⟨hle, -, slot, hslot, R, hR, he⟩
  · refine ⟨none, s, he, h, rfl, fun j => ⟨rfl, rfl, rfl⟩, ?_⟩
    rcases hno with hlt | ⟨hle, hnone, -⟩
    · exact .inl ⟨hlt, rfl⟩
    · exact .inr ⟨hle, hnone⟩
  · obtain ⟨q, hq, hn, hc, hres⟩ := (pageSlot_gives slot .read (h.space _)).exists_ok fun _ => id
    rcases hres with ⟨hsame, -⟩ | ⟨p, -, hf, -⟩
    · have hq1 : q.1 = slot := by rw [hsame]
      refine ⟨slot, R q, ?_, h.bmapped hl (hR q) hslot hn hc (.inl hsame), (hR q).live, fun j => ?_, .inr ⟨hle, hslot⟩⟩
      · rw [he, hq]
        simp only [Except.map, (page_offset pageSize).2, Nat.zero_add, hq1]
      · obtain ⟨h1, h2, h3⟩ := (hR q).slots_eq (j := j)
        refine ⟨h1, h2, h3.trans ?_⟩
        split
        next hj =>
          subst hj
          rw [hq1, set_of_getElem? hslot]
        next => rfl
    · cases hf

/-- The last write of a page is in the block of the page. -/
def Stored (s : Pager pageSize) (is : IstructId) (page : Nat) (data : PageData pageSize) : Prop :=
  page ≤ (s.space.istruct is).size ∧ ∃ p, (s.space.istruct is).pmap.slots[page]? = some (some p) ∧
    inodeRead (s.disk (s.space.istruct is).pfInfo) (p * pageSize) = data

/-- The right reply to a request for a page with a last write. -/
def rightReply (last : Option (PageData pageSize)) : Reply pageSize := last.elim .dataUnavailable .dataProvided

structure PagerInv (s : Pager pageSize) : Prop where
  space : Inv s.space
  made : ∀ is ∈ s.space.live, is ∈ s.made
  fresh : ∀ is, is ∉ s.made → ∀ page, s.written is page = none
  errors : ∀ is ∈ s.space.live, s.errors is = 0
  stored : ∀ is ∈ s.space.live, ∀ page data, s.written is page = some data → Stored s is page data
  unwritten : ∀ is ∈ s.space.live, ∀ page, s.written is page = none → ∀ p,
    (s.space.istruct is).pmap.slots[page]? ≠ some (some p)
  answers : ∀ a ∈ s.answers, a.reply = rightReply a.last

variable [NeZero pageSize] {u v : Pager pageSize}

theorem isPageWrite_inv (h : PagerInv u) (hl : is ∈ u.space.live)
    (hfit : Fits (u.space.istruct is) (u.space.pagerFile (u.space.istruct is).pfInfo) page kalloc) :
    Gives (isPageWrite { u with
        written := Function.update u.written is (Function.update (u.written is) page (some data)) }
      is (page * pageSize) data kalloc) (fun _ => False) PagerInv := by
  obtain ⟨p, r, q, he, hr, hmap, hq⟩ := pfBmap_write pageSize h.space hl hfit
  obtain ⟨hle, slot, hslot, -⟩ := hfit
  have hlt : page < (u.space.istruct is).pmap.slots.length := (List.getElem?_eq_some_iff.mp hslot).1
  unfold isPageWrite
  dsimp only
  rw [he]
  have hlive : r.live = u.space.live := hmap.live
  have hat : ∀ j page', (r.istruct j).pmap.slots[page']? =
      if j = is ∧ page' = page then some (some p) else (u.space.istruct j).pmap.slots[page']? := by
    intro j page'
    rw [(hmap.slots_eq (j := j)).2.2, hq]
    by_cases hj : j = is
    · subst hj
      rw [if_pos rfl]
      by_cases hpage : page' = page
      · subst hpage
        rw [List.getElem?_set_self hlt, if_pos ⟨rfl, rfl⟩]
      · rw [List.getElem?_set_ne (Ne.symm hpage), if_neg (fun hn => hpage hn.2)]
    · rw [if_neg hj, if_neg (fun hn => hj hn.1)]
  have hholds : Holds r (r.istruct is).pfInfo p (is, page) := ⟨hlive ▸ hl, rfl, by rw [hat, if_pos ⟨rfl, rfl⟩]⟩
  refine ⟨hr, fun j hj => h.made j (hlive ▸ hj), fun j hj page' => ?_, fun j hj => h.errors j (hlive ▸ hj),
    fun j hj page' data' hw => ?_, fun j hj page' hw p' => ?_, h.answers⟩
  · have hne : j ≠ is := by
      rintro rfl
      exact hj (h.made j hl)
    dsimp only [Option.map_some]
    rw [Function.update_of_ne hne]
    exact h.fresh j hj page'
  · have hj : j ∈ r.live := hj
    obtain ⟨hsize, hinfo, -⟩ := hmap.slots_eq (j := j)
    dsimp only [Option.map_some] at hw
    by_cases hjp : j = is ∧ page' = page
    · obtain ⟨rfl, rfl⟩ := hjp
      rw [Function.update_self, Function.update_self] at hw
      cases Option.some.inj hw
      refine ⟨hsize ▸ hle, p, hholds.slot, ?_⟩
      dsimp only [Option.map_some]
      rw [Function.update_self]
      exact inodeRead_inodeWrite
    · have hold : u.written j page' = some data' := by
        by_cases hji : j = is
        · subst hji
          rwa [Function.update_self, Function.update_of_ne fun hpage => hjp ⟨rfl, hpage⟩] at hw
        · rwa [Function.update_of_ne hji] at hw
      obtain ⟨hle', p', hslot', hread⟩ := h.stored j (hlive ▸ hj) page' data' hold
      have hslot'' : (r.istruct j).pmap.slots[page']? = some (some p') := by rw [hat, if_neg hjp]; exact hslot'
      refine ⟨hsize ▸ hle', p', hslot'', ?_⟩
      dsimp only [Option.map_some]
      rw [hinfo]
      by_cases hf : (u.space.istruct j).pfInfo = (r.istruct is).pfInfo
      · have hne : p' ≠ p := by
          rintro rfl
          have heq := hr.holds_inj (v := (j, page')) ⟨hj, hinfo.trans hf, hslot''⟩ hholds
          exact hjp ⟨congrArg Prod.fst heq, congrArg Prod.snd heq⟩
        rw [hf, Function.update_self, inodeRead_inodeWrite_of_ne hne, ← hf]
        exact hread
      · rw [Function.update_of_ne hf]
        exact hread
  · have hj : j ∈ r.live := hj
    dsimp only [Option.map_some] at hw
    have hjp : ¬(j = is ∧ page' = page) := by
      rintro ⟨rfl, rfl⟩
      rw [Function.update_self, Function.update_self] at hw
      cases hw
    have hold : u.written j page' = none := by
      by_cases hji : j = is
      · subst hji
        rwa [Function.update_self, Function.update_of_ne fun hpage => hjp ⟨rfl, hpage⟩] at hw
      · rwa [Function.update_of_ne hji] at hw
    dsimp only [Option.map_some]
    rw [hat, if_neg hjp]
    exact h.unwritten j (hlive ▸ hj) page' hold p'

theorem inodePagerTimeout_reply {rest : List (IstructId × Nat)} (h : PagerInv u)
    (hqueue : u.dataRequestQueue = (is, page) :: rest) (hl : is ∈ u.space.live)
    (ho : ¬Outside (u.space.istruct is) page) :
    ∃ r, inodePagerTimeout u = .ok { u with
        space := r
        dataRequestQueue := rest
        answers := u.answers ++ [⟨is, page, u.written is page, rightReply (u.written is page)⟩] } ∧
      Inv r ∧ r.live = u.space.live ∧ ∀ j, (r.istruct j).size = (u.space.istruct j).size ∧
        (r.istruct j).pfInfo = (u.space.istruct j).pfInfo ∧
        (r.istruct j).pmap.slots = (u.space.istruct j).pmap.slots := by
  obtain ⟨slot, r, he, hr, hlive, hsame, hres⟩ := pfBmap_read pageSize h.space hl ho
  have hright : (slot.map fun p => (inodeRead (u.disk (u.space.istruct is).pfInfo) (p * pageSize) : PageData pageSize)) =
      u.written is page := by
    cases hw : u.written is page with
    | none =>
      cases slot with
      | none => rfl
      | some p =>
        rcases hres with ⟨-, hn⟩ | ⟨-, hs⟩
        · cases hn
        · exact absurd hs (h.unwritten is hl page hw p)
    | some data =>
      obtain ⟨hle, p, hp, hread⟩ := h.stored is hl page data hw
      rcases hres with ⟨hlt, -⟩ | ⟨-, hs⟩
      · omega
      · cases Option.some.inj (hs.symm.trans hp)
        rw [Option.map_some, hread]
  refine ⟨r, ?_, hr, hlive, hsame⟩
  unfold inodePagerTimeout isPageRead
  rw [hqueue]
  dsimp only
  rw [if_neg (not_not.mpr hl), if_neg (not_not.mpr (h.errors is hl)), he]
  cases slot with
  | none =>
    have hw : u.written is page = none := hright.symm
    simp only [Except.map, Option.map_none, hw]
    rfl
  | some p =>
    have hw : u.written is page = some (inodeRead (u.disk (u.space.istruct is).pfInfo) (p * pageSize)) := hright.symm
    simp only [Except.map, Option.map_some, hw]
    rfl

theorem inodePagerTimeout_inv (h : PagerInv u)
    (ho : ∀ is page rest, u.dataRequestQueue = (is, page) :: rest → is ∈ u.space.live →
      ¬Outside (u.space.istruct is) page) : Gives (inodePagerTimeout u) (fun _ => False) PagerInv := by
  cases hqueue : u.dataRequestQueue with
  | nil =>
    rw [inodePagerTimeout, hqueue]
    exact h
  | cons q rest =>
    obtain ⟨is, page⟩ := q
    by_cases hl : is ∈ u.space.live
    · obtain ⟨r, he, hr, hlive, hsame⟩ := inodePagerTimeout_reply h hqueue hl (ho is page rest hqueue hl)
      rw [he]
      refine ⟨hr, fun j hj => h.made j (hlive ▸ hj), h.fresh, fun j hj => h.errors j (hlive ▸ hj),
        fun j hj page' data hw => ?_, fun j hj page' hw p => ?_, fun a ha => ?_⟩
      · obtain ⟨h1, h2, h3⟩ := hsame j
        obtain ⟨hle, p, hp, hread⟩ := h.stored j (hlive ▸ hj) page' data hw
        exact ⟨h1 ▸ hle, p, h3 ▸ hp, h2 ▸ hread⟩
      · dsimp only
        rw [(hsame j).2.2]
        exact h.unwritten j (hlive ▸ hj) page' hw p
      · rcases List.mem_append.mp ha with ha | ha
        · exact h.answers a ha
        · cases List.mem_singleton.mp ha
          rfl
    · unfold inodePagerTimeout
      rw [hqueue]
      dsimp only
      rw [if_pos hl]
      exact ⟨h.space, h.made, h.fresh, h.errors, h.stored, h.unwritten, h.answers⟩

/-- There are paging files and no objects. -/
structure PagerStart (s : Pager pageSize) : Prop where
  space : Start s.space
  made : s.made = []
  written : ∀ is page, s.written is page = none
  answers : s.answers = []

/-- A page that is written has room, and the page after the last entry of a page map is not asked for. -/
def dataOk (s : Pager pageSize) : DataAction pageSize → Prop
  | .dataWrite is page _ kalloc =>
    Fits (s.space.istruct is) (s.space.pagerFile (s.space.istruct is).pfInfo) page kalloc
  | .timeout => ∀ is page rest, s.dataRequestQueue = (is, page) :: rest → is ∈ s.space.live →
    ¬Outside (s.space.istruct is) page
  | _ => True

omit [NeZero pageSize] in
theorem PagerStart.inv (h : PagerStart u) : PagerInv u :=
  ⟨h.space.inv, by simp [h.space.live], fun is _ page => h.written is page, by simp [h.space.live],
    by simp [h.space.live], by simp [h.space.live], by simp [h.answers]⟩

omit [NeZero pageSize] in
/-- A new object has no blocks. -/
theorem pfPagerCreate_live (pageSize : Nat) (s : State) (is : IstructId) (f : PfId) (size : Nat) (kalloc : Bool) : pfPagerCreate pageSize s is f size kalloc = s ∨
    (pfPagerCreate pageSize s is f size kalloc).live = is :: s.live ∧
      (∀ j, j ≠ is → (pfPagerCreate pageSize s is f size kalloc).istruct j = s.istruct j) ∧
      ∀ page p : Nat, ((pfPagerCreate pageSize s is f size kalloc).istruct is).pmap.slots[page]? ≠ some (some p) := by
  cases kalloc with
  | false => exact .inl rfl
  | true =>
    refine .inr ⟨rfl, fun j hj => Function.update_of_ne hj .., fun page p hs => ?_⟩
    have hmap : ((pfPagerCreate pageSize s is f size true).istruct is).pmap =
        if indirectPagemap (size / pageSize) then
          .indirect (List.replicate (indirectPagemapEntries (size / pageSize)) none)
        else .direct (List.replicate (size / pageSize) none) := by simp [pfPagerCreate]
    have hm := List.reduceOption_mem_iff.mpr (List.mem_of_getElem? hs)
    rw [(newMap_spec (f := f) hmap).1] at hm
    cases hm

theorem pfDealloc_live (hr : pfDealloc s is = .ok r) : r.live = s.live.erase is ∧ r.istruct = s.istruct := by
  unfold pfDealloc at hr
  dsimp only at hr
  cases hd : deallocatePmap (s.istruct is).size (s.pagerFile (s.istruct is).pfInfo, s.kmem) (s.istruct is).pmap with
  | ok q =>
    rw [hd] at hr
    cases Except.ok.inj hr
    exact ⟨rfl, rfl⟩
  | error e =>
    rw [hd] at hr
    cases hr

theorem dataStep_gives {a : DataAction pageSize} (h : PagerInv u) (ha : dataOk u a) :
    Gives (dataStep u a) (fun e => e = .disabled) PagerInv := by
  cases a with
  | pfAlloc is f size kalloc =>
    rw [dataStep]
    split
    next => rfl
    next hn =>
      have hl : is ∉ u.space.live := fun hl => hn (h.made is hl)
      have hspace : Inv (pfPagerCreate pageSize u.space is f size kalloc) := pfPagerCreate_inv h.space hl
      rcases pfPagerCreate_live pageSize u.space is f size kalloc with hsame | ⟨hlive, hold, hempty⟩
      · rw [hsame]
        refine ⟨h.space, fun j hj => List.mem_cons_of_mem _ (h.made j hj), fun j hj => h.fresh j fun hm => hj
          (List.mem_cons_of_mem _ hm), fun j hj => ?_, h.stored, h.unwritten, h.answers⟩
        have hne : j ≠ is := by
          rintro rfl
          exact hl hj
        exact (Function.update_of_ne hne ..).trans (h.errors j hj)
      · set r := pfPagerCreate pageSize u.space is f size kalloc
        have hmem : ∀ j ∈ r.live, j = is ∨ j ≠ is ∧ j ∈ u.space.live := by
          intro j hj
          rw [hlive] at hj
          rcases List.mem_cons.mp hj with rfl | hin
          · exact .inl rfl
          · refine .inr ⟨?_, hin⟩
            rintro rfl
            exact hl hin
        refine ⟨hspace, fun j hj => ?_, fun j hj => h.fresh j fun hm => hj (List.mem_cons_of_mem _ hm), fun j hj => ?_,
          fun j hj page data hw => ?_, fun j hj page hw p => ?_, h.answers⟩
        · rcases hmem j hj with rfl | ⟨-, hj⟩
          · exact List.mem_cons_self
          · exact List.mem_cons_of_mem _ (h.made j hj)
        · rcases hmem j hj with rfl | ⟨hne, hj⟩
          · exact Function.update_self ..
          · exact (Function.update_of_ne hne ..).trans (h.errors j hj)
        · rcases hmem j hj with rfl | ⟨hne, hj⟩
          · exact absurd ((h.fresh j hn page).symm.trans hw) (by simp)
          · obtain ⟨hle, p, hp, hread⟩ := h.stored j hj page data hw
            exact ⟨hold j hne ▸ hle, p, hold j hne ▸ hp, hold j hne ▸ hread⟩
        · rcases hmem j hj with rfl | ⟨hne, hj⟩
          · exact hempty page p
          · dsimp only
            rw [hold j hne]
            exact h.unwritten j hj page hw p
  | dataWrite is page data kalloc =>
    rw [dataStep]
    split
    next hl => exact (isPageWrite_inv h hl ha).weaken fun _ => False.elim
    next => rfl
  | dataRequest is page => exact ⟨h.space, h.made, h.fresh, h.errors, h.stored, h.unwritten, h.answers⟩
  | timeout => exact (inodePagerTimeout_inv h ha).weaken fun _ => False.elim
  | terminate is =>
    rw [dataStep]
    split
    next hl =>
      obtain ⟨r, hr, hspace⟩ := (pfDealloc_gives h.space hl).exists_ok fun _ => id
      obtain ⟨hlive, hi⟩ := pfDealloc_live hr
      have hmem : ∀ j ∈ r.live, j ∈ u.space.live := fun j hj => List.mem_of_mem_erase (hlive ▸ hj)
      rw [hr]
      refine ⟨hspace, fun j hj => h.made j (hmem j hj), h.fresh, fun j hj => h.errors j (hmem j hj),
        fun j hj page data hw => ?_, fun j hj page hw p => ?_, h.answers⟩
      · obtain ⟨hle, p, hp, hread⟩ := h.stored j (hmem j hj) page data hw
        exact ⟨hi ▸ hle, p, hi ▸ hp, hi ▸ hread⟩
      · dsimp only
        rw [hi]
        exact h.unwritten j (hmem j hj) page hw p
    next => rfl

abbrev PagerReachable (pageSize : Nat) : Pager pageSize → Prop :=
  Reach PagerStart (fun s a => (dataStep s a).toOption) dataOk

/-- When every page that is written has room, the default pager gives back what it has been given, and says that there
is nothing only for a page that it has not been given. -/
theorem pager_returns_written (h : PagerReachable pageSize u) :
    (∀ a ∈ u.answers, a.reply = rightReply a.last) ∧
    (∀ is page rest, u.dataRequestQueue = (is, page) :: rest → is ∈ u.space.live →
      dataOk u .timeout → ∃ v, dataStep u .timeout = .ok v ∧ v.dataRequestQueue = rest ∧
        v.answers = u.answers ++ [⟨is, page, u.written is page, rightReply (u.written is page)⟩]) ∧
    (∀ a, dataOk u a → ∀ e, dataStep u a = .error e → e = .disabled) := by
  have hi : PagerInv u :=
    h.invariant (fun _ hs => hs.inv) fun _ _ _ hi ha hr => (dataStep_gives hi ha).of_ok (toOption_eq_some hr)
  refine ⟨hi.answers, fun is page rest hqueue hl ho => ?_, fun a ha e he => (dataStep_gives hi ha).of_error he⟩
  obtain ⟨r, he, -⟩ := inodePagerTimeout_reply hi hqueue hl (ho is page rest hqueue hl)
  exact ⟨_, he, rfl, rfl⟩

/-- One paging file of a single page. -/
def bootPager : Pager 4096 where
  space := {
    pagerFile _ := { pfNpgs := 1, pfPfree := 1, pfCount := 0, pfBmap := fun p => 1 ≤ p }
    istruct _ := { size := 0, pfInfo := 0, pmap := .direct [] }
    live := []
    kmem := [] }
  disk _ _ := 0
  errors _ := 0
  dataRequestQueue := []
  made := []
  written _ _ := none
  answers := []

theorem bootPager_start : PagerStart bootPager := by
  refine ⟨⟨rfl, rfl, fun _ => rfl, fun _ => rfl, fun _ p hp => ?_⟩, rfl, fun _ _ => rfl, rfl⟩
  have hp : p < 1 := hp
  simp [bootPager, hp]

/-- An object of two pages, of which the first is written and asked for. -/
def askedPager : Pager 4096 :=
  (runIf (fun s a => (dataStep s a).toOption) (fun _ _ => True) bootPager
    [.pfAlloc 1 0 8192 true, .dataWrite 1 0 (fun _ => 7) true, .dataRequest 1 0]).getD bootPager

theorem askedPager_reachable : PagerReachable 4096 askedPager := by
  have h0 : PagerReachable 4096 bootPager := .start bootPager_start
  have h1 : PagerReachable 4096 _ := h0.next (a := .pfAlloc 1 0 8192 true) trivial rfl
  have h2 : PagerReachable 4096 _ := h1.next (a := .dataWrite 1 0 (fun _ => 7) true)
    ⟨by decide, none, rfl, fun _ => ⟨by decide, .inl rfl⟩⟩ rfl
  exact h2.next (a := .dataRequest 1 0) trivial rfl

theorem askedPager_answered : ∃ v, dataStep askedPager .timeout = .ok v ∧
    v.answers = [⟨1, 0, some fun _ => 7, .dataProvided fun _ => 7⟩] := by
  obtain ⟨-, hanswer, -⟩ := pager_returns_written askedPager_reachable
  have hok : dataOk askedPager .timeout := by
    intro is page rest hqueue _ ho
    have hpage : page = 0 := by
      have hhead := (List.cons.inj (show [((1 : Nat), (0 : Nat))] = (is, page) :: rest from hqueue)).1
      exact (Prod.ext_iff.mp hhead).2.symm
    have his : is = 1 := by
      have hhead := (List.cons.inj (show [((1 : Nat), (0 : Nat))] = (is, page) :: rest from hqueue)).1
      exact (Prod.ext_iff.mp hhead).1.symm
    subst hpage his
    exact absurd ho.1 (by decide)
  obtain ⟨v, hv, -, ha⟩ := hanswer 1 0 [] rfl (by decide) hok
  exact ⟨v, hv, ha⟩

/-- The second page finds the paging file full, and is then said to have never been written. -/
theorem full_file_forgotten : ¬∀ s : Pager 4096,
    Reach PagerStart (fun s a => (dataStep s a).toOption) (fun _ _ => True) s →
    ∀ a ∈ s.answers, ∀ data, a.last = some data → a.reply = .dataProvided data ∨ a.reply = .dataError := by
  intro hall
  have h0 : Reach PagerStart (fun s a => (dataStep s a).toOption) (fun _ _ => True) bootPager := .start bootPager_start
  have h1 := h0.next (a := .pfAlloc 1 0 8192 true) trivial rfl
  have h2 := h1.next (a := .dataWrite 1 0 (fun _ => 7) true) trivial rfl
  have h3 := h2.next (a := .dataWrite 1 1 (fun _ => 7) true) trivial rfl
  have h4 := h3.next (a := .dataRequest 1 1) trivial rfl
  have h5 := h4.next (a := .timeout) trivial rfl
  rcases hall _ h5 ⟨1, 1, some fun _ => 7, .dataUnavailable⟩ (List.mem_singleton.mpr rfl) _ rfl with he | he <;> cases he

end MachVM.Builtin.PagingFile
