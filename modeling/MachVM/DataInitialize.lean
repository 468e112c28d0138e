import MachVM.InodeWrite
import MachVM.PagingFileAnswers

namespace MachVM.Builtin.DataInitialize

open Machine PagingFile
open InodeWrite (Fs lblkno)

/-- What BMAP for reading finds for a block of a file. -/
inductive Block
  | mapped
  | hole
  | error
  deriving DecidableEq, Repr

/-- `struct inode`, less what is in the file. -/
structure Inode where
  fs : Fs
  iSize : Nat
  bmap : Nat → Block

abbrev InodeId := PfId

/-- The object of a pager: in a paging file, or in an inode with a `paging_shift`. -/
inductive Object
  | swapfile (is : IstructId)
  | inode (ip : InodeId) (pagingShift : Nat)

/-- The paging files and the inodes, those of the paging files among them. `deallocated` are the pages of the message
memory that `vm_deallocate` has been called for. -/
structure Store where
  space : PagingFile.State
  inode : InodeId → Inode
  disk : InodeId → Nat → UInt8
  deallocated : List Nat

/-- `inode_has_page` without MACH_VFS. -/
def inodeHasPage (ip : Inode) (offset : Nat) : Bool :=
  if ip.iSize ≤ offset then false
  else
    match ip.bmap (lblkno ip.fs offset) with
    | .error => true
    | .hole => false
    | .mapped => true

/-- The blocks and the size of a file after a write. -/
def Inode.grow (ip : Inode) (offset length : Nat) : Inode :=
  { ip with
    iSize := max ip.iSize (offset + length)
    bmap := fun lbn =>
      if lblkno ip.fs offset ≤ lbn ∧ lbn ≤ lblkno ip.fs (offset + length - 1) then .mapped else ip.bmap lbn }

section Functions

variable {pageSize : Nat}

/-- `inode_write` of a page. -/
def inodeWritePage (s : Store) (ip : InodeId) (offset : Nat) (data : PageData pageSize) : Store :=
  { s with
    inode := Function.update s.inode ip ((s.inode ip).grow offset pageSize)
    disk := Function.update s.disk ip (inodeWrite (s.disk ip) offset data) }

/-- `is_page_write` without MACH_VFS. -/
def isPageWrite (s : Store) (o : Object) (offset : Nat) (data : PageData pageSize) (kalloc : Bool) :
    Except Fault Store :=
  match o with
  | .swapfile is =>
    (pfBmap pageSize s.space is offset .write kalloc).map fun r =>
      let s := { s with space := r.2 }
      match r.1 with
      | none => s
      | some actual => inodeWritePage s (s.space.istruct is).pfInfo actual data
  | .inode ip pagingShift => .ok (inodeWritePage s ip (offset * 2 ^ pagingShift) data)

/-- `memory_object_data_write` of the page `i` of the message memory. -/
def memoryObjectDataWrite (s : Store) (o : Object) (offset : Nat) (data : PageData pageSize) (kalloc : Bool) (i : Nat) :
    Except Fault Store :=
  (isPageWrite s o offset data kalloc).map fun s => { s with deallocated := i :: s.deallocated }

/-- `is_page_initialize` without MACH_VFS. -/
def isPageInitialize (s : Store) (o : Object) (offset : Nat) (data : PageData pageSize) (kalloc : Bool) (i : Nat) :
    Except Fault Store :=
  match o with
  | .swapfile is =>
    pfBmap pageSize s.space is offset .read false >>= fun r =>
      let s := { s with space := r.2 }
      match r.1 with
      | none => .ok s
      | some actual =>
        if inodeHasPage (s.inode (s.space.istruct is).pfInfo) actual then
          memoryObjectDataWrite s o actual data kalloc i
        else .ok s
  | .inode ip pagingShift =>
    if inodeHasPage (s.inode ip) (offset * 2 ^ pagingShift) then memoryObjectDataWrite s o offset data kalloc i
    else .ok s

/-- `memory_object_data_initialize` of `n` pages from the page `first` on. -/
def memoryObjectDataInitialize (s : Store) (o : Object) (first n : Nat) (data : Nat → PageData pageSize)
    (kalloc : Nat → Bool) : Except Fault Store :=
  sweep (fun s i => isPageInitialize s o ((first + i) * pageSize) (data i) (kalloc i) i)
    { s with deallocated := [] } 0 n

end Functions

section Contents

variable {pageSize : Nat}

/-- The place of a page of an object in its paging file. -/
def place (x : Istruct) (page : Nat) : Option Nat := if page ≤ x.size then (x.pmap.slots[page]?).join else none

/-- The page is stored, with these bytes. -/
def Holds (s : Store) (o : Object) (page : Nat) (data : PageData pageSize) : Prop :=
  match o with
  | .swapfile is => ∃ f, place (s.space.istruct is) page = some f ∧
      inodeRead (s.disk (s.space.istruct is).pfInfo) (f * pageSize) = data
  | .inode ip pagingShift => inodeHasPage (s.inode ip) (page * pageSize * 2 ^ pagingShift) = true ∧
      inodeRead (s.disk ip) (page * pageSize * 2 ^ pagingShift) = data

/-- The pages that were not stored are stored with the supplied bytes, all others are as before, and all of the
message memory is deallocated once. -/
structure Right (s r : Store) (o : Object) (first n : Nat) (data : Nat → PageData pageSize) : Prop where
  new : ∀ i < n, (∀ d : PageData pageSize, ¬Holds s o (first + i) d) → Holds r o (first + i) (data i)
  old : ∀ i < n, ∀ d : PageData pageSize, Holds s o (first + i) d → Holds r o (first + i) d
  others : ∀ o' page, (o' = o → page < first ∨ first + n ≤ page) →
    ∀ d : PageData pageSize, Holds r o' page d ↔ Holds s o' page d
  deallocated : ∀ i, r.deallocated.count i = if i < n then 1 else 0

/-- Nothing can be stored at a page of an object: it is after the end, or it has no place and there is none left. -/
def NoRoom (s : PagingFile.State) (is : IstructId) (page : Nat) : Prop :=
  (s.istruct is).size < page ∨
    (s.istruct is).pmap.slots[page]? = some none ∧ (s.pagerFile (s.istruct is).pfInfo).pfPfree = 0

/-- A page that is stored, in a block, and whose place, taken for a page of the object, is one at which nothing can
be stored. -/
def Idle (pageSize : Nat) (s : Store) (is : IstructId) (page : Nat) : Prop :=
  ∃ f, place (s.space.istruct is) page = some f ∧
    inodeHasPage (s.inode (s.space.istruct is).pfInfo) (f * pageSize) = true ∧ NoRoom s.space is f

end Contents

variable {pageSize : Nat} {s r v : Store} {q : PagingFile.State} {is j : IstructId} {page f i n first : Nat}
  {flag : Flag} {kalloc : Bool} {data d : PageData pageSize} {o : Object}

/-- The same pages at the same places. -/
structure SameSpace (s q : PagingFile.State) : Prop where
  inv : Inv q
  live : q.live = s.live
  size : ∀ j, (q.istruct j).size = (s.istruct j).size
  pfInfo : ∀ j, (q.istruct j).pfInfo = (s.istruct j).pfInfo
  slots : ∀ j, (q.istruct j).pmap.slots = (s.istruct j).pmap.slots
  pagerFile : q.pagerFile = s.pagerFile

/-- A page has got a place. -/
structure Assigned (s q : PagingFile.State) (is : IstructId) (page f : Nat) : Prop where
  inv : Inv q
  live : q.live = s.live
  size : ∀ j, (q.istruct j).size = (s.istruct j).size
  pfInfo : ∀ j, (q.istruct j).pfInfo = (s.istruct j).pfInfo
  slots : ∀ j, (q.istruct j).pmap.slots =
    if j = is then (s.istruct j).pmap.slots.set page (some f) else (s.istruct j).pmap.slots
  inside : page ≤ (s.istruct is).size ∧ page < (s.istruct is).pmap.slots.length

theorem place_of_slot {x : Istruct} {slot : Slot} (hle : page ≤ x.size) (hs : x.pmap.slots[page]? = some slot) :
    place x page = slot := by
  rw [place, if_pos hle, hs]
  rfl

theorem pfBmap_spec (pageSize : Nat) [NeZero pageSize] (flag : Flag) (kalloc : Bool) (h : Inv s.space)
    (hl : is ∈ s.space.live) (ho : ¬Outside (s.space.istruct is) page) :
    ∃ at' q, pfBmap pageSize s.space is (page * pageSize) flag kalloc = .ok (at', q) ∧
      (SameSpace s.space q ∧ at' = (place (s.space.istruct is) page).map (· * pageSize) ∨
        flag = .write ∧ place (s.space.istruct is) page = none ∧
          ∃ f, at' = some (f * pageSize) ∧ Assigned s.space q is page f) ∧
      (flag = .write → kalloc = true → at' = none → NoRoom s.space is page) ∧
      (NoRoom s.space is page → at' = none) := by
  have hw := h.wellFormed is hl
  have hin : page ≤ (s.space.istruct is).size → page < (s.space.istruct is).pmap.slots.length := by
    intro hle
    by_contra hge
    exact ho (hw.outside_iff.mp ⟨hle, Nat.le_of_not_lt hge⟩)
  rcases pfBmap_cases flag kalloc hw (page_offset pageSize).1 hin with ⟨hno, he⟩ | ⟨hle, -, slot, hslot, R, hR, he⟩
  · have hplace : place (s.space.istruct is) page = none := by
      rcases hno with hlt | ⟨hle, hnone, -⟩
      · exact if_neg (Nat.not_le_of_lt hlt)
      · exact place_of_slot hle hnone
    refine ⟨none, s.space, he, .inl ⟨⟨h, rfl, fun _ => rfl, fun _ => rfl, fun _ => rfl, rfl⟩, by rw [hplace]; rfl⟩,
      fun hf hk _ => ?_, fun _ => rfl⟩
    rcases hno with hlt | ⟨-, -, -, hn⟩
    · exact .inl hlt
    · rcases hn with hn | hn
      · exact absurd (hn.symm.trans hf) (by simp)
      · exact absurd (hn.symm.trans hk) (by simp)
  · have hplace := place_of_slot hle hslot
    obtain ⟨x, hx, hn, hc, hres⟩ := (pageSlot_gives slot flag (h.space _)).exists_ok fun _ => id
    rw [hx] at he
    simp only [Except.map, (page_offset pageSize).2, Nat.zero_add] at he
    have hb := hR x
    refine ⟨_, _, he, ?_, ?_, ?_⟩
    · rcases hres with ⟨hsame, -⟩ | ⟨f, hnone, hf, -, hp, hspace⟩
      · have hx1 : x.1 = slot := by rw [hsame]
        refine .inl ⟨⟨h.bmapped hl hb hslot hn hc (.inl hsame), hb.live, fun j => (hb.slots_eq (j := j)).1,
          fun j => (hb.slots_eq (j := j)).2.1, fun j => ?_, ?_⟩, by rw [hplace, hx1]⟩
        · refine (hb.slots_eq (j := j)).2.2.trans ?_
          split
          next hj =>
            subst hj
            rw [hx1, Blocks.set_of_getElem? hslot]
          next => rfl
        · rw [hb.pagerFile, show x.2 = s.space.pagerFile (s.space.istruct is).pfInfo by rw [hsame],
            Function.update_eq_self]
      · refine .inr ⟨hf, hplace.trans hnone, f, by rw [hp]; rfl,
          h.bmapped hl hb hslot hn hc (.inr ⟨f, hnone, hp, hspace⟩), hb.live, fun j => (hb.slots_eq (j := j)).1,
          fun j => (hb.slots_eq (j := j)).2.1, fun j => ?_, hle, hin hle⟩
        rw [(hb.slots_eq (j := j)).2.2, hp]
    · intro hf _ hnone
      rcases hres with ⟨hsame, hfull⟩ | ⟨f, -, -, -, hp, -⟩
      · have hx1 : slot = none := by
          rw [hsame] at hnone
          simpa using hnone
        rcases hfull hx1 with hr | hz
        · exact absurd (hr.symm.trans hf) (by simp)
        · exact .inr ⟨hx1 ▸ hslot, hz⟩
      · rw [hp] at hnone
        cases hnone
    · rintro (hlt | ⟨hnone, hz⟩)
      · omega
      · cases Option.some.inj (hslot.symm.trans hnone)
        rcases hres with ⟨hsame, -⟩ | ⟨f, -, -, hpos, -⟩
        · rw [hsame]
          rfl
        · exact absurd hz hpos

theorem outside_length (hw : (s.space.istruct is).WellFormed) (ho : Outside (s.space.istruct is) page) :
    page ≤ (s.space.istruct is).size ∧ (s.space.istruct is).pmap.slots[page]? = none := by
  obtain ⟨hle, hlen⟩ := hw.outside_iff.mpr ho
  exact ⟨hle, List.getElem?_eq_none hlen⟩

theorem SameSpace.place_eq {s : PagingFile.State} (h : SameSpace s q) (j : IstructId) (page : Nat) :
    place (q.istruct j) page = place (s.istruct j) page := by
  rw [place, place, h.size, h.slots]

theorem SameSpace.noRoom {s : PagingFile.State} (h : SameSpace s q) : NoRoom q is f ↔ NoRoom s is f := by
  rw [NoRoom, NoRoom, h.size, h.slots, h.pfInfo, h.pagerFile]

theorem SameSpace.trans {s t : PagingFile.State} (h : SameSpace s q) (h' : SameSpace q t) : SameSpace s t :=
  ⟨h'.inv, h'.live.trans h.live, fun j => (h'.size j).trans (h.size j), fun j => (h'.pfInfo j).trans (h.pfInfo j),
    fun j => (h'.slots j).trans (h.slots j), h'.pagerFile.trans h.pagerFile⟩

/-- Nothing but the list of what is deallocated, and the leaves of page maps. -/
structure Same (s r : Store) : Prop where
  space : SameSpace s.space r.space
  inode : r.inode = s.inode
  disk : r.disk = s.disk

theorem Same.trans (h : Same s r) (h' : Same r v) : Same s v :=
  ⟨h.space.trans h'.space, h'.inode.trans h.inode, h'.disk.trans h.disk⟩

theorem Same.holds (h : Same s r) : Holds r o page d ↔ Holds s o page d := by
  cases o with
  | swapfile is => simp only [Holds, h.space.place_eq, h.space.pfInfo, h.disk]
  | inode ip pagingShift => simp only [Holds, h.inode, h.disk]

theorem Same.idle (h : Same s r) : Idle pageSize r is page ↔ Idle pageSize s is page := by
  simp only [Idle, h.space.place_eq, h.space.pfInfo, h.inode, h.space.noRoom]

/-- A page of an object is written. -/
structure Wrote (s r : Store) (is : IstructId) (page : Nat) (data : PageData pageSize) : Prop where
  inv : Inv r.space
  live : r.space.live = s.space.live
  pfInfo : (r.space.istruct is).pfInfo = (s.space.istruct is).pfInfo
  others : ∀ page', page' ≠ page → place (r.space.istruct is) page' = place (s.space.istruct is) page'
  kept : ∀ f, place (s.space.istruct is) page = some f → place (r.space.istruct is) page = some f
  data : ∃ f, place (r.space.istruct is) page = some f ∧
    r.disk = Function.update s.disk (s.space.istruct is).pfInfo
      (inodeWrite (s.disk (s.space.istruct is).pfInfo) (f * pageSize) data)

theorem Assigned.wrote (h : Assigned s.space q is page f)
    (hnone : place (s.space.istruct is) page = none) (hr : r.space = q)
    (hd : r.disk = Function.update s.disk (s.space.istruct is).pfInfo
      (inodeWrite (s.disk (s.space.istruct is).pfInfo) (f * pageSize) data)) : Wrote s r is page data := by
  subst hr
  have hslots := h.slots is
  rw [if_pos rfl] at hslots
  refine ⟨h.inv, h.live, h.pfInfo is, fun page' hne => ?_, fun f hf => ?_, f, ?_, hd⟩
  · rw [place, place, h.size, hslots, List.getElem?_set_ne hne.symm]
  · cases hnone.symm.trans hf
  · rw [place, h.size, hslots, if_pos h.inside.1, List.getElem?_set_self h.inside.2]
    rfl

theorem SameSpace.wrote (h : SameSpace s.space q) (hplace : place (s.space.istruct is) page = some f)
    (hr : r.space = q)
    (hd : r.disk = Function.update s.disk (s.space.istruct is).pfInfo
      (inodeWrite (s.disk (s.space.istruct is).pfInfo) (f * pageSize) data)) : Wrote s r is page data := by
  subst hr
  exact ⟨h.inv, h.live, h.pfInfo is, fun page' _ => h.place_eq is page', fun f hf => (h.place_eq is page).trans hf, f,
    (h.place_eq is page).trans hplace, hd⟩

theorem slot_of_place {x : Istruct} (h : place x page = some f) :
    page ≤ x.size ∧ x.pmap.slots[page]? = some (some f) := by
  unfold place at h
  split at h
  next hle => exact ⟨hle, Option.join_eq_some_iff.mp h⟩
  next => cases h

theorem place_inj {s : PagingFile.State} {page' : Nat} (h : Inv s) (hl : is ∈ s.live)
    (hf : place (s.istruct is) page = some f) (hf' : place (s.istruct is) page' = some f) : page = page' := by
  have heq := h.holds_inj (v := (is, page)) (w := (is, page')) ⟨hl, rfl, (slot_of_place hf).2⟩
    ⟨hl, rfl, (slot_of_place hf').2⟩
  exact congrArg Prod.snd heq

theorem Wrote.holds_self (h : Wrote s r is page data) : Holds r (.swapfile is) page data := by
  obtain ⟨f, hf, hd⟩ := h.data
  refine ⟨f, hf, ?_⟩
  rw [hd, h.pfInfo, Function.update_self]
  exact inodeRead_inodeWrite

theorem Wrote.holds_other {page' : Nat} (h : Wrote s r is page data) (hl : is ∈ s.space.live) (hne : page' ≠ page) :
    Holds r (.swapfile is) page' d ↔ Holds s (.swapfile is) page' d := by
  obtain ⟨f, hf, hd⟩ := h.data
  have hread : ∀ f', place (r.space.istruct is) page' = some f' →
      (inodeRead (r.disk (s.space.istruct is).pfInfo) (f' * pageSize) : PageData pageSize) =
        inodeRead (s.disk (s.space.istruct is).pfInfo) (f' * pageSize) := by
    intro f' hf'
    have hff : f' ≠ f := by
      rintro rfl
      exact hne (place_inj h.inv (h.live ▸ hl) hf' hf)
    rw [hd, Function.update_self, inodeRead_inodeWrite_of_ne hff]
  simp only [Holds, h.pfInfo, ← h.others page' hne]
  refine exists_congr fun f' => and_congr_right fun hf' => ?_
  rw [hread f' hf']

theorem NoRoom.not_outside (h : NoRoom s.space is page) (hw : (s.space.istruct is).WellFormed) :
    ¬Outside (s.space.istruct is) page := by
  intro ho
  obtain ⟨hle, hnone⟩ := outside_length hw ho
  rcases h with hlt | ⟨hsome, -⟩
  · omega
  · cases hnone.symm.trans hsome

theorem dataWrite_spec [NeZero pageSize] (h : Inv s.space) (hl : is ∈ s.space.live) (page : Nat)
    (data : PageData pageSize) (kalloc : Bool) (i : Nat) :
    Gives (memoryObjectDataWrite s (.swapfile is) (page * pageSize) data kalloc i) (fun _ => ¬NoRoom s.space is page)
      fun r => r.deallocated = i :: s.deallocated ∧
        (Same s r ∧ (kalloc = true → NoRoom s.space is page) ∨ ¬NoRoom s.space is page ∧ Wrote s r is page data) := by
  by_cases ho : Outside (s.space.istruct is) page
  · have hpage : page * pageSize / pageSize = page := (page_offset pageSize).1
    rw [memoryObjectDataWrite, isPageWrite, pfBmap_outside (h.wellFormed is hl) (by rwa [hpage])]
    exact fun hn => hn.not_outside (h.wellFormed is hl) ho
  · obtain ⟨at', q, he, hres, hroom, hno⟩ := pfBmap_spec pageSize .write kalloc h hl ho
    rw [memoryObjectDataWrite, isPageWrite, he]
    refine ⟨?_, ?_⟩
    · cases at' <;> rfl
    · rcases hres with ⟨hsame, hat⟩ | ⟨-, hnone, f, hat, hassigned⟩
      · cases hplace : place (s.space.istruct is) page with
        | none =>
          have hat' : at' = none := by rw [hat, hplace]; rfl
          subst hat'
          exact .inl ⟨⟨hsame, rfl, rfl⟩, fun hk => hroom rfl hk rfl⟩
        | some f =>
          have hat' : at' = some (f * pageSize) := by rw [hat, hplace]; rfl
          subst hat'
          refine .inr ⟨fun hn => Option.some_ne_none _ (hno hn), hsame.wrote hplace rfl ?_⟩
          change Function.update s.disk (q.istruct is).pfInfo _ = _
          rw [hsame.pfInfo]
      · subst hat
        refine .inr ⟨fun hn => Option.some_ne_none _ (hno hn), hassigned.wrote hnone rfl ?_⟩
        change Function.update s.disk (q.istruct is).pfInfo _ = _
        rw [hassigned.pfInfo]

theorem Wrote.of_same (h : Same s v) (hw : Wrote v r is page data) : Wrote s r is page data := by
  obtain ⟨f, hf, hd⟩ := hw.data
  refine ⟨hw.inv, hw.live.trans h.space.live, hw.pfInfo.trans (h.space.pfInfo is), fun page' hne => ?_, fun f hf => ?_,
    f, hf, ?_⟩
  · rw [hw.others page' hne, h.space.place_eq]
  · exact hw.kept f ((h.space.place_eq is page).trans hf)
  · rw [hd, h.disk, h.space.pfInfo]

/-- A turn of the loop for an object in a paging file. -/
structure Turn (pageSize : Nat) (s r : Store) (is : IstructId) (page i : Nat) (data : PageData pageSize)
    (kalloc : Bool) : Prop where
  kept : Same s r ∨ ∃ f, place (s.space.istruct is) page = some f ∧ Wrote s r is f data
  deallocated : r.deallocated = s.deallocated ∨ r.deallocated = i :: s.deallocated
  idle : Idle pageSize s is page → Same s r ∧ r.deallocated = i :: s.deallocated
  busy : kalloc = true → ¬Idle pageSize s is page → r.deallocated = s.deallocated ∨
    ∃ f, place (s.space.istruct is) page = some f ∧ Wrote s r is f data

theorem turn_spec [NeZero pageSize] (h : Inv s.space) (hl : is ∈ s.space.live) (page : Nat)
    (data : PageData pageSize) (kalloc : Bool) (i : Nat) :
    Gives (isPageInitialize s (.swapfile is) (page * pageSize) data kalloc i) (fun _ => ¬Idle pageSize s is page)
      fun r => Turn pageSize s r is page i data kalloc := by
  by_cases ho : Outside (s.space.istruct is) page
  · have hpage : page * pageSize / pageSize = page := (page_offset pageSize).1
    rw [isPageInitialize, pfBmap_outside (h.wellFormed is hl) (by rwa [hpage])]
    rintro ⟨f, hf, -⟩
    obtain ⟨hle, hnone⟩ := outside_length (h.wellFormed is hl) ho
    cases hnone.symm.trans (slot_of_place hf).2
  · obtain ⟨at', q, he, hres, -⟩ := pfBmap_spec pageSize .read false h hl ho
    rcases hres with ⟨hsame, hat⟩ | ⟨hf, -⟩
    · have hv : Same s { s with space := q } := ⟨hsame, rfl, rfl⟩
      rw [isPageInitialize, he]
      rcases Option.eq_none_or_eq_some (place (s.space.istruct is) page) with hplace | ⟨f, hplace⟩
      · have hat' : at' = none := by rw [hat, hplace]; rfl
        subst hat'
        have hbusy : ¬Idle pageSize s is page := by
          rintro ⟨f, hf, -⟩
          cases hplace.symm.trans hf
        exact ⟨.inl hv, .inl rfl, fun hi => absurd hi hbusy, fun _ _ => .inl rfl⟩
      · have hat' : at' = some (f * pageSize) := by rw [hat, hplace]; rfl
        subst hat'
        have hidle : Idle pageSize s is page ↔
            inodeHasPage (s.inode (s.space.istruct is).pfInfo) (f * pageSize) = true ∧ NoRoom s.space is f := by
          refine ⟨fun ⟨f', hf', hi⟩ => ?_, fun hi => ⟨f, hplace, hi⟩⟩
          cases Option.some.inj (hplace.symm.trans hf')
          exact hi
        change Gives (if inodeHasPage (s.inode (q.istruct is).pfInfo) (f * pageSize) then _ else _) _ _
        rw [hsame.pfInfo]
        split
        next hpage =>
          have hw := dataWrite_spec (s := { s with space := q }) hsame.inv (hsame.live ▸ hl) f data kalloc i
          refine (hw.weaken fun e hn hi => hn (hsame.noRoom.mpr (hidle.mp hi).2)).mono fun r hr => ?_
          rcases hr with ⟨hd, ⟨hk, hno⟩ | ⟨hno, hk⟩⟩
          · exact ⟨.inl (hv.trans hk), .inr hd, fun _ => ⟨hv.trans hk, hd⟩, fun hka hn =>
              absurd (hidle.mpr ⟨hpage, hsame.noRoom.mp (hno hka)⟩) hn⟩
          · have hwrote : Wrote s r is f data := Wrote.of_same hv hk
            exact ⟨.inr ⟨f, hplace, hwrote⟩, .inr hd, fun hi => absurd (hsame.noRoom.mpr (hidle.mp hi).2) hno,
              fun _ _ => .inr ⟨f, hplace, hwrote⟩⟩
        next hpage =>
          exact ⟨.inl hv, .inl rfl, fun hi => absurd (hidle.mp hi).1 hpage, fun _ _ => .inl rfl⟩
    · cases hf

theorem Same.refl (h : Inv s.space) : Same s { s with deallocated := [] } :=
  ⟨⟨h, rfl, fun _ => rfl, fun _ => rfl, fun _ => rfl, rfl⟩, rfl, rfl⟩

theorem idle_turn [NeZero pageSize] (h : Same s r) (hl : is ∈ s.space.live) (hi : Idle pageSize s is page)
    (data : PageData pageSize) (kalloc : Bool) (i : Nat) :
    Gives (isPageInitialize r (.swapfile is) (page * pageSize) data kalloc i) (fun _ => False) fun v =>
      Same s v ∧ v.deallocated = i :: r.deallocated := by
  have ht := turn_spec h.space.inv (h.space.live ▸ hl) page data kalloc i
  have hi := h.idle.mpr hi
  refine (ht.weaken fun _ hn => hn hi).mono fun v hv => ?_
  exact ⟨h.trans (hv.idle hi).1, (hv.idle hi).2⟩

theorem Same.right {data : Nat → PageData pageSize} (h : Same s r)
    (hstored : ∀ i < n, ∃ d : PageData pageSize, Holds s o (first + i) d)
    (hd : ∀ i, r.deallocated.count i = if i < n then 1 else 0) : Right s r o first n data := by
  refine ⟨fun i hi hn => ?_, fun i _ d hd => h.holds.mpr hd, fun o' page _ d => h.holds, hd⟩
  obtain ⟨d, hd⟩ := hstored i hi
  exact absurd hd (hn d)

theorem idle_right [NeZero pageSize] (h : Inv s.space) (hl : is ∈ s.space.live)
    (hi : ∀ i < n, Idle pageSize s is (first + i)) (data : Nat → PageData pageSize) (kalloc : Nat → Bool) :
    ∃ r, memoryObjectDataInitialize s (.swapfile is) first n data kalloc = .ok r ∧
      Right s r (.swapfile is) first n data := by
  have hg : Gives (memoryObjectDataInitialize s (.swapfile is) first n data kalloc) (fun _ => False) fun r =>
      Same s r ∧ ∀ i, r.deallocated.count i = if i < 0 + n then 1 else 0 := by
    refine sweep_gives (fun j r => Same s r ∧ ∀ i, r.deallocated.count i = if i < j then 1 else 0) ?_
      ⟨.refl h, fun i => rfl⟩
    rintro j r - hj ⟨hsame, hcount⟩
    refine (idle_turn hsame hl (hi j (by omega)) (data j) (kalloc j) j).mono fun v ⟨hv, hd⟩ => ⟨hv, fun i => ?_⟩
    rw [hd, List.count_cons, hcount]
    by_cases hij : i = j
    · subst i
      simp
    · have hlt : i < j ↔ i < j + 1 := by omega
      have hne : ¬(j == i) = true := fun he => hij (beq_iff_eq.mp he).symm
      rw [if_congr hlt rfl rfl, if_neg hne, Nat.add_zero]
  obtain ⟨r, hr, hsame, hcount⟩ := hg.exists_ok fun _ => id
  refine ⟨r, hr, hsame.right (fun i hlt => ?_) (by simpa using hcount)⟩
  obtain ⟨f, hf, -⟩ := hi i hlt
  exact ⟨_, f, hf, rfl⟩

/-- Bytes that differ from others. -/
def other (d : PageData pageSize) : PageData pageSize := fun k => if d k = 0 then 1 else 0

theorem other_ne [NeZero pageSize] (d : PageData pageSize) : other d ≠ d := by
  intro he
  have h0 := congrFun he ⟨0, Nat.pos_of_ne_zero (NeZero.ne pageSize)⟩
  unfold other at h0
  split at h0
  next h => exact absurd (h0.trans h) (by decide)
  next h => exact h h0.symm

theorem holds_unique {d' : PageData pageSize} (h : Holds s (.swapfile is) page d)
    (h' : Holds s (.swapfile is) page d') : d = d' := by
  obtain ⟨f, hf, rfl⟩ := h
  obtain ⟨f', hf', rfl⟩ := h'
  cases Option.some.inj (hf.symm.trans hf')
  rfl

/-- What stays when a turn has gone wrong: the page of the message is not deallocated, or a page of the object has
bytes that are not its own. -/
structure Spoilt (s r : Store) (is : IstructId) (page i : Nat) (data : PageData pageSize) : Prop where
  inv : Inv r.space
  live : r.space.live = s.space.live
  how : r.deallocated.count i = 0 ∨ ∃ f, place (s.space.istruct is) page = some f ∧
    place (r.space.istruct is) page = some f ∧ Holds r (.swapfile is) f data

theorem Turn.inv [NeZero pageSize] (h : Turn pageSize s r is page i data kalloc) : Inv r.space ∧
    r.space.live = s.space.live := by
  rcases h.kept with hk | ⟨f, -, hk⟩
  · exact ⟨hk.space.inv, hk.space.live⟩
  · exact ⟨hk.inv, hk.live⟩

theorem Spoilt.turn [NeZero pageSize] {page' m : Nat} {d : PageData pageSize} (h : Spoilt s r is page i data)
    (hl : is ∈ s.space.live) (hm : m ≠ i) (hp : page' ≠ page) (ht : Turn pageSize r v is page' m d kalloc) :
    Spoilt s v is page i data := by
  refine ⟨ht.inv.1, ht.inv.2.trans h.live, ?_⟩
  rcases h.how with hc | ⟨f, hs, hr, hd⟩
  · left
    rcases ht.deallocated with he | he
    · rw [he, hc]
    · rw [he, List.count_cons_of_ne hm, hc]
  · right
    refine ⟨f, hs, ?_⟩
    rcases ht.kept with hk | ⟨f', hf', hk⟩
    · exact ⟨(hk.space.place_eq is page).trans hr, hk.holds.mpr hd⟩
    · have hlr : is ∈ r.space.live := h.live ▸ hl
      have hne : f ≠ f' := by
        rintro rfl
        exact hp (place_inj h.inv hlr hf' hr)
      refine ⟨?_, (hk.holds_other hlr hne).mpr hd⟩
      by_cases hpf : page = f'
      · subst hpf
        exact hk.kept f hr
      · exact (hk.others page hpf).trans hr

/-- The bytes of a page, or some bytes if it is not stored. -/
def bytesAt (pageSize : Nat) (s : Store) (is : IstructId) (page : Nat) : PageData pageSize :=
  match place (s.space.istruct is) page with
  | some f => inodeRead (s.disk (s.space.istruct is).pfInfo) (f * pageSize)
  | none => fun _ => 0

/-- Bytes that show that a page is written in a wrong place: other bytes than are there now, and for all other pages
the bytes that are there. -/
def witnessData (pageSize : Nat) (s : Store) (is : IstructId) (page i : Nat) (m : Nat) : PageData pageSize :=
  let old := bytesAt pageSize s is ((place (s.space.istruct is) page).getD 0)
  if m = i then other old else old

theorem Spoilt.not_right [NeZero pageSize] (hi : i < n)
    (h : Spoilt s r is (first + i) i (witnessData pageSize s is (first + i) i i)) :
    ¬Right s r (.swapfile is) first n (witnessData pageSize s is (first + i) i) := by
  intro hr
  rcases h.how with hc | ⟨f, hs, -, hd⟩
  · have := hr.deallocated i
    rw [hc, if_pos hi] at this
    cases this
  · have hold : ∀ m, m ≠ i → witnessData pageSize s is (first + i) i m = bytesAt pageSize s is f := fun m hm => by
      rw [witnessData, if_neg hm, hs]
      rfl
    have hnew : witnessData pageSize s is (first + i) i i = other (bytesAt pageSize s is f) := by
      rw [witnessData, if_pos rfl, hs]
      rfl
    rw [hnew] at hd
    rcases Option.eq_none_or_eq_some (place (s.space.istruct is) f) with hf | ⟨g, hf⟩
    · have hno : ∀ d : PageData pageSize, ¬Holds s (.swapfile is) f d := by
        rintro d ⟨g, hg, -⟩
        cases hf.symm.trans hg
      by_cases hin : f < first ∨ first + n ≤ f
      · exact hno _ ((hr.others (.swapfile is) f (fun _ => hin) _).mp hd)
      · obtain ⟨m, rfl⟩ : ∃ m, f = first + m := ⟨f - first, by omega⟩
        have hm := hr.new m (by omega) hno
        have hne : m ≠ i := by
          rintro rfl
          cases hf.symm.trans hs
        rw [hold m hne] at hm
        exact other_ne _ (holds_unique hd hm)
    · have hb : Holds s (.swapfile is) f (bytesAt pageSize s is f) := ⟨g, hf, by rw [bytesAt, hf]⟩
      have hb' : Holds r (.swapfile is) f (bytesAt pageSize s is f) := by
        by_cases hin : f < first ∨ first + n ≤ f
        · exact (hr.others (.swapfile is) f (fun _ => hin) _).mpr hb
        · obtain ⟨m, rfl⟩ : ∃ m, f = first + m := ⟨f - first, by omega⟩
          exact hr.old m (by omega) _ hb
      exact other_ne _ (holds_unique hd hb')

theorem busy_wrong [NeZero pageSize] (h : Inv s.space) (hl : is ∈ s.space.live) (hi : i < n)
    (hbefore : ∀ j < i, Idle pageSize s is (first + j)) (hbusy : ¬Idle pageSize s is (first + i)) :
    ∃ data : Nat → PageData pageSize, ∀ r,
      memoryObjectDataInitialize s (.swapfile is) first n data (fun _ => true) = .ok r →
        ¬Right s r (.swapfile is) first n data := by
  refine ⟨witnessData pageSize s is (first + i) i, fun r hr => ?_⟩
  set data := witnessData pageSize s is (first + i) i with hdata
  have hg : Gives (memoryObjectDataInitialize s (.swapfile is) first n data fun _ => true) (fun _ => True) fun r =>
      i < 0 + n → Spoilt s r is (first + i) i (data i) := by
    refine Gives.mono (sweep_gives (fun j r => (j ≤ i → Same s r ∧ ∀ m, j ≤ m → r.deallocated.count m = 0) ∧
      (i < j → Spoilt s r is (first + i) i (data i))) ?_ ⟨fun _ => ⟨.refl h, fun _ _ => rfl⟩, fun hn => by omega⟩)
      fun r hr => hr.2
    rintro j r - hj ⟨hle, hgt⟩
    rcases Nat.lt_trichotomy j i with hlt | rfl | hlt
    · obtain ⟨hsame, hcount⟩ := hle (by omega)
      refine ((idle_turn hsame hl (hbefore j hlt) (data j) true j).weaken fun _ => False.elim).mono fun v hv => ?_
      refine ⟨fun _ => ⟨hv.1, fun m hm => ?_⟩, fun hn => by omega⟩
      rw [hv.2, List.count_cons_of_ne (by omega), hcount m (by omega)]
    · obtain ⟨hsame, hcount⟩ := hle (Nat.le_refl _)
      have ht := turn_spec hsame.space.inv (hsame.space.live ▸ hl) (first + j) (data j) true j
      refine (ht.weaken fun _ _ => trivial).mono fun v hv => ⟨fun hn => by omega, fun _ => ?_⟩
      refine ⟨hv.inv.1, hv.inv.2.trans hsame.space.live, ?_⟩
      rcases hv.busy rfl fun hidle => hbusy (hsame.idle.mp hidle) with hd | ⟨f, hf, hw⟩
      · exact .inl (by rw [hd, hcount j (Nat.le_refl _)])
      · refine .inr ⟨f, (hsame.space.place_eq is _).symm.trans hf, ?_, hw.holds_self⟩
        by_cases hpf : first + j = f
        · rw [hpf] at hf ⊢
          exact hw.kept f hf
        · exact (hw.others _ hpf).trans hf
    · have hsp := hgt hlt
      have ht := turn_spec hsp.inv (hsp.live ▸ hl) (first + j) (data j) true j
      refine (ht.weaken fun _ _ => trivial).mono fun v hv => ⟨fun hn => by omega, fun _ => ?_⟩
      exact hsp.turn hl (by omega) (by omega) hv
  exact (hg.of_ok hr (by omega)).not_right hi

section Inode

theorem inode_offset (shift page : Nat) : page * pageSize * 2 ^ shift = page * 2 ^ shift * pageSize :=
  Nat.mul_right_comm ..

theorem inode_turn (s : Store) (ip : InodeId) (shift page : Nat) (data : PageData pageSize) (kalloc : Bool) (i : Nat) :
    ∃ r, isPageInitialize s (.inode ip shift) (page * pageSize) data kalloc i = .ok r ∧
      (r.deallocated = s.deallocated ∧ r.disk = s.disk ∧
          inodeHasPage (s.inode ip) (page * pageSize * 2 ^ shift) = false ∨
        r.deallocated = i :: s.deallocated ∧ inodeHasPage (s.inode ip) (page * pageSize * 2 ^ shift) = true ∧
          r.disk = Function.update s.disk ip (inodeWrite (s.disk ip) (page * pageSize * 2 ^ shift) data)) := by
  unfold isPageInitialize
  dsimp only
  split
  next hp => exact ⟨_, rfl, .inr ⟨rfl, hp, rfl⟩⟩
  next hp => exact ⟨_, rfl, .inl ⟨rfl, rfl, by simpa using hp⟩⟩

theorem inode_wrong (pageSize : Nat) [NeZero pageSize] (s : Store) (ip : InodeId) (shift first : Nat) (hn : 0 < n) :
    ∃ data : Nat → PageData pageSize, ∀ r,
    memoryObjectDataInitialize s (.inode ip shift) first n data (fun _ => true) = .ok r →
      ¬Right s r (.inode ip shift) first n data := by
  set old : PageData pageSize := inodeRead (s.disk ip) (first * pageSize * 2 ^ shift) with hold
  refine ⟨fun _ => other old, fun r hr hright => ?_⟩
  have hg : Gives (memoryObjectDataInitialize s (.inode ip shift) first n (fun _ => other old) fun _ => true)
      (fun _ => True) fun r => 0 < 0 + n → r.deallocated.count 0 = 0 ∨
        inodeHasPage (s.inode ip) (first * pageSize * 2 ^ shift) = true ∧
          inodeRead (r.disk ip) (first * pageSize * 2 ^ shift) = other old := by
    refine Gives.mono (sweep_gives (fun j r => (j = 0 → r = { s with deallocated := [] }) ∧
      (0 < j → r.deallocated.count 0 = 0 ∨ inodeHasPage (s.inode ip) (first * pageSize * 2 ^ shift) = true ∧
        inodeRead (r.disk ip) (first * pageSize * 2 ^ shift) = other old)) ?_ ⟨fun _ => rfl, fun hn => by omega⟩)
      fun r hr => hr.2
    rintro j r - hj ⟨hzero, hpos⟩
    obtain ⟨v, hv, hres⟩ := inode_turn r ip shift (first + j) (other old) true j
    rw [hv]
    refine ⟨fun hn => by omega, fun _ => ?_⟩
    rcases Nat.eq_zero_or_pos j with rfl | hj
    · rw [hzero rfl] at hres
      rcases hres with ⟨hd, -⟩ | ⟨-, hp, hd⟩
      · exact .inl (by rw [hd]; rfl)
      · refine .inr ⟨hp, ?_⟩
        rw [hd, Function.update_self]
        exact inodeRead_inodeWrite
    · refine (hpos hj).imp (fun hc => ?_) fun ⟨hp, hread⟩ => ⟨hp, ?_⟩
      · rcases hres with ⟨hd, -⟩ | ⟨hd, -⟩
        · rw [hd, hc]
        · rw [hd, List.count_cons_of_ne (by omega), hc]
      · rcases hres with ⟨-, hd, -⟩ | ⟨-, -, hd⟩
        · rw [hd, hread]
        · have hne : first * 2 ^ shift ≠ (first + j) * 2 ^ shift := fun he =>
            absurd (Nat.eq_of_mul_eq_mul_right (Nat.two_pow_pos shift) he) (by omega)
          rw [hd, Function.update_self, inode_offset, inode_offset, inodeRead_inodeWrite_of_ne hne, ← inode_offset,
            hread]
  rcases hg.of_ok hr (by omega) with hc | ⟨hp, hd⟩
  · have := hright.deallocated 0
    rw [hc, if_pos hn] at this
    cases this
  · have hh := hright.old 0 hn old ⟨hp, rfl⟩
    exact other_ne old (hd.symm.trans hh.2)

end Inode

/-- The pages of a request that goes right, whatever the bytes are. -/
def Smooth (pageSize : Nat) (s : Store) (first n : Nat) : Object → Prop
  | .swapfile is => ∀ i < n, Idle pageSize s is (first + i)
  | .inode _ _ => n = 0

def Known (s : Store) : Object → Prop
  | .swapfile is => is ∈ s.space.live
  | .inode _ _ => True

/-- A `data_initialize` does what it is for, whatever bytes it brings, only where it has nothing to do: for no page of
an inode, and for pages of a paging file that are stored and whose second translation leads nowhere. -/
theorem dataInitialize_right_iff (pageSize : Nat) [NeZero pageSize] (h : Reachable pageSize s.space) (ho : Known s o)
    (first n : Nat) :
    (∀ (data : Nat → PageData pageSize) (kalloc : Nat → Bool),
        ∃ r, memoryObjectDataInitialize s o first n data kalloc = .ok r ∧ Right s r o first n data) ↔
      Smooth pageSize s first n o := by
  have hi : Inv s.space := reachable_inv h
  cases o with
  | swapfile is =>
    refine ⟨fun hall i => ?_, fun hidle data kalloc => idle_right hi ho hidle data kalloc⟩
    induction i using Nat.strong_induction_on with
    | _ i ih =>
      intro hlt
      by_contra hbusy
      obtain ⟨data, hdata⟩ := busy_wrong hi ho hlt (fun j hj => ih j hj (by omega)) hbusy
      obtain ⟨r, hr, hright⟩ := hall data fun _ => true
      exact hdata r hr hright
  | inode ip shift =>
    refine ⟨fun hall => ?_, fun hz data kalloc => ?_⟩
    · by_contra hne
      obtain ⟨data, hdata⟩ := inode_wrong pageSize s ip shift first (Nat.pos_of_ne_zero hne)
      obtain ⟨r, hr, hright⟩ := hall data fun _ => true
      exact hdata r hr hright
    · cases hz
      exact ⟨_, rfl, (Same.refl hi).right (fun i hi => absurd hi (Nat.not_lt_zero i)) fun i => rfl⟩

/-- An object of two pages in a paging file of ten, and one of a single page, which has got the third place. -/
def pagedSpace : PagingFile.State :=
  (runIf (fun s a => (step 4096 s a).toOption) (fun _ _ => True) PagingFile.bootState
    [.pfPagerCreate 1 0 8192 true, .pfBmap 1 0 .write true, .pfBmap 1 4096 .write true,
      .pfPagerCreate 2 0 4096 true, .pfBmap 2 0 .write true]).getD PagingFile.bootState

theorem pagedSpace_reachable : Reachable 4096 pagedSpace := by
  have h : Reachable 4096 PagingFile.bootState := .start bootState_start
  have h : Reachable 4096 _ := h.next (a := .pfPagerCreate 1 0 8192 true) trivial rfl
  have h : Reachable 4096 _ := h.next (a := .pfBmap 1 0 .write true) (fun ho => absurd ho.1 (by decide)) rfl
  have h : Reachable 4096 _ := h.next (a := .pfBmap 1 4096 .write true) (fun ho => absurd ho.1 (by decide)) rfl
  have h : Reachable 4096 _ := h.next (a := .pfPagerCreate 2 0 4096 true) trivial rfl
  exact h.next (a := .pfBmap 2 0 .write true) (fun ho => absurd ho.1 (by decide)) rfl

/-- The inode 0 of the paging file has all its blocks, and the inode 1 the first of two. -/
def pagedStore : Store where
  space := pagedSpace
  inode ip :=
    if ip = 0 then { fs := ⟨13, 10, by decide⟩, iSize := 40960, bmap := fun _ => .mapped }
    else { fs := InodeWrite.wholeBlocks, iSize := 8192, bmap := fun lbn => if lbn = 0 then .mapped else .hole }
  disk _ _ := 0
  deallocated := []

/-- The page of the second object stays as it is, whatever is supplied. -/
theorem idlePage_right : ∃ r, memoryObjectDataInitialize pagedStore (.swapfile 2) 0 1
    (fun _ _ => 7 : Nat → PageData 4096) (fun _ => true) = .ok r ∧
      Right pagedStore r (.swapfile 2) 0 1 (fun _ _ => 7 : Nat → PageData 4096) := by
  have hlive : 2 ∈ pagedSpace.live := by decide
  have hall := (dataInitialize_right_iff 4096 (s := pagedStore) (o := .swapfile 2) pagedSpace_reachable hlive 0 1).mpr
  refine hall (fun i hi => ?_) _ _
  cases Nat.lt_one_iff.mp hi
  exact ⟨2, by decide, by decide, .inl (by decide)⟩

/-- Of two pages of an inode, the one that is stored is overwritten and the other one is not stored. -/
theorem inodePages_wrong : ∃ r, memoryObjectDataInitialize pagedStore (.inode 1 0) 0 2
    (fun _ _ => 7 : Nat → PageData 4096) (fun _ => true) = .ok r ∧
      Holds pagedStore (.inode 1 0) 0 (fun _ => 0 : PageData 4096) ∧
      Holds r (.inode 1 0) 0 (fun _ => 7 : PageData 4096) ∧
      (∀ d : PageData 4096, ¬Holds r (.inode 1 0) 1 d) ∧ r.deallocated = [0] ∧
      ¬Right pagedStore r (.inode 1 0) 0 2 (fun _ _ => 7 : Nat → PageData 4096) := by
  refine ⟨_, rfl, ⟨by decide, rfl⟩, ⟨by decide, ?_⟩, fun d hd => ?_, rfl, fun h => ?_⟩
  · have hw : inodeRead (inodeWrite (fun _ => 0) 0 (fun _ => 7 : PageData 4096)) 0 = (fun _ => 7 : PageData 4096) :=
      inodeRead_inodeWrite
    exact hw
  · exact absurd hd.1 (by decide)
  · exact absurd (h.deallocated 1) (by decide)

end MachVM.Builtin.DataInitialize
