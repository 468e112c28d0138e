import MachVM.PagerReplyPages

namespace MachVM
namespace Pager

/-- A call of `memory_object_data_provided` that names an object. -/
structure DataCall where
  caller : Caller
  start : ReplyState
  object : ObjId
  offset : VmOffset
  data : Nat → UInt8
  dataCnt : BitVec 32
  lockValue : VmProt

namespace DataCall

def run (q : DataCall) : Option (ReplyState × KernReturn) :=
  memoryObjectDataProvided q.caller q.start (some q.object) q.offset q.data q.dataCnt q.lockValue

/-- The offset within the object. -/
def base (q : DataCall) : VmOffset := q.offset - (q.start.vm.object q.object).pagingOffset

/-- The whole pages of data. -/
def pages (q : DataCall) : Nat := q.dataCnt.toNat / pageBytes

/-- The page that is there for the `i`-th page of data when the call starts. -/
def there (q : DataCall) (i : Nat) : Option PageId := vmPageLookup q.start.vm q.object (pageOffset q.base i)

/-- How many of the pages before the `i`-th are missing. -/
def missing (q : DataCall) (i : Nat) : Nat := (List.range i).countP fun j => (q.there j).isNone

/-- The page allocator will not give away another page after so many. -/
def shortAfter (q : DataCall) (k : Nat) : Prop :=
  q.start.vm.freeCount - k < q.start.vm.freeReserved ∧ q.caller.vmPrivilege = false

instance (q : DataCall) (k : Nat) : Decidable (q.shortAfter k) := inferInstanceAs (Decidable (_ ∧ _))

/-- The page that is to hold the `i`-th page of data: one that waits for it, or else one of those
at the end of the free queue. -/
def receiver (q : DataCall) (i : Nat) : Option PageId :=
  match q.there i with
  | some mem => if waits (q.start.vm.page mem) then some mem else none
  | none => if q.shortAfter (q.missing i) then none else q.start.vm.queueFree.reverse[q.missing i]?

def frame (q : DataCall) (mem : PageId) : Nat := (q.start.vm.page mem).physAddr.toNat

/-- The byte may stay at the address: it is the byte of the data that goes there, or, where none
does, the byte that was there before. -/
def Belongs (q : DataCall) (p : Nat) (v : UInt8) : Prop :=
  (∀ i < q.pages, ∀ mem, q.receiver i = some mem → ∀ b < pageBytes, p = q.frame mem + b →
    v = q.data (i * pageBytes + b)) ∧
  ((∀ i < q.pages, ∀ mem, q.receiver i = some mem → ∀ b < pageBytes, p ≠ q.frame mem + b) →
    v = q.start.phys p)

/-- What the call promises: the pages are usable under their new lock, physical memory holds the
data in their frames and what it held before everywhere else, and one reference is given up. -/
structure Delivers (q : DataCall) (t : ReplyState) : Prop where
  served : ∀ i < q.pages, ∀ mem, q.receiver i = some mem →
    Served t.vm mem q.object (pageOffset q.base i) q.lockValue
  memory : ∀ p, q.Belongs p (t.phys p)
  released : t.released = q.start.released ++ [q.object]

/-- One byte of a copy: the copy is the one of a turn, into a frame. -/
structure CopiedByte where
  turn : Nat
  frame : Nat
  byte : Nat

namespace CopiedByte

def target (c : Caller) (x : CopiedByte) : Option Nat := copyAddr c x.turn x.frame x.byte

def value (data : Nat → UInt8) (x : CopiedByte) : UInt8 := data (x.turn * pageBytes + x.byte)

end CopiedByte

/-- The bytes that the copy of a turn moves: all of the data that is left. -/
def copyOf (q : DataCall) (i : Nat) : List CopiedByte :=
  match q.receiver i with
  | none => []
  | some mem => (List.range (q.dataCnt.toNat - i * pageBytes)).map fun b => ⟨i, q.frame mem, b⟩

def copies (q : DataCall) (n : Nat) : List CopiedByte := (List.range n).flatMap q.copyOf

/-- Every byte that a copy puts behind its page, and that no later byte overwrites, happens to be
the byte that belongs there. -/
def StraysRight (q : DataCall) : Prop :=
  ∀ l₁ x l₂, q.copies q.pages = l₁ ++ x :: l₂ → pageBytes ≤ x.byte → ∀ p, x.target q.caller = some p →
    (∀ y ∈ l₂, y.target q.caller ≠ some p) → q.Belongs p (x.value q.data)

end DataCall

/-- The page has a frame of its own. -/
def HasFrame (p : VmPage) : Prop := p.free = true ∨ p.tabled = true ∧ p.fictitious = false

def FramesApart (s : VmState) : Prop :=
  ∀ m m', HasFrame (s.page m) → HasFrame (s.page m') → m ≠ m' → ∀ b < pageBytes, ∀ b' < pageBytes,
    (s.page m).physAddr.toNat + b ≠ (s.page m').physAddr.toNat + b'

def Supply.filledPage : Supply → Option PageId
  | .filled mem => some mem
  | _ => none

/-- There are no more whole pages than the address space has. -/
def maxPages : Nat := 2 ^ 20

theorem pageOffset_inj {base : VmOffset} {i j : Nat} (hi : i < maxPages) (hj : j < maxPages)
    (h : pageOffset base i = pageOffset base j) : i = j := by
  have hm : BitVec.ofNat 32 i * pageSize = BitVec.ofNat 32 j * pageSize := by
    simpa [pageOffset] using h
  have hn := congrArg BitVec.toNat hm
  have hps : pageSize.toNat = 4096 := by decide
  rw [BitVec.toNat_mul, BitVec.toNat_mul, BitVec.toNat_ofNat, BitVec.toNat_ofNat, hps] at hn
  unfold maxPages at hi hj
  omega

namespace DataCall

variable {q : DataCall} {t : VmState} {n : Nat}

theorem pages_le (q : DataCall) : q.pages ≤ maxPages := by
  have := q.dataCnt.isLt
  unfold pages pageBytes maxPages
  omega

theorem missing_succ (q : DataCall) (n : Nat) :
    q.missing (n + 1) = q.missing n + if (q.there n).isNone then 1 else 0 := by
  simp [missing, List.range_succ, List.countP_append, List.countP_singleton]

/-- How far the call has come after the first so many pages. -/
structure Progress (q : DataCall) (n : Nat) (t : VmState) : Prop where
  resident : ResidentInv t
  physAddr : ∀ p, (t.page p).physAddr = (q.start.vm.page p).physAddr
  pool : ∃ a ≤ q.missing n, t.queueFree.reverse = q.start.vm.queueFree.reverse.drop a ∧
    t.freeCount = q.start.vm.freeCount - a ∧ t.freeReserved = q.start.vm.freeReserved ∧
    (a < q.missing n → q.start.vm.queueFree.reverse.length ≤ a ∨ q.shortAfter a)
  ahead : ∀ i, n ≤ i → i < maxPages → vmPageLookup t q.object (pageOffset q.base i) = q.there i
  same : ∀ i, n ≤ i → i < maxPages → ∀ m, q.there i = some m → t.page m = q.start.vm.page m
  served : ∀ i < n, ∀ m, q.receiver i = some m → Served t m q.object (pageOffset q.base i) q.lockValue

theorem Progress.zero (h : ResidentInv q.start.vm) : Progress q 0 q.start.vm where
  resident := h
  physAddr _ := rfl
  pool := ⟨0, Nat.zero_le _, rfl, by simp, rfl, fun hlt => absurd hlt (by simp [missing])⟩
  ahead _ _ _ := rfl
  same _ _ _ _ _ := rfl
  served i hi := absurd hi (Nat.not_lt_zero i)

theorem Progress.turn {t' : VmState} {mem : PageId} (h : Progress q n t) (hn : n < maxPages)
    (ht : Turn t t' mem (pageOffset q.base n))
    (hp : ∃ a ≤ q.missing (n + 1), t'.queueFree.reverse = q.start.vm.queueFree.reverse.drop a ∧
      t'.freeCount = q.start.vm.freeCount - a ∧ t'.freeReserved = q.start.vm.freeReserved ∧
      (a < q.missing (n + 1) → q.start.vm.queueFree.reverse.length ≤ a ∨ q.shortAfter a))
    (hs : ∀ m, q.receiver n = some m → Served t' m q.object (pageOffset q.base n) q.lockValue) :
    Progress q (n + 1) t' := by
  have hne : ∀ i, i ≠ n → i < maxPages → pageOffset q.base i ≠ pageOffset q.base n :=
    fun i hin hi heq => hin (pageOffset_inj hi hn heq)
  refine ⟨ht.resident, fun p => (ht.physAddr p).trans (h.physAddr p), hp, ?_, ?_, ?_⟩
  · intro i hni hi
    rw [ht.lookup_ne h.resident (hne i (by omega) hi)]
    exact h.ahead i (by omega) hi
  · intro i hni hi m hm
    have hl : vmPageLookup t q.object (pageOffset q.base i) = some m := by rw [h.ahead i (by omega) hi, hm]
    obtain ⟨htab, -, hoff⟩ := (vmPageLookup_eq_some h.resident.table).mp hl
    have hmem : m ≠ mem := by
      rintro rfl
      exact hne i (by omega) hi (hoff.symm.trans (ht.before htab))
    rw [ht.others m hmem]
    exact h.same i (by omega) hi m hm
  · intro i hi m hm
    obtain hlt | rfl := Nat.lt_succ_iff_lt_or_eq.mp hi
    · have hserved := h.served i hlt m hm
      have hmem : m ≠ mem := by
        rintro rfl
        exact hne i (by omega) (by omega) (hserved.offset.symm.trans (ht.before hserved.tabled))
      have hpage := ht.others m hmem
      constructor <;> rw [hpage]
      · exact hserved.tabled
      · exact hserved.object
      · exact hserved.offset
      · exact hserved.present
      · exact hserved.idle
      · exact hserved.locked
    · exact hs m hm

theorem Progress.idle (h : Progress q n t) (hr : q.receiver n = none)
    (hp : ∃ a ≤ q.missing (n + 1), t.queueFree.reverse = q.start.vm.queueFree.reverse.drop a ∧
      t.freeCount = q.start.vm.freeCount - a ∧ t.freeReserved = q.start.vm.freeReserved ∧
      (a < q.missing (n + 1) → q.start.vm.queueFree.reverse.length ≤ a ∨ q.shortAfter a)) :
    Progress q (n + 1) t where
  resident := h.resident
  physAddr := h.physAddr
  pool := hp
  ahead i hi := h.ahead i (by omega)
  same i hi := h.same i (by omega)
  served i hi m hm := by
    obtain hlt | rfl := Nat.lt_succ_iff_lt_or_eq.mp hi
    · exact h.served i hlt m hm
    · rw [hr] at hm
      cases hm

theorem Progress.step_there {mem : PageId} (h : Progress q n t) (hn : n < maxPages)
    (hm : q.there n = some mem) : ∃ t' r, supplyPage t q.object (pageOffset q.base n) q.caller.vmPrivilege
      q.lockValue = some (t', r) ∧ r.filledPage = q.receiver n ∧ Progress q (n + 1) t' := by
  have hl : vmPageLookup t q.object (pageOffset q.base n) = some mem := by rw [h.ahead n (le_refl n) hn, hm]
  obtain ⟨htab, hobj, hoff⟩ := (vmPageLookup_eq_some h.resident.table).mp hl
  have hpage := h.same n (le_refl n) hn mem hm
  have hgo : supplyPage t q.object (pageOffset q.base n) q.caller.vmPrivilege q.lockValue =
      supplyTo t q.object mem q.lockValue := by
    simp [supplyPage, hl]
  have hmiss : q.missing (n + 1) = q.missing n := by simp [missing_succ, hm]
  have hpool := h.pool
  rw [← hmiss] at hpool
  have hrec : q.receiver n = if waits (t.page mem) then some mem else none := by
    rw [hpage]
    simp [receiver, hm]
  cases hw : waits (t.page mem) with
  | true =>
    obtain ⟨t', ht', hturn, hsame, hserved⟩ := supplyTo_waits _ q.lockValue h.resident htab hobj hoff hw
    rw [hw, if_pos rfl] at hrec
    refine ⟨t', .filled mem, hgo.trans ht', hrec.symm, h.turn hn hturn ?_ ?_⟩
    · rw [hsame.queue, hsame.count, hsame.reserved]
      exact hpool
    · intro m hmr
      cases Option.some.inj (hrec.symm.trans hmr)
      exact hserved
  | false =>
    rw [hw, if_neg Bool.false_ne_true] at hrec
    by_cases hb : (t.page mem).busy = true ∧ (t.page mem).absent = true
    · have hf : (t.page mem).fictitious = true := by simpa [waits, hb] using hw
      obtain ⟨t', ht', hturn, hsame⟩ :=
        supplyTo_fictitious q.object q.lockValue h.resident htab hoff hb.1 hb.2 hf
      refine ⟨t', .dropped, hgo.trans ht', hrec.symm, h.turn hn hturn ?_ ?_⟩
      · rw [hsame.queue, hsame.count, hsame.reserved]
        exact hpool
      · intro m hmr
        rw [hrec] at hmr
        cases hmr
    · refine ⟨t, .kept, ?_, hrec.symm, h.idle hrec hpool⟩
      rw [hgo]
      simp [supplyTo, hb]

theorem Progress.step_missing (h : Progress q n t) (hn : n < maxPages) (hm : q.there n = none) :
    ∃ t' r, supplyPage t q.object (pageOffset q.base n) q.caller.vmPrivilege q.lockValue = some (t', r) ∧
      r.filledPage = q.receiver n ∧ Progress q (n + 1) t' := by
  have hl : vmPageLookup t q.object (pageOffset q.base n) = none := by rw [h.ahead n (le_refl n) hn, hm]
  have hmiss : q.missing (n + 1) = q.missing n + 1 := by simp [missing_succ, hm]
  have hrec : q.receiver n = if q.shortAfter (q.missing n) then none
      else q.start.vm.queueFree.reverse[q.missing n]? := by
    simp [receiver, hm]
  obtain ⟨a, hak, hqueue, hcount, hreserved, hlast⟩ := h.pool
  have hshort : q.start.vm.queueFree.reverse.length ≤ a ∨ q.shortAfter a →
      t.queueFree = [] ∨ t.freeCount < t.freeReserved ∧ q.caller.vmPrivilege = false := by
    rintro (hlen | hs)
    · left
      rw [← List.reverse_eq_nil_iff, hqueue]
      exact List.drop_of_length_le hlen
    · right
      rw [hcount, hreserved]
      exact hs
  by_cases hs : q.start.vm.queueFree.reverse.length ≤ a ∨ q.shortAfter a
  · have hnone : q.receiver n = none := by
      rw [hrec]
      split
      next => rfl
      next hns =>
        obtain hlen | hs := hs
        · exact List.getElem?_eq_none (by omega)
        · refine absurd ⟨?_, hs.2⟩ hns
          have := hs.1
          omega
    refine ⟨t, .shortage, supplyPage_short hl (hshort hs), hnone.symm, h.idle hnone ?_⟩
    exact ⟨a, by omega, hqueue, hcount, hreserved, fun _ => hs⟩
  · have hak : a = q.missing n := by
      by_contra hne
      exact hs (hlast (by omega))
    subst hak
    have hlt : q.missing n < q.start.vm.queueFree.reverse.length := by
      by_contra hge
      exact hs (.inl (by omega))
    have hnshort : ¬q.shortAfter (q.missing n) := fun hc => hs (.inr hc)
    have hlastq : t.queueFree.getLast? = some q.start.vm.queueFree.reverse[q.missing n] := by
      rw [← List.head?_reverse, hqueue, List.head?_drop]
      exact List.getElem?_eq_getElem hlt
    have hroom : ¬(t.freeCount < t.freeReserved ∧ q.caller.vmPrivilege = false) := by
      rw [hcount, hreserved]
      exact hnshort
    obtain ⟨t', ht', hturn, hqueue', hcount', hreserved', hserved⟩ :=
      supplyPage_allocates q.lockValue h.resident hl hlastq hroom
    rw [if_neg hnshort, List.getElem?_eq_getElem hlt] at hrec
    refine ⟨t', _, ht', hrec.symm, h.turn hn hturn ?_ ?_⟩
    · refine ⟨q.missing n + 1, by omega, ?_, ?_, hreserved'.trans hreserved, fun hc => absurd hc (by omega)⟩
      · rw [hqueue', hqueue, List.tail_drop]
      · rw [hcount', hcount]
        push_cast
        omega
    · intro m hmr
      cases Option.some.inj (hrec.symm.trans hmr)
      exact hserved

theorem Progress.step (h : Progress q n t) (hn : n < maxPages) :
    ∃ t' r, supplyPage t q.object (pageOffset q.base n) q.caller.vmPrivilege q.lockValue = some (t', r) ∧
      r.filledPage = q.receiver n ∧ Progress q (n + 1) t' := by
  cases hm : q.there n with
  | none => exact h.step_missing hn hm
  | some mem => exact h.step_there hn hm

theorem copies_succ (q : DataCall) (n : Nat) : q.copies (n + 1) = q.copies n ++ q.copyOf n := by
  simp [copies, List.range_succ]

/-- What the copies of the first so many turns leave in physical memory. -/
def physAfter (q : DataCall) (n : Nat) : Nat → UInt8 :=
  (q.copies n).foldl (Stores.store (CopiedByte.target q.caller) (CopiedByte.value q.data)) q.start.phys

theorem physAfter_filled {mem : PageId} (hr : q.receiver n = some mem) :
    q.physAfter (n + 1) = copyBytes (copyAddr q.caller n (q.frame mem)) (fun b => q.data (n * pageBytes + b))
      (q.dataCnt.toNat - n * pageBytes) (q.physAfter n) := by
  rw [physAfter, copies_succ, List.foldl_append, copyOf, hr]
  simp only
  rw [List.foldl_map]
  rfl

theorem physAfter_unfilled (hr : q.receiver n = none) : q.physAfter (n + 1) = q.physAfter n := by
  rw [physAfter, copies_succ, copyOf, hr]
  simp [physAfter]

theorem provideTurn_progress {st : ReplyState × KernReturn} (h : Progress q n st.1.vm)
    (hp : st.1.phys = q.physAfter n) (hn : n < maxPages) :
    ∃ st', provideTurn q.caller q.object q.base q.data q.dataCnt.toNat q.lockValue st n = some st' ∧
      Progress q (n + 1) st'.1.vm ∧ st'.1.phys = q.physAfter (n + 1) := by
  obtain ⟨vm, r, hs, hr, hnext⟩ := h.step hn
  refine ⟨_, by rw [provideTurn, hs]; rfl, ?_⟩
  cases r with
  | filled mem =>
    refine ⟨hnext, ?_⟩
    rw [physAfter_filled hr.symm, ← hp]
    simp only [hnext.physAddr mem]
    rfl
  | kept => exact ⟨hnext, hp.trans (physAfter_unfilled hr.symm).symm⟩
  | dropped => exact ⟨hnext, hp.trans (physAfter_unfilled hr.symm).symm⟩
  | shortage => exact ⟨hnext, hp.trans (physAfter_unfilled hr.symm).symm⟩

theorem provide_progress (h : ResidentInv q.start.vm) (hn : n ≤ maxPages) :
    ∃ st, (List.range n).foldlM (provideTurn q.caller q.object q.base q.data q.dataCnt.toNat q.lockValue)
      (q.start, .failure) = some st ∧ Progress q n st.1.vm ∧ st.1.phys = q.physAfter n := by
  induction n with
  | zero => exact ⟨_, rfl, Progress.zero h, rfl⟩
  | succ n ih =>
    obtain ⟨st, hst, hprog, hphys⟩ := ih (by omega)
    obtain ⟨st', hst', hnext⟩ := provideTurn_progress hprog hphys (by omega)
    refine ⟨st', ?_, hnext⟩
    rw [List.range_succ, List.foldlM_append, hst]
    simp [hst']

theorem receiver_hasFrame (h : ResidentInv q.start.vm) {i : Nat} {mem : PageId}
    (hr : q.receiver i = some mem) : HasFrame (q.start.vm.page mem) := by
  unfold receiver at hr
  split at hr
  next m hm =>
    split at hr
    next hw =>
      cases Option.some.inj hr
      obtain ⟨htab, -, -⟩ := (vmPageLookup_eq_some h.table).mp hm
      refine .inr ⟨htab, ?_⟩
      simp only [waits, Bool.and_eq_true, Bool.not_eq_true'] at hw
      exact hw.2
    next => cases hr
  next =>
    split at hr
    next => cases hr
    next =>
      have hmem := List.mem_reverse.mp (List.mem_of_getElem? hr)
      exact .inl ((h.queues.free.mem_iff mem).mp hmem)

theorem receiver_there {i : Nat} {mem m : PageId} (hr : q.receiver i = some mem) (hm : q.there i = some m) :
    m = mem := by
  simp only [receiver, hm] at hr
  split at hr
  next => exact Option.some.inj hr
  next => cases hr

theorem receiver_missing {i : Nat} {mem : PageId} (hr : q.receiver i = some mem) (hm : q.there i = none) :
    q.start.vm.queueFree.reverse[q.missing i]? = some mem := by
  simp only [receiver, hm] at hr
  split at hr
  next => cases hr
  next => exact hr

theorem receiver_unserved (h : ResidentInv q.start.vm) {i : Nat} {mem : PageId} (hr : q.receiver i = some mem)
    {o : ObjId} {off : VmOffset} {lock : VmProt} : ¬Served q.start.vm mem o off lock := by
  intro hs
  cases hm : q.there i with
  | some m =>
    simp only [receiver, hm] at hr
    split at hr
    next hw =>
      cases Option.some.inj hr
      simp [waits, hs.present] at hw
    next => cases hr
  | none =>
    have hmem := List.mem_reverse.mp (List.mem_of_getElem? (receiver_missing hr hm))
    have htab := h.free_untabled mem ((h.queues.free.mem_iff mem).mp hmem)
    rw [hs.tabled] at htab
    cases htab

theorem missing_lt {i j : Nat} (hij : i < j) (hm : q.there i = none) : q.missing i < q.missing j := by
  have hmono : ∀ k, q.missing (i + 1) ≤ q.missing (i + 1 + k) := by
    intro k
    induction k with
    | zero => exact le_refl _
    | succ k ih =>
      have hnext := missing_succ q (i + 1 + k)
      rw [Nat.add_assoc] at hnext
      omega
  have hk := hmono (j - (i + 1))
  rw [missing_succ, hm] at hk
  have hj : i + 1 + (j - (i + 1)) = j := by omega
  rw [hj] at hk
  simp at hk
  omega

theorem receiver_ne (h : ResidentInv q.start.vm) {i j : Nat} {m m' : PageId} (hj : j < q.pages) (hij : i < j)
    (hm : q.receiver i = some m) (hm' : q.receiver j = some m') : m ≠ m' := by
  have hle := q.pages_le
  have hfree : ∀ {k : Nat} {p : PageId}, q.there k = none → q.receiver k = some p →
      (q.start.vm.page p).tabled = false := by
    intro k p hk hp
    have hmem := List.mem_reverse.mp (List.mem_of_getElem? (receiver_missing hp hk))
    exact h.free_untabled p ((h.queues.free.mem_iff p).mp hmem)
  rintro rfl
  cases hi : q.there i with
  | some p =>
    cases receiver_there hm hi
    obtain ⟨htab, -, hoff⟩ := (vmPageLookup_eq_some h.table).mp hi
    cases hk : q.there j with
    | some p' =>
      cases receiver_there hm' hk
      obtain ⟨-, -, hoff'⟩ := (vmPageLookup_eq_some h.table).mp hk
      have := pageOffset_inj (by omega) (by omega) (hoff.symm.trans hoff')
      omega
    | none =>
      rw [hfree hk hm'] at htab
      cases htab
  | none =>
    cases hk : q.there j with
    | some p' =>
      cases receiver_there hm' hk
      obtain ⟨htab, -, -⟩ := (vmPageLookup_eq_some h.table).mp hk
      rw [hfree hi hm] at htab
      cases htab
    | none =>
      have hlt := missing_lt hij hi
      have hi' := receiver_missing hm hi
      have hj' := receiver_missing hm' hk
      obtain ⟨hb, -⟩ := List.getElem?_eq_some_iff.mp hi'
      have hnd : q.start.vm.queueFree.reverse.Nodup := List.nodup_reverse.mpr h.queues.free.nodup
      have := (List.getElem?_inj hb hnd).mp (hi'.trans hj'.symm)
      omega

theorem belongs_own (h : ResidentInv q.start.vm) (hf : FramesApart q.start.vm) {i b : Nat} {mem : PageId}
    (hi : i < q.pages) (hr : q.receiver i = some mem) (hb : b < pageBytes) :
    q.Belongs (q.frame mem + b) (q.data (i * pageBytes + b)) := by
  constructor
  · intro j hj m hm b' hb' heq
    obtain hlt | rfl | hgt := Nat.lt_trichotomy i j
    · exact absurd heq (hf mem m (receiver_hasFrame h hr) (receiver_hasFrame h hm)
        (receiver_ne h hj hlt hr hm) b hb b' hb')
    · cases Option.some.inj (hr.symm.trans hm)
      have : b = b' := by omega
      rw [this]
    · exact absurd heq (hf mem m (receiver_hasFrame h hr) (receiver_hasFrame h hm)
        (receiver_ne h hi hgt hm hr).symm b hb b' hb')
  · intro hno
    exact absurd rfl (hno i hi mem hr b hb)

theorem mem_copies {x : CopiedByte} {n : Nat} : x ∈ q.copies n ↔
    ∃ i < n, ∃ mem b, q.receiver i = some mem ∧ b < q.dataCnt.toNat - i * pageBytes ∧
      x = ⟨i, q.frame mem, b⟩ := by
  simp only [copies, List.mem_flatMap, List.mem_range]
  refine exists_congr fun i => and_congr_right fun _ => ?_
  cases hr : q.receiver i with
  | none => simp [copyOf, hr]
  | some mem =>
    simp only [copyOf, hr, List.mem_map, List.mem_range]
    constructor
    · rintro ⟨b, hb, hx⟩
      exact ⟨mem, b, rfl, hb, hx.symm⟩
    · rintro ⟨m, b, hm, hb, hx⟩
      cases Option.some.inj hm
      exact ⟨b, hb, hx.symm⟩

theorem physAfter_belongs (h : ResidentInv q.start.vm) (hf : FramesApart q.start.vm) :
    (∀ p, q.Belongs p (q.physAfter q.pages p)) ↔ q.StraysRight := by
  have hown : ∀ x ∈ q.copies q.pages, x.byte < pageBytes → ∀ p, x.target q.caller = some p →
      q.Belongs p (x.value q.data) := by
    intro x hx hb p hp
    obtain ⟨i, hi, mem, b, hr, -, rfl⟩ := mem_copies.mp hx
    have hin : b < pageBytes ∨ q.caller.user = false := .inl hb
    rw [CopiedByte.target, copyAddr, if_pos hin] at hp
    cases Option.some.inj hp
    exact belongs_own h hf hi hr hb
  constructor
  · intro hall l₁ x l₂ hl hb p hp hlast
    have hx := hall p
    rw [physAfter, hl, Stores.foldl_last hp hlast] at hx
    exact hx
  · intro hstray p
    obtain hno | ⟨l₁, x, l₂, hl, hp, hlast⟩ :=
      Stores.last_or_untouched (CopiedByte.target q.caller) (q.copies q.pages) p
    · rw [physAfter, Stores.foldl_untouched hno]
      refine ⟨?_, fun _ => rfl⟩
      intro i hi mem hr b hb heq
      refine absurd ?_ (hno ⟨i, q.frame mem, b⟩ (mem_copies.mpr ⟨i, hi, mem, b, hr, ?_, rfl⟩))
      · simp [CopiedByte.target, copyAddr, hb, heq]
      · have hfull : (i + 1) * pageBytes ≤ q.dataCnt.toNat :=
          (Nat.mul_le_mul_right _ hi).trans (Nat.div_mul_le_self _ _)
        rw [Nat.succ_mul] at hfull
        omega
    · rw [physAfter, hl, Stores.foldl_last hp hlast]
      by_cases hb : x.byte < pageBytes
      · exact hown x (by rw [hl]; simp) hb p hp
      · exact hstray l₁ x l₂ hl (by omega) p hp hlast

theorem straysRight_of_last (h : ∀ i < q.pages, ∀ mem, q.receiver i = some mem →
    q.dataCnt.toNat = (i + 1) * pageBytes) : q.StraysRight := by
  intro l₁ x l₂ hl hb
  obtain ⟨i, hi, mem, b, hr, hlt, rfl⟩ := mem_copies.mp (show x ∈ q.copies q.pages by rw [hl]; simp)
  rw [h i hi mem hr, Nat.succ_mul] at hlt
  simp only at hb
  omega

theorem run_refused (hl : q.lockValue &&& ~~~protAll ≠ 0) :
    q.run = some (q.start.deallocate q.object, .invalidArgument) := if_pos hl

theorem run_provides (h : ResidentInv q.start.vm) (hl : q.lockValue &&& ~~~protAll = 0) :
    ∃ st : ReplyState × KernReturn, q.run = some (st.1.deallocate q.object, st.2) ∧
      Progress q q.pages st.1.vm ∧ st.1.phys = q.physAfter q.pages := by
  obtain ⟨st, hst, hprog, hphys⟩ := provide_progress h q.pages_le
  refine ⟨st, ?_, hprog, hphys⟩
  simp only [run, memoryObjectDataProvided, hl, ne_eq, not_true_eq_false, if_false]
  change Option.map _ ((List.range q.pages).foldlM (provideTurn q.caller q.object q.base q.data
    q.dataCnt.toNat q.lockValue) (q.start, .failure)) = _
  rw [hst]
  rfl

/-- The call delivers exactly when no copy leaves a wrong byte behind its page; a lock that is none
is refused, which is right only if no page waits. -/
theorem memoryObjectDataProvided_delivers (q : DataCall) (h : ResidentInv q.start.vm)
    (hf : FramesApart q.start.vm) : (∃ t kr, q.run = some (t, kr) ∧ q.Delivers t) ↔
      if q.lockValue &&& ~~~protAll = 0 then q.StraysRight else ∀ i < q.pages, q.receiver i = none := by
  split
  next hlock =>
    obtain ⟨st, hrun, hprog, hphys⟩ := run_provides h hlock
    rw [← physAfter_belongs h hf, ← hphys]
    constructor
    · rintro ⟨t, kr, ht, hd⟩
      cases hrun.symm.trans ht
      exact hd.memory
    · intro hall
      exact ⟨_, _, hrun, fun i hi m hm => hprog.served i hi m hm, hall,
        memoryObjectDataProvided_released hrun⟩
  next hlock =>
    constructor
    · rintro ⟨t, kr, ht, hd⟩ i hi
      cases (run_refused hlock).symm.trans ht
      cases hr : q.receiver i with
      | none => rfl
      | some mem => exact absurd (hd.served i hi mem hr) (receiver_unserved h hr)
    · intro hno
      have hnone : ∀ {i mem}, i < q.pages → q.receiver i = some mem → False := by
        intro i mem hi hm
        rw [hno i hi] at hm
        cases hm
      refine ⟨_, _, run_refused hlock, fun i hi mem hm => absurd hm (hnone hi), ?_, rfl⟩
      exact fun p => ⟨fun i hi mem hm => absurd hm (hnone hi), fun _ => rfl⟩

/-- No page is in use. The frame that is given away first is at `a`. -/
def twoFrames (a b : VmOffset) : VmState where
  page mem := if mem = 0 then { free := true, physAddr := b }
    else if mem = 1 then { free := true, physAddr := a } else {}
  queueFree := [0, 1]
  freeCount := 2

/-- The kernel provides the first pages of an object, every byte of them a one. -/
def onesCall (a b : VmOffset) (dataCnt : BitVec 32) : DataCall where
  caller := {}
  start := ⟨twoFrames a b, fun _ => 0, []⟩
  object := 1
  offset := 0
  data := fun _ => 1
  dataCnt := dataCnt
  lockValue := 0

theorem twoFrames_page (a b : VmOffset) (p : PageId) : ((twoFrames a b).page p).active = false ∧
    ((twoFrames a b).page p).inactive = false ∧ ((twoFrames a b).page p).tabled = false ∧
    (((twoFrames a b).page p).free = true ↔ p = 0 ∨ p = 1) ∧ ((twoFrames a b).page p).wireCount = 0 := by
  by_cases h₀ : p = 0
  · simp [twoFrames, h₀]
  · by_cases h₁ : p = 1 <;> simp [twoFrames, h₀, h₁]

theorem twoFrames_resident (a b : VmOffset) : ResidentInv (twoFrames a b) := by
  have hp := twoFrames_page a b
  have hnil : ∀ f : PageId → Prop, (∀ p, ¬f p) → Mirror.Mirrors [] f :=
    fun f hf => Mirror.mirrors_nil.congr fun p => iff_of_false id (hf p)
  refine ⟨⟨?_, ?_, ?_, rfl, rfl, rfl, ?_, ?_, ?_⟩, ⟨?_, ?_, fun _ => rfl, ?_, ?_⟩, fun p _ => (hp p).2.2.1⟩
  · exact ⟨show [0, 1].Nodup by decide, fun p => by rw [(hp p).2.2.2.1]; simp [twoFrames]⟩
  · exact hnil _ fun p h => by simp [(hp p).1] at h
  · exact hnil _ fun p h => by simp [(hp p).2.1] at h
  · exact fun p _ => ⟨(hp p).1, (hp p).2.1⟩
  · exact fun p _ => (hp p).2.1
  · exact fun p _ => ⟨(hp p).1, (hp p).2.1⟩
  · exact fun b => hnil _ fun p h => by simp [(hp p).2.2.1] at h
  · exact fun o => hnil _ fun p h => by simp [(hp p).2.2.1] at h
  · exact fun p h => by simp [(hp p).2.2.1] at h
  · exact fun p _ h => by simp [(hp p).2.2.1] at h

theorem twoFrames_apart {a b : VmOffset}
    (h : a.toNat + pageBytes ≤ b.toNat ∨ b.toNat + pageBytes ≤ a.toNat) : FramesApart (twoFrames a b) := by
  have hown : ∀ p, HasFrame ((twoFrames a b).page p) → p = 0 ∨ p = 1 := by
    rintro p (hf | ⟨ht, -⟩)
    · exact (twoFrames_page a b p).2.2.2.1.mp hf
    · rw [(twoFrames_page a b p).2.2.1] at ht
      cases ht
  have h₀ : ((twoFrames a b).page 0).physAddr = b := rfl
  have h₁ : ((twoFrames a b).page 1).physAddr = a := rfl
  intro m m' hm hm' hne c hc c' hc'
  obtain rfl | rfl := hown m hm <;> obtain rfl | rfl := hown m' hm'
  · exact absurd rfl hne
  · rw [h₀, h₁]
    omega
  · rw [h₀, h₁]
    omega
  · exact absurd rfl hne

/-- The second frame is behind the first one, and takes the bytes that the first copy puts there. -/
theorem adjacentPages_deliver : ∃ t kr, (onesCall 0x3000 0x4000 0x2000).run = some (t, kr) ∧
    (onesCall 0x3000 0x4000 0x2000).Delivers t := by
  refine (memoryObjectDataProvided_delivers (onesCall 0x3000 0x4000 0x2000) (twoFrames_resident _ _)
    (twoFrames_apart (by decide))).mpr ?_
  rw [if_pos (by decide)]
  intro l₁ x l₂ hl hb p hp _
  obtain ⟨i, hi, mem, b, hr, hlt, rfl⟩ := mem_copies.mp (show x ∈ _ by rw [hl]; simp)
  have hcnt : (onesCall 0x3000 0x4000 0x2000).dataCnt.toNat = 2 * pageBytes := rfl
  have hr₀ : (onesCall 0x3000 0x4000 0x2000).receiver 0 = some 1 := by decide +kernel
  have hr₁ : (onesCall 0x3000 0x4000 0x2000).receiver 1 = some 0 := by decide +kernel
  rw [hcnt] at hlt
  simp only at hb
  have hi₀ : i = 0 := by
    unfold pageBytes at hlt hb
    omega
  subst hi₀
  cases Option.some.inj (hr₀.symm.trans hr)
  have hp : 0x3000 + b = p := by
    rw [CopiedByte.target, copyAddr, if_pos (.inr rfl)] at hp
    exact Option.some.inj hp
  refine ⟨fun _ _ _ _ _ _ _ => rfl, fun hno => absurd ?_ (hno 1 (by decide) 0 hr₁ (b - pageBytes) ?_)⟩
  · have hframe : (onesCall 0x3000 0x4000 0x2000).frame 0 = 0x3000 + pageBytes := rfl
    omega
  · omega

theorem twoPages_stray : (onesCall 0x5000 0x3000 0x2000).physAfter 2 0x6000 = 1 := by
  have hr : (onesCall 0x5000 0x3000 0x2000).receiver 0 = some 1 := by decide +kernel
  obtain hno | ⟨l₁, x, l₂, hl, hp, hlast⟩ := Stores.last_or_untouched
    (CopiedByte.target (onesCall 0x5000 0x3000 0x2000).caller) ((onesCall 0x5000 0x3000 0x2000).copies 2) 0x6000
  · refine absurd ?_ (hno ⟨0, 0x5000, 0x1000⟩ (mem_copies.mpr ⟨0, by omega, 1, 0x1000, hr, by decide, ?_⟩))
    · rfl
    · rfl
  · rw [physAfter, hl, Stores.foldl_last hp hlast]
    rfl

theorem twoPages_not_delivered : ∃ t kr, (onesCall 0x5000 0x3000 0x2000).run = some (t, kr) ∧
    ¬(onesCall 0x5000 0x3000 0x2000).Delivers t := by
  obtain ⟨st, hrun, -, hphys⟩ := run_provides (q := onesCall 0x5000 0x3000 0x2000) (twoFrames_resident _ _) (by decide)
  refine ⟨_, _, hrun, fun hd => ?_⟩
  have hkeep := (hd.memory 0x6000).2
  have hbyte : (st.1.deallocate (onesCall 0x5000 0x3000 0x2000).object).phys 0x6000 = 1 := by
    have : st.1.phys 0x6000 = 1 := by
      rw [hphys]
      exact twoPages_stray
    exact this
  rw [hbyte] at hkeep
  refine absurd (hkeep ?_) (by decide)
  intro i hi mem hm b hb
  have hr₀ : (onesCall 0x5000 0x3000 0x2000).receiver 0 = some 1 := by decide +kernel
  have hr₁ : (onesCall 0x5000 0x3000 0x2000).receiver 1 = some 0 := by decide +kernel
  have hi : i < 2 := hi
  unfold pageBytes at hb
  obtain rfl | rfl : i = 0 ∨ i = 1 := by omega
  · cases Option.some.inj (hr₀.symm.trans hm)
    have : (onesCall 0x5000 0x3000 0x2000).frame 1 = 0x5000 := by decide
    omega
  · cases Option.some.inj (hr₁.symm.trans hm)
    have : (onesCall 0x5000 0x3000 0x2000).frame 0 = 0x3000 := by decide
    omega

end DataCall
end Pager
end MachVM
