import MachVM.IpcCopyinKernel

namespace MachVM.Ipc

open Space (SState Item KernObjId)

variable {τ : Type} {a : IpcMaps}

namespace IpcMaps

/-- The pages that `bytes` bytes from `source` on touch. -/
def pageCount (a : IpcMaps) (source bytes : Word) : Nat :=
  (source.toNat % a.pageSize + bytes.toNat + (a.pageSize - 1)) / a.pageSize

theorem pageSize_pos (a : IpcMaps) : 0 < a.pageSize := Nat.two_pow_pos _

theorem pageSize_mul (a : IpcMaps) : 2 ^ (32 - a.pageShift) * a.pageSize = 2 ^ 32 := by
  have hs := a.small
  rw [pageSize, ← Nat.pow_add]
  congr 1
  omega

theorem pageSize_le (a : IpcMaps) : a.pageSize ≤ 2 ^ 30 := Nat.pow_le_pow_right (by decide) a.small

theorem truncPage_toNat (a : IpcMaps) (x : Word) :
    (a.truncPage x).toNat = x.toNat / a.pageSize * a.pageSize := by
  have hle := Nat.div_mul_le_self x.toNat a.pageSize
  have hlt := x.isLt
  rw [truncPage, BitVec.toNat_ofNat, Nat.mod_eq_of_lt (by omega)]

theorem truncPage_div (a : IpcMaps) (x : Word) :
    (a.truncPage x).toNat / a.pageSize = x.toNat / a.pageSize := by
  rw [truncPage_toNat, Nat.mul_div_cancel _ a.pageSize_pos]

theorem roundPage_div (a : IpcMaps) (x : Word) :
    (a.roundPage x).toNat / a.pageSize = (x.toNat + (a.pageSize - 1)) % 2 ^ 32 / a.pageSize := by
  have hle := a.pageSize_le
  have hmask : (BitVec.ofNat 32 (a.pageSize - 1)).toNat = a.pageSize - 1 := by
    rw [BitVec.toNat_ofNat, Nat.mod_eq_of_lt (by omega)]
  rw [roundPage, truncPage_div, BitVec.toNat_add, hmask]

theorem roundPage_div_of_le {x : Word} (h : x.toNat + a.pageSize ≤ 2 ^ 32) :
    (a.roundPage x).toNat / a.pageSize = (x.toNat + (a.pageSize - 1)) / a.pageSize := by
  have hpos := a.pageSize_pos
  rw [roundPage_div, Nat.mod_eq_of_lt (by omega)]

theorem highPage_le (a : IpcMaps) (isPort : Bool) :
    (a.highPage isPort + 1) * a.pageSize ≤ 2 ^ 32 := by
  refine Nat.le_trans (Nat.mul_le_mul_right _ ?_) a.inside
  have hle := a.apart
  have hord := a.ordered
  cases isPort with
  | true => exact Nat.le_refl _
  | false => exact Nat.succ_le_succ (Nat.le_trans hle hord)

theorem wrap_sub {q n m : Nat} (hq : q < m) (hn : n < m) : (m - q + (q + n) % m) % m = n := by
  by_cases hw : q + n < m
  · have he : m - q + (q + n) = m + n := by omega
    rw [Nat.mod_eq_of_lt hw, he, Nat.add_mod_left, Nat.mod_eq_of_lt hn]
  · have he : m - q + (q + n - m) = n := by omega
    have hr : (q + n) % m = q + n - m := by
      rw [Nat.mod_eq_sub_mod (by omega), Nat.mod_eq_of_lt (by omega)]
    rw [hr, he, Nat.mod_eq_of_lt hn]

section Count

variable {source bytes : Word} (hb : bytes ≠ 0 ∧ bytes.toNat < 2 ^ 29)

include hb

theorem pageCount_pos : 0 < a.pageCount source bytes := by
  have hne : bytes.toNat ≠ 0 := fun hz => hb.1 (BitVec.eq_of_toNat_eq hz)
  have hpos := a.pageSize_pos
  exact Nat.div_pos (by omega) hpos

theorem pageCount_lt : a.pageCount source bytes < 2 ^ (32 - a.pageShift) := by
  have hle := a.pageSize_le
  have hmod := Nat.mod_lt source.toNat a.pageSize_pos
  rw [pageCount, Nat.div_lt_iff_lt_mul a.pageSize_pos, a.pageSize_mul]
  omega

theorem srcSize_toNat :
    (KernelState.srcSize a source bytes).toNat = a.pageCount source bytes * a.pageSize := by
  have hpos := a.pageSize_pos
  have hmul := a.pageSize_mul
  have hlt := @pageCount_lt a source bytes hb
  have hsrc := source.isLt
  generalize hK : 2 ^ (32 - a.pageShift) = K at hmul hlt
  have hq : source.toNat / a.pageSize < K := by
    rw [Nat.div_lt_iff_lt_mul hpos, hmul]
    exact hsrc
  have hsum : (source.toNat + bytes.toNat + (a.pageSize - 1)) / a.pageSize =
      source.toNat / a.pageSize + a.pageCount source bytes := by
    have hsplit := Nat.div_add_mod source.toNat a.pageSize
    rw [pageCount, ← Nat.mul_add_div hpos]
    congr 1
    omega
  have hround : (a.roundPage (source + bytes)).toNat =
      (source.toNat / a.pageSize + a.pageCount source bytes) % K * a.pageSize := by
    have hdiv : (a.roundPage (source + bytes)).toNat / a.pageSize =
        (source.toNat / a.pageSize + a.pageCount source bytes) % K := by
      rw [roundPage_div, BitVec.toNat_add, Nat.mod_add_mod, ← hmul, Nat.mul_comm K,
        Nat.mod_mul_right_div_self, hsum]
    rw [← hdiv, roundPage, truncPage_toNat, Nat.mul_div_cancel _ hpos]
  rw [KernelState.srcSize, BitVec.toNat_sub, hround, truncPage_toNat]
  show (2 ^ 32 - _ + _) % 2 ^ 32 = _
  rw [← hmul, ← Nat.sub_mul, ← Nat.add_mul, Nat.mul_mod_mul_right]
  congr 1
  exact wrap_sub hq hlt

end Count

end IpcMaps

/-! ## The maps -/

/-- A region that `vm_move` made for a message. -/
structure Region where
  isPort : Bool
  address : Word
  bytes : Word
  deriving DecidableEq, Repr

namespace Region

def first (a : IpcMaps) (r : Region) : Nat := r.address.toNat / a.pageSize

def last (a : IpcMaps) (r : Region) : Nat :=
  (r.address.toNat + r.bytes.toNat + (a.pageSize - 1)) / a.pageSize

def covers (a : IpcMaps) (b : Bool) (p : Nat) (r : Region) : Bool :=
  decide (b = r.isPort ∧ r.bytes ≠ 0 ∧ r.first a ≤ p ∧ p < r.last a)

theorem covers_iff {a : IpcMaps} {b : Bool} {p : Nat} {r : Region} :
    r.covers a b p = true ↔ b = r.isPort ∧ r.bytes ≠ 0 ∧ r.first a ≤ p ∧ p < r.last a :=
  decide_eq_true_iff

/-- The region ends before the address space does. -/
def Fits (a : IpcMaps) (r : Region) : Prop := r.address.toNat + r.bytes.toNat + a.pageSize ≤ 2 ^ 32

end Region

namespace KernelState

variable {k : KernelState τ} {isPort : Bool} {source bytes : Word}

theorem setPages_pages (k : KernelState τ) (isPort : Bool) (first last : Nat) (v b : Bool) (p : Nat) :
    (k.setPages isPort first last v).pages b p =
      if b = isPort ∧ first ≤ p ∧ p < last then v else k.pages b p := by
  unfold setPages
  dsimp only
  by_cases hb : b = isPort
  · subst hb
    simp only [Function.update_self, true_and]
  · simp only [Function.update_of_ne hb, hb, false_and, if_false]

theorem findSpace_some {n p : Nat} (h : k.findSpace a isPort n = some p) :
    a.lowPage isPort ≤ p ∧ p + n ≤ a.highPage isPort ∧ ∀ q, p ≤ q → q < p + n → k.pages isPort q = false := by
  have hp := List.find?_some h
  simp only [Bool.and_eq_true, decide_eq_true_eq, List.all_eq_true, List.mem_range,
    Bool.not_eq_true'] at hp
  obtain ⟨⟨hlow, hhigh⟩, hfree⟩ := hp
  refine ⟨hlow, hhigh, fun q hq hlt => ?_⟩
  have hq' := hfree (q - p) (by omega)
  rwa [show p + (q - p) = q by omega] at hq'

/-- What `vm_move` allocates, whether the copy then fails or not. -/
structure Allocated (a : IpcMaps) (k k' : KernelState τ) (r : Region) : Prop where
  low : a.lowPage r.isPort ≤ r.first a
  high : r.last a ≤ a.highPage r.isPort
  some : r.first a < r.last a
  fits : r.Fits a
  free : ∀ q, r.first a ≤ q → q < r.last a → k.pages r.isPort q = false
  pages : k'.pages = (k.setPages r.isPort (r.first a) (r.last a) true).pages
  space : k'.space = k.space
  mine : k'.mine = k.mine
  kmsgs : k'.kmsgs = k.kmsgs

theorem moved_region {p : Nat} (hb : bytes ≠ 0 ∧ bytes.toNat < 2 ^ 29)
    (hple : (p + a.pageCount source bytes + 1) * a.pageSize ≤ 2 ^ 32) {address : Word}
    (hx : BitVec.ofNat 32 (p * a.pageSize) + (source - a.truncPage source) = address) :
    Region.first a ⟨isPort, address, bytes⟩ = p ∧
      Region.last a ⟨isPort, address, bytes⟩ = p + a.pageCount source bytes ∧
      Region.Fits a ⟨isPort, address, bytes⟩ := by
  have hpos := a.pageSize_pos
  have hcount := @IpcMaps.pageCount_pos a source bytes hb
  have hmod := Nat.mod_lt source.toNat hpos
  rw [Nat.add_mul, Nat.add_mul, Nat.one_mul] at hple
  have hsub : (source - a.truncPage source).toNat = source.toNat % a.pageSize := by
    have hle := Nat.div_mul_le_self source.toNat a.pageSize
    rw [BitVec.toNat_sub_of_le (by rw [BitVec.le_def, a.truncPage_toNat]; exact hle),
      a.truncPage_toNat, Nat.mod_eq_sub_div_mul]
  have haddr : address.toNat = p * a.pageSize + source.toNat % a.pageSize := by
    have hmul : a.pageSize ≤ a.pageCount source bytes * a.pageSize := Nat.le_mul_of_pos_left _ hcount
    have hp : p * a.pageSize % 2 ^ 32 = p * a.pageSize := Nat.mod_eq_of_lt (by omega)
    rw [← hx, BitVec.toNat_add, BitVec.toNat_ofNat, hsub, hp, Nat.mod_eq_of_lt (by omega)]
  refine ⟨?_, ?_, ?_⟩
  · rw [Region.first, haddr, Nat.mul_comm, Nat.mul_add_div hpos, Nat.div_eq_of_lt hmod, Nat.add_zero]
  · rw [Region.last, haddr, IpcMaps.pageCount, ← Nat.mul_add_div hpos, Nat.mul_comm p]
    congr 1
    dsimp only
    omega
  · have hceil := Nat.div_add_mod (source.toNat % a.pageSize + bytes.toNat + (a.pageSize - 1)) a.pageSize
    have hrest := Nat.mod_lt (source.toNat % a.pageSize + bytes.toNat + (a.pageSize - 1)) hpos
    rw [Nat.mul_comm] at hceil
    unfold Region.Fits IpcMaps.pageCount at *
    dsimp only
    omega

theorem vmAllocate_srcSize (hb : bytes ≠ 0 ∧ bytes.toNat < 2 ^ 29) :
    k.vmAllocate a isPort (srcSize a source bytes) =
      (k.findSpace a isPort (a.pageCount source bytes)).map fun p =>
        (BitVec.ofNat 32 (p * a.pageSize), k.setPages isPort p (p + a.pageCount source bytes) true) := by
  have hpos := a.pageSize_pos
  have hcount := @IpcMaps.pageCount_pos a source bytes hb
  have hcountlt := @IpcMaps.pageCount_lt a source bytes hb
  have hsize := @IpcMaps.srcSize_toNat a source bytes hb
  have hne : srcSize a source bytes ≠ 0 := by
    intro hz
    rw [hz] at hsize
    have hmul := Nat.mul_pos hcount hpos
    have hzero : (0 : Word).toNat = 0 := rfl
    omega
  have hround : (a.roundPage (srcSize a source bytes)).toNat / a.pageSize = a.pageCount source bytes := by
    have hle : (a.pageCount source bytes + 1) * a.pageSize ≤ 2 ^ 32 := by
      rw [← a.pageSize_mul]
      exact Nat.mul_le_mul_right _ hcountlt
    rw [Nat.add_mul, Nat.one_mul] at hle
    rw [IpcMaps.roundPage_div_of_le (by omega), hsize, Nat.mul_comm, Nat.mul_add_div hpos,
      Nat.div_eq_of_lt (by omega), Nat.add_zero]
  rw [vmAllocate, if_neg hne, hround]

theorem vmMove_cases {copy : τ → Word → Word → Bool → τ × Option (Nat → Word)} {deallocate : Bool}
    (hb : bytes ≠ 0 ∧ bytes.toNat < 2 ^ 29) :
    (k.vmAllocate a isPort (srcSize a source bytes) = none ∧
        k.vmMove a copy isPort source bytes deallocate = (k, none)) ∨
      ∃ k' address, (k.vmAllocate a isPort (srcSize a source bytes)).isSome = true ∧
        k.Allocated a k' ⟨isPort, address, bytes⟩ ∧
        k.vmMove a copy isPort source bytes deallocate =
          (k', (copy k.sender source bytes deallocate).2.map fun data => (address, data)) := by
  have halloc := @vmAllocate_srcSize τ a k isPort source bytes hb
  have hcount := @IpcMaps.pageCount_pos a source bytes hb
  cases hf : k.findSpace a isPort (a.pageCount source bytes) with
  | none =>
    rw [hf] at halloc
    exact .inl ⟨halloc, by rw [vmMove, halloc]; rfl⟩
  | some p =>
    rw [hf] at halloc
    obtain ⟨hlow, hhigh, hfree⟩ := findSpace_some hf
    obtain ⟨address, hx⟩ : ∃ address,
      BitVec.ofNat 32 (p * a.pageSize) + (source - a.truncPage source) = address := ⟨_, rfl⟩
    have hple : (p + a.pageCount source bytes + 1) * a.pageSize ≤ 2 ^ 32 :=
      Nat.le_trans (Nat.mul_le_mul_right _ (by omega)) (a.highPage_le isPort)
    obtain ⟨hfirst, hlast, hfits⟩ := @moved_region a isPort source bytes p hb hple address hx
    have hmove : k.vmMove a copy isPort source bytes deallocate =
        ({ k.setPages isPort p (p + a.pageCount source bytes) true with
            sender := (copy k.sender source bytes deallocate).1 },
          (copy k.sender source bytes deallocate).2.map fun data => (address, data)) := by
      rw [vmMove, halloc]
      dsimp only [Option.map_some]
      rw [hx]
      rfl
    refine .inr ⟨_, address, by rw [halloc]; rfl, ?_, hmove⟩
    constructor
    · rw [hfirst]
      exact hlow
    · rw [hlast]
      exact hhigh
    · rw [hfirst, hlast]
      omega
    · exact hfits
    · rw [hfirst, hlast]
      exact hfree
    · rw [hfirst, hlast]
    · rfl
    · rfl
    · rfl

theorem vmDeallocate_pages {r : Region} (hf : r.Fits a) (b : Bool) (p : Nat) :
    (k.vmDeallocate a r.isPort r.address r.bytes).pages b p =
      if r.covers a b p = true then false else k.pages b p := by
  have hpos := a.pageSize_pos
  unfold Region.Fits at hf
  unfold vmDeallocate
  by_cases hz : r.bytes = 0
  · rw [if_pos hz, if_neg (fun hc => (Region.covers_iff.mp hc).2.1 hz)]
  · have hsum : (r.address + r.bytes).toNat = r.address.toNat + r.bytes.toNat := by
      rw [BitVec.toNat_add, Nat.mod_eq_of_lt (by omega)]
    rw [if_neg hz, setPages_pages, IpcMaps.truncPage_div,
      IpcMaps.roundPage_div_of_le (by rw [hsum]; omega), hsum]
    simp only [Region.covers_iff, Region.first, Region.last, ne_eq, hz, not_false_eq_true, true_and]

end KernelState

/-! ## The ports -/

section Ports

variable {s r u : SState} {t : TaskId} {o : KernObjId} {e : EntryId} {x : Space.Entry} {i : Item}
  {rights : Space.MsgType} {deallocate : Bool} {name tn : Word}

theorem transit_into (h : ∀ p, (u.obj p).receiver = .soft → (u.obj p).inUse = true ∧
    (p = o ∧ rights = .portAll ∨ ∃ i ∈ u.items, Space.holdsRight p i = true)) :
    Transit (Space.intoMessage u o rights) := by
  intro p hp
  have hobj : ((Space.intoMessage u o rights).obj p).receiver = (u.obj p).receiver ∧
      ((Space.intoMessage u o rights).obj p).inUse = (u.obj p).inUse := by
    unfold Space.intoMessage Space.SState.setObj
    dsimp only
    by_cases hpo : p = o
    · subst hpo
      rw [Function.update_self]
      exact ⟨rfl, rfl⟩
    · rw [Function.update_of_ne hpo]
      exact ⟨rfl, rfl⟩
  rw [hobj.1] at hp
  obtain ⟨huse, hin⟩ := h p hp
  refine ⟨hobj.2.trans huse, ?_⟩
  rcases hin with ⟨rfl, rfl⟩ | ⟨i, hi, hh⟩
  · exact ⟨⟨p, .portAll, true⟩, List.mem_append_right _ (List.mem_singleton.mpr rfl),
      by simp [Space.holdsRight]⟩
  · exact ⟨i, List.mem_append_left _ hi, hh⟩

theorem destroyEntry_obj (s : SState) (t : TaskId) (e : EntryId) (x : Space.Entry)
    (p : KernObjId) : ((Space.objEntryDestroy s t e x).obj p).receiver = (s.obj p).receiver ∧
      ((Space.objEntryDestroy s t e x).obj p).inUse = (s.obj p).inUse := by
  rw [Space.objEntryDestroy_obj]
  by_cases hp : p = x.obj
  · subst hp
    rw [Function.update_self]
    exact ⟨rfl, rfl⟩
  · rw [Function.update_of_ne hp]
    exact ⟨rfl, rfl⟩

theorem copyinEntry_took (hx : s.entry e = some x)
    (hr : Space.copyinEntry s t e x rights deallocate = some r) :
    r.items = s.items ++ [⟨x.obj, rights, true⟩] ∧ (Transit s → Transit r) := by
  obtain ⟨huse, ⟨rfl, _, _, rfl⟩ | ⟨rfl, _, _, rfl⟩ | ⟨rfl, _, v, hv, rfl⟩⟩ :=
    Space.copyinEntry_cases hx hr
  · refine ⟨by simp [Space.intoMessage], fun ht => transit_into fun p hp => ?_⟩
    rw [(destroyEntry_obj s t e x p).1] at hp
    rw [(destroyEntry_obj s t e x p).2, Space.objEntryDestroy_items]
    exact ⟨(ht p hp).1, .inr (ht p hp).2⟩
  · exact ⟨rfl, fun ht => transit_into fun p hp => ⟨(ht p hp).1, .inr (ht p hp).2⟩⟩
  · have hitems : v.items = s.items := by
      rw [hv]
      rfl
    have hobj : Transit s → ∀ p, (v.obj p).receiver = .soft → (v.obj p).inUse = true ∧
        (p = x.obj ∧ (Space.MsgType.portAll) = .portAll ∨
          ∃ i ∈ v.items, Space.holdsRight p i = true) := by
      intro ht p hp
      rw [hitems]
      by_cases hpo : p = x.obj
      · subst hpo
        refine ⟨?_, .inl ⟨rfl, rfl⟩⟩
        rw [hv]
        simpa [Space.portClearReceiver, Space.SState.setEntry, Space.SState.setObj] using huse
      · have hsame : v.obj p = s.obj p := by
          rw [hv]
          simp [Space.portClearReceiver, Space.SState.setEntry, Space.SState.setObj, hpo]
        rw [hsame] at hp ⊢
        exact ⟨(ht p hp).1, .inr (ht p hp).2⟩
    split
    · refine ⟨by simp [Space.intoMessage, hitems], fun ht => transit_into fun p hp => ?_⟩
      rw [(destroyEntry_obj v t e _ p).1] at hp
      rw [(destroyEntry_obj v t e _ p).2, Space.objEntryDestroy_items]
      exact hobj ht p hp
    · exact ⟨by simp [Space.intoMessage, hitems], fun ht => transit_into (hobj ht)⟩

/-- What it is to copy a reference in: the machine takes a step, and a message has the reference. -/
structure Took (s r : SState) (i : Item) : Prop where
  reach : Space.Reach Space.Any s → Space.Reach Space.Any r
  items : r.items = s.items ++ [i]
  transit : Transit s → Transit r

theorem copyin_took {n : Space.PortName} (ho : (Space.objEntryLookup s t n).bind
      (fun e => (s.entry e).map Space.Entry.obj) = some o)
    (hr : Space.objectCopyin s t n rights deallocate = some r) : Took s r ⟨o, rights, true⟩ := by
  have hstep : Space.step s (.copyin t n rights deallocate) = some r := hr
  have htook : r.items = s.items ++ [⟨o, rights, true⟩] ∧ (Transit s → Transit r) := by
    unfold Space.objectCopyin at hr
    split at hr
    next =>
      obtain ⟨e, he, hr⟩ := Option.bind_eq_some_iff.mp hr
      obtain ⟨x, hx, hr⟩ := Option.bind_eq_some_iff.mp hr
      rw [he, Option.bind_some, hx] at ho
      cases Option.some.inj ho
      exact copyinEntry_took hx hr
    next => cases hr
  exact ⟨fun h => .next h trivial hstep, htook.1, htook.2⟩

theorem copyinFromKernel_took (hr : Space.objectCopyinFromKernel s t o rights deallocate = some r) :
    Took s r ⟨o, rights, true⟩ := by
  have hstep : Space.step s (.copyinFromKernel t o rights deallocate) = some r := hr
  have htook : r.items = s.items ++ [⟨o, rights, true⟩] ∧ (Transit s → Transit r) := by
    unfold Space.objectCopyinFromKernel at hr
    split at hr
    next =>
      split at hr
      next hp =>
        cases Option.some.inj hr
        rw [hp.1]
        exact ⟨rfl, fun ht => transit_into fun p hp => ⟨(ht p hp).1, .inr (ht p hp).2⟩⟩
      next =>
        obtain ⟨e, he, hr⟩ := Option.bind_eq_some_iff.mp hr
        obtain ⟨x, hx, hr⟩ := Option.bind_eq_some_iff.mp hr
        have hfound := List.find?_some he
        rw [hx] at hfound
        have hobj : x.obj = o := by
          simp only [Option.any_some, decide_eq_true_eq] at hfound
          exact hfound.2
        rw [← hobj]
        exact copyinEntry_took hx hr
    next => cases hr
  exact ⟨fun h => .next h trivial hstep, htook.1, htook.2⟩

theorem copyinf_took (ho : copyinObject s t name = some o)
    (hr : copyinf s t name tn deallocate = some r) : Took s r ⟨o, msgRights tn, true⟩ := by
  unfold copyinObject at ho
  unfold copyinf at hr
  cases hk : (s.task t).kernelSpace with
  | true =>
    rw [hk, if_pos rfl] at ho hr
    cases Option.some.inj ho
    exact copyinFromKernel_took hr
  | false =>
    rw [hk, if_neg (by decide)] at ho hr
    exact copyin_took ho hr

theorem headerCopyin_took {n : Space.PortName} (h : Space.Reach Space.Any s)
    (hr : Space.objCacheCopyin s t n = some (o, r)) : Took s r ⟨o, .port, true⟩ := by
  have hstep : Space.step s (.headerCopyin t n) = some r := by
    show (Space.objCacheCopyin s t n).map Prod.snd = some r
    rw [hr]
    rfl
  have hinto : Transit s → Transit (Space.intoMessage s o .port) :=
    fun ht => transit_into fun p hp => ⟨(ht p hp).1, .inr (ht p hp).2⟩
  obtain ⟨_, ⟨_, rfl, rfl⟩ | ⟨_, rfl⟩ | ⟨_, _, e, x, _, _, _, _, _, rfl⟩⟩ :=
    Space.objCacheCopyin_cases (Space.reach_space h).1.tables hr
  · exact ⟨fun h => .next h trivial hstep, rfl, hinto⟩
  · exact ⟨fun h => .next h trivial hstep, rfl, hinto⟩
  · exact ⟨fun h => .next h trivial hstep, rfl, hinto⟩

theorem objectDestroyItem_step (hi : i ∈ s.items) :
    Space.objectDestroy s i = some (objectDestroyItem s i) := by
  unfold Space.objectDestroy objectDestroyItem
  rw [if_pos hi]
  split <;> rfl

theorem objectDestroyItem_dropped (hi : i ∈ s.items) :
    (∃ l, (objectDestroyItem s i).items = s.items.erase i ++ l) ∧
      (Transit s → Transit (objectDestroyItem s i)) := by
  have hother : ∀ p, p ≠ i.obj → (∃ j ∈ s.items, Space.holdsRight p j = true) →
      ∃ j ∈ s.items.erase i, Space.holdsRight p j = true := by
    rintro p hp ⟨j, hj, hh⟩
    refine ⟨j, (List.mem_erase_of_ne ?_).mpr hj, hh⟩
    rintro rfl
    simp only [Space.holdsRight, decide_eq_true_eq] at hh
    exact hp hh.1.symm
  obtain ⟨_, ⟨he, hwhy⟩ | ⟨hri, huse, hsoft, he⟩⟩ := Space.objectDestroy_cases (objectDestroyItem_step hi)
  · rw [he]
    refine ⟨⟨[], by simp [Space.loseRef, Space.dropItem, Space.SState.setObj]⟩, fun ht p hp => ?_⟩
    have hobj : ((Space.loseRef (Space.dropItem s i) i.obj).obj p).receiver = (s.obj p).receiver ∧
        ((Space.loseRef (Space.dropItem s i) i.obj).obj p).inUse = (s.obj p).inUse := by
      unfold Space.loseRef Space.dropItem Space.SState.setObj
      dsimp only
      by_cases hpo : p = i.obj
      · subst hpo
        rw [Function.update_self]
        exact ⟨rfl, rfl⟩
      · rw [Function.update_of_ne hpo]
        exact ⟨rfl, rfl⟩
    rw [hobj.1] at hp
    obtain ⟨huse, j, hj, hh⟩ := ht p hp
    refine ⟨hobj.2.trans huse, j, (List.mem_erase_of_ne ?_).mpr hj, hh⟩
    rintro rfl
    simp only [Space.holdsRight, decide_eq_true_eq] at hh
    obtain ⟨rfl, hall, _⟩ := hh
    rcases hwhy with hport | hdead | ⟨hne, _⟩
    · rw [hport] at hall
      cases hall
    · rw [hdead] at huse
      cases huse
    · exact hne hp
  · rw [he]
    unfold Space.portDestroy
    cases hb : ((Space.dropItem (s.setObj i.obj { s.obj i.obj with receiver := .none }) i).obj i.obj).backup with
    | none =>
      refine ⟨⟨[], by simp [Space.dropItem, Space.SState.setObj]⟩, fun ht p hp => ?_⟩
      by_cases hpo : p = i.obj
      · subst hpo
        simp [Space.dropItem, Space.SState.setObj] at hp
      · simp only [Space.dropItem, Space.SState.setObj, Function.update_of_ne hpo] at hp ⊢
        exact ⟨(ht p hp).1, hother p hpo (ht p hp).2⟩
    | some b =>
      refine ⟨⟨[⟨i.obj, .portAll, true⟩], by simp [Space.dropItem, Space.SState.setObj]⟩, fun ht p hp => ?_⟩
      by_cases hpo : p = i.obj
      · subst hpo
        refine ⟨by simpa [Space.dropItem, Space.SState.setObj] using huse, ⟨i.obj, .portAll, true⟩, ?_, ?_⟩
        · exact List.mem_append_right _ (List.mem_singleton.mpr rfl)
        · simp [Space.holdsRight]
      · simp only [Space.dropItem, Space.SState.setObj, Function.update_of_ne hpo] at hp ⊢
        obtain ⟨j, hj, hh⟩ := hother p hpo (ht p hp).2
        exact ⟨(ht p hp).1, j, List.mem_append_left _ hj, hh⟩

theorem objAddress_some {w : Word} (h : objAddress o = some w) :
    w.toNat = o ∧ w ≠ kernObjNull ∧ w ≠ kernObjInvalid := by
  unfold objAddress at h
  split at h
  next hlt =>
    cases Option.some.inj h
    have hpos : @LT.lt Nat _ 0 o := hlt.1
    have hmax : @LT.lt Nat _ o (2 ^ 32 - 1) := hlt.2
    have ho : (BitVec.ofNat 32 o).toNat = o := by
      rw [BitVec.toNat_ofNat, Nat.mod_eq_of_lt (by omega)]
    refine ⟨ho, fun he => ?_, fun he => ?_⟩
    · rw [he] at ho
      have hzero : kernObjNull.toNat = 0 := rfl
      omega
    · rw [he] at ho
      have hones : kernObjInvalid.toNat = 2 ^ 32 - 1 := rfl
      omega
  next => cases h

end Ports

/-! ## The contract of the services -/

section Services

variable {k k' : KernelState τ} {copy : τ → Word → Word → Bool → τ × Option (Nat → Word)} {t : TaskId}
  {sv : MsgServices (KernelState τ)} {rights : Space.MsgType}

theorem copiedIn_cases (k : KernelState τ) (rights : Space.MsgType) (r : Option (KernObjId × SState)) :
    k.copiedIn rights r = (k, none) ∨ ∃ s x, r = some (x.toNat, s) ∧ x ≠ kernObjNull ∧ x ≠ kernObjInvalid ∧
      k.copiedIn rights r = (k.take s ⟨x.toNat, rights, true⟩, some x) := by
  unfold KernelState.copiedIn
  split
  next x k' h =>
    obtain ⟨⟨o, s⟩, hr, h⟩ := Option.bind_eq_some_iff.mp h
    obtain ⟨w, hw, h⟩ := Option.map_eq_some_iff.mp h
    cases h
    obtain ⟨hnat, hnull, hinv⟩ := objAddress_some hw
    dsimp only at hnat
    subst hnat
    exact .inr ⟨s, x, hr, hnull, hinv, rfl⟩
  next => exact .inl rfl

theorem copyinServices_objectCopyin (k : KernelState τ) (name tn : Word) (deallocate : Bool) :
    (copyinServices a copy t sv).objectCopyin k name tn deallocate = (k, none) ∨
      ∃ s x, Took k.space s ⟨x.toNat, msgRights tn, true⟩ ∧ x ≠ kernObjNull ∧ x ≠ kernObjInvalid ∧
        (copyinServices a copy t sv).objectCopyin k name tn deallocate =
          (k.take s ⟨x.toNat, msgRights tn, true⟩, some x) := by
  rcases copiedIn_cases k (msgRights tn) ((copyinObject k.space t name).bind fun o =>
    (copyinf k.space t name tn deallocate).map fun s => (o, s)) with h | ⟨s, x, hr, hnull, hinv, h⟩
  · exact .inl h
  · obtain ⟨o, ho, hr⟩ := Option.bind_eq_some_iff.mp hr
    obtain ⟨s', hs, hr⟩ := Option.map_eq_some_iff.mp hr
    cases hr
    exact .inr ⟨s, x, copyinf_took ho hs, hnull, hinv, h⟩

theorem copyinServices_objCacheCopyin (h : Space.Reach Space.Any k.space) (name : Word) :
    (copyinServices a copy t sv).objCacheCopyin k name = (k, none) ∨
      ∃ s x, Took k.space s ⟨x.toNat, .port, true⟩ ∧ x ≠ kernObjNull ∧
        (copyinServices a copy t sv).objCacheCopyin k name =
          (k.take s ⟨x.toNat, .port, true⟩, some x) := by
  rcases copiedIn_cases k .port (Space.objCacheCopyin k.space t ⟨name⟩) with h' | ⟨s, x, hr, hnull, _, h'⟩
  · exact .inl h'
  · exact .inr ⟨s, x, headerCopyin_took h hr, hnull, h'⟩

theorem copyinServices_vmMoveIn {isPort deallocate : Bool} {source bytes : Word}
    (hb : bytes ≠ 0 ∧ bytes.toNat < 2 ^ 29) :
    (copyinServices a copy t sv).vmMoveIn k isPort source bytes deallocate =
      k.vmMove a copy isPort source bytes deallocate := by
  show (if bytes ≠ 0 ∧ bytes.toNat < 2 ^ 29 then _ else _) = _
  rw [if_pos hb]

/-- An address is held when its page is allocated in the map it belongs to. -/
def AddressHeld (a : IpcMaps) (k : KernelState τ) (x : Word) : Prop :=
  ∃ isPort, a.lowPage isPort ≤ x.toNat / a.pageSize ∧ x.toNat / a.pageSize < a.highPage isPort ∧
    k.pages isPort (x.toNat / a.pageSize) = true

theorem Allocated.fresh {r : Region} (h : k.Allocated a k' r) :
    ¬ AddressHeld a k r.address ∧ AddressHeld a k' r.address := by
  have hsome := h.some
  have hhigh := h.high
  constructor
  · rintro ⟨isPort, hlow, hlt, hp⟩
    have hsame : isPort = r.isPort := by
      have hlow' := h.low
      have hord := a.apart
      unfold Region.first at hlow' hsome
      unfold IpcMaps.lowPage IpcMaps.highPage at *
      cases isPort <;> cases hr : r.isPort <;> simp only [hr, if_true, Bool.false_eq_true, if_false] at * <;>
        first | rfl | omega
    have hfree := h.free (r.address.toNat / a.pageSize) (Nat.le_refl _) hsome
    rw [hsame, hfree] at hp
    cases hp
  · refine ⟨r.isPort, h.low, Nat.lt_of_lt_of_le hsome hhigh, ?_⟩
    rw [h.pages, KernelState.setPages_pages, if_pos ⟨rfl, Nat.le_refl _, hsome⟩]

end Services

end MachVM.Ipc
