import MachVM.Types
import MachVM.Lib.Run
import MachVM.Lib.Words
import Mathlib.Data.List.Pairwise
import Mathlib.Logic.Function.Basic

namespace MachVM.External

open Words Machine

def smallSize : Nat := 16
def largeSize : Nat := 1024

/-- The zones of `vm_external_module_initialize`. -/
inductive Zone
  | external
  | smallExistenceMap
  | largeExistenceMap
  deriving DecidableEq, Repr

def Zone.elemSize : Zone → Nat
  | .external => 8
  | .smallExistenceMap => smallSize
  | .largeExistenceMap => largeSize

/-- `vm_external_state_t` -/
inductive ExternalState
  | stateExists
  | stateUnknown
  | stateAbsent
  deriving DecidableEq, Repr

/-- The memory, the elements of the zones that are handed out, and whether `vm_external_zone` is there. The
sizes that the live `vm_external_t` were created with are history. -/
structure Memory where
  mem : Bytes
  out : List (Zone × Nat)
  ready : Bool
  vmExternalUnsafe : Bool
  size : Nat → Option VmSize

namespace Memory

def zalloc (s : Memory) (z : Zone) (a : Nat) : Memory := { s with out := (z, a) :: s.out }

/-- An element can only go back to the zone that it came from. -/
def zfree (s : Memory) (z : Zone) (a : Nat) : Option Memory :=
  if (z, a) ∈ s.out then some { s with out := s.out.erase (z, a) } else none

/-- `e->existence_map`, the first word of the structure. -/
def existenceMap (s : Memory) (e : Nat) : Nat := load32 s.mem e

def setExistenceMap (s : Memory) (e m : Nat) : Memory := { s with mem := store32 s.mem e m }

end Memory

def atop (x : VmOffset) : Nat := (x >>> pageShift).toNat

/-- The zone that `vm_external_create` takes the bitmap from, if the bits of that many pages fit one. -/
def mapZone (size : VmSize) : Option Zone :=
  let bytes := atop size >>> 3
  if bytes ≤ smallSize then some .smallExistenceMap
  else if bytes ≤ largeSize then some .largeExistenceMap
  else none

/-- The zone that `vm_external_destroy` gives the bitmap to. -/
def freeZone (size : VmSize) : Zone :=
  if atop size >>> 3 ≤ smallSize then .smallExistenceMap else .largeExistenceMap

def byteIndex (offset : VmOffset) : Nat := atop offset >>> 3

def bitIndex (offset : VmOffset) : Nat := atop offset &&& 7

/-- `e` and `m` are what `zalloc` returns. -/
def vmExternalCreate (s : Memory) (e m : Nat) (size : VmSize) : Memory × Nat :=
  if s.ready then
    let s := (s.zalloc .external e).setExistenceMap e 0
    match mapZone size with
    | none => (s, e)
    | some z => ((s.zalloc z m).setExistenceMap e m, e)
  else (s, 0)

def vmExternalDestroy (s : Memory) (e : Nat) (size : VmSize) : Option Memory :=
  if e = 0 then some s
  else if s.existenceMap e ≠ 0 then
    (s.zfree (freeZone size) (s.existenceMap e)).bind fun s => s.zfree .external e
  else s.zfree .external e

def vmExternalStateGet (s : Memory) (e : Nat) (offset : VmOffset) : ExternalState :=
  if s.vmExternalUnsafe = true ∨ e = 0 ∨ s.existenceMap e = 0 then .stateUnknown
  else if (s.mem (s.existenceMap e + byteIndex offset)).toNat.testBit (bitIndex offset) then .stateExists
  else .stateAbsent

def vmExternalStateSet (s : Memory) (e : Nat) (offset : VmOffset) (state : ExternalState) : Memory :=
  if e = 0 ∨ s.existenceMap e = 0 then s
  else if state ≠ .stateExists then s
  else
    let a := s.existenceMap e + byteIndex offset
    { s with mem := Function.update s.mem a (UInt8.ofNat ((s.mem a).toNat ||| 1 <<< bitIndex offset)) }

/-- A call, or a write of someone else. -/
inductive Action
  | create (e m : Nat) (size : VmSize)
  | destroy (e : Nat) (size : VmSize)
  | stateSet (e : Nat) (offset : VmOffset) (state : ExternalState)
  | write (a : Nat) (b : UInt8)

def step (s : Memory) : Action → Option Memory
  | .create e m size =>
    let (s, e) := vmExternalCreate s e m size
    some (if e = 0 then s else { s with size := Function.update s.size e (some size) })
  | .destroy e size =>
    (vmExternalDestroy s e size).map fun s => { s with size := Function.update s.size e none }
  | .stateSet e offset state => some (vmExternalStateSet s e offset state)
  | .write a b => some { s with mem := Function.update s.mem a b }

/-- Two elements that share no byte. -/
def Apart (x y : Zone × Nat) : Prop := x.2 + x.1.elemSize ≤ y.2 ∨ y.2 + y.1.elemSize ≤ x.2

instance (x y : Zone × Nat) : Decidable (Apart x y) := inferInstanceAs (Decidable (_ ∨ _))

/-- An element that `zalloc` can return. -/
def Memory.Free (s : Memory) (x : Zone × Nat) : Prop :=
  x.2 ≠ 0 ∧ x.2 + x.1.elemSize ≤ 2 ^ 32 ∧ ∀ y ∈ s.out, Apart x y

instance (s : Memory) (x : Zone × Nat) : Decidable (s.Free x) := inferInstanceAs (Decidable (_ ∧ _ ∧ _))

/-- What the callers, the zones and the rest of the kernel keep to: an offset is below the size, the size given
to `vm_external_destroy` is the one given to `vm_external_create`, and nobody else writes into what is handed
out. -/
def Legal (s : Memory) : Action → Prop
  | .create e m size =>
    s.Free (.external, e) ∧ ∀ z ∈ mapZone size, (s.zalloc .external e).Free (z, m)
  | .destroy e size => e ≠ 0 → s.size e = some size
  | .stateSet e offset _ => e ≠ 0 → (s.size e).any (offset < ·) = true
  | .write a _ => ∀ x ∈ s.out, a < x.2 ∨ x.2 + x.1.elemSize ≤ a

instance (s : Memory) : (a : Action) → Decidable (Legal s a)
  | .create _ _ _ => inferInstanceAs (Decidable (_ ∧ ∀ z ∈ _, _))
  | .destroy _ _ => inferInstanceAs (Decidable (_ → _))
  | .stateSet _ _ _ => inferInstanceAs (Decidable (_ → _))
  | .write _ _ => inferInstanceAs (Decidable (∀ x ∈ s.out, _))

/-- The bits of the pages of an object of this size end where the bitmap ends, or before. -/
def Fits (size : VmSize) : Prop :=
  size.toNat ≤ 128 * 4096 ∨ 136 * 4096 ≤ size.toNat ∧ size.toNat ≤ 8192 * 4096 ∨ 8200 * 4096 ≤ size.toNat

instance (size : VmSize) : Decidable (Fits size) := inferInstanceAs (Decidable (_ ∨ _ ∧ _ ∨ _))

/-- An allowed action that creates no bitmap too small for its object. -/
def Sized (s : Memory) (a : Action) : Prop :=
  Legal s a ∧ match a with
    | .create _ _ size => Fits size
    | _ => True

instance (s : Memory) : (a : Action) → Decidable (Sized s a)
  | .create _ _ size => inferInstanceAs (Decidable (_ ∧ Fits size))
  | .destroy _ _ => inferInstanceAs (Decidable (_ ∧ True))
  | .stateSet _ _ _ => inferInstanceAs (Decidable (_ ∧ True))
  | .write _ _ => inferInstanceAs (Decidable (_ ∧ True))

def Started (s : Memory) : Prop := s.out = [] ∧ ∀ e, s.size e = none

/-! ### Sizes and indexes -/

theorem atop_eq (x : VmOffset) : atop x = x.toNat / 4096 := by
  simp [atop, pageShift, BitVec.toNat_ushiftRight, Nat.shiftRight_eq_div_pow]

theorem byteIndex_eq (offset : VmOffset) : byteIndex offset = offset.toNat / 32768 := by
  rw [byteIndex, atop_eq, Nat.shiftRight_eq_div_pow, Nat.div_div_eq_div_mul]

theorem bitIndex_lt (offset : VmOffset) : bitIndex offset < 8 :=
  Nat.lt_succ_of_le Nat.and_le_right

theorem mapZone_eq (size : VmSize) :
    mapZone size = if size.toNat < 136 * 4096 then some .smallExistenceMap
      else if size.toNat < 8200 * 4096 then some .largeExistenceMap else none := by
  have h := atop_eq size
  unfold mapZone smallSize largeSize
  simp only [Nat.shiftRight_eq_div_pow, h]
  split
  next => rw [if_pos (by omega)]
  next =>
    rw [if_neg (show ¬size.toNat < 136 * 4096 by omega)]
    split
    next => rw [if_pos (by omega)]
    next => rw [if_neg (by omega)]

theorem freeZone_eq {size : VmSize} {z : Zone} (h : mapZone size = some z) : freeZone size = z := by
  simp only [mapZone] at h
  unfold freeZone
  split at h
  next hs =>
    cases Option.some.inj h
    rw [if_pos hs]
  next hs =>
    split at h
    next =>
      cases Option.some.inj h
      rw [if_neg hs]
    next => cases h

/-- Every byte index of an object of the size is inside the bitmap that it gets. -/
def InRange (size : VmSize) : Prop :=
  ∀ z ∈ mapZone size, ∀ offset : VmOffset, offset.toNat % 4096 = 0 → offset < size → byteIndex offset < z.elemSize

theorem Fits.byteIndex_lt {size : VmSize} (h : Fits size) {z : Zone} (hz : mapZone size = some z)
    {offset : VmOffset} (ho : offset < size) : byteIndex offset < z.elemSize := by
  have ho : offset.toNat < size.toNat := BitVec.lt_def.mp ho
  rw [byteIndex_eq]
  rw [mapZone_eq] at hz
  unfold Fits at h
  split at hz
  next =>
    cases Option.some.inj hz
    show _ < 16
    omega
  next =>
    split at hz
    next =>
      cases Option.some.inj hz
      show _ < 1024
      omega
    next => cases hz

theorem inRange_iff (size : VmSize) : InRange size ↔ Fits size := by
  constructor
  · intro h
    by_contra hf
    unfold Fits at hf
    by_cases hs : size.toNat < 136 * 4096
    · have := h .smallExistenceMap (by rw [mapZone_eq, if_pos hs]; rfl) (128 * 4096)
        (by decide) (BitVec.lt_def.mpr (show 128 * 4096 < size.toNat by omega))
      exact absurd this (by decide)
    · have := h .largeExistenceMap (by rw [mapZone_eq, if_neg hs, if_pos (by omega)]; rfl) (8192 * 4096)
        (by decide) (BitVec.lt_def.mpr (show 8192 * 4096 < size.toNat by omega))
      exact absurd this (by decide)
  · intro h z hz offset _ ho
    exact h.byteIndex_lt hz ho

/-! ### What is handed out -/

/-- The bitmap of a live structure. -/
def HasMap (s : Memory) (e : Nat) (size : VmSize) : Prop :=
  match mapZone size with
  | none => s.existenceMap e = 0
  | some z => (z, s.existenceMap e) ∈ s.out

/-- What is handed out is apart, and every live structure and its bitmap are handed out to it alone. -/
structure Inv (s : Memory) : Prop where
  apart : s.out.Pairwise Apart
  bounds : ∀ x ∈ s.out, x.2 ≠ 0 ∧ x.2 + x.1.elemSize ≤ 2 ^ 32
  live : ∀ e size, s.size e = some size → (.external, e) ∈ s.out ∧ HasMap s e size
  own : ∀ e f size size', s.size e = some size → s.size f = some size' → s.existenceMap e = s.existenceMap f →
    s.existenceMap e = 0 ∨ e = f

variable {s r t : Memory} {e f m a : Nat} {size size' : VmSize} {offset : VmOffset} {z : Zone} {x y : Zone × Nat}

theorem mapZone_ne_external (h : mapZone size = some z) : z ≠ .external := by
  rw [mapZone_eq] at h
  rintro rfl
  split at h
  next => cases h
  next => split at h <;> cases h

instance : Std.Symm Apart := ⟨fun _ _ h => Or.symm h⟩

theorem Inv.apart_of_ne (h : Inv s) (hx : x ∈ s.out) (hy : y ∈ s.out) (hne : x ≠ y) : Apart x y :=
  h.apart.forall hx hy hne

theorem Zone.elemSize_pos (z : Zone) : 8 ≤ z.elemSize := by
  cases z <;> decide

theorem Apart.ne (h : Apart x y) : x.2 ≠ y.2 := by
  have := x.1.elemSize_pos
  have := y.1.elemSize_pos
  unfold Apart at h
  omega

theorem Inv.nodup (h : Inv s) : s.out.Nodup := h.apart.imp fun h he => h.ne (congrArg Prod.snd he)

theorem Inv.map_out (h : Inv s) (he : s.size e = some size) (hm : s.existenceMap e ≠ 0) :
    ∃ z, mapZone size = some z ∧ (z, s.existenceMap e) ∈ s.out := by
  have := (h.live e size he).2
  unfold HasMap at this
  split at this
  next => exact absurd this hm
  next z hz => exact ⟨z, hz, this⟩

theorem existenceMap_congr (h : ∀ i < 8, r.mem (e + i) = s.mem (e + i)) : r.existenceMap e = s.existenceMap e :=
  load32_congr fun i hi => h i (by omega)

theorem Memory.Free.not_live (h : s.Free (.external, e)) (hi : Inv s) : s.size e = none := by
  cases he : s.size e with
  | none => rfl
  | some size => exact absurd rfl (h.2.2 _ (hi.live e size he).1).ne

theorem Inv.congr (h : Inv s) (hout : r.out = s.out) (hsize : r.size = s.size)
    (hmem : ∀ f size, s.size f = some size → r.existenceMap f = s.existenceMap f) : Inv r := by
  refine ⟨hout ▸ h.apart, hout ▸ h.bounds, fun f size hf => ?_, fun f g size size' hf hg he => ?_⟩
  · rw [hsize] at hf
    have hl := h.live f size hf
    rw [HasMap, hout, hmem f size hf]
    exact hl
  · rw [hsize] at hf hg
    rw [hmem f size hf, hmem g size' hg] at he
    rw [hmem f size hf]
    exact h.own f g size size' hf hg he

theorem Inv.create {l : List (Zone × Nat)} (h : Inv s) (he : s.Free (.external, e))
    (hl : ∀ x ∈ l, (s.zalloc .external e).Free x) (hp : l.Pairwise Apart)
    (hout : r.out = l ++ (.external, e) :: s.out) (hsize : r.size = Function.update s.size e (some size))
    (hmem : ∀ f size, s.size f = some size → r.existenceMap f = s.existenceMap f) (hmap : HasMap r e size)
    (hnew : r.existenceMap e ≠ 0 → ∃ z, (z, r.existenceMap e) ∈ l) : Inv r := by
  have hne : ∀ f size, s.size f = some size → f ≠ e := by
    rintro f size hf rfl
    rw [he.not_live h] at hf
    cases hf
  have hother : ∀ f size', s.size f = some size' → r.existenceMap e = r.existenceMap f → r.existenceMap e = 0 := by
    intro f size' hf heq
    by_contra hz
    obtain ⟨z, hz'⟩ := hnew hz
    rw [hmem f size' hf] at heq
    obtain ⟨y, _, hy⟩ := h.map_out hf (heq ▸ hz)
    exact ((hl _ hz').2.2 _ (List.mem_cons_of_mem _ hy)).ne heq
  refine ⟨?_, fun x hx => ?_, fun f size' hf => ?_, fun f g size₁ size₂ hf hg heq => ?_⟩
  · rw [hout]
    exact List.pairwise_append.mpr ⟨hp, List.pairwise_cons.mpr ⟨he.2.2, h.apart⟩, fun x hx y hy => (hl x hx).2.2 y hy⟩
  · rw [hout] at hx
    rcases List.mem_append.mp hx with hx | hx
    · exact ⟨(hl x hx).1, (hl x hx).2.1⟩
    · rcases List.mem_cons.mp hx with rfl | hx
      · exact ⟨he.1, he.2.1⟩
      · exact h.bounds x hx
  · rw [hsize, Function.update_apply] at hf
    split at hf
    next hfe =>
      subst hfe
      cases Option.some.inj hf
      exact ⟨hout ▸ List.mem_append_right _ List.mem_cons_self, hmap⟩
    next =>
      have hout' : ∀ x ∈ s.out, x ∈ r.out := fun x hx =>
        hout ▸ List.mem_append_right _ (List.mem_cons_of_mem _ hx)
      obtain ⟨hin, hmap⟩ := h.live f size' hf
      refine ⟨hout' _ hin, ?_⟩
      unfold HasMap at hmap ⊢
      rw [hmem f size' hf]
      split at hmap
      next => exact hmap
      next => exact hout' _ hmap
  · rw [hsize, Function.update_apply] at hf hg
    split at hf
    next hfe =>
      subst hfe
      split at hg
      next hge => exact .inr hge.symm
      next => exact .inl (hother g size₂ hg heq)
    next =>
      split at hg
      next hge =>
        subst hge
        exact .inl (heq ▸ hother f size₁ hf heq.symm)
      next =>
        rw [hmem f size₁ hf, hmem g size₂ hg] at heq
        rw [hmem f size₁ hf]
        exact h.own f g size₁ size₂ hf hg heq

theorem Inv.destroy (h : Inv s) (hout : r.out.Sublist s.out)
    (hkeep : ∀ x ∈ s.out, x ≠ (.external, e) → (s.existenceMap e = 0 ∨ x.2 ≠ s.existenceMap e) → x ∈ r.out)
    (hsize : r.size = Function.update s.size e none) (hlive : s.size e = some size) (hmem : r.mem = s.mem) :
    Inv r := by
  have hmap : ∀ f, r.existenceMap f = s.existenceMap f := fun f => by rw [Memory.existenceMap, hmem]; rfl
  have hold : ∀ f size', r.size f = some size' → f ≠ e ∧ s.size f = some size' := by
    intro f size' hf
    rw [hsize, Function.update_apply] at hf
    split at hf
    next => cases hf
    next hne => exact ⟨hne, hf⟩
  refine ⟨h.apart.sublist hout, fun x hx => h.bounds x (hout.subset hx), fun f size' hf => ?_,
    fun f g size₁ size₂ hf hg heq => ?_⟩
  · obtain ⟨hne, hf⟩ := hold f size' hf
    obtain ⟨hin, hm⟩ := h.live f size' hf
    refine ⟨hkeep _ hin (fun he => hne (Prod.ext_iff.mp he).2) ?_, ?_⟩
    · by_cases hz : s.existenceMap e = 0
      · exact .inl hz
      · obtain ⟨z, hz', hy⟩ := h.map_out hlive hz
        exact .inr (h.apart_of_ne hin hy fun he => mapZone_ne_external hz' (Prod.ext_iff.mp he).1.symm).ne
    · unfold HasMap at hm ⊢
      rw [hmap]
      split at hm
      next => exact hm
      next z hz =>
        refine hkeep _ hm (fun he => mapZone_ne_external hz (Prod.ext_iff.mp he).1) ?_
        have := h.own f e size' size hf hlive
        by_cases hz : s.existenceMap e = 0
        · exact .inl hz
        · exact .inr fun he => (this he).elim (fun h0 => hz (he.symm.trans h0)) hne
  · obtain ⟨_, hf⟩ := hold f size₁ hf
    obtain ⟨_, hg⟩ := hold g size₂ hg
    rw [hmap, hmap] at heq
    rw [hmap]
    exact h.own f g size₁ size₂ hf hg heq

/-! ### Steps -/

theorem Inv.zero_not_live (h : Inv s) : s.size 0 = none := by
  cases he : s.size 0 with
  | none => rfl
  | some size => exact absurd rfl (h.bounds _ (h.live 0 size he).1).1

theorem Memory.Free.store32_mem {v i : Nat} {mem : Bytes} (h : s.Free (.external, e)) (hx : x ∈ s.out)
    (hi : i < x.1.elemSize) : store32 mem e v (x.2 + i) = mem (x.2 + i) := by
  have : Apart (.external, e) x := h.2.2 x hx
  unfold Apart at this
  have h8 : Zone.external.elemSize = 8 := rfl
  exact store32_of_ne fun j hj => by simp only at this; omega

theorem create_cases (he : e ≠ 0) (hs : step s (.create e m size) = some r) :
    r = s ∨ r.size = Function.update s.size e (some size) ∧
      (mapZone size = none ∧ r.out = (.external, e) :: s.out ∧ r.mem = store32 s.mem e 0 ∨
        ∃ z, mapZone size = some z ∧ r.out = (z, m) :: (.external, e) :: s.out ∧
          r.mem = store32 (store32 s.mem e 0) e m) := by
  by_cases hr : s.ready = true
  · cases hz : mapZone size with
    | none =>
      simp only [step, vmExternalCreate, if_pos hr, hz, if_neg he] at hs
      cases Option.some.inj hs
      exact .inr ⟨rfl, .inl ⟨rfl, rfl, rfl⟩⟩
    | some z =>
      simp only [step, vmExternalCreate, if_pos hr, hz, if_neg he] at hs
      cases Option.some.inj hs
      exact .inr ⟨rfl, .inr ⟨z, rfl, rfl, rfl⟩⟩
  · simp only [step, vmExternalCreate, if_neg hr, if_true] at hs
    exact .inl (Option.some.inj hs).symm

theorem create_mem (hok : Legal s (.create e m size)) (hs : step s (.create e m size) = some r) (hx : x ∈ s.out)
    {i : Nat} (hi : i < x.1.elemSize) : r.mem (x.2 + i) = s.mem (x.2 + i) := by
  obtain rfl | ⟨_, ⟨_, _, hm⟩ | ⟨z, _, _, hm⟩⟩ := create_cases hok.1.1 hs
  · rfl
  · rw [hm, hok.1.store32_mem hx hi]
  · rw [hm, hok.1.store32_mem hx hi, hok.1.store32_mem hx hi]

theorem Inv.stateSet_byte (h : Inv s) (hlive : s.size e = some size) (hm : s.existenceMap e ≠ 0)
    (hf : Fits size) (ho : offset < size) :
    ∃ z, mapZone size = some z ∧ (z, s.existenceMap e) ∈ s.out ∧ byteIndex offset < z.elemSize := by
  obtain ⟨z, hz, hin⟩ := h.map_out hlive hm
  exact ⟨z, hz, hin, hf.byteIndex_lt hz ho⟩

theorem testBit_set {b : UInt8} {j k : Nat} (hj : b.toNat.testBit j = true) :
    (UInt8.ofNat (b.toNat ||| 1 <<< k)).toNat.testBit j = true := by
  have h8 : j < 8 := by
    by_contra h
    have := Nat.testBit_lt_two_pow (Nat.lt_of_lt_of_le b.toNat_lt (Nat.pow_le_pow_right (by omega) (by omega : 8 ≤ j)))
    rw [this] at hj
    cases hj
  rw [UInt8.toNat_ofNat', Nat.testBit_mod_two_pow, Nat.testBit_or, hj]
  simp [h8]

theorem testBit_set_self {b : UInt8} {k : Nat} (hk : k < 8) :
    (UInt8.ofNat (b.toNat ||| 1 <<< k)).toNat.testBit k = true := by
  rw [UInt8.toNat_ofNat', Nat.testBit_mod_two_pow, Nat.testBit_or, Nat.shiftLeft_eq, Nat.one_mul,
    Nat.testBit_two_pow_self]
  simp [hk]

theorem stateSet_bits (s : Memory) (e : Nat) (offset : VmOffset) (state : ExternalState) {a j : Nat}
    (hj : (s.mem a).toNat.testBit j = true) :
    ((vmExternalStateSet s e offset state).mem a).toNat.testBit j = true := by
  unfold vmExternalStateSet
  split
  next => exact hj
  next =>
    split
    next => exact hj
    next =>
      simp only [Function.update_apply]
      split
      next ha =>
        subst ha
        exact testBit_set hj
      next => exact hj

/-- What was created so far fits. -/
def AllFit (s : Memory) : Prop := ∀ e size, s.size e = some size → Fits size

theorem Inv.stateSet_existenceMap (h : Inv s) (hfit : AllFit s) {state : ExternalState}
    (hok : Legal s (.stateSet e offset state)) (hf : s.size f = some size) :
    (vmExternalStateSet s e offset state).existenceMap f = s.existenceMap f := by
  unfold vmExternalStateSet
  split
  next => rfl
  next hne =>
    split
    next => rfl
    next =>
      obtain ⟨he, hm⟩ := not_or.mp hne
      obtain ⟨size', hlive, ho⟩ := (Option.any_eq_true _ _).mp (hok he)
      have ho : offset < size' := of_decide_eq_true ho
      obtain ⟨z, hz, hin, hlt⟩ := h.stateSet_byte hlive hm (hfit e size' hlive) ho
      have hap := h.apart_of_ne (h.live f size hf).1 hin fun he => mapZone_ne_external hz (Prod.ext_iff.mp he).1.symm
      refine existenceMap_congr fun i hi => Function.update_of_ne ?_ ..
      unfold Apart at hap
      have h8 : Zone.external.elemSize = 8 := rfl
      simp only at hap
      omega

theorem destroy_eq (hs : vmExternalDestroy s e size = some r) (he : e ≠ 0) :
    r.mem = s.mem ∧ r.size = s.size ∧ r.out.Sublist s.out ∧
      ∀ x ∈ s.out, x ≠ (.external, e) → (s.existenceMap e = 0 ∨ x.2 ≠ s.existenceMap e) → x ∈ r.out := by
  unfold vmExternalDestroy Memory.zfree at hs
  rw [if_neg he] at hs
  split at hs
  next hm =>
    obtain ⟨q, hq, hs⟩ := Option.bind_eq_some_iff.mp hs
    split at hq
    next =>
      cases Option.some.inj hq
      split at hs
      next =>
        cases Option.some.inj hs
        refine ⟨rfl, rfl, List.erase_sublist.trans List.erase_sublist, fun x hx hne ho => ?_⟩
        refine (List.mem_erase_of_ne hne).mpr ((List.mem_erase_of_ne ?_).mpr hx)
        rintro rfl
        exact ho.elim hm fun h => h rfl
      next => cases hs
    next => cases hq
  next =>
    split at hs
    next =>
      cases Option.some.inj hs
      exact ⟨rfl, rfl, List.erase_sublist, fun x hx hne _ => (List.mem_erase_of_ne hne).mpr hx⟩
    next => cases hs

theorem Inv.step_existenceMap {a : Action} (h : Inv s) (hfit : AllFit s) (hok : Legal s a)
    (hs : step s a = some r) (hf : s.size f = some size) : r.existenceMap f = s.existenceMap f := by
  have hin := (h.live f size hf).1
  cases a with
  | create e m size' => exact existenceMap_congr fun i hi => create_mem hok hs hin hi
  | destroy e size' =>
    obtain ⟨q, hq, rfl⟩ := Option.map_eq_some_iff.mp hs
    by_cases he : e = 0
    · simp only [vmExternalDestroy, if_pos he] at hq
      cases Option.some.inj hq
      rfl
    · exact existenceMap_congr fun i _ => congrFun (destroy_eq hq he).1 _
  | stateSet e offset state =>
    cases Option.some.inj hs
    exact h.stateSet_existenceMap hfit hok hf
  | write b v =>
    cases Option.some.inj hs
    refine existenceMap_congr fun i hi => Function.update_of_ne ?_ ..
    have := hok _ hin
    have h8 : Zone.external.elemSize = 8 := rfl
    simp only at this
    omega

theorem step_bits {a : Action} {i j : Nat} (hok : Legal s a) (hs : step s a = some r) (hx : x ∈ s.out)
    (hi : i < x.1.elemSize) (hj : (s.mem (x.2 + i)).toNat.testBit j = true) :
    (r.mem (x.2 + i)).toNat.testBit j = true := by
  cases a with
  | create e m size => rw [create_mem hok hs hx hi, hj]
  | destroy e size =>
    obtain ⟨q, hq, rfl⟩ := Option.map_eq_some_iff.mp hs
    by_cases he : e = 0
    · simp only [vmExternalDestroy, if_pos he] at hq
      cases Option.some.inj hq
      exact hj
    · simp only [(destroy_eq hq he).1, hj]
  | stateSet e offset state =>
    cases Option.some.inj hs
    exact stateSet_bits s e offset state hj
  | write b v =>
    cases Option.some.inj hs
    have := hok x hx
    simp only [Function.update_of_ne (show x.2 + i ≠ b by omega), hj]

theorem create_inv (h : Inv s) (hok : Legal s (.create e m size)) (hs : step s (.create e m size) = some r) :
    Inv r := by
  have hold : ∀ f size', s.size f = some size' → r.existenceMap f = s.existenceMap f := fun f size' hf =>
    existenceMap_congr fun i hi => create_mem hok hs (h.live f size' hf).1 hi
  obtain ⟨hfree, hmap⟩ := hok
  obtain rfl | ⟨hsize, ⟨hz, hout, hm⟩ | ⟨z, hz, hout, hm⟩⟩ := create_cases hfree.1 hs
  · exact h
  · have h0 : r.existenceMap e = 0 := by
      rw [Memory.existenceMap, hm, load32_store32 (by decide)]
    refine h.create (l := []) hfree (fun x hx => nomatch hx) .nil hout hsize hold ?_
      fun hne => absurd h0 hne
    unfold HasMap
    rw [hz]
    exact h0
  · have hzm := hmap z hz
    have hmz : r.existenceMap e = m := by
      rw [Memory.existenceMap, hm]
      refine load32_store32 (Nat.lt_of_lt_of_le ?_ hzm.2.1)
      have := z.elemSize_pos
      simp only
      omega
    refine h.create (l := [(z, m)]) hfree (fun x hx => ?_) (List.pairwise_singleton ..) hout hsize
      hold ?_ fun _ => ⟨z, List.mem_singleton.mpr (congrArg _ hmz)⟩
    · cases List.mem_singleton.mp hx
      exact hzm
    · unfold HasMap
      rw [hz, hout]
      exact List.mem_cons.mpr (.inl (congrArg _ hmz))

theorem step_size {a : Action} (hok : Legal s a) (hs : step s a = some r) :
    (∃ e m size, a = .create e m size ∧ s.Free (.external, e) ∧ r.size = Function.update s.size e (some size)) ∨
      (∃ e size, a = .destroy e size ∧ r.size = Function.update s.size e none) ∨ r.size = s.size := by
  cases a with
  | create e m size =>
    obtain rfl | ⟨hsize, _⟩ := create_cases hok.1.1 hs
    · exact .inr (.inr rfl)
    · exact .inl ⟨e, m, size, rfl, hok.1, hsize⟩
  | destroy e size =>
    obtain ⟨q, hq, rfl⟩ := Option.map_eq_some_iff.mp hs
    refine .inr (.inl ⟨e, size, rfl, ?_⟩)
    by_cases he : e = 0
    · simp only [vmExternalDestroy, if_pos he] at hq
      cases Option.some.inj hq
      rfl
    · simp only [(destroy_eq hq he).2.1]
  | stateSet e offset state =>
    cases Option.some.inj hs
    refine .inr (.inr ?_)
    unfold vmExternalStateSet
    split
    next => rfl
    next => split <;> rfl
  | write b v =>
    cases Option.some.inj hs
    exact .inr (.inr rfl)

theorem step_created {a : Action} (hok : Legal s a) (hs : step s a = some r) (he : r.size e = some size) :
    s.size e = some size ∨ ∃ m, a = .create e m size := by
  obtain ⟨f, m, size', rfl, _, hr⟩ | ⟨f, size', rfl, hr⟩ | hr := step_size hok hs
  · rw [hr, Function.update_apply] at he
    split at he
    next hef =>
      cases Option.some.inj he
      exact .inr ⟨m, hef ▸ rfl⟩
    next => exact .inl he
  · rw [hr, Function.update_apply] at he
    split at he
    next => cases he
    next => exact .inl he
  · exact .inl (hr ▸ he)

theorem Inv.step_live {a : Action} (h : Inv s) (hok : Legal s a) (hs : step s a = some r)
    (he : s.size e = some size) (hd : ∀ size, a ≠ .destroy e size) : r.size e = some size := by
  obtain ⟨f, m, size', rfl, hfree, hr⟩ | ⟨f, size', rfl, hr⟩ | hr := step_size hok hs
  · rw [hr, Function.update_of_ne, he]
    rintro rfl
    rw [hfree.not_live h] at he
    cases he
  · rw [hr, Function.update_of_ne, he]
    rintro rfl
    exact hd size' rfl
  · rw [hr, he]

theorem Inv.step {a : Action} (h : Inv s) (hfit : AllFit s) (hok : Legal s a) (hs : step s a = some r) : Inv r := by
  have hmap : ∀ f size, s.size f = some size → r.existenceMap f = s.existenceMap f := fun f size hf =>
    h.step_existenceMap hfit hok hs hf
  cases a with
  | create e m size => exact create_inv h hok hs
  | destroy e size =>
    obtain ⟨q, hq, rfl⟩ := Option.map_eq_some_iff.mp hs
    by_cases he : e = 0
    · simp only [vmExternalDestroy, if_pos he] at hq
      cases Option.some.inj hq
      refine h.congr rfl ?_ hmap
      rw [he]
      exact Function.update_eq_self_iff.mpr h.zero_not_live.symm
    · obtain ⟨hm, hsize, hout, hkeep⟩ := destroy_eq hq he
      exact h.destroy hout hkeep (congrArg (Function.update · e none) hsize) (hok he) hm
  | stateSet e offset state =>
    cases Option.some.inj hs
    refine h.congr ?_ ?_ hmap
    all_goals
      unfold vmExternalStateSet
      split
      next => rfl
      next => split <;> rfl
  | write b v =>
    cases Option.some.inj hs
    exact h.congr rfl rfl hmap

theorem AllFit.step {a : Action} (h : AllFit s) (hok : Sized s a) (hs : step s a = some r) : AllFit r := by
  intro e size he
  obtain he | ⟨m, rfl⟩ := step_created hok.1 hs he
  · exact h e size he
  · exact hok.2

theorem reach_inv (h : Reach Started step Sized s) : Inv s ∧ AllFit s := by
  refine h.invariant (p := fun s => Inv s ∧ AllFit s) (fun s ⟨hout, hsize⟩ => ?_)
    fun s a r hi hok hs => ⟨hi.1.step hi.2 hok.1 hs, hi.2.step hok hs⟩
  have hno : ∀ e size, s.size e ≠ some size := fun e size he => by rw [hsize] at he; cases he
  exact ⟨⟨hout ▸ .nil, by simp [hout], fun e size he => absurd he (hno e size),
    fun e _ size _ he _ => absurd he (hno e size)⟩, fun e size he => absurd he (hno e size)⟩

/-- The bit of a page is set. -/
def Recorded (s : Memory) (e : Nat) (offset : VmOffset) : Prop :=
  (s.mem (s.existenceMap e + byteIndex offset)).toNat.testBit (bitIndex offset) = true

/-- An allowed action that does not destroy the structure. -/
def Keeps (e : Nat) (s : Memory) (a : Action) : Prop := Sized s a ∧ ∀ size, a ≠ .destroy e size

/-- A live structure with a bitmap in which the bit of the page is set. -/
def Holds (s : Memory) (e : Nat) (size : VmSize) (offset : VmOffset) : Prop :=
  Inv s ∧ AllFit s ∧ s.size e = some size ∧ s.existenceMap e ≠ 0 ∧ Recorded s e offset

theorem Holds.step {a : Action} (h : Holds s e size offset) (ho : offset < size) (hok : Keeps e s a)
    (hs : step s a = some r) : Holds r e size offset := by
  obtain ⟨hi, hf, he, hm, hb⟩ := h
  have hmap := hi.step_existenceMap hf hok.1.1 hs he
  obtain ⟨z, hz, hin⟩ := hi.map_out he hm
  refine ⟨hi.step hf hok.1.1 hs, hf.step hok.1 hs, hi.step_live hok.1.1 hs he hok.2, hmap.symm ▸ hm, ?_⟩
  have hlt : byteIndex offset < z.elemSize := (hf e size he).byteIndex_lt hz ho
  rw [Recorded, hmap]
  exact step_bits (x := (z, s.existenceMap e)) (i := byteIndex offset) hok.1.1 hs hin hlt hb

theorem Recorded.not_absent (hb : Recorded s e offset) : vmExternalStateGet s e offset ≠ .stateAbsent := by
  unfold vmExternalStateGet
  rw [hb]
  split <;> simp

/-- What holds of the bitmaps in a state. -/
structure Right (s : Memory) : Prop where
  inRange : ∀ e size, s.size e = some size → s.existenceMap e ≠ 0 →
    ∃ z, (z, s.existenceMap e) ∈ s.out ∧ ∀ offset < size, byteIndex offset < z.elemSize
  freed : ∀ e size, s.size e = some size → ∃ r, vmExternalDestroy s e size = some r
  hint : ∀ e size, s.size e = some size → ∀ offset < size, ∀ as t,
    Path step (Keeps e) (vmExternalStateSet s e offset .stateExists) as t →
      vmExternalStateGet t e offset ≠ .stateAbsent

/-- Without a bitmap nothing is known of any page. -/
def Unmapped (s : Memory) (e : Nat) (size : VmSize) : Prop :=
  Inv s ∧ AllFit s ∧ s.size e = some size ∧ s.existenceMap e = 0

theorem Unmapped.step {a : Action} (h : Unmapped s e size) (hok : Keeps e s a) (hs : step s a = some r) :
    Unmapped r e size := by
  obtain ⟨hi, hf, he, hm⟩ := h
  exact ⟨hi.step hf hok.1.1 hs, hf.step hok.1 hs, hi.step_live hok.1.1 hs he hok.2,
    (hi.step_existenceMap hf hok.1.1 hs he).trans hm⟩

theorem stateSet_recorded (he : e ≠ 0) (hm : s.existenceMap e ≠ 0)
    (hmap : (vmExternalStateSet s e offset .stateExists).existenceMap e = s.existenceMap e) :
    Recorded (vmExternalStateSet s e offset .stateExists) e offset := by
  rw [Recorded, hmap, vmExternalStateSet, if_neg (not_or.mpr ⟨he, hm⟩), if_neg (by decide)]
  simp only [Function.update_self]
  exact testBit_set_self (bitIndex_lt offset)

theorem Inv.hint (hi : Inv s) (hf : AllFit s) (he : s.size e = some size) (ho : offset < size)
    {as : List Action} (hp : Path External.step (Keeps e) (vmExternalStateSet s e offset .stateExists) as t) :
    vmExternalStateGet t e offset ≠ .stateAbsent := by
  have hok : Sized s (.stateSet e offset .stateExists) := 
    ⟨fun _ => by rw [he]; exact decide_eq_true ho, trivial⟩
  have he0 : e ≠ 0 := (hi.bounds _ (hi.live e size he).1).1
  have hmap := hi.stateSet_existenceMap hf hok.1 he
  have hi' := hi.step hf hok.1 rfl
  have hf' := hf.step hok rfl
  have he' := hi.step_live hok.1 rfl he fun _ h => by cases h
  by_cases hm : s.existenceMap e = 0
  · have := hp.invariant (p := fun s => Unmapped s e size) (fun _ _ _ h hok hs => h.step hok hs)
      ⟨hi', hf', he', hmap.trans hm⟩
    rw [vmExternalStateGet, if_pos (.inr (.inr this.2.2.2))]
    simp
  · have := hp.invariant (p := fun s => Holds s e size offset) (fun _ _ _ h hok hs => h.step ho hok hs)
      ⟨hi', hf', he', hmap.symm ▸ hm, stateSet_recorded he0 hm hmap⟩
    exact this.2.2.2.2.not_absent

theorem Inv.destroyed (hi : Inv s) (he : s.size e = some size) : ∃ r, vmExternalDestroy s e size = some r := by
  have hin := (hi.live e size he).1
  rw [vmExternalDestroy, if_neg (hi.bounds _ hin).1]
  split
  next hm =>
    obtain ⟨z, hz, hmap⟩ := hi.map_out he hm
    rw [freeZone_eq hz, Memory.zfree, if_pos hmap, Option.bind_some, Memory.zfree, if_pos]
    · exact ⟨_, rfl⟩
    · exact (List.mem_erase_of_ne fun h => mapZone_ne_external hz (Prod.ext_iff.mp h).1.symm).mpr hin
  next =>
    rw [Memory.zfree, if_pos hin]
    exact ⟨_, rfl⟩

/-- The indexes of a bitmap are in range exactly for the sizes that fit, and a bitmap goes back to its zone. As
long as every bitmap is for such a size, no page that was written is said to be absent. -/
theorem existenceMap_right (size : Nat) (h : Reach Started step Sized s) :
    (InRange size ↔ Fits size) ∧ (∀ z, mapZone size = some z → freeZone size = z) ∧ Right s := by
  refine ⟨inRange_iff size, fun _ => freeZone_eq, ?_⟩
  obtain ⟨hi, hf⟩ := reach_inv h
  refine ⟨fun e size he hm => ?_, fun e size he => hi.destroyed he,
    fun e size he offset ho as t hp => hi.hint hf he ho hp⟩
  obtain ⟨z, hz, hin⟩ := hi.map_out he hm
  exact ⟨z, hin, fun offset ho => (hf e size he).byteIndex_lt hz ho⟩

def boot : Memory where
  mem := fun _ => 0
  out := []
  ready := true
  vmExternalUnsafe := false
  size := fun _ => none

theorem boot_started : Started boot := ⟨rfl, fun _ => rfl⟩

/-- A bitmap for 128 pages, all the bits that the small ones have. -/
theorem fullBitmap_right :
    Right ((runIf step Sized boot
      [.create 4096 8192 (128 * 4096), .stateSet 4096 (127 * 4096) .stateExists]).getD boot) :=
  (existenceMap_right (128 * 4096) ((Reach.start boot_started).runD (by decide +kernel))).2.2

/-- With one page more the last bit is in the byte after the bitmap, which someone else writes. -/
theorem oneMorePage_wrong : ¬InRange (129 * 4096) ∧ ∃ t,
    runIf step Legal boot [.create 4096 8192 (129 * 4096), .stateSet 4096 (128 * 4096) .stateExists,
      .write (8192 + smallSize) 0] = some t ∧
    t.size 4096 = some (129 * 4096) ∧ vmExternalStateGet t 4096 (128 * 4096) = .stateAbsent := by
  refine ⟨fun h => ?_, ?_⟩
  · exact absurd ((inRange_iff _).mp h) (by decide)
  · have hs : (runIf step Legal boot [.create 4096 8192 (129 * 4096), .stateSet 4096 (128 * 4096) .stateExists,
        .write (8192 + smallSize) 0]).isSome = true := by decide +kernel
    obtain ⟨t, ht⟩ := Option.isSome_iff_exists.mp hs
    refine ⟨t, ht, ?_⟩
    rw [← Option.getD_some (a := t) (b := boot), ← ht]
    exact ⟨by decide +kernel, by decide +kernel⟩

end MachVM.External
