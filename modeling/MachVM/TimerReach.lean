import MachVM.Timer
import Mathlib.Data.Nat.ModEq
import Mathlib.Tactic.Common

namespace MachVM.Timing

variable {s s' s₀ : System} {t t' : Timer} {o o' : Owner} {f : Word}

/-! The bits of the flags -/

theorem busy_iff (f : Word) : Busy f ↔ f.getLsbD 2 = true := by
  have h : timerBusy = BitVec.twoPow 32 2 := by decide
  rw [Busy, h, BitVec.and_twoPow]
  split
  next hb => exact ⟨fun _ => hb, fun _ => by decide⟩
  next hb => exact ⟨fun h => absurd rfl h, fun h => absurd h hb⟩

theorem busy_or (f : Word) : Busy (f ||| timerBusy) := by
  rw [busy_iff, BitVec.getLsbD_or]
  exact Bool.or_true _

theorem state_or (f : Word) : (f ||| timerBusy) &&& timerState = f &&& timerState := by
  rw [BitVec.and_or_distrib_right]
  exact BitVec.or_zero

theorem busy_xor (f : Word) : Busy (f ^^^ timerState) ↔ Busy f := by
  rw [busy_iff, busy_iff, BitVec.getLsbD_xor, show timerState.getLsbD 2 = false from rfl, Bool.xor_false]

theorem state_xor (f : Word) : (f ^^^ timerState) &&& timerState ≠ f &&& timerState := by
  intro h
  have := congrArg (BitVec.getLsbD · 0) h
  simp [timerState] at this

theorem busy_clear (f : Word) : ¬ Busy (f &&& ~~~(timerBusy ||| timerService)) := by
  rw [busy_iff, BitVec.getLsbD_and]
  simp [timerBusy, timerService]

theorem state_clear (f : Word) : (f &&& ~~~(timerBusy ||| timerService)) &&& timerState = f &&& timerState := by
  rw [BitVec.and_assoc]
  rfl

/-! The owner -/

/-- The flags say that a normalization is under way. -/
def Owner.inNormal : Owner → Bool
  | .idle | .bumpWrite .. | .busyWrite _ => false
  | _ => true

/-- The units are in `high_bits` already and still in `low_bits`. -/
def Owner.isMid : Owner → Bool
  | .reduceRead | .reduceWrite _ => true
  | _ => false

/-- The state has changed, and the flags still say that a normalization is under way. -/
def Owner.isClearing : Owner → Bool
  | .clearRead | .clearWrite _ => true
  | _ => false

/-- What the owner has read is what memory holds: nobody else writes the timer. -/
def Owner.Holds (t : Timer) : Owner → Prop
  | .bumpWrite low _ => low = t.lowBits
  | .busyWrite flags => flags = t.flags
  | .lowRead high => high = t.highBits
  | .highWrite high low => high = t.highBits ∧ low = t.lowBits
  | .reduceWrite low => low = t.lowBits
  | .flipWrite flags => flags = t.flags
  | .clearWrite flags => flags = t.flags
  | _ => True

/-- What `low_bits` adds to the units that are in `high_bits`. -/
def Owner.part (t : Timer) (o : Owner) : Nat :=
  if o.isMid then t.lowBits.toNat % timerHighUnit.toNat else t.lowBits.toNat

/-- The two words are the time given to the timer, between the two writes of a normalization too. -/
structure OwnerInv (t : Timer) (o : Owner) (total carried : Nat) : Prop where
  busy : Busy t.flags ↔ o.inNormal = true
  high : t.highBits = BitVec.ofNat 32 carried
  total : total = carried * timerHighUnit.toNat + o.part t
  holds : o.Holds t

theorem ownerStep_inv {n c : Nat} (hi : OwnerInv t o n c) (h : OwnerStep t o t' o') :
    OwnerInv t' o' (n + o.gain) (c + o.carry) := by
  obtain ⟨hbusy, hhigh, htotal, hholds⟩ := hi
  cases h with
  | bumpRead usec => exact ⟨hbusy, hhigh, htotal, rfl⟩
  | bumpWrite low usec hno =>
    cases hholds
    refine ⟨hbusy, hhigh, ?_, trivial⟩
    have hlow : (t.lowBits + usec).toNat = t.lowBits.toNat + usec.toNat := by
      rw [BitVec.toNat_add, Nat.mod_eq_of_lt hno]
    change n + usec.toNat = c * _ + (t.lowBits + usec).toNat
    change n = c * _ + t.lowBits.toNat at htotal
    omega
  | busyRead => exact ⟨hbusy, hhigh, htotal, rfl⟩
  | busyWrite flags => exact ⟨iff_of_true (busy_or flags) rfl, hhigh, htotal, trivial⟩
  | highRead => exact ⟨hbusy, hhigh, htotal, rfl⟩
  | lowRead high => exact ⟨hbusy, hhigh, htotal, hholds, rfl⟩
  | highWrite high low =>
    obtain ⟨rfl, rfl⟩ := hholds
    refine ⟨hbusy, ?_, ?_, trivial⟩
    · change t.highBits + t.lowBits / timerHighUnit = BitVec.ofNat 32 (c + t.lowBits.toNat / timerHighUnit.toNat)
      rw [hhigh, BitVec.ofNat_add, ← BitVec.toNat_udiv, BitVec.ofNat_toNat, BitVec.setWidth_eq]
    · change n = (c + t.lowBits.toNat / timerHighUnit.toNat) * timerHighUnit.toNat +
        t.lowBits.toNat % timerHighUnit.toNat
      change n = c * _ + t.lowBits.toNat at htotal
      rw [htotal, Nat.add_mul, Nat.add_assoc, Nat.mul_comm (t.lowBits.toNat / _), Nat.div_add_mod]
  | reduceRead => exact ⟨hbusy, hhigh, htotal, rfl⟩
  | reduceWrite low =>
    cases hholds
    refine ⟨hbusy, hhigh, ?_, trivial⟩
    change n = c * _ + (t.lowBits % timerHighUnit).toNat
    rw [BitVec.toNat_umod]
    exact htotal
  | flipRead => exact ⟨hbusy, hhigh, htotal, rfl⟩
  | flipWrite flags =>
    cases hholds
    exact ⟨(busy_xor _).trans hbusy, hhigh, htotal, trivial⟩
  | clearRead => exact ⟨hbusy, hhigh, htotal, rfl⟩
  | clearWrite flags => exact ⟨iff_of_false (busy_clear flags) (by decide), hhigh, htotal, trivial⟩

theorem ownerInv_start (h : Start s) : OwnerInv s.timer s.owner s.total s.carried := by
  refine ⟨?_, ?_, ?_, ?_⟩
  · rw [h.owner]
    exact iff_of_false h.flags (by decide)
  · rw [h.carried, BitVec.ofNat_toNat, BitVec.setWidth_eq]
  · rw [h.owner, h.total, h.carried]
    rfl
  · rw [h.owner]
    trivial

/-- What the saved value and the sum of the results are, unless a fast path came too late. -/
structure SaveInv (total₀ : Nat) (s : System) : Prop where
  saved_le : s.saved ≤ s.carried
  mid : s.owner.isMid = true → s.saved + s.timer.lowBits.toNat / timerHighUnit.toNat ≤ s.carried
  growth : s.late = false → s.save.high = BitVec.ofNat 32 s.saved ∧
    ∃ n ∈ s.savedMoments, n = s.saved * timerHighUnit.toNat + s.save.low.toNat ∧
      s.result = BitVec.ofNat 32 n - BitVec.ofNat 32 total₀

theorem saveInv_start (h : Start s) : SaveInv s.total s := by
  refine ⟨Nat.le_of_eq h.saved, fun hm => ?_, fun _ => ⟨?_, s.total, ?_, ?_, ?_⟩⟩
  · rw [h.owner] at hm
    cases hm
  · rw [h.saved, h.carried, h.save, BitVec.ofNat_toNat, BitVec.setWidth_eq]
  · rw [h.savedMoments]
    exact List.mem_singleton_self _
  · rw [h.saved, h.carried, h.save, h.total]
  · rw [h.result, BitVec.sub_self]
    rfl

theorem saveInv_owner {total₀ : Nat} (hi : SaveInv total₀ s) (ho : s.owner.Holds s.timer)
    (h : OwnerStep s.timer s.owner t o) : SaveInv total₀ (s.ownerMoves t o) := by
  obtain ⟨hle, hmid, hgrowth⟩ := hi
  refine ⟨Nat.le_add_right_of_le hle, ?_, hgrowth⟩
  change o.isMid = true → s.saved + t.lowBits.toNat / timerHighUnit.toNat ≤ s.carried + s.owner.carry
  generalize s.owner = p at h ho hmid
  cases h with
  | highWrite high low =>
    intro _
    rw [← ho.2]
    exact Nat.add_le_add_right hle _
  | reduceRead => exact hmid
  | _ => exact fun hm => nomatch hm

/-- Whether the reader can still accept what it reads: nothing but increments has happened since it looked at the
flags, unless the flags show it. -/
structure Pass (s : System) (bflags : Word) : Prop where
  same : s.flips = 0 → s.timer.flags &&& timerState = bflags &&& timerState
  changed : s.flips = 1 → s.timer.flags &&& timerState ≠ bflags &&& timerState
  clear : ¬ Busy bflags → s.flips = 0 → s.owner.isClearing = false

/-- The flags will let the value pass if they are read now. -/
def Passes (s : System) (bflags : Word) : Prop := ¬ Busy bflags ∧ s.flips = 0 ∧ s.owner.inNormal = false

/-- What the reader has in hand. -/
def ReaderInv (s : System) : Prop :=
  match s.reader with
  | .deltaHigh temp => ∃ n ∈ s.moments, ∃ c, s.saved ≤ c ∧ c ≤ s.carried ∧
      (c = s.saved → n = c * timerHighUnit.toNat + temp.toNat)
  | .grabLow _ b => Pass s b
  | .grabHigh _ b low => Pass s b ∧
      (Passes s b → s.carried * timerHighUnit.toNat + low.toNat ∈ s.moments)
  | .grabAflags _ b low high => Pass s b ∧
      (Passes s b → s.carried * timerHighUnit.toNat + low.toNat ∈ s.moments ∧ high = BitVec.ofNat 32 s.carried)
  | _ => True

theorem ownerStep_state (h : OwnerStep t o t' o') (ho : o.Holds t) :
    o.flip = 0 ∧ t'.flags &&& timerState = t.flags &&& timerState ∨
      o.flip = 1 ∧ t'.flags = t.flags ^^^ timerState := by
  cases h with
  | busyWrite flags =>
    cases ho
    exact .inl ⟨rfl, state_or _⟩
  | flipWrite flags =>
    cases ho
    exact .inr ⟨rfl, rfl⟩
  | clearWrite flags =>
    cases ho
    exact .inl ⟨rfl, state_clear _⟩
  | _ => exact .inl ⟨rfl, rfl⟩

theorem ownerStep_clearing (h : OwnerStep t o t' o') (hc : o'.isClearing = true) :
    o.isClearing = true ∨ o.flip = 1 := by
  cases h with
  | flipWrite => exact .inr rfl
  | clearRead => exact .inl rfl
  | _ => cases hc

theorem ownerStep_quiet (h : OwnerStep t o t' o') (hq : o'.inNormal = false) :
    o.isClearing = true ∨ o.inNormal = false ∧ o.carry = 0 := by
  cases h with
  | clearWrite => exact .inl rfl
  | bumpRead | bumpWrite | busyRead => exact .inr ⟨rfl, rfl⟩
  | _ => cases hq

theorem pass_owner {b : Word} (hp : Pass s b) (ho : s.owner.Holds s.timer) (h : OwnerStep s.timer s.owner t o) :
    Pass (s.ownerMoves t o) b := by
  obtain ⟨hsame, hchanged, hclear⟩ := hp
  refine ⟨fun hf => ?_, fun hf => ?_, fun hb hf => ?_⟩
  · obtain ⟨hf₁, hf₂⟩ := Nat.add_eq_zero_iff.mp hf
    rcases ownerStep_state h ho with ⟨-, hs⟩ | ⟨h₁, -⟩
    · exact hs.trans (hsame hf₁)
    · rw [hf₂] at h₁
      cases h₁
  · change s.flips + s.owner.flip = 1 at hf
    rcases ownerStep_state h ho with ⟨h₀, hs⟩ | ⟨h₁, hs⟩
    · have := hchanged (by omega)
      rwa [← hs] at this
    · have hf₀ := hsame (by omega)
      change t.flags &&& timerState ≠ b &&& timerState
      rw [hs, ← hf₀]
      exact state_xor _
  · obtain ⟨hf₁, hf₂⟩ := Nat.add_eq_zero_iff.mp hf
    have hno := hclear hb hf₁
    cases hc : o.isClearing with
    | false => exact hc
    | true =>
      rcases ownerStep_clearing h hc with hc | h₁
      · rw [hno] at hc
        cases hc
      · rw [hf₂] at h₁
        cases h₁

theorem passes_owner {b : Word} (hp : Pass s b) (h : OwnerStep s.timer s.owner t o)
    (hq : Passes (s.ownerMoves t o) b) : Passes s b ∧ s.owner.carry = 0 := by
  obtain ⟨hb, hf, hn⟩ := hq
  obtain ⟨hf₁, -⟩ := Nat.add_eq_zero_iff.mp hf
  rcases ownerStep_quiet h hn with hc | ⟨hn, hc⟩
  · rw [hp.clear hb hf₁] at hc
    cases hc
  · exact ⟨⟨hb, hf₁, hn⟩, hc⟩

theorem readerInv_owner (hi : ReaderInv s) (ho : s.owner.Holds s.timer) (h : OwnerStep s.timer s.owner t o) :
    ReaderInv (s.ownerMoves t o) := by
  have hr : (s.ownerMoves t o).reader = s.reader := rfl
  rw [ReaderInv] at hi ⊢
  rw [hr]
  cases hs : s.reader with
  | deltaHigh temp =>
    rw [hs] at hi
    obtain ⟨n, hn, c, hlo, hhi, hc⟩ := hi
    exact ⟨n, List.mem_cons_of_mem _ hn, c, hlo, Nat.le_add_right_of_le hhi, hc⟩
  | grabLow p b =>
    rw [hs] at hi
    exact pass_owner hi ho h
  | grabHigh p b low =>
    rw [hs] at hi
    refine ⟨pass_owner hi.1 ho h, fun hq => ?_⟩
    obtain ⟨hq, hc⟩ := passes_owner hi.1 h hq
    change (s.carried + s.owner.carry) * _ + _ ∈ _
    rw [hc]
    exact List.mem_cons_of_mem _ (hi.2 hq)
  | grabAflags p b low high =>
    rw [hs] at hi
    refine ⟨pass_owner hi.1 ho h, fun hq => ?_⟩
    obtain ⟨hq, hc⟩ := passes_owner hi.1 h hq
    change (s.carried + s.owner.carry) * _ + _ ∈ _ ∧ high = BitVec.ofNat 32 (s.carried + s.owner.carry)
    rw [hc]
    exact ⟨List.mem_cons_of_mem _ (hi.2 hq).1, (hi.2 hq).2⟩
  | _ => trivial

/-- The two words of a value that was accepted are a total of the timer while it was read. -/
def Reading.Shown (r : Reading) : Prop :=
  ∃ n ∈ r.moments, ∃ c, n = c * timerHighUnit.toNat + r.value.low.toNat ∧ r.value.high = BitVec.ofNat 32 c

structure Inv (total₀ : Nat) (s : System) : Prop where
  owner : OwnerInv s.timer s.owner s.total s.carried
  since : s.total ∈ s.moments
  save : SaveInv total₀ s
  reader : ReaderInv s
  once : s.AtMostOne
  shown : ∀ r ∈ s.readings, r.Shown

theorem inv_start (h : Start s) : Inv s.total s := by
  refine ⟨ownerInv_start h, ?_, saveInv_start h, ?_, fun hp => ?_, fun r hr => ?_⟩
  · rw [h.moments]
    exact List.mem_singleton_self _
  · rw [ReaderInv, h.reader]
    trivial
  · rw [h.reader] at hp
    cases hp
  · rw [h.readings] at hr
    cases hr

theorem inv_owner {total₀ : Nat} (hi : Inv total₀ s) (h : OwnerStep s.timer s.owner t o)
    (h1 : (s.ownerMoves t o).AtMostOne) : Inv total₀ (s.ownerMoves t o) :=
  ⟨ownerStep_inv hi.owner h, List.mem_cons_self, saveInv_owner hi.save hi.owner.holds h,
    readerInv_owner hi.reader hi.owner.holds h, h1, hi.shown⟩

theorem accepted {total₀ : Nat} {p : Purpose} {b low high : Word} (hi : Inv total₀ s)
    (hr : s.reader = .grabAflags p b low high)
    (h : ¬ (Busy b ∨ Busy s.timer.flags ∨ b &&& timerState ≠ s.timer.flags &&& timerState)) :
    s.carried * timerHighUnit.toNat + low.toNat ∈ s.moments ∧ high = BitVec.ofNat 32 s.carried := by
  obtain ⟨hb, ha, hs⟩ : ¬ Busy b ∧ ¬ Busy s.timer.flags ∧ s.timer.flags &&& timerState = b &&& timerState := by
    simp only [not_or, not_not] at h
    exact ⟨h.1, h.2.1, h.2.2.symm⟩
  have hread := hi.reader
  rw [ReaderInv, hr] at hread
  obtain ⟨hp, hv⟩ := hread
  have hflips : s.flips ≤ 1 := hi.once (by rw [hr]; rfl)
  have hzero : s.flips = 0 := by
    rcases Nat.le_one_iff_eq_zero_or_eq_one.mp hflips with h₀ | h₁
    · exact h₀
    · exact absurd hs (hp.changed h₁)
  have hquiet : s.owner.inNormal = false := by
    rw [← Bool.not_eq_true, ← hi.owner.busy]
    exact ha
  exact hv ⟨hb, hzero, hquiet⟩

theorem Owner.part_quiet (h : o.inNormal = false) (t : Timer) : o.part t = t.lowBits.toNat := by
  cases o <;> first | rfl | cases h

theorem Owner.not_mid_of_quiet (h : o.inNormal = false) : o.isMid = false := by
  cases o <;> first | rfl | cases h

theorem Owner.inNormal_of_clearing (h : o.isClearing = true) : o.inNormal = true := by
  cases o <;> first | rfl | cases h

theorem carried_eq_saved {total₀ : Nat} (hi : Inv total₀ s) (hl : s.late = false)
    (hlate : ¬ s.saved + 2 ^ 32 ≤ s.carried) (h : s.save.high = s.timer.highBits) : s.carried = s.saved := by
  have hle := hi.save.saved_le
  have hw : s.saved % 2 ^ 32 = s.carried % 2 ^ 32 := by
    have := congrArg BitVec.toNat ((hi.save.growth hl).1.symm.trans (h.trans hi.owner.high))
    rwa [BitVec.toNat_ofNat, BitVec.toNat_ofNat] at this
  omega

theorem saveInv_fast {total₀ : Nat} {temp : Word} (hi : Inv total₀ s) (hr : s.reader = .deltaHigh temp)
    (h : s.save.high = s.timer.highBits) : SaveInv total₀ (s.fast temp) := by
  refine ⟨hi.save.saved_le, hi.save.mid, fun hl => ?_⟩
  obtain ⟨hl, hlate⟩ := Bool.or_eq_false_iff.mp hl
  have hcarried := carried_eq_saved hi hl (of_decide_eq_false hlate) h
  have hread := hi.reader
  rw [ReaderInv, hr] at hread
  obtain ⟨n, hn, c, hlo, hhi, hc⟩ := hread
  have hsaved : c = s.saved := by omega
  obtain ⟨hhigh, n₀, -, hn₀, hres⟩ := hi.save.growth hl
  refine ⟨hhigh, n, hn, ?_, ?_⟩
  · change n = s.saved * _ + temp.toNat
    rw [← hsaved]
    exact hc hsaved
  · change s.result + (temp - s.save.low) = _
    rw [hres, hc hsaved, hn₀, hsaved]
    simp only [BitVec.ofNat_add, BitVec.ofNat_mul, BitVec.ofNat_toNat, BitVec.setWidth_eq]
    grind

theorem saveInv_accept {total₀ : Nat} {low high : Word} (hi : Inv total₀ s) (hn : s.owner.inNormal = false)
    (hv : s.carried * timerHighUnit.toNat + low.toNat ∈ s.moments ∧ high = BitVec.ofNat 32 s.carried) :
    SaveInv total₀ (s.accept low high .delta) := by
  refine ⟨Nat.le_refl _, fun hm => ?_, fun hl => ⟨hv.2, _, hv.1, rfl, ?_⟩⟩
  · exact absurd (Owner.not_mid_of_quiet hn) (Bool.not_eq_false _ ▸ hm)
  · obtain ⟨hhigh, n₀, -, hn₀, hres⟩ := hi.save.growth hl
    change s.result + s.delta low high = _
    rw [hres, System.delta, hn₀, hhigh, hv.2]
    simp only [BitVec.ofNat_add, BitVec.ofNat_mul, BitVec.ofNat_toNat, BitVec.setWidth_eq]
    grind

theorem inv_reader {total₀ : Nat} (hi : Inv total₀ s) (h : ReaderStep s s') (h1 : s'.AtMostOne) :
    Inv total₀ s' := by
  have hsave : SaveInv total₀ s := hi.save
  have howner := hi.owner
  cases h with
  | timerGrab hr | timerDelta hr | macroDelta hr =>
    exact ⟨howner, List.mem_singleton_self _, ⟨hsave.1, hsave.2, hsave.3⟩, trivial, h1, hi.shown⟩
  | deltaLow hr =>
    refine ⟨howner, hi.since, ⟨hsave.1, hsave.2, hsave.3⟩, ?_, h1, hi.shown⟩
    refine ⟨s.total, hi.since, s.carried, hsave.saved_le, Nat.le_refl _, fun hc => ?_⟩
    change s.carried = s.saved at hc
    rw [howner.total, Owner.part]
    split
    next hm =>
      have hmid := hsave.mid hm
      have hz : s.timer.lowBits.toNat / timerHighUnit.toNat = 0 := by
        generalize s.timer.lowBits.toNat / timerHighUnit.toNat = units at hmid
        omega
      rw [Nat.mod_eq_of_lt ((Nat.div_eq_zero_iff.mp hz).resolve_left (by decide))]
    next => rfl
  | deltaFast temp hr hh =>
    exact ⟨howner, hi.since, saveInv_fast hi hr hh, trivial, h1, hi.shown⟩
  | deltaSlow temp hr hh =>
    exact ⟨howner, hi.since, ⟨hsave.1, hsave.2, hsave.3⟩, trivial, h1, hi.shown⟩
  | grabFlags p hr =>
    refine ⟨howner, hi.since, ⟨hsave.1, hsave.2, hsave.3⟩, ?_, h1, hi.shown⟩
    refine ⟨fun _ => rfl, (fun h => nomatch h), fun hb _ => ?_⟩
    cases hc : s.owner.isClearing with
    | false => rfl
    | true => exact absurd (howner.busy.mpr (Owner.inNormal_of_clearing hc)) hb
  | grabLow p b hr =>
    have hread := hi.reader
    rw [ReaderInv, hr] at hread
    refine ⟨howner, hi.since, ⟨hsave.1, hsave.2, hsave.3⟩, ⟨⟨hread.1, hread.2, hread.3⟩, fun hq => ?_⟩, h1, hi.shown⟩
    have htotal := howner.total
    rw [Owner.part_quiet hq.2.2] at htotal
    exact htotal ▸ hi.since
  | grabHigh p b low hr =>
    have hread := hi.reader
    rw [ReaderInv, hr] at hread
    obtain ⟨hp, hv⟩ := hread
    exact ⟨howner, hi.since, ⟨hsave.1, hsave.2, hsave.3⟩, ⟨⟨hp.1, hp.2, hp.3⟩, fun hq => ⟨hv hq, howner.high⟩⟩, h1,
      hi.shown⟩
  | grabRetry p b low high hr hh =>
    exact ⟨howner, hi.since, ⟨hsave.1, hsave.2, hsave.3⟩, trivial, h1, hi.shown⟩
  | grabAccept p b low high hr hh =>
    have hv := accepted hi hr hh
    cases p with
    | grab =>
      refine ⟨howner, hi.since, ⟨hsave.1, hsave.2, hsave.3⟩, trivial, h1, fun r hr => ?_⟩
      rcases List.mem_cons.mp hr with rfl | hr
      · exact ⟨_, hv.1, s.carried, rfl, hv.2⟩
      · exact hi.shown r hr
    | delta =>
      have hquiet : s.owner.inNormal = false := by
        rw [← Bool.not_eq_true, ← howner.busy]
        exact fun hb => hh (.inr (.inl hb))
      exact ⟨howner, hi.since, saveInv_accept hi hquiet hv, trivial, h1, hi.shown⟩

theorem inv_reach (h : Reach s₀ s) : Inv s₀.total s := by
  induction h with
  | start h => exact inv_start h
  | step _ hs h1 ih =>
    cases hs with
    | owner h => exact inv_owner ih h h1
    | reader h => exact inv_reader ih h h1

/-- `high * TIMER_HIGH_UNIT + low`. -/
def TimerSave.value (v : TimerSave) : Nat := v.high.toNat * timerHighUnit.toNat + v.low.toNat

theorem Reading.Shown.value {r : Reading} (h : r.Shown) :
    ∃ n ∈ r.moments, r.value.value ≡ n [MOD 2 ^ 32 * timerHighUnit.toNat] ∧
      (n < 2 ^ 32 * timerHighUnit.toNat → r.value.value = n) := by
  obtain ⟨n, hn, c, rfl, hhigh⟩ := h
  have hword : r.value.high.toNat = c % 2 ^ 32 := by rw [hhigh, BitVec.toNat_ofNat]
  refine ⟨_, hn, ?_, fun hlt => ?_⟩
  · rw [TimerSave.value, hword]
    exact ((Nat.mod_modEq c (2 ^ 32)).mul_right' _).add_right _
  · rw [TimerSave.value, hword, Nat.mod_eq_of_lt]
    by_contra hc
    have := Nat.mul_le_mul_right timerHighUnit.toNat (Nat.not_lt.mp hc)
    omega

/-- Every value that `timer_grab` accepts is a total of the timer while it was read, as far as two words hold one. The
results on a save area add up to the growth between two totals, the second one while the last reading was made, unless
a fast path came 2^32 or more units of `high_bits` after the saved reading. -/
theorem timer_readings (h : Reach s₀ s) :
    (∀ r ∈ s.readings, ∃ n ∈ r.moments, r.value.value ≡ n [MOD 2 ^ 32 * timerHighUnit.toNat] ∧
      (n < 2 ^ 32 * timerHighUnit.toNat → r.value.value = n)) ∧
    (s.late = false → ∃ n ∈ s.savedMoments, s.result = BitVec.ofNat 32 n - BitVec.ofNat 32 s₀.total) := by
  have hi := inv_reach h
  refine ⟨fun r hr => (hi.shown r hr).value, fun hl => ?_⟩
  obtain ⟨-, n, hn, -, hres⟩ := hi.save.growth hl
  exact ⟨n, hn, hres⟩

/-- A timer as `timer_init` leaves it, and the save area of a new thread. -/
def newTimer : System where
  timer := ⟨0, 0, 0⟩
  owner := .idle
  reader := .idle
  save := ⟨0, 0⟩
  result := 0
  total := 0
  carried := 0
  saved := 0
  flips := 0
  moments := [0]
  savedMoments := [0]
  readings := []
  late := false

theorem newTimer_start : Start newTimer :=
  ⟨rfl, rfl, by decide, rfl, rfl, rfl, rfl, rfl, rfl, rfl, rfl, rfl⟩

theorem Reach.owner (h : Reach s₀ s) (hr : s.reader.inPass = false) (hs : OwnerStep s.timer s.owner t o) :
    Reach s₀ (s.ownerMoves t o) := by
  refine .step h (.owner hs) fun hp => ?_
  change s.reader.inPass = true at hp
  rw [hr] at hp
  cases hp

theorem Reach.reader (h : Reach s₀ s) (hs : ReaderStep s s') (hr : s'.reader.inPass = false) : Reach s₀ s' := by
  refine .step h (.reader hs) fun hp => ?_
  rw [hr] at hp
  cases hp

/-- Five microseconds, read by `TIMER_DELTA`. -/
def fiveMicroseconds : System :=
  let s := (newTimer.ownerMoves ⟨0, 0, 0⟩ (.bumpWrite 0 5)).ownerMoves ⟨5, 0, 0⟩ .idle
  { s.begins .deltaLow with reader := .deltaHigh 5 }.fast 5

theorem fiveMicroseconds_reach : Reach newTimer fiveMicroseconds := by
  have h₁ := (Reach.start newTimer_start).owner rfl (.bumpRead _ 5)
  have h₂ := h₁.owner rfl (.bumpWrite _ 0 5 (by decide))
  have h₃ := h₂.reader (.macroDelta _ rfl) rfl
  have h₄ := h₃.reader (.deltaLow _ rfl) rfl
  exact h₄.reader (.deltaFast _ 5 rfl rfl) rfl

theorem fiveMicroseconds_growth :
    ∃ n ∈ fiveMicroseconds.savedMoments,
      fiveMicroseconds.result = BitVec.ofNat 32 n - BitVec.ofNat 32 newTimer.total :=
  (timer_readings fiveMicroseconds_reach).2 (by decide +kernel)

/-- The owner has been at work, and the reader has not. -/
structure Frame (s s' : System) : Prop where
  reader : s'.reader = s.reader
  save : s'.save = s.save
  result : s'.result = s.result
  owner : s'.owner = .idle

theorem bump_reach (usec : Word) (h : Reach s₀ s) (ho : s.owner = .idle) (hr : s.reader.inPass = false)
    (hno : s.timer.lowBits.toNat + usec.toNat < 2 ^ 32) :
    ∃ s', Reach s₀ s' ∧ Frame s s' ∧ s'.timer = { s.timer with lowBits := s.timer.lowBits + usec } ∧
      s'.total = s.total + usec.toNat := by
  have hs : OwnerStep s.timer s.owner s.timer (.bumpWrite s.timer.lowBits usec) := by
    rw [ho]
    exact .bumpRead _ usec
  have h₁ := h.owner hr hs
  have h₂ := h₁.owner hr (.bumpWrite _ _ _ hno)
  refine ⟨_, h₂, ⟨rfl, rfl, rfl, rfl⟩, rfl, ?_⟩
  change s.total + s.owner.gain + usec.toNat = _
  rw [ho]
  rfl

theorem normalize_reach (h : Reach s₀ s) (ho : s.owner = .idle) (hr : s.reader.inPass = false) :
    ∃ s', Reach s₀ s' ∧ Frame s s' ∧ s'.timer.lowBits = s.timer.lowBits % timerHighUnit ∧
      s'.timer.highBits = s.timer.highBits + s.timer.lowBits / timerHighUnit ∧ s'.total = s.total ∧
      ∀ n ∈ s'.moments, n ∈ s.total :: s.moments := by
  have hs : OwnerStep s.timer s.owner s.timer (.busyWrite s.timer.flags) := by
    rw [ho]
    exact .busyRead _
  have h₁ := h.owner hr hs
  have h₂ := h₁.owner hr (.busyWrite _ _)
  have h₃ := h₂.owner hr (.highRead _)
  have h₄ := h₃.owner hr (.lowRead _ _)
  have h₅ := h₄.owner hr (.highWrite _ _ _)
  have h₆ := h₅.owner hr (.reduceRead _)
  have h₇ := h₆.owner hr (.reduceWrite _ _)
  have h₈ := h₇.owner hr (.flipRead _)
  have h₉ := h₈.owner hr (.flipWrite _ _)
  have h₁₀ := h₉.owner hr (.clearRead _)
  have h₁₁ := h₁₀.owner hr (.clearWrite _ _)
  have hgain : s.total + s.owner.gain = s.total := by
    rw [ho]
    rfl
  refine ⟨_, h₁₁, ⟨rfl, rfl, rfl, rfl⟩, rfl, rfl, hgain, fun n hn => ?_⟩
  simp only [System.ownerMoves, Owner.gain, Nat.add_zero, ho, List.mem_cons] at hn ⊢
  tauto

theorem units_reach (n : Nat) :
    ∃ s, Reach newTimer s ∧ Frame newTimer s ∧ s.timer.lowBits = 0 ∧ s.timer.highBits = BitVec.ofNat 32 n ∧
      s.total = n * timerHighUnit.toNat := by
  induction n with
  | zero => exact ⟨newTimer, .start newTimer_start, ⟨rfl, rfl, rfl, rfl⟩, rfl, rfl, rfl⟩
  | succ n ih =>
    obtain ⟨s, h, hf, hlow, hhigh, htotal⟩ := ih
    have hpass : s.reader.inPass = false := by
      rw [hf.reader]
      rfl
    obtain ⟨s₁, h₁, hf₁, ht₁, hn₁⟩ := bump_reach timerHighUnit h hf.owner hpass (by rw [hlow]; decide)
    obtain ⟨s₂, h₂, hf₂, hlow₂, hhigh₂, hn₂, -⟩ := normalize_reach h₁ hf₁.owner (by rw [hf₁.reader]; exact hpass)
    refine ⟨s₂, h₂, ⟨?_, ?_, ?_, hf₂.owner⟩, ?_, ?_, ?_⟩
    · rw [hf₂.reader, hf₁.reader, hf.reader]
    · rw [hf₂.save, hf₁.save, hf.save]
    · rw [hf₂.result, hf₁.result, hf.result]
    · rw [hlow₂, ht₁, hlow]
      change (0 + timerHighUnit) % timerHighUnit = 0
      decide
    · rw [hhigh₂, ht₁, hlow]
      change s.timer.highBits + (0 + timerHighUnit) / timerHighUnit = BitVec.ofNat 32 (n + 1)
      rw [hhigh, BitVec.ofNat_add]
      exact congrArg _ (by decide)
    · rw [hn₂, hn₁, htotal, Nat.add_mul, Nat.one_mul]

/-- The reader reads `low_bits`, the owner normalizes and so carries the last of 2^32 units, and `high_bits` is what it
was at the saved reading. -/
theorem late_delta_wrong :
    ∃ s, Reach newTimer s ∧
      ∀ n ∈ s.savedMoments, s.result ≠ BitVec.ofNat 32 n - BitVec.ofNat 32 newTimer.total := by
  obtain ⟨s, h, hf, hlow, hhigh, htotal⟩ := units_reach (2 ^ 32 - 1)
  have hidle : s.reader = .idle := hf.reader
  obtain ⟨s₁, h₁, hf₁, ht₁, hn₁⟩ :=
    bump_reach timerHighUnit h hf.owner (by rw [hidle]; rfl) (by rw [hlow]; decide)
  have h₂ := h₁.reader (.macroDelta s₁ (hf₁.reader.trans hidle)) rfl
  have h₃ := h₂.reader (.deltaLow _ rfl) rfl
  obtain ⟨s₄, h₄, hf₄, hlow₄, hhigh₄, hn₄, hmoments⟩ := normalize_reach h₃ hf₁.owner rfl
  have hsave : s₄.save = ⟨0, 0⟩ := by rw [hf₄.save]; exact hf₁.save.trans hf.save
  have hresult : s₄.result = 0 := by rw [hf₄.result]; exact hf₁.result.trans hf.result
  have htemp : s₁.timer.lowBits = timerHighUnit := by
    rw [ht₁, hlow]
    exact BitVec.zero_add _
  have hzero : s₄.timer.highBits = 0 := by
    rw [hhigh₄]
    change s₁.timer.highBits + s₁.timer.lowBits / timerHighUnit = 0
    rw [htemp, ht₁, hhigh]
    decide
  have h₅ := h₄.reader (.deltaFast s₄ s₁.timer.lowBits hf₄.reader (by rw [hsave, hzero])) rfl
  refine ⟨_, h₅, fun n hn => ?_⟩
  have hmem := hmoments n hn
  have htotal₁ : n = 2 ^ 32 * timerHighUnit.toNat := by
    have : n = s₁.total := by simpa [System.begins] using hmem
    rw [this, hn₁, htotal]
    decide
  change s₄.result + (s₁.timer.lowBits - s₄.save.low) ≠ _
  rw [hresult, hsave, htemp, htotal₁]
  decide

end MachVM.Timing
