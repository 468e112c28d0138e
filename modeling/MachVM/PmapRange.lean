import MachVM.PmapEntries
import Mathlib.Data.Finset.Card

namespace MachVM.I386

open Machine State

def i386PgBytes : Nat := 4096

def segBytes : Nat := 4194304

/-- Where the last segment of the address space begins. -/
def lastSegment : Nat := 4290772992

/-- `round_i386seg`, in 32 bits. -/
def roundI386seg (x : Nat) : Nat := (x + (segBytes - 1)) % 2 ^ 32 / segBytes * segBytes

/-- The `n` of the loops: where the segment of `va` ends, or the range. -/
def segmentEnd (va e : Nat) : Nat :=
  let n := roundI386seg ((va + 1) % 2 ^ 32)
  if e < n then e else n

/-- One turn of the loops of `pmap_remove_range` and `pmap_protect`, over byte addresses: a segment, whose table
may be missing. -/
def segmentTurn {σ : Type} (state : σ → State) (entry : σ → Va → Except Panic σ) (p : PmapId) (e va : Nat) (r : σ) :
    Except Panic (Nat × σ) :=
  let n := segmentEnd va e
  match (state r).pmapPte p (va / i386PgBytes) with
  | none => if p = kernelPmap then .error .pteMissingFromKernel else .ok (n, r)
  | some _ =>
    let turns := (n - va + (i386PgBytes - 1)) / i386PgBytes
    (sweep entry r (va / i386PgBytes) turns).map fun q => (va + turns * i386PgBytes, q)

/-- So many turns of the loop. `none` means that it has not come to its end. -/
def segmentLoop {σ : Type} (state : σ → State) (entry : σ → Va → Except Panic σ) (p : PmapId) (e : Nat) :
    Nat → Nat → σ → Option (Except Panic σ)
  | 0, _, _ => none
  | k + 1, va, r =>
    if va < e then
      match segmentTurn state entry p e va r with
      | .error x => some (.error x)
      | .ok (va, r) => segmentLoop state entry p e k va r
    else some (.ok r)

/-- `num_removed` and `num_unwired` of `pmap_remove_range`, with the state. -/
structure Removal where
  state : State
  numRemoved : Nat
  numUnwired : Nat

/-- One entry of `pmap_remove_range`. -/
def removeEntry (p : PmapId) (r : Removal) (va : Va) : Except Panic Removal :=
  let counted : Removal :=
    match r.state.pmapPte p va with
    | none => r
    | some pte =>
      if pte.pfn = 0 then r
      else { r with
        numRemoved := r.numRemoved + 1
        numUnwired := if pte.wired then r.numUnwired + 1 else r.numUnwired }
  (removePte r.state p va).map fun s => { counted with state := s }

/-- `pmap->stats`. -/
structure Stats where
  residentCount : Int
  wiredCount : Int
  deriving DecidableEq

/-- `pmap_remove`, over byte addresses, with the statistics of the pmap. -/
def pmapRemove (k : Nat) (s : State) (stats : Stats) (p : PmapId) (start e : Nat) :
    Option (Except Panic (State × Stats)) :=
  (segmentLoop Removal.state (removeEntry p) p e k start ⟨s, 0, 0⟩).map fun x => x.map fun r =>
    (r.state, ⟨stats.residentCount - r.numRemoved, stats.wiredCount - r.numUnwired⟩)

/-- `pmap_protect`, over byte addresses. -/
def pmapProtectBytes (k : Nat) (s : State) (p : PmapId) (start e : Nat) (prot : VmProt) : Option (Except Panic State) :=
  segmentLoop id (fun s va => protectPte s p prot va) p e k start s

variable {σ : Type} {state : σ → State} {entry : σ → Va → Except Panic σ} {p : PmapId} {va e k : Nat} {r q : σ}

/-! ### The segments -/

theorem segmentEnd_last (h : lastSegment ≤ va) (hva : va < 2 ^ 32) : segmentEnd va e = 0 := by
  have : roundI386seg ((va + 1) % 2 ^ 32) = 0 := by
    unfold roundI386seg segBytes
    unfold lastSegment at h
    omega
  unfold segmentEnd
  rw [this, if_neg (Nat.not_lt_zero _)]

theorem segmentEnd_eq (h : va < lastSegment) : segmentEnd va e = min e ((va / segBytes + 1) * segBytes) := by
  have : roundI386seg ((va + 1) % 2 ^ 32) = (va / segBytes + 1) * segBytes := by
    unfold roundI386seg segBytes
    unfold lastSegment at h
    omega
  simp only [segmentEnd, this]
  split <;> omega

theorem map_eq_ok {α β ε : Type} {x : Except ε α} {f : α → β} {b : β} (h : x.map f = .ok b) :
    ∃ a, x = .ok a ∧ f a = b := by
  cases x with
  | ok a => exact ⟨a, rfl, Except.ok.inj h⟩
  | error e => cases h

theorem segmentTurn_lt (he : e < 2 ^ 32) (hlast : lastSegment < e) (hva : va < e) (hp : i386PgBytes ∣ e)
    (ha : i386PgBytes ∣ va) {va' : Nat} (h : segmentTurn state entry p e va r = .ok (va', q)) :
    va' < e ∧ i386PgBytes ∣ va' := by
  have hn : segmentEnd va e < e ∧ i386PgBytes ∣ segmentEnd va e := by
    by_cases hl : lastSegment ≤ va
    · rw [segmentEnd_last hl (by omega)]
      exact ⟨by omega, Nat.dvd_zero _⟩
    · rw [segmentEnd_eq (by omega)]
      unfold lastSegment at hl hlast
      unfold segBytes i386PgBytes
      omega
  unfold segmentTurn at h
  generalize segmentEnd va e = n at hn h
  cases hpte : (state r).pmapPte p (va / i386PgBytes) with
  | none =>
    simp only [hpte] at h
    split at h
    next => cases h
    next =>
      cases Except.ok.inj h
      exact hn
  | some pte =>
    simp only [hpte] at h
    obtain ⟨x, -, hx⟩ := map_eq_ok h
    cases hx
    unfold i386PgBytes at *
    omega

theorem segmentLoop_never (he : e < 2 ^ 32) (hlast : lastSegment < e) (hp : i386PgBytes ∣ e) (hva : va < e)
    (ha : i386PgBytes ∣ va) : segmentLoop state entry p e k va r ≠ some (.ok q) := by
  induction k generalizing va r with
  | zero => exact fun h => by cases h
  | succ k ih =>
    rw [segmentLoop, if_pos hva]
    cases h : segmentTurn state entry p e va r with
    | error x => exact fun h => by cases h
    | ok v =>
      obtain ⟨hlt, hdvd⟩ := segmentTurn_lt he hlast hva hp ha h
      exact ih hlt hdvd

theorem sweep_add {σ ε : Type} {f : σ → Nat → Except ε σ} {s : σ} {i m n : Nat} :
    sweep f s i (m + n) = sweep f s i m >>= fun r => sweep f r (i + m) n := by
  induction m generalizing s i with
  | zero =>
    rw [Nat.zero_add]
    rfl
  | succ m ih =>
    rw [Nat.add_right_comm]
    simp only [sweep]
    cases f s i with
    | error x => rfl
    | ok r =>
      change sweep f r (i + 1) (m + n) = sweep f r (i + 1) m >>= _
      rw [ih, Nat.add_assoc, Nat.add_comm 1 m]

theorem pmapPte_none_of_pdenum {s : State} {v w : Va} (h : s.pmapPte p v = none) (hd : pdenum w = pdenum v) :
    s.pmapPte p w = none := by
  unfold pmapPte at h ⊢
  cases hm : s.pmaps p with
  | none => rfl
  | some m =>
    cases hc : m.cr3 (pdenum v) with
    | none => simp [hd, hc]
    | some d => simp [hm, hc] at h

/-- What a loop does where the table is missing: nothing. -/
def Skips (state : σ → State) (entry : σ → Va → Except Panic σ) (p : PmapId) : Prop :=
  ∀ r w, (state r).pmapPte p w = none → entry r w = .ok r

theorem Skips.sweep_eq (h : Skips state entry p) {i n : Nat}
    (hn : ∀ w, i ≤ w → w < i + n → (state r).pmapPte p w = none) :
    sweep entry r i n = .ok r := by
  induction n generalizing i with
  | zero => rfl
  | succ n ih =>
    rw [sweep, h r i (hn i (Nat.le_refl i) (by omega))]
    exact ih fun w h1 h2 => hn w (by omega) (by omega)

theorem segmentTurn_eq (hs : Skips state entry p) (hk : p ≠ kernelPmap) (he : e ≤ lastSegment) (hva : va < e)
    (hp : i386PgBytes ∣ e) (ha : i386PgBytes ∣ va) :
    ∃ n, va < n ∧ n ≤ e ∧ i386PgBytes ∣ n ∧
      segmentTurn state entry p e va r =
        (sweep entry r (va / i386PgBytes) ((n - va) / i386PgBytes)).map fun q => (n, q) := by
  have hend : segmentEnd va e = min e ((va / segBytes + 1) * segBytes) := segmentEnd_eq (by omega)
  obtain ⟨n, hn⟩ : ∃ n, n = segmentEnd va e := ⟨_, rfl⟩
  have hbounds : va < n ∧ n ≤ e ∧ n ≤ (va / segBytes + 1) * segBytes ∧ i386PgBytes ∣ n := by
    rw [hn, hend]
    unfold segBytes i386PgBytes at *
    omega
  obtain ⟨h1, h2, h3, h4⟩ := hbounds
  refine ⟨n, h1, h2, h4, ?_⟩
  unfold segmentTurn
  simp only [← hn]
  cases hpte : (state r).pmapPte p (va / i386PgBytes) with
  | none =>
    simp only [if_neg hk]
    rw [hs.sweep_eq]
    · rfl
    · intro w hw1 hw2
      refine pmapPte_none_of_pdenum hpte ?_
      unfold pdenum nptes segBytes i386PgBytes at *
      omega
  | some pte =>
    have h5 : (n - va + (i386PgBytes - 1)) / i386PgBytes = (n - va) / i386PgBytes := by
      unfold i386PgBytes at *
      omega
    have h6 : va + (n - va) / i386PgBytes * i386PgBytes = n := by
      unfold i386PgBytes at *
      omega
    simp only [h5, h6]

theorem segmentLoop_eq (hs : Skips state entry p) (hk : p ≠ kernelPmap) (he : e ≤ lastSegment) (hva : va ≤ e)
    (hp : i386PgBytes ∣ e) (ha : i386PgBytes ∣ va) :
    ∃ k, segmentLoop state entry p e k va r =
      some (sweep entry r (va / i386PgBytes) ((e - va) / i386PgBytes)) := by
  induction hd : e - va using Nat.strong_induction_on generalizing va r with
  | _ d ih =>
    by_cases hlt : va < e
    · obtain ⟨n, h1, h2, h3, hturn⟩ := segmentTurn_eq (r := r) hs hk he hlt hp ha
      have hsplit : (e - va) / i386PgBytes = (n - va) / i386PgBytes + (e - n) / i386PgBytes := by
        unfold i386PgBytes at *
        omega
      have hnext : va / i386PgBytes + (n - va) / i386PgBytes = n / i386PgBytes := by
        unfold i386PgBytes at *
        omega
      rw [← hd, hsplit, sweep_add, hnext]
      cases hsw : sweep entry r (va / i386PgBytes) ((n - va) / i386PgBytes) with
      | error x =>
        rw [hsw] at hturn
        refine ⟨1, ?_⟩
        rw [segmentLoop, if_pos hlt, hturn]
        rfl
      | ok q =>
        rw [hsw] at hturn
        obtain ⟨k, hk'⟩ := ih (e - n) (by omega) h2 h3 rfl (r := q)
        refine ⟨k + 1, ?_⟩
        rw [segmentLoop, if_pos hlt, hturn]
        exact hk'
    · refine ⟨1, ?_⟩
      rw [← hd, show e - va = 0 by omega, segmentLoop, if_neg hlt]
      rfl

theorem segmentLoop_mono {x : Except Panic σ} {m : Nat} (h : segmentLoop state entry p e k va r = some x) :
    segmentLoop state entry p e (k + m) va r = some x := by
  induction k generalizing va r with
  | zero => cases h
  | succ k ih =>
    rw [Nat.add_right_comm, segmentLoop]
    rw [segmentLoop] at h
    split at h
    next hlt =>
      rw [if_pos hlt]
      cases ht : segmentTurn state entry p e va r with
      | error x =>
        rw [ht] at h
        exact h
      | ok v =>
        rw [ht] at h
        exact ih h
    next hle =>
      rw [if_neg hle]
      exact h

theorem segmentLoop_unique {x y : Except Panic σ} {k' : Nat} (h : segmentLoop state entry p e k va r = some x)
    (h' : segmentLoop state entry p e k' va r = some y) : x = y := by
  have h1 := segmentLoop_mono (m := k') h
  have h2 := segmentLoop_mono (m := k) h'
  rw [Nat.add_comm] at h2
  exact Option.some.inj (h1.symm.trans h2)

/-! ### Counts -/

/-- The pages of an address space. -/
def addressPages : Nat := 1048576

/-- The number of the entries of a kind. -/
def entryCount (kind : Pte → Bool) (s : State) (p : PmapId) : Nat :=
  ((Finset.range addressPages).filter fun w => (s.pmapPte p w).any kind = true).card

def Pte.present (pte : Pte) : Bool := pte.valid

def Pte.presentWired (pte : Pte) : Bool := pte.valid && pte.wired

variable {s t : State} {kind : Pte → Bool} {w : Va} {pte : Pte}

theorem entryCount_congr (h : ∀ w, (t.pmapPte p w).any kind = (s.pmapPte p w).any kind) :
    entryCount kind t p = entryCount kind s p := by
  unfold entryCount
  simp only [h]

theorem entryCount_clear (hw : w < addressPages) (hw' : (s.pmapPte p w).any kind = true)
    (ht : (t.pmapPte p w).any kind = false)
    (ho : ∀ v, v ≠ w → (t.pmapPte p v).any kind = (s.pmapPte p v).any kind) :
    entryCount kind t p + 1 = entryCount kind s p := by
  have he : (Finset.range addressPages).filter (fun v => (t.pmapPte p v).any kind = true) =
      ((Finset.range addressPages).filter fun v => (s.pmapPte p v).any kind = true).erase w := by
    ext v
    simp only [Finset.mem_filter, Finset.mem_erase, Finset.mem_range]
    by_cases hv : v = w
    · subst hv
      simp [ht]
    · simp [ho v hv, hv]
  have hm : w ∈ (Finset.range addressPages).filter fun v => (s.pmapPte p v).any kind = true :=
    Finset.mem_filter.mpr ⟨Finset.mem_range.mpr hw, hw'⟩
  unfold entryCount
  rw [he, Finset.card_erase_add_one hm]

/-! ### `pmap_remove` -/

/-- What `pmap_remove_range` makes of one entry. -/
def removedPte (s : State) (pte : Pte) : Pte := if s.managedPhys pte.pfn then {} else pte

theorem removePte_ok (hc : Coherent s) (hk : p ≠ kernelPmap) : ∃ t, removePte s p w = .ok t ∧ Coherent t ∧
    t.layout = s.layout ∧ t.pmapPte p w = (s.pmapPte p w).map (removedPte s) ∧
    ∀ q v, ¬(q = p ∧ v = w) → t.pmapPte q v = s.pmapPte q v := by
  have hd : s.inDomain (p, w) = true := by simp [inDomain, hk]
  obtain ⟨t, ht, hct, hkept, -⟩ : ∃ t, removePte s p w = .ok t ∧ Coherent t ∧ Kept s t ∧ True := by
    have hg := removePte_gives hc hd
    cases hr : removePte s p w with
    | ok t =>
      rw [hr] at hg
      exact ⟨t, rfl, hg.1, hg.2.1, trivial⟩
    | error x =>
      -- the only panics left are those about lists, which a coherent state does not have
      rw [hr] at hg
      unfold removePte at hr
      split at hr
      next => rw [if_neg hk] at hr; cases hr
      next pte hp =>
        split at hr
        next => cases hr
        next =>
          split at hr
          next => cases hr
          next hgm =>
            have hx : s.mapping (p, w) = some pte := mapping_eq_some.mpr ⟨hd, hp, by simpa using hgm⟩
            obtain ⟨h', he, -⟩ := pvRemove_eq_ok (hc.mem_pvList.mpr ⟨pte, hx, rfl⟩)
            rw [he] at hr
            cases hr
  refine ⟨t, ht, hct, hkept.layout, ?_⟩
  unfold removePte at ht
  split at ht
  next hp =>
    rw [if_neg hk] at ht
    cases Except.ok.inj ht
    exact ⟨by rw [hp]; rfl, fun _ _ _ => rfl⟩
  next pte hp =>
    have hfree : s.managedPhys pte.pfn = false → (s.pmapPte p w) = (s.pmapPte p w).map (removedPte s) := by
      intro hm
      rw [hp, Option.map_some, removedPte, hm]
      rfl
    split at ht
    next h0 =>
      cases Except.ok.inj ht
      exact ⟨hfree (by rw [h0, managedPhys_zero]), fun _ _ _ => rfl⟩
    next =>
      split at ht
      next hm =>
        cases Except.ok.inj ht
        exact ⟨hfree (by simpa using hm), fun _ _ _ => rfl⟩
      next hm =>
        cases hpv : pvRemove (s.pvHeadTable pte.pfn) p w with
        | error x =>
          rw [hpv] at ht
          cases ht
        | ok head =>
          rw [hpv] at ht
          cases Except.ok.inj ht
          have hmt : s.managedPhys pte.pfn = true := by simpa using hm
          refine ⟨?_, fun q v hqv => ?_⟩
          · rw [setPvHead_pmapPte, writePte_pmapPte, if_pos ⟨rfl, rfl⟩, reflectModify_pmapPte, hp, Option.map_some,
              Option.map_some, removedPte, if_pos hmt]
          · rw [setPvHead_pmapPte, writePte_pmapPte, if_neg hqv, reflectModify_pmapPte]

/-- The state in which the entries of the pages from `i` to `j` are rewritten. -/
structure Rewritten (s : State) (p : PmapId) (g : Pte → Pte) (i j : Nat) (t : State) : Prop where
  done : ∀ w : Nat, i ≤ w → w < j → t.pmapPte p w = (s.pmapPte p w).map g
  other : ∀ q (w : Nat), ¬(q = p ∧ i ≤ w ∧ w < j) → t.pmapPte q w = s.pmapPte q w

/-- The state of `pmap_remove_range` when it has done the pages of a range up to one. -/
structure Swept (s : State) (p : PmapId) (i j : Nat) (r : Removal) : Prop where
  coherent : Coherent r.state
  layout : r.state.layout = s.layout
  pages : Rewritten s p (removedPte s) i j r.state

/-- The numbers of `pmap_remove_range` are those of the entries that are gone. -/
def Counted (s : State) (p : PmapId) (r : Removal) : Prop :=
  entryCount Pte.present r.state p + r.numRemoved = entryCount Pte.present s p ∧
    entryCount Pte.presentWired r.state p + r.numUnwired = entryCount Pte.presentWired s p

/-- Every present entry of the range has a managed frame. -/
def Managed (s : State) (p : PmapId) (i j : Nat) : Prop :=
  ∀ w : Nat, i ≤ w → w < j → ∀ pte, s.pmapPte p w = some pte → pte.valid = true → s.managedPhys pte.pfn = true

variable {i j n : Nat} {x y : Removal} {g : Pte → Pte} {u : State}

theorem Rewritten.start : Rewritten s p g i i s :=
  ⟨fun _ h1 h2 => absurd h2 (Nat.not_lt.mpr h1), fun _ _ _ => rfl⟩

theorem Rewritten.here (h : Rewritten s p g i j t) (q : PmapId) : t.pmapPte q j = s.pmapPte q j :=
  h.other q j fun hh => Nat.lt_irrefl j hh.2.2

theorem Rewritten.next (h : Rewritten s p g i j t) (hij : i ≤ j) (hw : u.pmapPte p j = (t.pmapPte p j).map g)
    (ho : ∀ q v, ¬(q = p ∧ v = j) → u.pmapPte q v = t.pmapPte q v) : Rewritten s p g i (j + 1) u := by
  refine ⟨fun w h1 h2 => ?_, fun q w hqw => ?_⟩
  · by_cases hwj : w = j
    · rw [hwj, hw, h.here]
    · rw [ho p w fun hh => hwj hh.2]
      exact h.done w h1 (by omega)
  · rw [ho q w fun hh => hqw ⟨hh.1, hh.2 ▸ hij, hh.2 ▸ Nat.lt_succ_self w⟩]
    exact h.other q w fun hh => hqw ⟨hh.1, hh.2.1, by omega⟩

theorem removeEntry_ok (hc : Coherent x.state) (hk : p ≠ kernelPmap) : ∃ y, removeEntry p x w = .ok y ∧
    Coherent y.state ∧ y.state.layout = x.state.layout ∧
    y.state.pmapPte p w = (x.state.pmapPte p w).map (removedPte x.state) ∧
    (∀ q v, ¬(q = p ∧ v = w) → y.state.pmapPte q v = x.state.pmapPte q v) ∧
    y.numRemoved = x.numRemoved + (if (x.state.pmapPte p w).any (fun pte => pte.pfn != 0) then 1 else 0) ∧
    y.numUnwired = x.numUnwired +
      (if (x.state.pmapPte p w).any (fun pte => pte.pfn != 0 && pte.wired) then 1 else 0) := by
  obtain ⟨t, ht, hct, hl, hw, ho⟩ := removePte_ok (w := w) hc hk
  unfold removeEntry
  rw [ht]
  refine ⟨_, rfl, hct, hl, hw, ho, ?_, ?_⟩
  · cases hp : x.state.pmapPte p w with
    | none => simp
    | some pte => by_cases h0 : pte.pfn = 0 <;> simp [h0]
  · cases hp : x.state.pmapPte p w with
    | none => simp
    | some pte => by_cases h0 : pte.pfn = 0 <;> cases hwd : pte.wired <;> simp [h0, hwd]

theorem Swept.next (h : Swept s p i j x) (hk : p ≠ kernelPmap) (hij : i ≤ j) :
    ∃ y, removeEntry p x j = .ok y ∧ Swept s p i (j + 1) y ∧
      (UserWhole s → j < addressPages → (∀ pte, s.pmapPte p j = some pte → pte.valid = true →
        s.managedPhys pte.pfn = true) → Counted s p x → Counted s p y) := by
  obtain ⟨y, hy, hc, hl, hw, ho, hr, hu⟩ := removeEntry_ok (w := j) h.coherent hk
  have hj := h.pages.here p
  have hrem : removedPte x.state = removedPte s := by
    funext pte
    rw [removedPte, removedPte, managedPhys_congr h.layout]
  rw [hrem] at hw
  refine ⟨y, hy, ⟨hc, hl.trans h.layout, h.pages.next hij hw ho⟩, fun hwhole hjn hm hcount => ?_⟩
  rw [hj] at hw hr hu
  · obtain ⟨h1, h2⟩ := hcount
    have hother : ∀ kind v, v ≠ j →
        (y.state.pmapPte p v).any kind = (x.state.pmapPte p v).any kind := fun kind v hv => by
      rw [ho p v (by simp [hv])]
    have hsame : y.state.pmapPte p j = s.pmapPte p j → ∀ kind v,
        (y.state.pmapPte p v).any kind = (x.state.pmapPte p v).any kind := fun he kind v => by
      by_cases hv : v = j
      · rw [hv, he, hj]
      · exact hother kind v hv
    cases hp : s.pmapPte p j with
    | none =>
      rw [hp] at hr hu hw
      simp only [Option.any_none, Bool.false_eq_true, if_false, Nat.add_zero] at hr hu
      have hs := hsame (by rw [hw, hp]; rfl)
      exact ⟨by rw [entryCount_congr (hs _), hr]; exact h1, by rw [entryCount_congr (hs _), hu]; exact h2⟩
    | some pte =>
      rw [hp] at hr hu hw
      have hpw := hwhole p j pte hk hp
      cases hv : pte.valid with
      | true =>
        have hmg := hm pte hp hv
        have hne : pte.pfn ≠ 0 := by
          intro h0
          rw [h0, managedPhys_zero] at hmg
          cases hmg
        have hyj : y.state.pmapPte p j = some {} := by rw [hw, Option.map_some, removedPte, if_pos hmg]
        have hxj : x.state.pmapPte p j = some pte := hj.trans hp
        have hp1 : entryCount Pte.present y.state p + 1 = entryCount Pte.present x.state p :=
          entryCount_clear hjn (by simp [hxj, Pte.present, hv]) (by simp [hyj, Pte.present]) (hother _)
        have hr1 : y.numRemoved = x.numRemoved + 1 := by simpa [hne] using hr
        refine ⟨by omega, ?_⟩
        cases hwd : pte.wired with
        | true =>
          have hp2 : entryCount Pte.presentWired y.state p + 1 = entryCount Pte.presentWired x.state p :=
            entryCount_clear hjn (by simp [hxj, Pte.presentWired, hv, hwd]) (by simp [hyj, Pte.presentWired])
              (hother _)
          have hu1 : y.numUnwired = x.numUnwired + 1 := by simpa [hne, hwd] using hu
          omega
        | false =>
          have hu1 : y.numUnwired = x.numUnwired := by simpa [hwd] using hu
          rw [hu1, entryCount_congr (s := x.state)]
          · exact h2
          · intro v
            by_cases hvj : v = j
            · rw [hvj, hyj, hxj]
              simp [Pte.presentWired, hwd]
            · exact hother _ v hvj
      | false =>
        have h0 : pte.pfn = 0 := by
          by_contra h0
          rw [hpw.frame h0] at hv
          cases hv
        have hs := hsame (by rw [hw, hp, Option.map_some, removedPte, h0, managedPhys_zero, if_neg Bool.false_ne_true])
        simp only [Option.any_some, h0, bne_self_eq_false, Bool.false_and, Bool.false_eq_true, if_false,
          Nat.add_zero] at hr hu
        exact ⟨by rw [entryCount_congr (hs _), hr]; exact h1, by rw [entryCount_congr (hs _), hu]; exact h2⟩

theorem removeEntry_skips (hk : p ≠ kernelPmap) : Skips Removal.state (removeEntry p) p := by
  intro r w hw
  have hw' : r.state.pmapPte p w = none := hw
  simp [removeEntry, removePte, hw', hk, Except.map]

theorem removeEntry_sweep (hc : Coherent s) (hw : UserWhole s) (hk : p ≠ kernelPmap) (hn : i + n ≤ addressPages) :
    ∃ x, sweep (removeEntry p) ⟨s, 0, 0⟩ i n = .ok x ∧ Swept s p i (i + n) x ∧
      (Managed s p i (i + n) → Counted s p x) := by
  let inv : Nat → Removal → Prop := fun j x => i ≤ j ∧ Swept s p i j x ∧ (Managed s p i (i + n) → Counted s p x)
  have hgives : Gives (sweep (removeEntry p) ⟨s, 0, 0⟩ i n) (fun _ => False) (inv (i + n)) := by
    refine sweep_gives inv (fun j x h1 h2 hx => ?_) ?_
    rotate_left
    · exact ⟨Nat.le_refl i, ⟨hc, rfl, .start⟩, fun _ => ⟨Nat.add_zero _, Nat.add_zero _⟩⟩
    obtain ⟨y, hy, hsw, hcount⟩ := hx.2.1.next hk h1
    rw [hy]
    exact ⟨by omega, hsw, fun hm => hcount hw (by omega) (hm j h1 h2) (hx.2.2 hm)⟩
  obtain ⟨x, hx, -, h⟩ := hgives.exists_ok fun _ => id
  exact ⟨x, hx, h⟩

/-! ### `pmap_protect` -/

/-- What `pmap_protect` makes of one entry. -/
def protectedPte (p : PmapId) (prot : VmProt) (pte : Pte) : Pte :=
  if pte.swValid then i386Protection p prot pte.swValid pte else pte

theorem protectPte_ok (hk : p ≠ kernelPmap) (prot : VmProt) : ∃ t, protectPte s p prot w = .ok t ∧
    t.pmapPte p w = (s.pmapPte p w).map (protectedPte p prot) ∧
    ∀ q v, ¬(q = p ∧ v = w) → t.pmapPte q v = s.pmapPte q v := by
  unfold protectPte
  cases hp : s.pmapPte p w with
  | none =>
    simp only [if_neg hk]
    exact ⟨s, rfl, by rw [hp]; rfl, fun _ _ _ => rfl⟩
  | some pte =>
    cases hv : pte.swValid with
    | true =>
      refine ⟨_, if_pos hv, ?_, fun q v hqv => ?_⟩
      · rw [writePte_pmapPte, if_pos ⟨rfl, rfl⟩, hp]
        simp [protectedPte, hv]
      · rw [writePte_pmapPte, if_neg hqv]
    | false =>
      refine ⟨s, if_neg (by simp [hv]), ?_, fun _ _ _ => rfl⟩
      rw [hp]
      simp [protectedPte, hv]

theorem protectPte_skips (hk : p ≠ kernelPmap) (prot : VmProt) : Skips id (fun s v => protectPte s p prot v) p := by
  intro r v hv
  have hv' : r.pmapPte p v = none := hv
  simp [protectPte, hv', hk]

theorem protectPte_sweep (hk : p ≠ kernelPmap) (prot : VmProt) :
    ∃ t, sweep (fun s v => protectPte s p prot v) s i n = .ok t ∧ Rewritten s p (protectedPte p prot) i (i + n) t := by
  let inv : Nat → State → Prop := fun j t => i ≤ j ∧ Rewritten s p (protectedPte p prot) i j t
  have hgives : Gives (sweep (fun s v => protectPte s p prot v) s i n) (fun _ => False) (inv (i + n)) := by
    refine sweep_gives inv (fun j t h1 h2 ht => ?_) ⟨Nat.le_refl i, .start⟩
    obtain ⟨u, hu, hw, ho⟩ := protectPte_ok (s := t) (w := j) hk prot
    rw [hu]
    exact ⟨by omega, ht.2.next h1 hw ho⟩
  obtain ⟨t, ht, -, h⟩ := hgives.exists_ok fun _ => id
  exact ⟨t, ht, h⟩

/-! ### The whole range -/

/-- The page of an address of the range. -/
def InPages (start e : Nat) (w : Nat) : Prop := start / i386PgBytes ≤ w ∧ w < e / i386PgBytes

/-- The statistics are the numbers of the present and of the wired entries. -/
def Stats.Right (stats : Stats) (s : State) (p : PmapId) : Prop :=
  stats.residentCount = entryCount Pte.present s p ∧ stats.wiredCount = entryCount Pte.presentWired s p

/-- What `pmap_remove` is to leave behind. -/
structure Removed (s : State) (stats : Stats) (p : PmapId) (start e : Nat) (t : State) (stats' : Stats) : Prop where
  gone : ∀ w pte, InPages start e w → t.pmapPte p w = some pte → pte.present = false
  outside : ∀ q w, ¬(q = p ∧ InPages start e w) → t.pmapPte q w = s.pmapPte q w
  counts : stats.Right s p → stats'.Right t p

/-- What `pmap_protect` is to leave behind. The statistics are as before. -/
structure Protected (s : State) (stats : Stats) (p : PmapId) (start e : Nat) (prot : VmProt) (t : State) : Prop where
  rights : ∀ w pte, InPages start e w → t.pmapPte p w = some pte → pte.present = true → pte.prot = protectionCode prot
  outside : ∀ q w, ¬(q = p ∧ InPages start e w) → t.pmapPte q w = s.pmapPte q w
  counts : stats.Right s p → stats.Right t p

variable {start : Nat} {stats stats' : Stats} {prot : VmProt}

theorem segmentLoop_ends_iff (hs : Skips state entry p) (hk : p ≠ kernelPmap) (hse : start ≤ e) (h32 : e < 2 ^ 32)
    (hp : i386PgBytes ∣ e) (ha : i386PgBytes ∣ start) :
    ((start = e ∨ e ≤ lastSegment) → ∃ k, segmentLoop state entry p e k start r =
      some (sweep entry r (start / i386PgBytes) ((e - start) / i386PgBytes))) ∧
    ∀ k q, segmentLoop state entry p e k start r = some (.ok q) → start = e ∨ e ≤ lastSegment := by
  refine ⟨?_, fun k q h => ?_⟩
  · rintro (rfl | hle)
    · refine ⟨1, ?_⟩
      rw [segmentLoop, if_neg (Nat.lt_irrefl _), Nat.sub_self]
      rfl
    · exact segmentLoop_eq hs hk hle hse hp ha
  · by_contra hn
    exact segmentLoop_never h32 (by omega) hp (by omega) ha h

theorem pages_add (hse : start ≤ e) (hp : i386PgBytes ∣ e) (ha : i386PgBytes ∣ start) :
    start / i386PgBytes + (e - start) / i386PgBytes = e / i386PgBytes := by
  unfold i386PgBytes at *
  omega

theorem pmapRemove_right_iff (h : Reachable s) (hk : p ≠ kernelPmap) (hse : start ≤ e) (h32 : e < 2 ^ 32)
    (hp : i386PgBytes ∣ e) (ha : i386PgBytes ∣ start) :
    (∃ k t stats', pmapRemove k s stats p start e = some (.ok (t, stats')) ∧ Removed s stats p start e t stats') ↔
      (start = e ∨ e ≤ lastSegment) ∧ Managed s p (start / i386PgBytes) (e / i386PgBytes) := by
  have hw := reachable_whole h
  obtain ⟨hends, honly⟩ := segmentLoop_ends_iff (r := ⟨s, 0, 0⟩) (removeEntry_skips hk) hk hse h32 hp ha
  have hadd := pages_add hse hp ha
  obtain ⟨x, hx, hswept, hcount⟩ := removeEntry_sweep (s := s) (i := start / i386PgBytes)
    (n := (e - start) / i386PgBytes) (reachable_inv h).coherent hw hk (by
      rw [hadd]
      unfold i386PgBytes addressPages
      omega)
  rw [hadd] at hswept hcount
  constructor
  · rintro ⟨k, t, stats', hrun, hright⟩
    obtain ⟨y, hy, hyr⟩ := Option.map_eq_some_iff.mp hrun
    obtain ⟨q, rfl, hq⟩ := map_eq_ok hyr
    have hend := honly k q hy
    refine ⟨hend, fun w h1 h2 pte hpte hv => ?_⟩
    obtain ⟨k', hk'⟩ := hends hend
    rw [hx] at hk'
    cases Except.ok.inj (segmentLoop_unique hy hk')
    cases hq
    by_contra hm
    have hstays := hswept.pages.done w h1 h2
    rw [hpte, Option.map_some, removedPte, if_neg hm] at hstays
    exact absurd (hright.gone w pte ⟨h1, h2⟩ hstays) (by simp [Pte.present, hv])
  · rintro ⟨hend, hm⟩
    obtain ⟨k, hk'⟩ := hends hend
    refine ⟨k, x.state, ⟨stats.residentCount - x.numRemoved, stats.wiredCount - x.numUnwired⟩, ?_, ?_, ?_, ?_⟩
    · rw [pmapRemove, hk', hx]
      rfl
    · intro w pte hin hpte
      rw [hswept.pages.done w hin.1 hin.2] at hpte
      obtain ⟨old, hold, rfl⟩ := Option.map_eq_some_iff.mp hpte
      cases hv : old.valid with
      | true =>
        rw [removedPte, if_pos (hm w hin.1 hin.2 old hold hv)]
        rfl
      | false =>
        unfold removedPte
        split
        next => rfl
        next => exact hv
    · exact fun q w hqw => hswept.pages.other q w hqw
    · rintro ⟨h1, h2⟩
      obtain ⟨h3, h4⟩ := hcount hm
      constructor <;> dsimp only <;> omega

theorem protectedPte_whole (hk : p ≠ kernelPmap) (h : pte.Whole) (prot : VmProt) :
    (protectedPte p prot pte).valid = pte.valid ∧ (protectedPte p prot pte).wired = pte.wired ∧
      (pte.valid = true → (protectedPte p prot pte).prot = protectionCode prot) := by
  unfold protectedPte
  split
  next hv => exact ⟨(if_neg hk).trans h.valid.symm, rfl, fun _ => rfl⟩
  next hv => exact ⟨rfl, rfl, fun hv' => absurd (h.valid ▸ hv') hv⟩

theorem pmapProtect_right_iff (h : Reachable s) (hk : p ≠ kernelPmap) (hse : start ≤ e) (h32 : e < 2 ^ 32)
    (hp : i386PgBytes ∣ e) (ha : i386PgBytes ∣ start) :
    (∃ k t, pmapProtectBytes k s p start e prot = some (.ok t) ∧ Protected s stats p start e prot t) ↔
      start = e ∨ e ≤ lastSegment := by
  have hw := reachable_whole h
  obtain ⟨hends, honly⟩ := segmentLoop_ends_iff (r := s) (protectPte_skips hk prot) hk hse h32 hp ha
  constructor
  · rintro ⟨k, t, hrun, -⟩
    exact honly k t hrun
  · intro hend
    obtain ⟨k, hk'⟩ := hends hend
    obtain ⟨t, ht, hpages⟩ := protectPte_sweep (s := s) (i := start / i386PgBytes)
      (n := (e - start) / i386PgBytes) hk prot
    rw [ht] at hk'
    rw [pages_add hse hp ha] at hpages
    -- what an entry of the range was before
    have hold : ∀ w, InPages start e w → t.pmapPte p w = (s.pmapPte p w).map (protectedPte p prot) :=
      fun w hin => hpages.done w hin.1 hin.2
    have hcount : ∀ kind : Pte → Bool, (∀ pte : Pte, pte.Whole → kind (protectedPte p prot pte) = kind pte) →
        entryCount kind t p = entryCount kind s p := by
      intro kind hkind
      refine entryCount_congr fun w => ?_
      by_cases hin : InPages start e w
      · rw [hold w hin]
        cases hp : s.pmapPte p w with
        | none => rfl
        | some pte => exact hkind pte (hw p w pte hk hp)
      · rw [hpages.other p w fun hh => hin hh.2]
    refine ⟨k, t, hk', ?_, fun q w hqw => hpages.other q w hqw, ?_⟩
    · intro w pte hin hpte hv
      rw [hold w hin] at hpte
      obtain ⟨old, hold, rfl⟩ := Option.map_eq_some_iff.mp hpte
      obtain ⟨hv', -, hr⟩ := protectedPte_whole hk (hw p w old hk hold) prot
      exact hr (hv' ▸ hv)
    · rintro ⟨h1, h2⟩
      refine ⟨h1.trans ?_, h2.trans ?_⟩
      · rw [hcount Pte.present fun pte hpte => (protectedPte_whole hk hpte prot).1]
      · rw [hcount Pte.presentWired fun pte hpte => ?_]
        obtain ⟨h3, h4, -⟩ := protectedPte_whole hk hpte prot
        rw [Pte.presentWired, Pte.presentWired, h3, h4]

/-- Every loop ends but for a range that goes into the last segment, and all that is promised of the range and of the
rest then holds, but that `pmap_remove` leaves an entry whose frame is not managed, and counts it as removed. -/
theorem pmapRanges_right_iff (h : Reachable s) (hk : p ≠ kernelPmap) (hse : start ≤ e) (h32 : e < 2 ^ 32)
    (hp : i386PgBytes ∣ e) (ha : i386PgBytes ∣ start) :
    ((∃ k t stats', pmapRemove k s stats p start e = some (.ok (t, stats')) ∧ Removed s stats p start e t stats') ↔
      (start = e ∨ e ≤ lastSegment) ∧ Managed s p (start / i386PgBytes) (e / i386PgBytes)) ∧
    ((∃ k t, pmapProtectBytes k s p start e prot = some (.ok t) ∧ Protected s stats p start e prot t) ↔
      start = e ∨ e ≤ lastSegment) :=
  ⟨pmapRemove_right_iff h hk hse h32 hp ha, pmapProtect_right_iff h hk hse h32 hp ha⟩

theorem written_managed : Managed writtenState 1 5 6 := by
  intro w h1 h2 pte hp hv
  obtain rfl : w = 5 := by omega
  have hm : (writtenState.pmapPte 1 5).all (fun pte => writtenState.managedPhys pte.pfn) = true := by decide
  rw [hp] at hm
  exact hm

theorem writtenPage_right :
    (∃ k t stats', pmapRemove k writtenState ⟨1, 0⟩ 1 20480 24576 = some (.ok (t, stats')) ∧
      Removed writtenState ⟨1, 0⟩ 1 20480 24576 t stats') ∧
    ∃ k t, pmapProtectBytes k writtenState 1 20480 24576 protRead = some (.ok t) ∧
      Protected writtenState ⟨1, 0⟩ 1 20480 24576 protRead t := by
  have h := @pmapRanges_right_iff 1 24576 writtenState 20480 ⟨1, 0⟩ protRead writtenState_reachable (by decide)
    (by decide) (by decide) ⟨6, rfl⟩ ⟨5, rfl⟩
  exact ⟨h.1.mpr ⟨.inr (by decide), written_managed⟩, h.2.mpr (.inr (by decide))⟩

/-- The user pmap gets a page of a device behind the other. -/
def deviceState : State :=
  (([Action.enter 0 1 6 2000 protDefault false, .proceed 0 none].foldlM step writtenState).toOption).getD writtenState

theorem deviceState_reachable : Reachable deviceState :=
  (writtenState_reachable.next (a := Action.enter 0 1 6 2000 protDefault false) ⟨rfl, ⟨_, rfl⟩, by decide⟩ rfl).next
    (a := Action.proceed 0 none) (by simp [ok]) rfl

/-- The page of the device stays when it is removed, and in the last segment neither of the loops ends. -/
theorem device_and_lastSegment_wrong :
    Reachable deviceState ∧
    (¬∃ k t stats', pmapRemove k deviceState ⟨2, 0⟩ 1 24576 28672 = some (.ok (t, stats')) ∧
      Removed deviceState ⟨2, 0⟩ 1 24576 28672 t stats') ∧
    (∀ k t, pmapRemove k deviceState ⟨2, 0⟩ 1 4290772992 4290777088 ≠ some (.ok t)) ∧
    ∀ k t, pmapProtectBytes k deviceState 1 4290772992 4290777088 protRead ≠ some (.ok t) := by
  refine ⟨deviceState_reachable, fun hex => ?_, fun k t h => ?_, fun k t => ?_⟩
  · have hm := ((pmapRemove_right_iff deviceState_reachable (by decide) (by decide) (by decide) ⟨7, rfl⟩ ⟨6, rfl⟩).mp
      hex).2
    have hd : (deviceState.pmapPte 1 6).any
        (fun pte => pte.valid && !deviceState.managedPhys pte.pfn) = true := by decide
    obtain ⟨pte, hpte⟩ : ∃ pte, deviceState.pmapPte 1 6 = some pte := ⟨_, rfl⟩
    have hv := hd
    rw [hpte, Option.any_some, Bool.and_eq_true, Bool.not_eq_true'] at hv
    have hmg := hm 6 (by decide) (by decide) pte hpte hv.1
    rw [hv.2] at hmg
    cases hmg
  · obtain ⟨y, hy, hyr⟩ := Option.map_eq_some_iff.mp h
    obtain ⟨q, rfl, -⟩ := map_eq_ok hyr
    exact segmentLoop_never (by decide) (by decide) ⟨1047553, rfl⟩ (by decide) ⟨1047552, rfl⟩ hy
  · exact segmentLoop_never (by decide) (by decide) ⟨1047553, rfl⟩ (by decide) ⟨1047552, rfl⟩

end MachVM.I386
