import MachVM.UfsAlloc

namespace MachVM.Ufs

open Runs Tally Finset

/-- The bits of the block `h`. -/
def bits (frag : Nat) (m : BitMap) (h k : Nat) : Bool := decide (k < frag) && m.isset (h * frag + k)

/-- All fragments of a block are free. -/
def whole (frag : Nat) (f : Nat → Bool) : Bool := decide (∀ k < frag, f k = true)

/-- The free fragments of a block that is not free as a whole. -/
def loose (frag : Nat) (f : Nat → Bool) : Nat := if whole frag f then 0 else tally frag f

def Fs.nblk (fs : Fs) : Nat := fs.fpg / fs.frag

/-- A sum over the blocks of a group. -/
def stat (fs : Fs) (m : BitMap) (w : (Nat → Bool) → Nat → Nat) : Nat :=
  ∑ h ∈ range fs.nblk, w (bits fs.frag m h) h

/-- The summaries of a group are those of its map. -/
structure Counted (fs : Fs) (c : Cg) : Prop where
  nbfree : c.cs.nbfree = stat fs c.free fun f _ => (whole fs.frag f).toNat
  nffree : c.cs.nffree = stat fs c.free fun f _ => loose fs.frag f
  frsum : ∀ j, 0 < j → j < fs.frag → c.frsum j = stat fs c.free fun f _ => runs fs.frag f j
  btot : ∀ cyl, c.btot cyl = stat fs c.free fun f h => if fs.cbtocylno (h * fs.frag) = cyl then (whole fs.frag f).toNat else 0
  b : ∀ cyl rpos, c.b cyl rpos = stat fs c.free fun f h =>
    if fs.cbtocylno (h * fs.frag) = cyl ∧ fs.cbtorpos (h * fs.frag) = rpos then (whole fs.frag f).toNat else 0
  inside : ∀ i, fs.fpg ≤ i → c.free.isset i = false
  frotor : c.frotor / nbby < howmany fs.fpg nbby

section Bits

variable {frag : Nat} {m m' : BitMap} {h h₀ : Nat}

theorem bits_out (k : Nat) (hk : frag ≤ k) : bits frag m h k = false := by
  rw [bits, decide_eq_false (Nat.not_lt.mpr hk), Bool.false_and]

theorem bits_in {k : Nat} (hk : k < frag) : bits frag m h k = m.isset (h * frag + k) := by
  rw [bits, decide_eq_true hk, Bool.true_and]

theorem blkmap_bits (hf : FragOk frag) : (blkmap frag m (h * frag)).getLsbD = bits frag m h :=
  funext fun k => blkmap_getLsbD hf m h k

theorem whole_iff {f : Nat → Bool} : whole frag f = true ↔ ∀ k < frag, f k = true := decide_eq_true_iff

theorem isblock_whole (hf : FragOk frag) : isblock frag m h = whole frag (bits frag m h) := by
  rw [Bool.eq_iff_iff, isblock_iff hf, whole_iff]
  exact forall₂_congr fun k hk => by rw [bits_in hk]

variable {pos n : Nat} {b : Bool} (hm : m'.isset = fill m.isset (h₀ * frag + pos) n b) (hn : pos + n ≤ frag)

include hm hn

theorem bits_fill : bits frag m' h₀ = fill (bits frag m h₀) pos n b := by
  funext k
  by_cases hk : k < frag
  · rw [bits_in hk, hm]
    unfold fill
    rw [bits_in hk]
    exact if_congr (by omega) rfl rfl
  · rw [bits_out k (by omega), fill_outside (by omega), bits_out k (by omega)]

theorem bits_fill_ne (hne : h ≠ h₀) : bits frag m' h = bits frag m h := by
  funext k
  by_cases hk : k < frag
  · rw [bits_in hk, bits_in hk, hm, fill_outside]
    rcases Nat.lt_or_gt_of_ne hne with hlt | hgt
    · have := Nat.mul_le_mul_right frag (Nat.succ_le_of_lt hlt)
      rw [Nat.succ_mul] at this
      omega
    · have := Nat.mul_le_mul_right frag (Nat.succ_le_of_lt hgt)
      rw [Nat.succ_mul] at this
      omega
  · rw [bits_out k (by omega), bits_out k (by omega)]

end Bits

/-- What a change of a block means for the counts of blocks, of loose fragments and of runs. -/
structure Shift (frag : Nat) (f f' : Nat → Bool) (db df : Int) (dr : Nat → Int) : Prop where
  blocks : ((whole frag f').toNat : Int) = (whole frag f).toNat + db
  frags : (loose frag f' : Int) = loose frag f + df
  runs : ∀ j, 0 < j → j < frag → (runs frag f' j : Int) = runs frag f j + dr j

section Shifts

variable {frag : Nat} {f : Nat → Bool}

theorem whole_eq_false {k : Nat} (hk : k < frag) (h : f k = false) : whole frag f = false := by
  refine decide_eq_false fun hall => ?_
  rw [hall k hk] at h
  cases h

theorem interval_of_whole (hout : ∀ k, frag ≤ k → f k = false) (h : whole frag f = true) :
    f = fun i => decide (0 ≤ i ∧ i < frag) := by
  funext i
  by_cases hi : i < frag
  · rw [whole_iff.mp h i hi, decide_eq_true ⟨Nat.zero_le i, hi⟩]
  · rw [hout i (by omega), decide_eq_false (by omega)]

theorem runs_whole (hf : 0 < frag) (hout : ∀ k, frag ≤ k → f k = false) (h : whole frag f = true) {j : Nat}
    (hj : 0 < j) (hlt : j < frag) : runs frag f j = 0 := by
  rw [interval_of_whole hout h, runs_interval hf hj, if_neg (by omega)]

theorem runs_empty (hf : 0 < frag) (hclear : ∀ k < frag, f k = false) (hout : ∀ k, frag ≤ k → f k = false) {j : Nat}
    (hj : 0 < j) : runs frag f j = 0 := by
  have hempty : f = fun i => decide (0 ≤ i ∧ i < 0) := by
    funext i
    rw [decide_eq_false (by omega)]
    rcases Nat.lt_or_ge i frag with hi | hi
    · exact hclear i hi
    · exact hout i hi
  rw [hempty, runs_interval hf hj, if_neg (by omega)]

theorem loose_whole (h : whole frag f = true) : loose frag f = 0 := if_pos h

theorem loose_of_not (h : whole frag f = false) : loose frag f = tally frag f := if_neg (by rw [h]; decide)

theorem shift_takeBlock (hf : 0 < frag) (hout : ∀ k, frag ≤ k → f k = false) (h : whole frag f = true) :
    Shift frag f (fill f 0 frag false) (-1) 0 0 := by
  have hclear : ∀ k < frag, fill f 0 frag false k = false := fun k hk => fill_inside (Nat.zero_le k) (by omega)
  have hnot := whole_eq_false hf (hclear 0 hf)
  have hout' : ∀ k, frag ≤ k → fill f 0 frag false k = false := fun k hk => by rw [fill_outside (by omega), hout k hk]
  refine ⟨by rw [hnot, h]; rfl, ?_, fun j hj hlt => ?_⟩
  · rw [loose_of_not hnot, loose_whole h, (tally_eq_zero ..).mpr hclear]
    rfl
  · rw [runs_empty hf hclear hout' hj, runs_whole hf hout h hj hlt]
    rfl

theorem shift_putBlock (hf : 0 < frag) (hout : ∀ k, frag ≤ k → f k = false) (hclear : ∀ k < frag, f k = false) :
    Shift frag f (fill f 0 frag true) 1 0 0 := by
  have hwhole : whole frag (fill f 0 frag true) = true :=
    whole_iff.mpr fun k hk => fill_inside (Nat.zero_le k) (by omega)
  have hnot := whole_eq_false hf (hclear 0 hf)
  have hout' : ∀ k, frag ≤ k → fill f 0 frag true k = false := fun k hk => by rw [fill_outside (by omega), hout k hk]
  refine ⟨by rw [hnot, hwhole]; rfl, ?_, fun j hj hlt => ?_⟩
  · rw [loose_of_not hnot, loose_whole hwhole, (tally_eq_zero ..).mpr hclear]
    rfl
  · rw [runs_empty hf hclear hout hj, runs_whole hf hout' hwhole hj hlt]
    rfl

theorem shift_putTail {a : Nat} (ha : 0 < a) (hlt : a < frag) (hout : ∀ k, frag ≤ k → f k = false)
    (hclear : ∀ k < frag, f k = false) :
    Shift frag f (fill f a (frag - a) true) 0 (frag - a : Nat) fun j => if j = frag - a then 1 else 0 := by
  have hf : 0 < frag := by omega
  have hnot := whole_eq_false hf (hclear 0 hf)
  have hnot' : whole frag (fill f a (frag - a) true) = false :=
    whole_eq_false hf (by rw [fill_outside (.inl ha), hclear 0 hf])
  have hinterval : fill f a (frag - a) true = fun i => decide (a ≤ i ∧ i < frag) := by
    funext i
    by_cases hi : a ≤ i ∧ i < frag
    · rw [fill_inside hi.1 (by omega), decide_eq_true hi]
    · rw [fill_outside (by omega), decide_eq_false hi]
      rcases Nat.lt_or_ge i frag with hi | hi
      · exact hclear i hi
      · exact hout i hi
  refine ⟨by rw [hnot, hnot']; rfl, ?_, fun j hj hlt' => ?_⟩
  · have := @tally_fill f (frag - a) a frag true (by omega) fun k hk => by rw [hclear _ (by omega)]; rfl
    rw [loose_of_not hnot, loose_of_not hnot', ← Int.natCast_add]
    simp only [Bool.not_true, Bool.toNat_false, Bool.toNat_true, Nat.mul_zero, Nat.mul_one, Nat.add_zero] at this
    rw [this]
  · rw [hinterval, runs_interval hlt hj, runs_empty hf hclear hout hj]
    split <;> rfl

theorem shift_takeRun {pos siz n : Nat} (h : IsRun f pos siz) (hn : 0 < n) (hle : n ≤ siz) (hN : pos + siz ≤ frag)
    (hsiz : siz < frag) :
    Shift frag f (fill f pos n false) 0 (-n) fun j => (if j = siz - n then 1 else 0) - if j = siz then 1 else 0 := by
  have hclear : fill f pos n false pos = false := fill_inside (Nat.le_refl pos) (by omega)
  have hnot' : whole frag (fill f pos n false) = false := whole_eq_false (k := pos) (by omega) hclear
  have hnot : whole frag f = false := by
    rcases h.2.2 with h0 | h0
    · exact whole_eq_false (k := pos + siz) (by omega) h.2.1
    · exact whole_eq_false (k := pos - 1) (by omega) h0
  refine ⟨by rw [hnot, hnot']; rfl, ?_, fun j hj hlt => ?_⟩
  · have := @tally_fill f n pos frag false (by omega) fun k hk => by rw [h.1 k (by omega)]; rfl
    rw [loose_of_not hnot, loose_of_not hnot']
    simp only [Bool.not_false, Bool.toNat_false, Bool.toNat_true, Nat.mul_zero, Nat.mul_one, Nat.add_zero] at this
    omega
  · have := runs_take h hn hle hN hj
    split at this <;> split at this <;> omega

theorem shift_putFrags {pos n : Nat} (hn : 0 < n) (hN : pos + n ≤ frag) (hclear : ∀ k < n, f (pos + k) = false) :
    Shift frag f (fill f pos n true) (whole frag (fill f pos n true)).toNat
      (n - (if whole frag (fill f pos n true) then frag else 0 : Nat))
      fun j => runs frag (fill f pos n true) j - runs frag f j := by
  have hnot : whole frag f = false := whole_eq_false (k := pos) (by omega) (hclear 0 hn)
  have hcount := @tally_fill f n pos frag true hN fun k hk => by rw [hclear k hk]; rfl
  simp only [Bool.not_true, Bool.toNat_false, Bool.toNat_true, Nat.mul_zero, Nat.mul_one, Nat.add_zero] at hcount
  refine ⟨by rw [hnot]; exact (Int.zero_add _).symm, ?_, fun j _ _ => by omega⟩
  rw [loose_of_not hnot]
  cases hw : whole frag (fill f pos n true) with
  | false =>
    rw [loose_of_not hw, hcount, if_neg (by decide)]
    omega
  | true =>
    have hall : tally frag (fill f pos n true) = frag := by
      have hones : tally frag (fun _ => true) = frag := by simp [tally]
      exact (tally_congr fun x hx => whole_iff.mp hw x hx).trans hones
    rw [loose_whole hw, if_pos rfl]
    omega

end Shifts

section Change

variable {fs : Fs} {c c' : Cg} {h₀ : Nat}

theorem stat_change {m m' : BitMap} (w : (Nat → Bool) → Nat → Nat) (hb : h₀ < fs.nblk)
    (hout : ∀ h, h ≠ h₀ → bits fs.frag m' h = bits fs.frag m h) :
    stat fs m' w + w (bits fs.frag m h₀) h₀ = stat fs m w + w (bits fs.frag m' h₀) h₀ := by
  unfold stat
  exact sum_change (fun h => w (bits fs.frag m h) h) (fun h => w (bits fs.frag m' h) h) hb
    fun h _ hne => by simp only [hout h hne]

theorem Counted.change (hc : Counted fs c) {db df : Int} {dr : Nat → Int} (hb : h₀ < fs.nblk)
    (hout : ∀ h, h ≠ h₀ → bits fs.frag c'.free h = bits fs.frag c.free h)
    (hs : Shift fs.frag (bits fs.frag c.free h₀) (bits fs.frag c'.free h₀) db df dr)
    (hnbfree : c'.cs.nbfree = c.cs.nbfree + db) (hnffree : c'.cs.nffree = c.cs.nffree + df)
    (hfrsum : ∀ j, 0 < j → j < fs.frag → c'.frsum j = c.frsum j + dr j)
    (hbtot : ∀ cyl, c'.btot cyl = c.btot cyl + if fs.cbtocylno (h₀ * fs.frag) = cyl then db else 0)
    (hbb : ∀ cyl rpos, c'.b cyl rpos = c.b cyl rpos +
      if fs.cbtocylno (h₀ * fs.frag) = cyl ∧ fs.cbtorpos (h₀ * fs.frag) = rpos then db else 0)
    (hinside : ∀ i, fs.fpg ≤ i → c'.free.isset i = false) (hfrotor : c'.frotor / nbby < howmany fs.fpg nbby) :
    Counted fs c' where
  nbfree := by
    have := stat_change (fun f _ => (whole fs.frag f).toNat) hb hout
    have := hs.blocks
    rw [hnbfree, hc.nbfree]
    omega
  nffree := by
    have := stat_change (fun f _ => loose fs.frag f) hb hout
    have := hs.frags
    rw [hnffree, hc.nffree]
    omega
  frsum j hj hlt := by
    have := stat_change (fun f _ => runs fs.frag f j) hb hout
    have := hs.runs j hj hlt
    rw [hfrsum j hj hlt, hc.frsum j hj hlt]
    omega
  btot cyl := by
    have hchange := stat_change
      (fun f h => if fs.cbtocylno (h * fs.frag) = cyl then (whole fs.frag f).toNat else 0) hb hout
    have := hs.blocks
    rw [hbtot cyl, hc.btot cyl]
    split
    next hcyl =>
      rw [if_pos hcyl, if_pos hcyl] at hchange
      omega
    next hcyl =>
      rw [if_neg hcyl, if_neg hcyl] at hchange
      omega
  b cyl rpos := by
    have hchange := stat_change (fun f h => if fs.cbtocylno (h * fs.frag) = cyl ∧ fs.cbtorpos (h * fs.frag) = rpos then
      (whole fs.frag f).toNat else 0) hb hout
    have := hs.blocks
    rw [hbb cyl rpos, hc.b cyl rpos]
    split
    next hcyl =>
      rw [if_pos hcyl, if_pos hcyl] at hchange
      omega
    next hcyl =>
      rw [if_neg hcyl, if_neg hcyl] at hchange
      omega
  inside := hinside
  frotor := hfrotor

end Change

section Scan

variable {p : Byte → Bool} {m : BitMap} {start n : Nat}

theorem scanc_zero (h : scanc p m start n = 0) : ∀ i < n, p (m (start + i)) = false := by
  induction n generalizing start with
  | zero => exact fun i hi => absurd hi (Nat.not_lt_zero i)
  | succ n ih =>
    unfold scanc at h
    split at h
    next => cases h
    next hp =>
      intro i hi
      cases i with
      | zero => exact (Bool.not_eq_true _).mp hp
      | succ i =>
        have := ih h i (by omega)
        rwa [Nat.add_assoc, Nat.add_comm 1 i] at this

theorem scanc_found (h : scanc p m start n ≠ 0) :
    start ≤ start + n - scanc p m start n ∧ start + n - scanc p m start n < start + n ∧
      p (m (start + n - scanc p m start n)) = true := by
  induction n generalizing start with
  | zero => exact absurd rfl h
  | succ n ih =>
    unfold scanc at h ⊢
    split at h
    next hp =>
      rw [if_pos hp, show start + (n + 1) - (n + 1) = start by omega]
      exact ⟨Nat.le_refl _, by omega, hp⟩
    next hp =>
      obtain ⟨hle, hlt, hfound⟩ := ih h
      rw [if_neg hp, show start + (n + 1) - scanc p m (start + 1) n = start + 1 + n - scanc p m (start + 1) n by omega]
      exact ⟨by omega, by omega, hfound⟩

end Scan

section Mapsearch

variable {fs : Fs} {c : Cg} {siz : Nat}

theorem FragOk.block_byte {frag : Nat} (hf : FragOk frag) (k q : Nat) :
    k * nbby + q * frag = (k * (nbby / frag) + q) * frag := by
  unfold nbby
  rcases hf with rfl | rfl | rfl | rfl <;> omega

theorem FragOk.byte_of_block {frag : Nat} (hf : FragOk frag) (h : Nat) :
    ∃ k, ∃ q < nbby / frag, h = k * (nbby / frag) + q := by
  have hpos : 0 < nbby / frag := by
    rcases hf with rfl | rfl | rfl | rfl <;> decide
  exact ⟨h / (nbby / frag), h % (nbby / frag), Nat.mod_lt _ hpos, by rw [Nat.mul_comm, Nat.div_add_mod]⟩

theorem FragOk.isset_byte {frag : Nat} (hf : FragOk frag) (m : BitMap) {k q i : Nat} (hq : q < nbby / frag)
    (hi : i < frag) : m.isset ((k * (nbby / frag) + q) * frag + i) = (m k).getLsbD (q * frag + i) := by
  unfold nbby at hq
  have hplace : ((k * (8 / frag) + q) * frag + i) / 8 = k ∧ ((k * (8 / frag) + q) * frag + i) % 8 = q * frag + i := by
    rcases hf with rfl | rfl | rfl | rfl <;> omega
  unfold BitMap.isset nbby
  rw [hplace.1, hplace.2]

theorem Fs.byte_lt (fs : Fs) {i : Nat} (hi : i < fs.fpg) : i / nbby < howmany fs.fpg nbby := by
  unfold howmany nbby
  omega

theorem Fs.dtogd_lt (fs : Fs) (d : Nat) : fs.dtogd d < fs.fpg := Nat.mod_lt _ fs.fpg_pos

theorem Fs.fpg_eq (fs : Fs) : fs.fpg = fs.nblk * fs.frag := (Nat.div_mul_cancel fs.frag_dvd).symm

theorem Counted.block_lt (hc : Counted fs c) {h k : Nat} (hset : bits fs.frag c.free h k = true) : h < fs.nblk := by
  have hk : k < fs.frag := by
    by_contra hk
    rw [bits_out k (by omega)] at hset
    cases hset
  rw [bits_in hk] at hset
  by_contra hge
  have hle := Nat.mul_le_mul_right fs.frag (Nat.not_lt.mp hge)
  rw [← fs.fpg_eq] at hle
  rw [hc.inside _ (by omega)] at hset
  cases hset

theorem hasFrag_block (hs : 0 < siz) (hle : siz ≤ fs.frag) (m : BitMap) (k : Nat) :
    hasFrag fs.frag siz (m k) = true ↔ ∃ q < nbby / fs.frag, ∃ pos < fs.frag + 1 - siz,
      IsRun (bits fs.frag m (k * (nbby / fs.frag) + q)) pos siz := by
  rw [hasFrag_iff fs.frag_ok hs hle]
  refine exists_congr fun q => and_congr_right fun hq => exists_congr fun pos => and_congr_right fun _ => ?_
  refine isRun_congr fun i => ?_
  by_cases hi : i < fs.frag
  · rw [bits_in hi, decide_eq_true hi, Bool.true_and, fs.frag_ok.isset_byte m hq hi]
  · rw [bits_out i (by omega), decide_eq_false hi, Bool.false_and]

theorem mapsearchByte_some (hc : Counted fs c) (bpref : Nat) {k : Nat} (hk : k < howmany fs.fpg nbby)
    (hset : hasFrag fs.frag siz (c.free k) = true) :
    ∃ k', mapsearchByte fs c bpref siz = some k' ∧ k' < howmany fs.fpg nbby ∧
      hasFrag fs.frag siz (c.free k') = true := by
  unfold mapsearchByte
  generalize hstart : (if bpref ≠ 0 then fs.dtogd bpref else c.frotor) / nbby = start
  have hlt : start < howmany fs.fpg nbby := by
    rw [← hstart]
    split
    · exact fs.byte_lt (fs.dtogd_lt bpref)
    · exact hc.frotor
  dsimp only
  split
  next hfound =>
    obtain ⟨_, hend, hp⟩ := scanc_found hfound
    exact ⟨_, rfl, by omega, hp⟩
  next hnone =>
    have hbefore : k < start + 1 := by
      by_contra hge
      have := scanc_zero (Decidable.not_not.mp hnone) (k - start) (by omega)
      rw [Nat.add_sub_cancel' (by omega), hset] at this
      cases this
    split
    next hfound =>
      obtain ⟨_, hend, hp⟩ := scanc_found hfound
      rw [Nat.zero_add] at hend hp
      exact ⟨_, rfl, by omega, hp⟩
    next hnone' =>
      have := scanc_zero (Decidable.not_not.mp hnone') k hbefore
      rw [Nat.zero_add, hset] at this
      cases this

theorem sift_some (hs : 0 < siz) (hle : siz ≤ fs.frag) {k : Nat} (hset : hasFrag fs.frag siz (c.free k) = true) :
    ∃ h pos, sift fs c (k * nbby) siz = some (h * fs.frag + pos) ∧ IsRun (bits fs.frag c.free h) pos siz := by
  have hrun : ∀ q pos, runAt (blkmap fs.frag c.free (k * nbby + q * fs.frag)).toNat siz pos = true ↔
      IsRun (bits fs.frag c.free (k * (nbby / fs.frag) + q)) pos siz := fun q pos => by
    rw [runAt_iff (hle.trans fs.frag_ok.le), fs.frag_ok.block_byte, ← blkmap_bits fs.frag_ok]
    exact isRun_congr fun i => BitVec.testBit_toNat _
  obtain ⟨q, hq, pos, hpos, hr⟩ := (hasFrag_block hs hle c.free k).mp hset
  have hsome : (sift fs c (k * nbby) siz).isSome = true := by
    refine List.findSome?_isSome_iff.mpr ⟨q, List.mem_range.mpr hq, ?_⟩
    refine List.findSome?_isSome_iff.mpr ⟨pos, List.mem_range.mpr hpos, ?_⟩
    rw [if_pos ((hrun q pos).mpr hr)]
    rfl
  obtain ⟨bno, hbno⟩ := Option.isSome_iff_exists.mp hsome
  obtain ⟨q', hq', hin⟩ := List.exists_of_findSome?_eq_some hbno
  obtain ⟨pos', hpos', hin⟩ := List.exists_of_findSome?_eq_some hin
  obtain ⟨hr', hsome'⟩ := Option.ite_none_right_eq_some.mp hin
  refine ⟨_, pos', ?_, (hrun q' pos').mp hr'⟩
  rw [hbno, ← Option.some.inj hsome', fs.frag_ok.block_byte]

theorem mapsearch_some (hc : Counted fs c) (bpref : Nat) (hs : 0 < siz) (hle : siz ≤ fs.frag) {h pos : Nat}
    (hr : IsRun (bits fs.frag c.free h) pos siz) :
    ∃ frotor h' pos', mapsearch fs c bpref siz = .ok ({ c with frotor }, h' * fs.frag + pos') ∧
      frotor / nbby < howmany fs.fpg nbby ∧ h' < fs.nblk ∧ pos' + siz ≤ fs.frag ∧
      IsRun (bits fs.frag c.free h') pos' siz := by
  obtain ⟨k, q, hq, rfl⟩ := fs.frag_ok.byte_of_block h
  have hend := isRun_last (fun i hi => bits_out i hi) hs hr
  have hset := (hasFrag_block hs hle c.free k).mpr ⟨q, hq, pos, by omega, hr⟩
  have hk : k < howmany fs.fpg nbby := by
    have hin := hc.block_lt (hr.set (Nat.le_refl pos) (by omega))
    have hfirst : (k * (nbby / fs.frag) + q) * fs.frag < fs.fpg := by
      rw [fs.fpg_eq]
      exact Nat.mul_lt_mul_of_pos_right hin fs.frag_ok.pos
    rw [← fs.frag_ok.block_byte] at hfirst
    have := fs.byte_lt hfirst
    unfold nbby at this ⊢
    omega
  obtain ⟨k', hbyte, hk', hset'⟩ := mapsearchByte_some hc bpref hk hset
  obtain ⟨h', pos', hsift, hr'⟩ := sift_some hs hle hset'
  refine ⟨k' * nbby, h', pos', ?_, ?_, hc.block_lt (hr'.set (Nat.le_refl pos') (by omega)),
    isRun_last (fun i hi => bits_out i hi) hs hr', hr'⟩
  · unfold mapsearch
    rw [hbyte]
    simp only [hsift]
  · unfold nbby at *
    omega

end Mapsearch

end MachVM.Ufs
