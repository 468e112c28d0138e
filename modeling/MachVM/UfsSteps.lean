import MachVM.UfsGroup

namespace MachVM.Ufs

open Runs Tally Finset

/-- The lists of the rotational layout lead to every block of a cylinder at a rotational position. -/
def Fs.LaidOut (fs : Fs) : Prop :=
  0 < fs.cpc → ∀ h < fs.nblk,
    let cylno := fs.cbtocylno (h * fs.frag)
    let head := fs.postbl (cylno % fs.cpc) (fs.cbtorpos (h * fs.frag))
    head ≠ -1 ∧ ∃ i ∈ layout fs head.toNat (fs.maxbpc + 1), h = (cylno - cylno % fs.cpc) * fs.spc / fs.nspb + i

/-- Only the group `g` changes, and its summary changes as the copies do. -/
structure Changed (s s' : State) (g : Nat) (d : Csum) : Prop where
  others : ∀ g', g' ≠ g → s'.cg g' = s.cg g'
  own : (s'.cg g).cs = (s.cg g).cs.add d
  cs : s'.cs = Function.update s.cs g ((s.cs g).add d)
  cstotal : s'.cstotal = s.cstotal.add d

/-- Every summary in the superblock is that of the groups. -/
structure Summed (fs : Fs) (s : State) : Prop where
  own : ∀ g < fs.ncg, s.cs g = (s.cg g).cs
  nbfree : s.cstotal.nbfree = ∑ g ∈ range fs.ncg, (s.cs g).nbfree
  nffree : s.cstotal.nffree = ∑ g ∈ range fs.ncg, (s.cs g).nffree

/-- The `n` fragments from `i` on of the group `g` become free or not. -/
structure Moved (fs : Fs) (s s' : State) (g i n : Nat) (b : Bool) : Prop where
  changed : ∃ d, Changed s s' g d
  counted : Counted fs (s'.cg g)
  map : (s'.cg g).free.isset = fill (s.cg g).free.isset i n b
  before : ∀ k < n, (s.cg g).free.isset (i + k) = !b
  block : i % fs.frag + n ≤ fs.frag

section Account

variable {s s' s'' : State} {g : Nat} {c : Cg} {d d' : Csum}

@[simp] theorem setCg_self (s : State) (g : Nat) (c : Cg) : (s.setCg g c).cg g = c := Function.update_self ..

@[simp] theorem account_self (s : State) (g : Nat) (d : Csum) :
    (s.account g d).cg g = { s.cg g with cs := (s.cg g).cs.add d } := Function.update_self ..

theorem setCg_ne (s : State) (c : Cg) {g g' : Nat} (h : g' ≠ g) : (s.setCg g c).cg g' = s.cg g' :=
  Function.update_of_ne h ..

theorem account_ne (s : State) (d : Csum) {g g' : Nat} (h : g' ≠ g) : (s.account g d).cg g' = s.cg g' :=
  Function.update_of_ne h ..

theorem Csum.add_assoc (a b c : Csum) : (a.add b).add c = a.add (b.add c) := by
  simp only [Csum.add, Int.add_assoc]

theorem Changed.trans (h : Changed s s' g d) (h' : Changed s' s'' g d') : Changed s s'' g (d.add d') where
  others g' hne := (h'.others g' hne).trans (h.others g' hne)
  own := by rw [h'.own, h.own, Csum.add_assoc]
  cs := by rw [h'.cs, h.cs, Function.update_self, Function.update_idem, Csum.add_assoc]
  cstotal := by rw [h'.cstotal, h.cstotal, Csum.add_assoc]

theorem changed_account (hc : c.cs = (s.cg g).cs) (d : Csum) : Changed s ((s.setCg g c).account g d) g d where
  others _ hne := (account_ne _ d hne).trans (setCg_ne s c hne)
  own := by rw [account_self, setCg_self, hc]
  cs := rfl
  cstotal := rfl

theorem Summed.changed {fs : Fs} (hs : Summed fs s) (hg : g < fs.ncg) (h : Changed s s' g d) : Summed fs s' := by
  have hsum : ∀ w : Csum → Int, ∑ x ∈ range fs.ncg, w (s'.cs x) =
      ∑ x ∈ range fs.ncg, w (s.cs x) + (w ((s.cs g).add d) - w (s.cs g)) := fun w => by
    have := sum_change (fun x => w (s.cs x)) (fun x => w (s'.cs x)) hg fun x _ hne => by
      simp only [h.cs, Function.update_of_ne hne]
    simp only [h.cs, Function.update_self] at this ⊢
    omega
  refine ⟨fun g' hg' => ?_, ?_, ?_⟩
  · by_cases hne : g' = g
    · subst hne
      rw [h.own, h.cs, Function.update_self, hs.own g' hg']
    · rw [h.others g' hne, h.cs, Function.update_of_ne hne, hs.own g' hg']
  all_goals rw [hsum, h.cstotal]
  · have := hs.nbfree
    simp only [Csum.add]
    omega
  · have := hs.nffree
    simp only [Csum.add]
    omega

end Account

section Block

variable {fs : Fs} {s : State} {g : Nat}

theorem Fs.block_mod (fs : Fs) (h : Nat) {pos : Nat} (hpos : pos < fs.frag) : (h * fs.frag + pos) % fs.frag = pos := by
  rw [Nat.mul_comm, Nat.mul_add_mod, Nat.mod_eq_of_lt hpos]

theorem Fs.block_div_self (fs : Fs) (h : Nat) : h * fs.frag / fs.frag = h := Nat.mul_div_cancel h fs.frag_ok.pos

theorem inside_fill {c : Cg} {m : BitMap} {h pos n : Nat} {b : Bool} (hc : Counted fs c) (hh : h < fs.nblk)
    (hn : pos + n ≤ fs.frag) (hm : m.isset = fill c.free.isset (h * fs.frag + pos) n b) :
    ∀ i, fs.fpg ≤ i → m.isset i = false := by
  intro i hi
  have hend := Nat.mul_le_mul_right fs.frag (Nat.succ_le_of_lt hh)
  rw [Nat.succ_mul, ← fs.fpg_eq] at hend
  rw [hm, fill_outside (by omega), hc.inside i hi]

theorem countBlock_btot (c : Cg) (bno : Nat) (cnt : Int) (cyl : Nat) :
    (countBlock fs c bno cnt).btot cyl = c.btot cyl + if fs.cbtocylno bno = cyl then cnt else 0 := by
  unfold countBlock Function.update
  dsimp only
  split
  next h =>
    cases h
    rw [if_pos rfl]
  next h => rw [if_neg (Ne.symm h), Int.add_zero]

theorem countBlock_b (c : Cg) (bno : Nat) (cnt : Int) (cyl rpos : Nat) :
    (countBlock fs c bno cnt).b cyl rpos =
      c.b cyl rpos + if fs.cbtocylno bno = cyl ∧ fs.cbtorpos bno = rpos then cnt else 0 := by
  unfold countBlock Function.update
  dsimp only
  split
  next h =>
    cases h
    dsimp only
    split
    next h =>
      cases h
      rw [if_pos ⟨rfl, rfl⟩]
    next h => rw [if_neg fun h' => h h'.2.symm, Int.add_zero]
  next h => rw [if_neg fun h' => h h'.1.symm, Int.add_zero]

theorem moved_account {c : Cg} {d : Csum} {dr : Nat → Int} {h pos n : Nat} {b : Bool} (hc : Counted fs (s.cg g))
    (hh : h < fs.nblk) (hpos : pos < fs.frag) (hN : pos + n ≤ fs.frag)
    (hm : c.free.isset = fill (s.cg g).free.isset (h * fs.frag + pos) n b)
    (hbefore : ∀ k < n, bits fs.frag (s.cg g).free h (pos + k) = !b)
    (hs : Shift fs.frag (bits fs.frag (s.cg g).free h) (fill (bits fs.frag (s.cg g).free h) pos n b) d.nbfree d.nffree dr)
    (hfrsum : ∀ j, 0 < j → j < fs.frag → c.frsum j = (s.cg g).frsum j + dr j)
    (hbtot : ∀ cyl, c.btot cyl = (s.cg g).btot cyl + if fs.cbtocylno (h * fs.frag) = cyl then d.nbfree else 0)
    (hb : ∀ cyl rpos, c.b cyl rpos = (s.cg g).b cyl rpos +
      if fs.cbtocylno (h * fs.frag) = cyl ∧ fs.cbtorpos (h * fs.frag) = rpos then d.nbfree else 0)
    (hfrotor : c.frotor / nbby < howmany fs.fpg nbby)
    (hcs : c.cs = (s.cg g).cs) : Moved fs s ((s.setCg g c).account g d) g (h * fs.frag + pos) n b := by
  refine ⟨⟨d, changed_account hcs d⟩, ?_, ?_, fun k hk => ?_, ?_⟩
  · rw [account_self, setCg_self]
    refine hc.change hh (fun h' hne => bits_fill_ne hm hN hne) ?_ (by rw [hcs]; rfl) (by rw [hcs]; rfl) hfrsum hbtot hb
      (inside_fill hc hh hN hm) hfrotor
    exact bits_fill hm hN ▸ hs
  · rw [account_self, setCg_self]
    exact hm
  · rw [Nat.add_assoc, ← bits_in (by omega), hbefore k hk]
  · rw [fs.block_mod h hpos]
    exact hN

theorem gotit_moved {h : Nat} (hc : Counted fs (s.cg g)) (hh : h < fs.nblk)
    (hw : whole fs.frag (bits fs.frag (s.cg g).free h) = true) :
    Moved fs s (gotit fs s g (h * fs.frag)).1 g (h * fs.frag) fs.frag false := by
  have hm := isset_clrblock fs.frag_ok (s.cg g).free (h * fs.frag / fs.frag)
  change Moved fs s (gotit fs s g (h * fs.frag)).1 g (h * fs.frag + 0) fs.frag false
  refine moved_account hc hh fs.frag_ok.pos (by omega) (hm.trans (by rw [fs.block_div_self]; rfl))
    (fun k hk => ?_) (shift_takeBlock fs.frag_ok.pos (fun k hk => bits_out k hk) hw)
    (fun j _ _ => (Int.add_zero _).symm) (fun cyl => countBlock_btot ..) (fun cyl rpos => countBlock_b ..)
    hc.frotor rfl
  rw [Nat.zero_add, whole_iff.mp hw k hk]
  rfl

theorem Counted.rotors {c : Cg} {rotor frotor : Nat} (hc : Counted fs c) (hf : frotor / nbby < howmany fs.fpg nbby) :
    Counted fs { c with rotor, frotor } where
  nbfree := hc.nbfree
  nffree := hc.nffree
  frsum := hc.frsum
  btot := hc.btot
  b := hc.b
  inside := hc.inside
  frotor := hf

theorem Moved.rebase {s' t : State} {i n : Nat} {b : Bool} (h : Moved fs t s' g i n b)
    (hothers : ∀ g', g' ≠ g → t.cg g' = s.cg g') (hcs : t.cs = s.cs) (hcstotal : t.cstotal = s.cstotal)
    (hown : (t.cg g).cs = (s.cg g).cs ∧ (t.cg g).free = (s.cg g).free) : Moved fs s s' g i n b := by
  obtain ⟨⟨d, hd⟩, hcounted, hmap, hbefore, hblock⟩ := h
  refine ⟨⟨d, fun g' hne => (hd.others g' hne).trans (hothers g' hne), ?_, ?_, ?_⟩, hcounted, ?_, ?_, hblock⟩
  · rw [hd.own, hown.1]
  · rw [hd.cs, hcs]
  · rw [hd.cstotal, hcstotal]
  · rw [hmap, hown.2]
  · rwa [hown.2] at hbefore

theorem norot_moved {h : Nat} (hc : Counted fs (s.cg g))
    (hw : whole fs.frag (bits fs.frag (s.cg g).free h) = true) (bpref : Nat) :
    ∃ s' h', norot fs s g bpref = .ok (s', g * fs.fpg + h' * fs.frag) ∧ h' < fs.nblk ∧
      Moved fs s s' g (h' * fs.frag) fs.frag false := by
  have hrun : IsRun (bits fs.frag (s.cg g).free h) 0 fs.frag :=
    ⟨fun k hk => by rw [Nat.zero_add, whole_iff.mp hw k hk], bits_out _ (by omega), .inl rfl⟩
  obtain ⟨frotor, h', pos', hsearch, hrotor, hh', hend, hrun'⟩ :=
    mapsearch_some hc bpref fs.frag_ok.pos (Nat.le_refl _) hrun
  obtain rfl : pos' = 0 := by omega
  have hw' : whole fs.frag (bits fs.frag (s.cg g).free h') = true := by
    refine whole_iff.mpr fun k hk => ?_
    have := hrun'.1 k hk
    rwa [Nat.zero_add] at this
  refine ⟨_, h', by rw [norot, hsearch]; rfl, hh', ?_⟩
  have hc' := @Counted.rotors _ _ (h' * fs.frag) _ hc hrotor
  rw [← setCg_self s g { s.cg g with rotor := h' * fs.frag, frotor }] at hc'
  refine (gotit_moved hc' hh' (by rw [setCg_self]; exact hw')).rebase (fun _ hne => setCg_ne s _ hne) rfl rfl ?_
  rw [setCg_self]
  exact ⟨rfl, rfl⟩

theorem exists_of_stat {m : BitMap} {w : (Nat → Bool) → Nat → Nat} (hne : ((stat fs m w : Nat) : Int) ≠ 0) :
    ∃ h < fs.nblk, w (bits fs.frag m h) h ≠ 0 := by
  obtain ⟨h, hh, hw⟩ := exists_ne_zero_of_sum_ne_zero (Int.natCast_ne_zero.mp hne)
  exact ⟨h, mem_range.mp hh, hw⟩

theorem exists_whole {c : Cg} (hc : Counted fs c) (hne : c.cs.nbfree ≠ 0) :
    ∃ h < fs.nblk, whole fs.frag (bits fs.frag c.free h) = true := by
  rw [hc.nbfree] at hne
  obtain ⟨h, hh, hw⟩ := exists_of_stat hne
  exact ⟨h, hh, Bool.toNat_eq_one.mp (Nat.le_antisymm (Bool.toNat_le _) (Nat.pos_of_ne_zero hw))⟩

theorem exists_at {c : Cg} (hc : Counted fs c) {cyl rpos : Nat} (hpos : 0 < c.b cyl rpos) :
    ∃ h < fs.nblk, whole fs.frag (bits fs.frag c.free h) = true ∧ fs.cbtocylno (h * fs.frag) = cyl ∧
      fs.cbtorpos (h * fs.frag) = rpos := by
  rw [hc.b] at hpos
  obtain ⟨h, hh, hw⟩ := exists_of_stat (Int.ne_of_gt hpos)
  by_cases hplace : fs.cbtocylno (h * fs.frag) = cyl ∧ fs.cbtorpos (h * fs.frag) = rpos
  · rw [if_pos hplace] at hw
    exact ⟨h, hh, Bool.toNat_eq_one.mp (Nat.le_antisymm (Bool.toNat_le _) (Nat.pos_of_ne_zero hw)), hplace⟩
  · exact absurd (if_neg hplace) hw

theorem alloccgblk_moved (hl : fs.LaidOut) (hc : Counted fs (s.cg g)) (hne : (s.cg g).cs.nbfree ≠ 0) (bpref : Nat) :
    ∃ s' h, alloccgblk fs s g bpref = .ok (s', g * fs.fpg + h * fs.frag) ∧ h < fs.nblk ∧
      Moved fs s s' g (h * fs.frag) fs.frag false := by
  obtain ⟨h₀, hh₀, hw₀⟩ := exists_whole hc hne
  have htake : ∀ h, isblock fs.frag (s.cg g).free h = true → ∃ s' h', Except.ok (gotit fs s g (h * fs.frag)) =
      Except.ok (ε := Panic) (s', g * fs.fpg + h' * fs.frag) ∧ h' < fs.nblk ∧
        Moved fs s s' g (h' * fs.frag) fs.frag false := fun h hb => by
    rw [isblock_whole fs.frag_ok] at hb
    have hh := hc.block_lt (whole_iff.mp hb 0 fs.frag_ok.pos)
    exact ⟨_, h, rfl, hh, gotit_moved hc hh hb⟩
  unfold alloccgblk
  dsimp only
  split
  · exact norot_moved hc hw₀ _
  · generalize hp : fs.dtogd (fs.blknum bpref) = p
    have hdvd : fs.frag ∣ p := by
      rw [← hp]
      refine (Nat.dvd_mod_iff fs.frag_dvd).mpr ?_
      exact Nat.dvd_sub_mod bpref
    split
    next hb =>
      have := htake _ hb
      rwa [Nat.div_mul_cancel hdvd] at this
    next =>
      split
      · exact norot_moved hc hw₀ _
      · split
        · exact norot_moved hc hw₀ _
        next hcpc =>
          split
          · exact norot_moved hc hw₀ _
          next i hfound =>
            have hpos := List.find?_some hfound
            obtain ⟨h, hh, hw, hcyl, hrpos⟩ := exists_at hc (of_decide_eq_true hpos)
            obtain ⟨hhead, j, hj, hhj⟩ := hl (Nat.pos_of_ne_zero hcpc) h hh
            rw [hcyl, hrpos] at hhead hj
            rw [hcyl] at hhj
            rw [if_neg hhead]
            split
            next hnone =>
              have := List.find?_eq_none.mp hnone j hj
              rw [← hhj, isblock_whole fs.frag_ok] at this
              exact absurd hw this
            next i' hsome =>
              have hb := List.find?_some hsome
              exact htake _ hb

theorem Moved.trans {s' s'' : State} {i n k : Nat} {b : Bool} (h : Moved fs s s' g i n b)
    (h' : Moved fs s' s'' g (i + k) (n - k) (!b)) (hk : k ≤ n) : Moved fs s s'' g i k b := by
  obtain ⟨d, hd⟩ := h.changed
  obtain ⟨d', hd'⟩ := h'.changed
  refine ⟨⟨_, hd.trans hd'⟩, h'.counted, ?_, fun j hj => h.before j (by omega), ?_⟩
  · funext j
    rw [h'.map]
    unfold fill
    rw [h.map]
    unfold fill
    split
    next hin =>
      have := h.before (j - i) (by omega)
      rw [Nat.add_sub_cancel' (by omega)] at this
      rw [if_neg (by omega), this]
    next => exact if_congr (by omega) rfl rfl
  · have := h.block
    omega

theorem frsumTake_eq (frsum : Nat → Int) {siz n j : Nat} (hj : 0 < j) :
    frsumTake frsum siz n j = frsum j + ((if j = siz - n then 1 else 0) - if j = siz then 1 else 0) := by
  unfold frsumTake
  split
  next hne =>
    by_cases hr : j = siz - n
    · rw [hr, Function.update_self, Function.update_apply, if_pos rfl]
      split
      next he => rw [he]; omega
      next => omega
    · rw [Function.update_of_ne hr, Function.update_apply, if_neg hr]
      split
      next he => rw [he]; omega
      next => omega
  next he =>
    rw [Function.update_apply, if_neg (show ¬j = siz - n by omega)]
    split
    next he => rw [he]; omega
    next => omega

theorem takeRun_moved {frotor h pos siz n : Nat} (hc : Counted fs (s.cg g)) (hh : h < fs.nblk) (hn : 0 < n)
    (hle : n ≤ siz) (hN : pos + siz ≤ fs.frag) (hsiz : siz < fs.frag)
    (hrun : IsRun (bits fs.frag (s.cg g).free h) pos siz) (hf : frotor / nbby < howmany fs.fpg nbby) :
    Moved fs s ((s.setCg g { s.cg g with
      frotor
      free := (s.cg g).free.clrbits (h * fs.frag + pos) n
      frsum := frsumTake (s.cg g).frsum siz n }).account g { nbfree := 0, nffree := -n }) g
      (h * fs.frag + pos) n false := by
  refine moved_account hc hh (by omega) (by omega) (isset_clrbits ..) (fun k hk => hrun.1 k (by omega))
    (shift_takeRun hrun hn hle hN hsiz) (fun j hj _ => frsumTake_eq _ hj) (fun cyl => ?_) (fun cyl rpos => ?_) hf rfl
  · rw [ite_self, Int.add_zero]
  · rw [ite_self, Int.add_zero]

theorem takeFrags_moved {siz n : Nat} (hc : Counted fs (s.cg g)) (hn : 0 < n) (hle : n ≤ siz) (hlt : siz < fs.frag)
    (hne : (s.cg g).frsum siz ≠ 0) (bpref : Nat) :
    ∃ s' i, takeFrags fs s g bpref siz n = .ok (s', g * fs.fpg + i) ∧ Moved fs s s' g i n false := by
  rw [hc.frsum siz (by omega) hlt] at hne
  obtain ⟨h, hh, hr⟩ := exists_of_stat hne
  have hany : ∃ pos, IsRun (bits fs.frag (s.cg g).free h) pos siz := by
    by_contra hno
    exact hr ((tally_eq_zero ..).mpr fun pos _ => decide_eq_false fun hp => hno ⟨pos, hp⟩)
  obtain ⟨pos, hpos⟩ := hany
  obtain ⟨frotor, h', pos', hsearch, hrotor, hh', hend, hrun⟩ :=
    mapsearch_some hc bpref (show 0 < siz by omega) (Nat.le_of_lt hlt) hpos
  exact ⟨_, _, by rw [takeFrags, hsearch]; rfl, takeRun_moved hc hh' hn hle hend hlt hrun hrotor⟩

theorem hackBlock_moved {n : Nat} (hl : fs.LaidOut) (hc : Counted fs (s.cg g)) (hn : 0 < n) (hlt : n < fs.frag)
    (hne : (s.cg g).cs.nbfree ≠ 0) (bpref : Nat) :
    ∃ s' i, hackBlock fs s g bpref n = .ok (s', g * fs.fpg + i) ∧ Moved fs s s' g i n false := by
  obtain ⟨s', h, halloc, hh, hmoved⟩ := alloccgblk_moved hl hc hne bpref
  have hin : h * fs.frag < fs.fpg := by
    rw [fs.fpg_eq]
    exact Nat.mul_lt_mul_of_pos_right hh fs.frag_ok.pos
  have hd : fs.dtogd (g * fs.fpg + h * fs.frag) = h * fs.frag := by
    rw [Fs.dtogd, Nat.mul_comm g, Nat.mul_add_mod, Nat.mod_eq_of_lt hin]
  have hclear : ∀ k < fs.frag, bits fs.frag (s'.cg g).free h k = false := fun k hk => by
    rw [bits_in hk, hmoved.map, fill_inside (by omega) (by omega)]
  refine ⟨_, h * fs.frag, by rw [hackBlock, halloc]; rfl, hmoved.trans ?_ (Nat.le_of_lt hlt)⟩
  rw [hd]
  refine moved_account hmoved.counted hh hlt (by omega) (isset_setbits ..) (fun k hk => hclear _ (by omega))
    (shift_putTail hn hlt (fun k hk => bits_out k hk) hclear) (fun j _ _ => ?_) (fun cyl => ?_) (fun cyl rpos => ?_)
    hmoved.counted.frotor rfl
  · dsimp only
    rw [Function.update_apply]
    split
    next he => rw [he]
    next => exact (Int.add_zero _).symm
  · dsimp only
    rw [ite_self, Int.add_zero]
  · dsimp only
    rw [ite_self, Int.add_zero]

/-- There is room for `n` fragments in a block. -/
def Room (fs : Fs) (c : Cg) (n : Nat) : Prop := c.cs.nbfree ≠ 0 ∨ ∃ j, n ≤ j ∧ j < fs.frag ∧ c.frsum j ≠ 0

theorem Fs.size_eq_bsize (fs : Fs) {n : Nat} : n * fs.fsize = fs.bsize ↔ n = fs.frag :=
  Nat.mul_left_inj (Nat.ne_of_gt fs.fsize_pos)

theorem Fs.numfrags_mul (fs : Fs) (n : Nat) : fs.numfrags (n * fs.fsize) = n := Nat.mul_div_cancel n fs.fsize_pos

theorem alloccg_moved {n : Nat} (hl : fs.LaidOut) (hc : Counted fs (s.cg g)) (hown : s.cs g = (s.cg g).cs)
    (hn : 0 < n) (hle : n ≤ fs.frag) (bpref : Nat) :
    (∃ s', alloccg fs s g bpref (n * fs.fsize) = .ok (s', 0) ∧ (s' = s ∨ s' = s.bread.2) ∧
      (s.reads s.nreads = true → ¬Room fs (s.cg g) n)) ∨
    ∃ s' i, alloccg fs s g bpref (n * fs.fsize) = .ok (s', g * fs.fpg + i) ∧
      Moved fs s s' g i n false ∧ s.reads s.nreads = true ∧ Room fs (s.cg g) n := by
  have hfull : ∀ {c : Cg}, c.cs.nbfree = 0 ∧ n * fs.fsize = fs.bsize → ¬Room fs c n := by
    rintro c ⟨hzero, hsize⟩ (hne | ⟨j, hj, hlt, _⟩)
    · exact hne hzero
    · rw [fs.size_eq_bsize] at hsize
      omega
  unfold alloccg
  rw [hown, fs.numfrags_mul]
  split
  next h => exact .inl ⟨s, rfl, .inl rfl, fun _ => hfull h⟩
  next =>
    dsimp only
    split
    next h =>
      refine .inl ⟨_, rfl, .inr rfl, fun hread => ?_⟩
      rcases h with h | h
      · exact absurd (hread.symm.trans h) (by decide)
      · exact hfull h
    next h =>
      obtain ⟨hread, h⟩ := not_or.mp h
      have hread := (Bool.not_eq_false _).mp hread
      have hc' : Counted fs (s.bread.2.cg g) := hc
      split
      next hsize =>
        have hne : (s.bread.2.cg g).cs.nbfree ≠ 0 := fun hzero => h ⟨hzero, hsize⟩
        obtain rfl := fs.size_eq_bsize.mp hsize
        obtain ⟨s', h', halloc, hh, hmoved⟩ := alloccgblk_moved hl hc' hne bpref
        exact .inr ⟨s', h' * fs.frag, halloc, hmoved.rebase (fun _ _ => rfl) rfl rfl ⟨rfl, rfl⟩, hread, .inl hne⟩
      next hsize =>
        have hlt : n < fs.frag := Nat.lt_of_le_of_ne hle fun he => hsize (fs.size_eq_bsize.mpr he)
        split
        next siz hfound =>
          have hne := List.find?_some hfound
          have hne := of_decide_eq_true hne
          have hmem := List.mem_range'_1.mp (List.mem_of_find?_eq_some hfound)
          obtain ⟨s', i, htake, hmoved⟩ := takeFrags_moved hc' hn hmem.1 (by omega) hne bpref
          exact .inr ⟨s', i, htake, hmoved.rebase (fun _ _ => rfl) rfl rfl ⟨rfl, rfl⟩, hread,
            .inr ⟨siz, hmem.1, by omega, hne⟩⟩
        next hnone =>
          have hno : ∀ j, n ≤ j → j < fs.frag → (s.cg g).frsum j = 0 := fun j hj hlt' => by
            have := List.find?_eq_none.mp hnone j (List.mem_range'_1.mpr (by omega))
            exact Decidable.not_not.mp fun hne => this (decide_eq_true hne)
          split
          next hzero =>
            refine .inl ⟨_, rfl, .inr rfl, fun _ => ?_⟩
            rintro (hne | ⟨j, hj, hlt', hne⟩)
            · exact hne hzero
            · exact hne (hno j hj hlt')
          next hne =>
            obtain ⟨s', i, hack, hmoved⟩ := hackBlock_moved hl hc' hn hlt hne bpref
            exact .inr ⟨s', i, hack, hmoved.rebase (fun _ _ => rfl) rfl rfl ⟨rfl, rfl⟩, hread, .inl hne⟩

theorem find_end (p : Nat → Bool) (a len : Nat) :
    ∃ i, ((List.range' a len).find? fun i => !p i).getD (a + len) = i ∧ a ≤ i ∧ i ≤ a + len ∧
      (∀ k, a ≤ k → k < i → p k = true) ∧ (i < a + len → p i = false) := by
  induction len generalizing a with
  | zero => exact ⟨a, rfl, Nat.le_refl a, Nat.le_refl a, fun k _ _ => by omega, fun h => absurd h (Nat.lt_irrefl a)⟩
  | succ len ih =>
    rw [List.range'_succ]
    cases hp : p a with
    | false =>
      refine ⟨a, ?_, Nat.le_refl a, Nat.le_add_right .., fun k _ _ => by omega, fun _ => hp⟩
      rw [List.find?_cons_of_pos (by rw [hp]; rfl), Option.getD_some]
    | true =>
      obtain ⟨i, hi, hle, hend, hall, hstop⟩ := ih (a + 1)
      rw [List.find?_cons_of_neg (by rw [hp]; decide), show a + (len + 1) = a + 1 + len by omega]
      refine ⟨i, hi, by omega, hend, fun k hk hlt => ?_, hstop⟩
      rcases Nat.eq_or_lt_of_le hk with rfl | hlt'
      · exact hp
      · exact hall k hlt' hlt

theorem Fs.fits_block (fs : Fs) {bprev n : Nat} (hle : n ≤ fs.frag)
    (h : ¬fs.fragnum (bprev + n - 1) < fs.fragnum bprev) : fs.fragnum bprev + n ≤ fs.frag := by
  by_contra hlong
  refine h ?_
  unfold Fs.fragnum at *
  have hlt := Nat.mod_lt bprev fs.frag_ok.pos
  have hdiv := Nat.div_add_mod bprev fs.frag
  have heq : bprev + n - 1 = fs.frag * (bprev / fs.frag + 1) + (bprev % fs.frag + n - 1 - fs.frag) := by
    rw [Nat.mul_add]
    omega
  rw [heq, Nat.mul_add_mod, Nat.mod_eq_of_lt (by omega)]
  omega

theorem Fs.dtogd_block (fs : Fs) (bno : Nat) :
    fs.dtogd bno = fs.dtogd bno / fs.frag * fs.frag + fs.fragnum bno ∧ fs.fragnum (fs.dtogd bno) = fs.fragnum bno ∧
      fs.fragnum bno < fs.frag ∧ fs.dtogd bno / fs.frag < fs.nblk := by
  have hmod : fs.dtogd bno % fs.frag = bno % fs.frag := Nat.mod_mod_of_dvd bno fs.frag_dvd
  refine ⟨?_, hmod, Nat.mod_lt _ fs.frag_ok.pos, ?_⟩
  · rw [Fs.fragnum, ← hmod, Nat.mul_comm, Nat.div_add_mod]
  · refine (Nat.div_lt_iff_lt_mul fs.frag_ok.pos).mpr ?_
    rw [← fs.fpg_eq]
    exact fs.dtogd_lt bno

theorem isRun_extended {m : BitMap} {bno h pos old n i : Nat} (hplace : bno = h * fs.frag + pos) (hold : 0 < old)
    (hlt : old < n) (hni : n ≤ i) (hend : pos + i ≤ fs.frag) (hheld : m.isset (bno + (old - 1)) = false)
    (hset : ∀ k, old ≤ k → k < n → m.isset (bno + k) = true) (hrest : ∀ k, n ≤ k → k < i → m.isset (bno + k) = true)
    (hstop : pos + i < fs.frag → m.isset (bno + i) = false) :
    IsRun (bits fs.frag m h) (pos + old) (i - old) := by
  have hbit : ∀ k, pos + k < fs.frag → bits fs.frag m h (pos + k) = m.isset (bno + k) := fun k hk => by
    rw [bits_in hk, hplace, Nat.add_assoc]
  refine ⟨fun k hk => ?_, ?_, .inr ?_⟩
  · rw [Nat.add_assoc, hbit _ (by omega)]
    rcases Nat.lt_or_ge (old + k) n with hkn | hkn
    · exact hset _ (by omega) hkn
    · exact hrest _ hkn (by omega)
  · rw [show pos + old + (i - old) = pos + i by omega]
    rcases Nat.lt_or_ge (pos + i) fs.frag with hk | hk
    · rw [hbit i hk]
      exact hstop hk
    · exact bits_out _ hk
  · rw [show pos + old - 1 = pos + (old - 1) by omega, hbit _ (by omega), hheld]

theorem fragextend_moved {old n bprev : Nat} (hc : Counted fs (s.cg g)) (hold : 0 < old) (hlt : old < n)
    (hle : n ≤ fs.frag) (hheld : (s.cg g).free.isset (fs.dtogd bprev + (old - 1)) = false) :
    (fragextend fs s g bprev (old * fs.fsize) (n * fs.fsize) = (s, 0) ∨
      fragextend fs s g bprev (old * fs.fsize) (n * fs.fsize) = (s.bread.2, 0)) ∨
    ∃ s', fragextend fs s g bprev (old * fs.fsize) (n * fs.fsize) = (s', bprev) ∧
      Moved fs s s' g (fs.dtogd bprev + old) (n - old) false := by
  unfold fragextend
  rw [fs.numfrags_mul, fs.numfrags_mul]
  split
  next => exact .inl (.inl rfl)
  next =>
    dsimp only
    split
    next => exact .inl (.inl rfl)
    next hfit =>
      split
      next => exact .inl (.inr rfl)
      next =>
        split
        next => exact .inl (.inr rfl)
        next hall =>
          have hc' : Counted fs (s.bread.2.cg g) := hc
          have hroom := fs.fits_block hle hfit
          obtain ⟨hplace, -, -, hh⟩ := fs.dtogd_block bprev
          have hset : ∀ k, old ≤ k → k < n → (s.cg g).free.isset (fs.dtogd bprev + k) = true := fun k hk hkn => by
            by_contra hno
            refine hall (List.any_eq_true.mpr ⟨k, List.mem_range'_1.mpr (by omega), ?_⟩)
            change (!(s.cg g).free.isset (fs.dtogd bprev + k)) = true
            rw [(Bool.not_eq_true _).mp hno]
            rfl
          obtain ⟨i, hi, hni, hend, hrest, hstop⟩ := find_end (fun i => (s.cg g).free.isset (fs.dtogd bprev + i)) n
            (fs.frag - fs.fragnum bprev - n)
          rw [show max n (fs.frag - fs.fragnum bprev) = n + (fs.frag - fs.fragnum bprev - n) by omega]
          have hrun := isRun_extended hplace hold hlt hni (by omega) hheld hset hrest fun h => hstop (by omega)
          refine .inr ⟨_, rfl, ?_⟩
          have hmoved := takeRun_moved (s := s.bread.2) hc' hh (show 0 < n - old by omega) (show n - old ≤ i - old by omega)
            (by omega) (by omega) hrun hc'.frotor
          rw [← Nat.add_assoc, ← hplace] at hmoved
          simp only [State.bread] at hi hmoved ⊢
          rw [hi]
          exact hmoved.rebase (fun _ _ => rfl) rfl rfl ⟨rfl, rfl⟩

theorem wholeBlock_setCg (c : Cg) (bno : Nat) :
    wholeBlock fs (s.setCg g c) g bno = (s.setCg g (countBlock fs c bno 1)).account g
      { nbfree := 1, nffree := 0 } := by
  unfold wholeBlock
  rw [setCg_self]
  simp only [State.setCg, Function.update_idem]

theorem account_account (d d' : Csum) : (s.account g d).account g d' = s.account g (d.add d') := by
  simp only [State.account, Function.update_self, Function.update_idem, Csum.add_assoc]

theorem wholeBlock_account (c : Cg) (d : Csum) (bno : Nat) :
    wholeBlock fs ((s.setCg g c).account g d) g bno = (s.setCg g (countBlock fs c bno 1)).account g
      (d.add { nbfree := 1, nffree := 0 }) := by
  unfold wholeBlock
  rw [account_self, setCg_self]
  simp only [State.account, State.setCg, Function.update_self, Function.update_idem, Csum.add_assoc, countBlock]

theorem freeFrags_moved {h pos n : Nat} (hc : Counted fs (s.cg g)) (hh : h < fs.nblk) (hn : 0 < n)
    (hle : pos + n ≤ fs.frag) (hclear : ∀ k < n, (s.cg g).free.isset (h * fs.frag + pos + k) = false) :
    ∃ s', freeFrags fs s g (h * fs.frag + pos) n = .ok s' ∧ Moved fs s s' g (h * fs.frag + pos) n true := by
  have hpos : pos < fs.frag := by omega
  have hclear' : ∀ k < n, bits fs.frag (s.cg g).free h (pos + k) = false := fun k hk => by
    rw [bits_in (by omega), ← Nat.add_assoc, hclear k hk]
  have hm : ((s.cg g).free.setbits (h * fs.frag + pos) n).isset = fill (s.cg g).free.isset (h * fs.frag + pos) n true :=
    isset_setbits ..
  have hbits := bits_fill hm hle
  have hshift := shift_putFrags hn hle hclear'
  rw [← hbits] at hshift
  have hacct : ∀ m : BitMap, ∀ j, 0 < j → j < fs.frag →
      fragacct fs.frag (blkmap fs.frag m (h * fs.frag)) j = runs fs.frag (bits fs.frag m h) j := fun m j hj hlt => by
    rw [fragacct_runs fs.frag_ok (fun i hi => by rw [blkmap_bits fs.frag_ok]; exact bits_out i hi) hj hlt,
      blkmap_bits fs.frag_ok]
  have hfrsum : ∀ j, 0 < j → j < fs.frag → accountFrags fs.frag
      (blkmap fs.frag ((s.cg g).free.setbits (h * fs.frag + pos) n) (h * fs.frag)) 1
      (accountFrags fs.frag (blkmap fs.frag (s.cg g).free (h * fs.frag)) (-1) (s.cg g).frsum) j =
        (s.cg g).frsum j + (runs fs.frag (bits fs.frag ((s.cg g).free.setbits (h * fs.frag + pos) n) h) j -
          runs fs.frag (bits fs.frag (s.cg g).free h) j) := fun j hj hlt => by
    unfold accountFrags
    rw [hacct _ j hj hlt, hacct _ j hj hlt]
    omega
  have hany : ((List.range n).any fun i => (s.cg g).free.isset (h * fs.frag + pos + i)) = false := by
    refine List.any_eq_false.mpr fun k hk => ?_
    rw [hclear k (List.mem_range.mp hk)]
    decide
  unfold freeFrags
  rw [Fs.fragnum, fs.block_mod h hpos, Nat.add_sub_cancel]
  dsimp only
  rw [hany, if_neg (by decide), fs.block_div_self, isblock_whole fs.frag_ok]
  split
  next hw =>
    rw [hw] at hshift
    rw [account_account, wholeBlock_account]
    refine ⟨_, rfl, moved_account hc hh hpos hle hm hclear' (hbits ▸ ?_) hfrsum (fun cyl => ?_) (fun cyl rpos => ?_) hc.frotor
      rfl⟩
    · exact countBlock_btot ..
    · exact countBlock_b ..
    · simpa [Csum.add, sub_eq_add_neg] using hshift
  next hw =>
    rw [(Bool.not_eq_true _).mp hw] at hshift
    refine ⟨_, rfl, moved_account hc hh hpos hle hm hclear' (hbits ▸ ?_) hfrsum (fun cyl => ?_) (fun cyl rpos => ?_) hc.frotor
      rfl⟩
    · rw [ite_self, Int.add_zero]
    · rw [ite_self, Int.add_zero]
    · simpa using hshift

theorem free_moved {bno n : Nat} (hc : Counted fs (s.cg (fs.dtog bno))) (hn : 0 < n) (hle : fs.fragnum bno + n ≤ fs.frag)
    (hroom : bno < fs.size) (hclear : ∀ k < n, (s.cg (fs.dtog bno)).free.isset (fs.dtogd bno + k) = false) :
    free fs s bno (n * fs.fsize) = .ok s.bread.2 ∨
      ∃ s', free fs s bno (n * fs.fsize) = .ok s' ∧ Moved fs s s' (fs.dtog bno) (fs.dtogd bno) n true := by
  have hc' : Counted fs (s.bread.2.cg (fs.dtog bno)) := hc
  obtain ⟨hplace, hfrag, hlt, hh⟩ := fs.dtogd_block bno
  have hsize : ¬(fs.bsize < n * fs.fsize ∨ fs.fragoff (n * fs.fsize) ≠ 0) := by
    refine not_or.mpr ⟨Nat.not_lt.mpr (Nat.mul_le_mul_right _ (by omega)), ?_⟩
    rw [Fs.fragoff, Nat.mul_mod_left]
    exact not_not_intro rfl
  unfold free
  rw [if_neg hsize, if_neg (Nat.not_le.mpr hroom), fs.numfrags_mul]
  dsimp only
  split
  next => exact .inl rfl
  next =>
    right
    split
    next hfull =>
      obtain rfl := fs.size_eq_bsize.mp hfull
      have hbase : fs.dtogd bno = fs.dtogd bno / fs.frag * fs.frag := by omega
      have hbits : ∀ k < fs.frag, bits fs.frag (s.cg (fs.dtog bno)).free (fs.dtogd bno / fs.frag) k = false :=
        fun k hk => by rw [bits_in hk, ← hbase, hclear k hk]
      split
      next hblock =>
        rw [isblock_whole fs.frag_ok] at hblock
        have := (hbits 0 fs.frag_ok.pos).symm.trans (whole_iff.mp hblock 0 fs.frag_ok.pos)
        cases this
      next =>
        rw [wholeBlock_setCg]
        refine ⟨_, rfl, ?_⟩
        rw [hbase, fs.block_div_self]
        refine Moved.rebase (t := s.bread.2) ?_ (fun _ _ => rfl) rfl rfl ⟨rfl, rfl⟩
        rw [← Nat.add_zero (_ * fs.frag)]
        exact moved_account hc' hh fs.frag_ok.pos (by omega) (isset_setblock fs.frag_ok _ _)
          (fun k hk => by rw [Nat.zero_add]; exact hbits k hk)
          (shift_putBlock fs.frag_ok.pos (fun k hk => bits_out k hk) hbits) (fun j _ _ => (Int.add_zero _).symm)
          (fun cyl => countBlock_btot ..) (fun cyl rpos => countBlock_b ..) hc'.frotor rfl
    next =>
      rw [hplace] at hclear ⊢
      obtain ⟨s', hfree, hmoved⟩ := freeFrags_moved hc' hh hn hle hclear
      exact ⟨s', hfree, hmoved.rebase (fun _ _ => rfl) rfl rfl ⟨rfl, rfl⟩⟩

end Block

end MachVM.Ufs
