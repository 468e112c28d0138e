import MachVM.Lib.Run
import MachVM.UfsSteps

namespace MachVM.Ufs

open Runs Finset

/-- The groups of a file system, and the fragments that its users hold. -/
structure Sys where
  state : State
  held : Nat → Bool
  panic : Option Panic

/-- The summaries are right, and nothing that is held is free. -/
structure Sound (fs : Fs) (s : State) (held : Nat → Bool) : Prop where
  counted : ∀ g < fs.ncg, Counted fs (s.cg g)
  summed : Summed fs s
  clear : ∀ g < fs.ncg, ∀ i < fs.fpg, held (g * fs.fpg + i) = true → (s.cg g).free.isset i = false
  room : ∀ d, held d = true → d < fs.size
  within : ∀ g < fs.ncg, ∀ i, (s.cg g).free.isset i = true → g * fs.fpg + i < fs.size
  first : (s.cg 0).free.isset 0 = false ∧ held 0 = false

inductive Action
  | alloc (g bpref size : Nat)
  | extend (bprev osize nsize : Nat)
  | free (bno size : Nat)

def Sys.alloc (fs : Fs) (x : Sys) (g bpref size : Nat) : Sys :=
  match alloccg fs x.state g bpref size with
  | .error e => { x with panic := some e }
  | .ok (s, d) => { x with state := s, held := if d = 0 then x.held else fill x.held d (fs.numfrags size) true }

def Sys.extend (fs : Fs) (x : Sys) (bprev osize nsize : Nat) : Sys :=
  let (s, d) := fragextend fs x.state (fs.dtog bprev) bprev osize nsize
  let old := fs.numfrags osize
  { x with state := s, held := if d = 0 then x.held else fill x.held (bprev + old) (fs.numfrags nsize - old) true }

/-- What is given back is no longer held, whether or not the group could be read. -/
def Sys.free (fs : Fs) (x : Sys) (bno size : Nat) : Sys :=
  match Ufs.free fs x.state bno size with
  | .error e => { x with panic := some e }
  | .ok s => { x with state := s, held := fill x.held bno (fs.numfrags size) false }

def step (fs : Fs) (x : Sys) : Action → Option Sys
  | .alloc g bpref size => some (x.alloc fs g bpref size)
  | .extend bprev osize nsize => some (x.extend fs bprev osize nsize)
  | .free bno size => some (x.free fs bno size)

/-- A size of one fragment up to a block. -/
def SizeOk (fs : Fs) (size : Nat) : Prop := 0 < size ∧ size ≤ fs.bsize ∧ fs.fragoff size = 0

/-- Only what is held is extended or freed, a part of one block at a time. -/
def Legal (fs : Fs) (x : Sys) : Action → Prop
  | .alloc g _ size => g < fs.ncg ∧ SizeOk fs size
  | .extend bprev osize nsize => SizeOk fs osize ∧ SizeOk fs nsize ∧ osize < nsize ∧
      fs.fragnum bprev + fs.numfrags osize ≤ fs.frag ∧ ∀ k < fs.numfrags osize, x.held (bprev + k) = true
  | .free bno size => SizeOk fs size ∧ fs.fragnum bno + fs.numfrags size ≤ fs.frag ∧
      ∀ k < fs.numfrags size, x.held (bno + k) = true

/-- The file systems that the runs from a sound one come to. -/
abbrev Reach (fs : Fs) : Sys → Prop :=
  Machine.Reach (fun x => Sound fs x.state x.held ∧ x.panic = none) (step fs) (Legal fs)

section Sound

variable {fs : Fs} {s s' : State} {held : Nat → Bool} {g i n : Nat} {b : Bool}

theorem SizeOk.frags {size : Nat} (h : SizeOk fs size) :
    ∃ n, size = n * fs.fsize ∧ 0 < n ∧ n ≤ fs.frag := by
  obtain ⟨hpos, hle, hoff⟩ := h
  obtain ⟨n, rfl⟩ := Nat.dvd_of_mod_eq_zero hoff
  rw [Nat.mul_comm] at hpos hle ⊢
  exact ⟨n, rfl, Nat.pos_of_mul_pos_right hpos, Nat.le_of_mul_le_mul_right hle fs.fsize_pos⟩

theorem Fs.place (fs : Fs) (d : Nat) : fs.dtog d * fs.fpg + fs.dtogd d = d := by
  rw [Fs.dtog, Fs.dtogd, Nat.mul_comm, Nat.div_add_mod]

theorem Fs.dtog_lt (fs : Fs) {d : Nat} (hd : d < fs.size) : fs.dtog d < fs.ncg :=
  (Nat.div_lt_iff_lt_mul fs.fpg_pos).mpr (Nat.lt_of_lt_of_le hd fs.size_le)

theorem Fs.part_le (fs : Fs) (hi : i < fs.fpg) (hb : i % fs.frag + n ≤ fs.frag) : i + n ≤ fs.fpg := by
  have hblk : i / fs.frag < fs.nblk := (Nat.div_lt_iff_lt_mul fs.frag_ok.pos).mpr (fs.fpg_eq ▸ hi)
  have hend := Nat.mul_le_mul_right fs.frag (Nat.succ_le_of_lt hblk)
  rw [Nat.succ_mul, ← fs.fpg_eq] at hend
  have := Nat.div_add_mod i fs.frag
  rw [Nat.mul_comm] at this
  omega

theorem Fs.group_ne (fs : Fs) {g g' j : Nat} (hne : g' ≠ g) (hin : i + n ≤ fs.fpg) (hj : j < fs.fpg) :
    g' * fs.fpg + j < g * fs.fpg + i ∨ g * fs.fpg + i + n ≤ g' * fs.fpg + j := by
  rcases Nat.lt_or_gt_of_ne hne with hlt | hgt
  · have := Nat.mul_le_mul_right fs.fpg (Nat.succ_le_of_lt hlt)
    rw [Nat.succ_mul] at this
    omega
  · have := Nat.mul_le_mul_right fs.fpg (Nat.succ_le_of_lt hgt)
    rw [Nat.succ_mul] at this
    omega

theorem Sound.moved (hs : Sound fs s held) (hg : g < fs.ncg) (hin : i + n ≤ fs.fpg) (h : Moved fs s s' g i n b)
    (hroom : ∀ k < n, g * fs.fpg + i + k < fs.size ∧ g * fs.fpg + i + k ≠ 0) :
    Sound fs s' (fill held (g * fs.fpg + i) n !b) := by
  obtain ⟨d, hd⟩ := h.changed
  have hinside : ∀ j, g * fs.fpg + i ≤ j → j < g * fs.fpg + i + n → j < fs.size ∧ j ≠ 0 := fun j hj hlt => by
    have := hroom (j - (g * fs.fpg + i)) (by omega)
    rwa [Nat.add_sub_cancel' hj] at this
  refine ⟨fun g' hg' => ?_, hs.summed.changed hg hd, fun g' hg' j hj hheld => ?_, fun d' hheld => ?_,
    fun g' hg' j hset => ?_, ?_⟩
  · by_cases hne : g' = g
    · exact hne ▸ h.counted
    · rw [hd.others g' hne]
      exact hs.counted g' hg'
  · by_cases hne : g' = g
    · subst hne
      rw [h.map]
      by_cases hp : i ≤ j ∧ j < i + n
      · rw [fill_inside (by omega) (by omega)] at hheld
        rw [fill_inside hp.1 hp.2]
        cases b
        · rfl
        · cases hheld
      · rw [fill_outside (by omega)] at hheld
        rw [fill_outside (by omega)]
        exact hs.clear g' hg' j hj hheld
    · rw [fill_outside (fs.group_ne hne hin hj)] at hheld
      rw [hd.others g' hne]
      exact hs.clear g' hg' j hj hheld
  · unfold fill at hheld
    split at hheld
    next hp => exact (hinside d' hp.1 hp.2).1
    next => exact hs.room d' hheld
  · by_cases hne : g' = g
    · subst hne
      rw [h.map] at hset
      unfold fill at hset
      split at hset
      next hp => exact (hinside _ (by omega) (by omega)).1
      next => exact hs.within g' hg' j hset
    · rw [hd.others g' hne] at hset
      exact hs.within g' hg' j hset
  · have hout : 0 < g * fs.fpg + i ∨ g * fs.fpg + i + n ≤ 0 := by
      by_contra hno
      exact (hinside 0 (by omega) (by omega)).2 rfl
    refine ⟨?_, by rw [fill_outside hout, hs.first.2]⟩
    by_cases hne : 0 = g
    · subst hne
      rw [h.map, fill_outside (by omega), hs.first.1]
    · rw [hd.others 0 hne, hs.first.1]

theorem Sound.bread (hs : Sound fs s held) : Sound fs s.bread.2 held :=
  ⟨hs.counted, ⟨hs.summed.own, hs.summed.nbfree, hs.summed.nffree⟩, hs.clear, hs.room,
    hs.within, hs.first⟩

theorem Sound.forget (hs : Sound fs s held) (d n : Nat) : Sound fs s (fill held d n false) := by
  have hless : ∀ j, fill held d n false j = true → held j = true := fun j h => by
    unfold fill at h
    split at h
    · cases h
    · exact h
  refine ⟨hs.counted, hs.summed, fun g hg i hi h => hs.clear g hg i hi (hless _ h), fun d' h => hs.room d' (hless _ h),
    hs.within, hs.first.1, ?_⟩
  by_contra h
  have := hless 0 ((Bool.not_eq_false _).mp h)
  rw [hs.first.2] at this
  cases this

theorem Sound.taken (hs : Sound fs s held) (hg : g < fs.ncg) (hin : i + n ≤ fs.fpg) (h : Moved fs s s' g i n false)
    {k : Nat} (hk : k < n) : (g * fs.fpg + i + k < fs.size ∧ g * fs.fpg + i + k ≠ 0) ∧
      held (g * fs.fpg + i + k) = false := by
  have hset := h.before k hk
  refine ⟨⟨?_, fun h0 => ?_⟩, ?_⟩
  · have := hs.within g hg (i + k) hset
    omega
  · obtain rfl : g = 0 := by
      by_contra hne
      have := Nat.mul_pos (Nat.pos_of_ne_zero hne) fs.fpg_pos
      omega
    rw [show i + k = 0 by omega, hs.first.1] at hset
    cases hset
  · rw [Nat.add_assoc]
    by_contra hheld
    rw [hs.clear g hg (i + k) (by omega) ((Bool.not_eq_false _).mp hheld)] at hset
    cases hset

end Sound

theorem Moved.in_group {fs : Fs} {s s' : State} {g i n : Nat} (h : Moved fs s s' g i n false)
    (hc : Counted fs (s.cg g)) (hn : 0 < n) : i + n ≤ fs.fpg := by
  have hi : i < fs.fpg := by
    by_contra hge
    have := h.before 0 hn
    rw [Nat.add_zero, hc.inside i (Nat.not_lt.mp hge)] at this
    cases this
  exact fs.part_le hi h.block

section Runs

variable {fs : Fs} {x y : Sys}

theorem Sys.alloc_sound {g bpref size : Nat} (hl : fs.LaidOut) (hs : Sound fs x.state x.held) (hp : x.panic = none)
    (hg : g < fs.ncg) (hsize : SizeOk fs size) :
    Sound fs (x.alloc fs g bpref size).state (x.alloc fs g bpref size).held ∧ (x.alloc fs g bpref size).panic = none := by
  obtain ⟨n, rfl, hn, hle⟩ := hsize.frags
  unfold Sys.alloc
  rcases alloccg_moved hl (hs.counted g hg) (hs.summed.own g hg) hn hle bpref with
    ⟨s', halloc, hsame, -⟩ | ⟨s', i, halloc, hmoved, -⟩
  · rw [halloc]
    refine ⟨?_, hp⟩
    rcases hsame with rfl | rfl
    · exact hs
    · exact hs.bread
  · have hin := hmoved.in_group (hs.counted g hg) hn
    have hne : g * fs.fpg + i ≠ 0 := (hs.taken hg hin hmoved hn).1.2
    rw [halloc]
    dsimp only
    rw [if_neg hne, fs.numfrags_mul]
    exact ⟨hs.moved hg hin hmoved fun k hk => (hs.taken hg hin hmoved hk).1, hp⟩

theorem Sys.extend_sound {bprev osize nsize : Nat} (hs : Sound fs x.state x.held) (hp : x.panic = none)
    (ha : Legal fs x (.extend bprev osize nsize)) :
    Sound fs (x.extend fs bprev osize nsize).state (x.extend fs bprev osize nsize).held ∧
      (x.extend fs bprev osize nsize).panic = none := by
  obtain ⟨hosize, hnsize, hlt, hblock, hheld⟩ := ha
  obtain ⟨old, rfl, hold, -⟩ := hosize.frags
  obtain ⟨n, rfl, hn, hle⟩ := hnsize.frags
  rw [fs.numfrags_mul] at hblock hheld
  have hlt : old < n := Nat.lt_of_mul_lt_mul_right hlt
  have hg := fs.dtog_lt (hs.room bprev (hheld 0 hold))
  have hbprev : bprev ≠ 0 := fun h0 => by
    have := hheld 0 hold
    rw [h0, hs.first.2] at this
    cases this
  have hpart := fs.part_le (fs.dtogd_lt bprev) ((fs.dtogd_block bprev).2.1 ▸ hblock)
  have hclear := hs.clear _ hg (fs.dtogd bprev + (old - 1)) (by omega)
    (by rw [← Nat.add_assoc, fs.place]; exact hheld _ (by omega))
  unfold Sys.extend
  rcases fragextend_moved (hs.counted _ hg) hold hlt hle hclear with (hext | hext) | ⟨s', hext, hmoved⟩
  · rw [hext]
    exact ⟨hs, hp⟩
  · rw [hext]
    exact ⟨hs.bread, hp⟩
  · have hin := hmoved.in_group (hs.counted _ hg) (by omega)
    have := hs.moved hg hin hmoved fun k hk => (hs.taken hg hin hmoved hk).1
    rw [← Nat.add_assoc, fs.place] at this
    rw [hext]
    dsimp only
    rw [if_neg hbprev, fs.numfrags_mul, fs.numfrags_mul]
    exact ⟨this, hp⟩

theorem Sys.free_sound {bno size : Nat} (hs : Sound fs x.state x.held) (hp : x.panic = none)
    (ha : Legal fs x (.free bno size)) :
    Sound fs (x.free fs bno size).state (x.free fs bno size).held ∧ (x.free fs bno size).panic = none := by
  obtain ⟨hsize, hblock, hheld⟩ := ha
  obtain ⟨n, rfl, hn, hle⟩ := hsize.frags
  rw [fs.numfrags_mul] at hblock hheld
  have hroom := hs.room bno (hheld 0 hn)
  have hg := fs.dtog_lt hroom
  have hpart := fs.part_le (fs.dtogd_lt bno) ((fs.dtogd_block bno).2.1 ▸ hblock)
  have hclear : ∀ k < n, (x.state.cg (fs.dtog bno)).free.isset (fs.dtogd bno + k) = false := fun k hk => by
    refine hs.clear _ hg _ (by omega) ?_
    rw [← Nat.add_assoc, fs.place]
    exact hheld k hk
  unfold Sys.free
  rcases free_moved (hs.counted _ hg) hn hblock hroom hclear with hfree | ⟨s', hfree, hmoved⟩
  · rw [hfree]
    exact ⟨hs.bread.forget _ _, hp⟩
  · have := hs.moved hg hpart hmoved fun k hk => by
      rw [fs.place]
      refine ⟨hs.room _ (hheld k hk), fun h0 => ?_⟩
      have := hheld k hk
      rw [h0, hs.first.2] at this
      cases this
    rw [fs.place] at this
    rw [hfree]
    dsimp only
    rw [fs.numfrags_mul]
    exact ⟨this, hp⟩

theorem step_sound {a : Action} (hl : fs.LaidOut) (hx : Sound fs x.state x.held ∧ x.panic = none)
    (ha : Legal fs x a) (h : step fs x a = some y) : Sound fs y.state y.held ∧ y.panic = none := by
  cases a with
  | alloc g bpref size =>
    cases Option.some.inj h
    exact Sys.alloc_sound hl hx.1 hx.2 ha.1 ha.2
  | extend bprev osize nsize =>
    cases Option.some.inj h
    exact Sys.extend_sound hx.1 hx.2 ha
  | free bno size =>
    cases Option.some.inj h
    exact Sys.free_sound hx.1 hx.2 ha

theorem reach_sound (hl : fs.LaidOut) (h : Reach fs x) : Sound fs x.state x.held ∧ x.panic = none :=
  h.invariant (p := fun x => Sound fs x.state x.held ∧ x.panic = none) (fun _ hi => hi)
    fun _ _ _ hx ha hs => step_sound hl hx ha hs

/-- In every run of the allocator in which only what is held is extended or freed, the summaries of the groups and of
the superblock are those of the maps, nothing that is held is free, and no panic happens. -/
theorem cylinderGroups_accounted (hl : fs.LaidOut) (h : Reach fs x) :
    (∀ g < fs.ncg, Counted fs (x.state.cg g)) ∧ Summed fs x.state ∧
      (∀ d, x.held d = true → d < fs.size ∧ (x.state.cg (fs.dtog d)).free.isset (fs.dtogd d) = false) ∧
      x.panic = none := by
  obtain ⟨hs, hp⟩ := reach_sound hl h
  refine ⟨hs.counted, hs.summed, fun d hd => ⟨hs.room d hd, ?_⟩, hp⟩
  exact hs.clear _ (fs.dtog_lt (hs.room d hd)) _ (fs.dtogd_lt d) (by rw [fs.place]; exact hd)

/-- Space is found just when the group can be read and has room, and what is handed out was free, in one block of the
file system and held by nobody. -/
theorem alloccg_exact {g n : Nat} (hl : fs.LaidOut) (h : Reach fs x) (hg : g < fs.ncg) (hn : 0 < n) (hle : n ≤ fs.frag)
    (bpref : Nat) :
    ∃ s' d, alloccg fs x.state g bpref (n * fs.fsize) = .ok (s', d) ∧
      (d ≠ 0 → x.state.reads x.state.nreads = true ∧ Room fs (x.state.cg g) n) ∧
      (x.state.reads x.state.nreads = true → Room fs (x.state.cg g) n → d ≠ 0) ∧
      (d ≠ 0 → fs.dtog d = g ∧ fs.fragnum d + n ≤ fs.frag ∧ ∀ k < n, d + k < fs.size ∧ x.held (d + k) = false ∧
        (x.state.cg g).free.isset (fs.dtogd d + k) = true ∧ (s'.cg g).free.isset (fs.dtogd d + k) = false) := by
  obtain ⟨hs, -⟩ := reach_sound hl h
  rcases alloccg_moved hl (hs.counted g hg) (hs.summed.own g hg) hn hle bpref with
    ⟨s', halloc, -, hroom⟩ | ⟨s', i, halloc, hmoved, hroom⟩
  · exact ⟨s', 0, halloc, fun h0 => absurd rfl h0, fun hr hroom' => absurd hroom' (hroom hr), fun h0 => absurd rfl h0⟩
  · have hin := hmoved.in_group (hs.counted g hg) hn
    have hi : i < fs.fpg := by omega
    have hdtogd : fs.dtogd (g * fs.fpg + i) = i := by
      rw [Fs.dtogd, Nat.mul_comm g, Nat.mul_add_mod, Nat.mod_eq_of_lt hi]
    have hfragnum : fs.fragnum (g * fs.fpg + i) = i % fs.frag := by
      rw [← (fs.dtogd_block _).2.1, hdtogd]
      rfl
    refine ⟨s', _, halloc, fun _ => hroom, fun _ _ => (hs.taken hg hin hmoved hn).1.2, fun _ => ⟨?_, ?_, ?_⟩⟩
    · rw [Fs.dtog, Nat.mul_comm g, Nat.mul_add_div fs.fpg_pos, Nat.div_eq_of_lt hi, Nat.add_zero]
    · rw [hfragnum]
      exact hmoved.block
    · intro k hk
      obtain ⟨⟨hsize, -⟩, hheld⟩ := hs.taken hg hin hmoved hk
      rw [hdtogd]
      refine ⟨hsize, hheld, hmoved.before k hk, ?_⟩
      rw [hmoved.map, fill_inside (by omega) (by omega)]

theorem mapsearch_none {c : Cg} {siz : Nat} (hs : 0 < siz) (hle : siz ≤ fs.frag)
    (hno : ¬∃ h pos, IsRun (bits fs.frag c.free h) pos siz) (bpref : Nat) :
    mapsearch fs c bpref siz = .error .mapCorrupted := by
  have hzero : ∀ start n, scanc (hasFrag fs.frag siz) c.free start n = 0 := fun start n => by
    by_contra hne
    obtain ⟨q, -, pos, -, hr⟩ := (hasFrag_block hs hle c.free _).mp (scanc_found hne).2.2
    exact hno ⟨_, pos, hr⟩
  have hbyte : mapsearchByte fs c bpref siz = none := by
    unfold mapsearchByte
    dsimp only
    rw [hzero, hzero]
    rfl
  unfold mapsearch
  rw [hbyte]

/-- The search of the map finds a run of exactly the size just when a block of the group has one, whatever the rotor and
the preference are. -/
theorem mapsearch_exact {g siz : Nat} (hl : fs.LaidOut) (h : Reach fs x) (hg : g < fs.ncg) (hs : 0 < siz)
    (hle : siz ≤ fs.frag) (bpref : Nat) :
    ((∃ h pos, IsRun (bits fs.frag (x.state.cg g).free h) pos siz) →
      ∃ frotor h pos, mapsearch fs (x.state.cg g) bpref siz = .ok ({ x.state.cg g with frotor }, h * fs.frag + pos) ∧
        h < fs.nblk ∧ pos + siz ≤ fs.frag ∧ IsRun (bits fs.frag (x.state.cg g).free h) pos siz) ∧
    ((¬∃ h pos, IsRun (bits fs.frag (x.state.cg g).free h) pos siz) →
      mapsearch fs (x.state.cg g) bpref siz = .error .mapCorrupted) := by
  refine ⟨fun hany => ?_, fun hno => mapsearch_none hs hle hno bpref⟩
  obtain ⟨h', pos, hr⟩ := hany
  obtain ⟨frotor, h'', pos', hsearch, -, hh, hend, hr'⟩ :=
    mapsearch_some ((reach_sound hl h).1.counted g hg) bpref hs hle hr
  exact ⟨frotor, h'', pos', hsearch, hh, hend, hr'⟩

end Runs

section Overflow

theorem mem_bruteForce {ncg n cg k : Nat} (hcg : cg < ncg) (hk : k < n) : (cg + k) % ncg ∈ bruteForce ncg n cg := by
  induction n generalizing cg k with
  | zero => omega
  | succ n ih =>
    cases k with
    | zero =>
      rw [show (cg + 0) % ncg = cg from Nat.mod_eq_of_lt hcg]
      exact List.mem_cons_self
    | succ k =>
      refine List.mem_cons_of_mem _ ?_
      split
      next hend =>
        have hmem := @ih 0 k (by omega) (by omega)
        rwa [Nat.zero_add, ← Nat.add_mod_right, show k + ncg = cg + (k + 1) by omega] at hmem
      next hend =>
        have hmem := @ih (cg + 1) k (by omega) (by omega)
        rwa [show cg + 1 + k = cg + (k + 1) by omega] at hmem

theorem bruteForce_lt {ncg n cg : Nat} (hcg : cg < ncg) : ∀ g ∈ bruteForce ncg n cg, g < ncg := by
  induction n generalizing cg with
  | zero => exact fun g hg => absurd hg List.not_mem_nil
  | succ n ih =>
    intro g hg
    rcases List.mem_cons.mp hg with rfl | hg
    · exact hcg
    · split at hg
      · exact ih (by omega) g hg
      · exact ih (by omega) g hg

theorem rehash_lt {ncg n i cg : Nat} (hcg : cg < ncg) : ∀ g ∈ rehash ncg n i cg, g < ncg := by
  induction n generalizing i cg with
  | zero => exact fun g hg => absurd hg List.not_mem_nil
  | succ n ih =>
    intro g hg
    unfold rehash at hg
    split at hg
    · exact absurd hg List.not_mem_nil
    · have hnext : (if ncg ≤ cg + i then cg + i - ncg else cg + i) < ncg := by
        split <;> omega
      rcases List.mem_cons.mp hg with rfl | hg
      · exact hnext
      · exact ih hnext g hg

theorem mem_overflow {ncg icg g : Nat} (hicg : icg < ncg) (hg : g < ncg) : g = icg ∨ g ∈ overflow ncg icg := by
  have hdist : ∃ k < ncg, g = (icg + k) % ncg := by
    rcases Nat.lt_or_ge g icg with hlt | hge
    · exact ⟨g + ncg - icg, by omega, by rw [Nat.add_sub_cancel' (by omega), Nat.add_mod_right, Nat.mod_eq_of_lt hg]⟩
    · exact ⟨g - icg, by omega, by rw [Nat.add_sub_cancel' hge, Nat.mod_eq_of_lt hg]⟩
  obtain ⟨k, hk, rfl⟩ := hdist
  unfold overflow
  rcases k with _ | _ | k
  · exact .inl (Nat.mod_eq_of_lt hicg)
  · refine .inr (List.mem_append_left _ ?_)
    obtain ⟨n, rfl⟩ := Nat.exists_eq_add_of_le' (show 1 ≤ ncg by omega)
    rw [rehash, if_neg (by omega)]
    dsimp only
    split
    next hend => rw [show icg + 1 = n + 1 by omega, Nat.mod_self, Nat.sub_self]; exact List.mem_cons_self
    next hend => rw [Nat.mod_eq_of_lt (by omega)]; exact List.mem_cons_self
  · refine .inr (List.mem_append_right _ ?_)
    have hmem := @mem_bruteForce ncg (ncg - 2) _ k (Nat.mod_lt (icg + 2) (by omega)) (by omega)
    rwa [Nat.mod_add_mod, show icg + 2 + k = icg + (k + 2) by omega] at hmem

theorem overflow_lt {ncg icg : Nat} (hicg : icg < ncg) : ∀ g ∈ overflow ncg icg, g < ncg := by
  intro g hg
  rcases List.mem_append.mp hg with hg | hg
  · exact rehash_lt hicg g hg
  · exact bruteForce_lt (Nat.mod_lt _ (by omega)) g hg

variable {fs : Fs} {held : Nat → Bool} {n : Nat}

theorem alloccg_asks {s : State} {g : Nat} (hl : fs.LaidOut) (hs : Sound fs s held) (hr : ∀ k, s.reads k = true)
    (hg : g < fs.ncg) (hn : 0 < n) (hle : n ≤ fs.frag) (bpref : Nat) :
    ∃ s' d, alloccg fs s g bpref (n * fs.fsize) = .ok (s', d) ∧ (d ≠ 0 ↔ Room fs (s.cg g) n) ∧
      (d = 0 → Sound fs s' held ∧ (∀ k, s'.reads k = true) ∧ s'.cg = s.cg) := by
  rcases alloccg_moved hl (hs.counted g hg) (hs.summed.own g hg) hn hle bpref with
    ⟨s', halloc, hsame, hroom⟩ | ⟨s', i, halloc, hmoved, hroom⟩
  · refine ⟨s', 0, halloc, ⟨fun h0 => absurd rfl h0, fun h => absurd h (hroom (hr _))⟩, fun _ => ?_⟩
    rcases hsame with rfl | rfl
    · exact ⟨hs, hr, rfl⟩
    · exact ⟨hs.bread, hr, rfl⟩
  · have hne := (hs.taken hg (hmoved.in_group (hs.counted g hg) hn) hmoved hn).1.2
    exact ⟨s', _, halloc, ⟨fun _ => hroom.2, fun _ => hne⟩, fun h0 => absurd h0 hne⟩

theorem tryEach_asks {s : State} (hl : fs.LaidOut) (hs : Sound fs s held) (hr : ∀ k, s.reads k = true) (hn : 0 < n)
    (hle : n ≤ fs.frag) {gs : List Nat} (hgs : ∀ g ∈ gs, g < fs.ncg) :
    ∃ s' d, tryEach (fun s g bpref => alloccg fs s g bpref (n * fs.fsize)) s gs = .ok (s', d) ∧
      (d ≠ 0 ↔ ∃ g ∈ gs, Room fs (s.cg g) n) := by
  induction gs generalizing s with
  | nil => exact ⟨s, 0, rfl, ⟨fun h0 => absurd rfl h0, by rintro ⟨g, hg, _⟩; exact absurd hg List.not_mem_nil⟩⟩
  | cons g gs ih =>
    obtain ⟨s', d, halloc, hroom, hrest⟩ := alloccg_asks hl hs hr (hgs g List.mem_cons_self) hn hle 0
    unfold tryEach
    rw [halloc]
    dsimp only
    split
    next hd => exact ⟨s', d, rfl, ⟨fun _ => ⟨g, List.mem_cons_self, hroom.mp hd⟩, fun _ => hd⟩⟩
    next hd =>
      have hno : ¬Room fs (s.cg g) n := fun h => hd (hroom.mpr h)
      obtain ⟨hs', hr', hcg⟩ := hrest (Decidable.not_not.mp hd)
      obtain ⟨s'', d', htry, hroom'⟩ := ih hs' hr' fun g hg => hgs g (List.mem_cons_of_mem _ hg)
      refine ⟨s'', d', htry, hroom'.trans ?_⟩
      rw [hcg, List.exists_mem_cons_iff]
      exact (or_iff_right hno).symm

/-- Where the groups can be read, space is found from any preferred group just when a group of the file system has
room. -/
theorem hashalloc_finds {x : Sys} {cg : Nat} (hl : fs.LaidOut) (h : Reach fs x) (hr : ∀ k, x.state.reads k = true)
    (hcg : cg < fs.ncg) (hn : 0 < n) (hle : n ≤ fs.frag) (pref : Nat) :
    ∃ s d, hashalloc fs.ncg (fun s g bpref => alloccg fs s g bpref (n * fs.fsize)) x.state cg pref = .ok (s, d) ∧
      (d ≠ 0 ↔ ∃ g < fs.ncg, Room fs (x.state.cg g) n) := by
  obtain ⟨hs, -⟩ := reach_sound hl h
  obtain ⟨s', d, halloc, hroom, hrest⟩ := alloccg_asks hl hs hr hcg hn hle pref
  unfold hashalloc
  beta_reduce
  rw [halloc]
  dsimp only
  split
  next hd => exact ⟨s', d, rfl, ⟨fun _ => ⟨cg, hcg, hroom.mp hd⟩, fun _ => hd⟩⟩
  next hd =>
    have hno : ¬Room fs (x.state.cg cg) n := fun h => hd (hroom.mpr h)
    obtain ⟨hs', hr', hsame⟩ := hrest (Decidable.not_not.mp hd)
    obtain ⟨s'', d', htry, hroom'⟩ := tryEach_asks hl hs' hr' hn hle (overflow_lt hcg)
    refine ⟨s'', d', htry, hroom'.trans ?_⟩
    rw [hsame]
    constructor
    · rintro ⟨g, hg, hroom⟩
      exact ⟨g, overflow_lt hcg g hg, hroom⟩
    · rintro ⟨g, hg, hroom⟩
      exact ⟨g, (mem_overflow hcg hg).resolve_left fun he => hno (he ▸ hroom), hroom⟩

end Overflow

section Small

/-- A file system of two blocks, the first of which is not for data. -/
def smallFs : Fs where
  size := 16
  ncg := 1
  fsize := 1024
  frag := 8
  spc := 1000
  nsect := 10
  nspf := 2
  fpg := 16
  cpc := 1
  maxbpc := 0
  postbl _ rpos := if rpos = 0 then 0 else 1
  rotbl _ := 0
  frag_ok := .inr (.inr (.inr rfl))
  ncg_pos := by decide
  fsize_pos := by decide
  fpg_pos := by decide
  frag_dvd := ⟨2, rfl⟩
  size_le := by decide
  nsect_pos := by decide

def smallCg : Cg where
  cs := ⟨1, 0⟩
  rotor := 0
  frotor := 0
  frsum _ := 0
  btot cyl := if 0 = cyl then 1 else 0
  b cyl rpos := if 0 = cyl ∧ 4 = rpos then 1 else 0
  free k := if k = 1 then 0xff else 0

def smallSys : Sys := ⟨⟨⟨1, 0⟩, fun _ => ⟨1, 0⟩, fun _ => smallCg, fun _ => true, 0⟩, fun _ => false, none⟩

theorem smallFs_laidOut : smallFs.LaidOut := by
  intro _ h hh
  obtain rfl | rfl : h = 0 ∨ h = 1 := Nat.le_one_iff_eq_zero_or_eq_one.mp (Nat.le_of_lt_succ hh)
  · decide
  · decide

theorem smallCg_inside (i : Nat) (hi : 16 ≤ i) : smallCg.free.isset i = false := by
  have hne : i / nbby ≠ 1 := by
    unfold nbby
    omega
  change (if i / nbby = 1 then 0xff#8 else 0#8).getLsbD (i % nbby) = false
  rw [if_neg hne]
  exact BitVec.getLsbD_zero

theorem smallCg_stat (w : (Nat → Bool) → Nat → Nat) :
    stat smallFs smallCg.free w = w (bits 8 smallCg.free 0) 0 + w (bits 8 smallCg.free 1) 1 := by
  change ∑ h ∈ range 2, w (bits 8 smallCg.free h) h = _
  rw [sum_range_succ, sum_range_one]

theorem smallCg_whole : whole 8 (bits 8 smallCg.free 0) = false ∧ whole 8 (bits 8 smallCg.free 1) = true := by decide

theorem smallCg_counted : Counted smallFs smallCg where
  nbfree := by rw [smallCg_stat]; decide
  nffree := by rw [smallCg_stat]; decide
  frsum j hj hlt := by
    have hall : ∀ j < 8, 0 < j → runs 8 (bits 8 smallCg.free 0) j + runs 8 (bits 8 smallCg.free 1) j = 0 := by decide
    rw [smallCg_stat]
    exact (congrArg Int.ofNat (hall j hlt hj)).symm
  btot cyl := by
    rw [smallCg_stat]
    change (if 0 = cyl then 1 else 0 : Int) = ((if 0 = cyl then (whole 8 _).toNat else 0) +
      if 0 = cyl then (whole 8 _).toNat else 0 : Nat)
    rw [smallCg_whole.1, smallCg_whole.2]
    split <;> rfl
  b cyl rpos := by
    rw [smallCg_stat]
    change (if 0 = cyl ∧ 4 = rpos then 1 else 0 : Int) = ((if 0 = cyl ∧ 0 = rpos then (whole 8 _).toNat else 0) +
      if 0 = cyl ∧ 4 = rpos then (whole 8 _).toNat else 0 : Nat)
    rw [smallCg_whole.1, smallCg_whole.2, Bool.toNat_false, ite_self, Nat.zero_add]
    split <;> rfl
  inside := smallCg_inside
  frotor := by decide

theorem smallSys_sound : Sound smallFs smallSys.state smallSys.held where
  counted _ _ := smallCg_counted
  summed := ⟨fun _ _ => rfl, (sum_range_one fun g => (smallSys.state.cs g).nbfree).symm,
    (sum_range_one fun g => (smallSys.state.cs g).nffree).symm⟩
  clear _ _ _ _ h := by cases h
  room _ h := by cases h
  within g hg i h := by
    obtain rfl : g = 0 := Nat.lt_one_iff.mp hg
    by_contra hi
    have hi : 16 ≤ i := by
      rw [Nat.zero_mul, Nat.zero_add] at hi
      exact Nat.not_lt.mp hi
    exact absurd ((smallCg_inside i hi).symm.trans h) (by decide)
  first := ⟨by decide, rfl⟩

/-- Two fragments are allocated, and a third is added to them. -/
def smallRun : Sys := (smallSys.alloc smallFs 0 0 2048).extend smallFs 8 2048 3072

theorem smallRun_reach : Reach smallFs smallRun := by
  have hsize : ∀ n, 0 < n → n ≤ 8 → SizeOk smallFs (n * 1024) := fun n hn hle =>
    ⟨Nat.mul_pos hn (by decide), Nat.mul_le_mul_right 1024 hle, Nat.mul_mod_left n 1024⟩
  have hstart : Reach smallFs smallSys := .start ⟨smallSys_sound, rfl⟩
  have halloc : Reach smallFs (smallSys.alloc smallFs 0 0 2048) :=
    hstart.next (a := .alloc 0 0 2048) ⟨by decide, hsize 2 (by decide) (by decide)⟩ rfl
  exact halloc.next (a := .extend 8 2048 3072)
    ⟨hsize 2 (by decide) (by decide), hsize 3 (by decide) (by decide), by decide, by decide, by decide⟩ rfl

theorem smallRun_accounted : smallRun.held 10 = true ∧ smallRun.state.cstotal.nffree = 5 ∧ Summed smallFs smallRun.state ∧
    smallRun.panic = none := by
  obtain ⟨-, hsum, -, hp⟩ := cylinderGroups_accounted smallFs_laidOut smallRun_reach
  exact ⟨by decide, by decide, hsum, hp⟩

theorem smallRun_alloccg : ∃ s' d, alloccg smallFs smallRun.state 0 0 (3 * smallFs.fsize) = .ok (s', d) ∧
    (d ≠ 0 → ∀ k < 3, smallRun.held (d + k) = false) := by
  obtain ⟨s', d, halloc, -, -, hd⟩ :=
    alloccg_exact smallFs_laidOut smallRun_reach (g := 0) (n := 3) (by decide) (by decide) (by decide) 0
  exact ⟨s', d, halloc, fun h0 k hk => ((hd h0).2.2 k hk).2.1⟩

theorem smallRun_mapsearch : ∃ frotor h pos,
    mapsearch smallFs (smallRun.state.cg 0) 8 5 = .ok ({ smallRun.state.cg 0 with frotor }, h * 8 + pos) ∧
      h < 2 ∧ pos + 5 ≤ 8 ∧ IsRun (bits 8 (smallRun.state.cg 0).free h) pos 5 :=
  (@mapsearch_exact _ _ 0 5 smallFs_laidOut smallRun_reach (by decide) (by decide) (by decide) 8).1 ⟨1, 3, by decide⟩

theorem smallRun_hashalloc : ∃ s d, hashalloc smallFs.ncg
    (fun s g bpref => alloccg smallFs s g bpref (8 * smallFs.fsize)) smallRun.state 0 0 = .ok (s, d) ∧
      (d ≠ 0 ↔ ∃ g < smallFs.ncg, Room smallFs (smallRun.state.cg g) 8) :=
  hashalloc_finds smallFs_laidOut smallRun_reach (fun _ => rfl) (by decide) (by decide) (by decide) 0

end Small

end MachVM.Ufs
