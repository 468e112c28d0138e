import MachVM.Clist

namespace MachVM.Tty

variable {arena : Nat → Prop} {s r : Clists} {cs : ListId → List Chunk} {free free' : List Nat}
  {own own' : Nat → Option ListId} {D : ListId → List Byte} {p : ListId} {l : Clist} {c d : Chunk} {ks rest : List Chunk}
  {bs ws : List Byte} {a b : Nat} {n m : Nat}

/-- The clists hold the byte sequences `D` in blocks of the arena, and the rest of the arena is free. -/
def Rep (arena : Nat → Prop) (s : Clists) (D : ListId → List Byte) : Prop :=
  ∃ cs free own, Inv arena s cs free own D

namespace Clists

/-- How `getc` and `q_to_b` go on by `n` characters of one block. -/
def advance (s : Clists) (p : ListId) (n : Nat) : Clists :=
  let l := s.q p
  if l.cc - n ≤ 0 then (s.setList p ⟨l.cc - n, 0, 0⟩).freeBlock (base (l.cf + n - 1))
  else if low (l.cf + n) = 0 then
    (s.setList p ⟨l.cc - n, info (s.next (l.cf + n - cblock)), l.cl⟩).freeBlock (l.cf + n - cblock)
  else s.setList p ⟨l.cc - n, l.cf + n, l.cl⟩

theorem getc_eq : s.getc p =
    if (s.q p).cc ≤ 0 then (-1, s.setList p .null) else (((s.byte (s.q p).cf).toNat : Int), s.advance p 1) := by
  rw [getc, advance]
  dsimp only
  split
  next => rfl
  next =>
    simp only [Int.natCast_one]
    split
    next => rfl
    next => split <;> rfl

theorem qToBLoop_succ : qToBLoop p (n + 1) (m + 1) bs s =
    (let nc := min (min (cblock - low (s.q p).cf) (m + 1)) (s.q p).cc.toNat
    if (s.q p).cc - nc ≤ 0 then some (bs ++ s.load (s.q p).cf nc, s.advance p nc)
    else qToBLoop p n (m + 1 - nc) (bs ++ s.load (s.q p).cf nc) (s.advance p nc)) := by
  simp only [qToBLoop, advance]
  split
  next => rfl
  next => split <;> rfl

end Clists

section Chunks

theorem Holds.length_eq (h : Holds s l (c :: rest) bs) : bs.length = c.bytes.length + (rest.flatMap Chunk.bytes).length := by
  rw [← h.content, List.flatMap_cons, List.length_append]

theorem Holds.drop_first (h : Holds s l (c :: rest) bs) : bs.drop c.bytes.length = rest.flatMap Chunk.bytes := by
  rw [← h.content, List.flatMap_cons, List.drop_left]

theorem Holds.cf_eq (h : Holds s l (c :: rest) bs) : l.cf = c.block + 4 + c.off := h.cf

theorem Holds.load_first (h : Holds s l (c :: rest) bs) (hn : n ≤ c.bytes.length) : s.load l.cf n = bs.take n := by
  rw [h.cf, ← h.content, List.flatMap_cons, List.take_append_of_le_length hn]
  exact load_take (h.ok c List.mem_cons_self).bytes hn

theorem Holds.skip (h : Holds s l (c :: rest) bs) (hn : n < c.bytes.length) :
    Holds s ⟨l.cc - n, l.cf + n, l.cl⟩ (⟨c.block, c.off + n, c.bytes.drop n⟩ :: rest) (bs.drop n) := by
  have hc := h.ok c List.mem_cons_self
  have hlen : (c.bytes.drop n).length = c.bytes.length - n := List.length_drop
  refine ⟨fun d hd => ?_, ?_, ?_, ?_, ?_, ?_⟩
  · rcases List.mem_cons.mp hd with rfl | hd
    · have := hc.fits
      refine ⟨by rw [hlen]; omega, by dsimp only; omega, ?_⟩
      rw [hlen, Chunk.start, ← Nat.add_assoc]
      exact load_drop hc.bytes (Nat.le_of_lt hn)
    · exact h.ok d (List.mem_cons_of_mem _ hd)
  · have hl := h.links
    cases rest with
    | nil => exact List.isChain_singleton _
    | cons d rest =>
      obtain ⟨⟨hnext, hfull, hoff⟩, hl⟩ := List.isChain_cons_cons.mp hl
      refine List.isChain_cons_cons.mpr ⟨⟨hnext, ?_, hoff⟩, hl⟩
      dsimp only
      omega
  · rw [← h.content, List.flatMap_cons, List.flatMap_cons, List.drop_append_of_le_length (Nat.le_of_lt hn)]
  · rw [h.cc, List.length_drop]
    have := h.length_eq
    dsimp only
    omega
  · rw [h.cf]
    simp only [List.head?_cons, Option.map_some, Option.getD_some, Chunk.start]
    omega
  · rw [h.cl]
    cases rest with
    | nil =>
      simp only [List.getLast?_singleton, Option.map_some, Option.getD_some, Chunk.finish, Chunk.start, hlen]
      omega
    | cons d rest => simp only [List.getLast?_cons_cons]

theorem Holds.tail (h : Holds s l (c :: d :: rest) bs) :
    Holds s ⟨l.cc - c.bytes.length, info (s.next c.block), l.cl⟩ (d :: rest) (bs.drop c.bytes.length) := by
  obtain ⟨⟨hnext, hfull, hoff⟩, hl⟩ := List.isChain_cons_cons.mp h.links
  refine ⟨fun e he => h.ok e (List.mem_cons_of_mem _ he), hl, h.drop_first.symm, ?_, ?_, ?_⟩
  · rw [h.cc, List.length_drop]
    have := h.length_eq
    dsimp only
    omega
  · simp only [hnext, List.head?_cons, Option.map_some, Option.getD_some, Chunk.start, hoff, Nat.add_zero]
  · rw [h.cl, List.getLast?_cons_cons]

theorem Holds.null : Holds s .null [] [] :=
  ⟨fun _ h => absurd h List.not_mem_nil, List.isChain_nil, rfl, rfl, rfl, rfl⟩

theorem Inv.skip (h : Inv arena s cs free own D) (hc : cs p = c :: rest) (hn : n < c.bytes.length) :
    Inv arena (s.setList p ⟨(s.q p).cc - n, (s.q p).cf + n, (s.q p).cl⟩)
      (Function.update cs p (⟨c.block, c.off + n, c.bytes.drop n⟩ :: rest)) free own
      (Function.update D p ((D p).drop n)) := by
  have hh := h.holds p
  rw [hc] at hh
  refine h.rewrite rfl (fun _ _ => rfl) (fun _ _ _ _ _ _ => rfl) rfl rfl ((hh.skip hn).congr (fun _ _ => rfl)
    fun _ _ _ _ => rfl) ?_
  rw [hc]
  rfl

theorem putBlock_next (hb : b ≠ a) : (s.putBlock a).next b = s.next b := Function.update_of_ne hb _ _

theorem Inv.free_first (h : Inv arena s cs free own D) (hc : cs p = c :: ks)
    (hh : Holds s l ks ((D p).drop c.bytes.length)) :
    Inv arena ((s.setList p l).putBlock c.block) (Function.update cs p ks) (c.block :: free)
      (Function.update own c.block none) (Function.update D p ((D p).drop c.bytes.length)) := by
  have hnodup := h.nodup p
  rw [hc, blocks, List.map_cons] at hnodup
  have hnot := (List.nodup_cons.mp hnodup).1
  refine h.release rfl (by rw [hc, blocks, List.map_cons]) (fun x hx => putBlock_next ?_) ?_ rfl rfl rfl
    (hh.congr (fun x hx => putBlock_next ?_) fun _ _ _ _ => rfl)
  · rintro rfl
    exact hx (by rw [hc]; exact List.mem_cons_self)
  · exact Function.update_self _ _ _
  · rintro rfl
    exact hnot hx

end Chunks

theorem Inv.woken (h : Inv arena s cs free own D) (w : Bool) : Inv arena { s with cwaiting := w } cs free own D where
  holds q := (h.holds q).congr (fun _ _ => rfl) fun _ _ _ _ => rfl
  chain := h.chain
  count := h.count
  nodup := h.nodup
  freeNodup := h.freeNodup
  memFree := h.memFree
  memList := h.memList
  aligned := h.aligned

section Front

theorem Inv.cc_eq (h : Inv arena s cs free own D) : (s.q p).cc = (D p).length := (h.holds p).cc

theorem Rep.cc_eq (h : Rep arena s D) : (s.q p).cc = (D p).length := by
  obtain ⟨cs, free, own, h⟩ := h
  exact h.cc_eq

theorem Inv.exists_first (h : Inv arena s cs free own D) (hp : D p ≠ []) :
    ∃ c rest, cs p = c :: rest ∧ Aligned c.block ∧ (s.q p).cf = c.block + 4 + c.off ∧ c.Ok s ∧
      (rest = [] ∧ c.bytes.length = (D p).length ∨
        rest ≠ [] ∧ c.off + c.bytes.length = cbsize ∧ c.bytes.length < (D p).length) := by
  have hh := h.holds p
  cases hc : cs p with
  | nil =>
    rw [hc] at hh
    exact absurd hh.content.symm hp
  | cons c rest =>
    have hal : Aligned c.block := h.aligned_of_mem (p := p) (by rw [hc]; exact List.mem_cons_self)
    rw [hc] at hh
    have hlen := hh.length_eq
    refine ⟨c, rest, rfl, hal, hh.cf_eq, hh.ok c List.mem_cons_self, ?_⟩
    cases rest with
    | nil => exact .inl ⟨rfl, by simpa using hlen.symm⟩
    | cons d rest =>
      obtain ⟨⟨-, hfull, -⟩, -⟩ := List.isChain_cons_cons.mp hh.links
      refine .inr ⟨List.cons_ne_nil _ _, hfull, ?_⟩
      have := (hh.ok d (by simp)).nonempty
      rw [hlen, List.flatMap_cons, List.length_append]
      omega

theorem low_eq (h : b % cblock = 0) : low (b + n) = n % cblock := by
  rw [low, Nat.add_mod, h, Nat.zero_add, Nat.mod_mod]

theorem base_eq (h : b % cblock = 0) (hn : n < cblock) : base (b + n) = b := by
  rw [base, Nat.add_mod, h, Nat.zero_add, Nat.mod_mod, Nat.mod_eq_of_lt hn, Nat.add_sub_cancel]

/-- Where the first character of a list is in its block; 4 also where there is none. -/
def place (s : Clists) (p : ListId) : Nat := if (s.q p).cc ≤ 0 then 4 else low (s.q p).cf

theorem Rep.place_ge (h : Rep arena s D) : 4 ≤ place s p := by
  have hcc := h.cc_eq (p := p)
  obtain ⟨cs, free, own, h⟩ := h
  rw [place]
  split
  next => exact Nat.le_refl _
  next hpos =>
    obtain ⟨c, rest, -, ⟨-, halign⟩, hcf, hok, -⟩ := h.exists_first (p := p) (List.ne_nil_of_length_pos (by omega))
    have := hok.fits
    have := hok.nonempty
    rw [hcf, Nat.add_assoc, low_eq halign]
    simp only [cbsize, cblock] at *
    omega

theorem place_lt : place s p < cblock := by
  rw [place]
  split
  next => decide
  next => exact Nat.mod_lt _ (by decide)

theorem Rep.advance (h : Rep arena s D) (hn : 0 < n) (hb : n ≤ cblock - low (s.q p).cf) (hl : n ≤ (D p).length) :
    Rep arena (s.advance p n) (Function.update D p ((D p).drop n)) ∧ s.load (s.q p).cf n = (D p).take n := by
  obtain ⟨cs, free, own, h⟩ := h
  have hp : D p ≠ [] := List.ne_nil_of_length_pos (Nat.lt_of_lt_of_le hn hl)
  obtain ⟨c, rest, hc, ⟨hpos, halign⟩, hcf, hok, hlast⟩ := h.exists_first hp
  have hfits : c.off + c.bytes.length ≤ 60 := hok.fits
  have hh := h.holds p
  have hcc := hh.cc
  rw [hc] at hh
  have hlow : low (s.q p).cf = 4 + c.off := by
    have := hok.nonempty
    rw [hcf, Nat.add_assoc, low_eq halign, Nat.mod_eq_of_lt]
    rw [cblock]
    omega
  have hle : n ≤ c.bytes.length := by
    rw [hlow, cblock] at hb
    rcases hlast with ⟨-, hlen⟩ | ⟨-, hfull, -⟩
    · omega
    · rw [cbsize, cblock] at hfull
      omega
  refine ⟨?_, hh.load_first hle⟩
  have hadd : (s.q p).cf + n = c.block + (4 + c.off + n) := by omega
  rw [Clists.advance]
  rcases Nat.lt_or_eq_of_le hle with hlt | rfl
  · have hcount : c.bytes.length ≤ (D p).length := by omega
    have hnot : ¬ low ((s.q p).cf + n) = 0 := by
      rw [hadd, low_eq halign, Nat.mod_eq_of_lt (by rw [cblock]; omega)]
      omega
    rw [if_neg (by omega), if_neg hnot]
    exact ⟨_, _, _, h.skip hc hlt⟩
  · rcases hlast with ⟨rfl, hlen⟩ | ⟨hne, hfull, hlen⟩
    · have hblock : base ((s.q p).cf + c.bytes.length - 1) = c.block := by
        rw [hadd, Nat.add_sub_assoc (by omega), base_eq halign (by rw [cblock]; omega)]
      rw [if_pos (by omega), hblock, hcc, hlen, Int.sub_self]
      have hdrop : (D p).drop c.bytes.length = [] := hh.drop_first
      have hfree := h.free_first (l := .null) hc (by rw [hdrop]; exact .null)
      rw [hlen] at hfree
      exact ⟨_, _, _, hfree.woken false⟩
    · have hzero : low ((s.q p).cf + c.bytes.length) = 0 := by
        rw [hadd, low_eq halign, Nat.add_assoc, hfull]
        rfl
      have hblock : (s.q p).cf + c.bytes.length - cblock = c.block := by
        rw [hadd, Nat.add_assoc 4, hfull]
        exact Nat.add_sub_cancel c.block cblock
      rw [if_neg (by omega), if_pos hzero, hblock]
      obtain ⟨d, rest, rfl⟩ := List.exists_cons_of_ne_nil hne
      exact ⟨_, _, _, (h.free_first hc hh.tail).woken false⟩

theorem Rep.advance_count (h : Rep arena s D) (hn : 0 < n) (hb : n ≤ cblock - low (s.q p).cf)
    (hl : n ≤ (D p).length) : s.cfreecount + place s p + n ≤ (s.advance p n).cfreecount + place (s.advance p n) p := by
  have hcc := h.cc_eq (p := p)
  have hge := (h.advance hn hb hl).1.place_ge (p := p)
  have hlow : low (s.q p).cf < cblock := Nat.mod_lt _ (by decide)
  have hplace : place s p = low (s.q p).cf := if_neg (by omega)
  have hblock : (cblock : Int) = cbsize + 4 := rfl
  rw [hplace]
  rw [Clists.advance] at hge ⊢
  split at hge
  next hle =>
    rw [if_pos hle]
    simp only [Clists.freeBlock, Clists.putBlock, Clists.setNext, Clists.setList] at hge ⊢
    omega
  next hgt =>
    rw [if_neg hgt]
    split at hge
    next hzero =>
      rw [if_pos hzero]
      simp only [Clists.freeBlock, Clists.putBlock, Clists.setNext, Clists.setList] at hge ⊢
      omega
    next hzero =>
      rw [if_neg hzero, place, if_neg]
      · have : low ((s.q p).cf + n) = low (s.q p).cf + n := by
          simp only [low, cblock] at *
          omega
        simp only [Clists.setList, Function.update_self, this]
        omega
      · simp only [Clists.setList, Function.update_self]
        exact hgt

theorem Inv.eq_null (h : Inv arena s cs free own D) (hp : D p = []) : s.q p = .null := by
  have hh := h.holds p
  rw [hp] at hh
  cases hc : cs p with
  | nil =>
    rw [hc] at hh
    exact congrArg₂ (fun x y => (⟨x, y.1, y.2⟩ : Clist)) hh.cc (Prod.ext hh.cf hh.cl : ((s.q p).cf, (s.q p).cl) = (0, 0))
  | cons c rest =>
    rw [hc] at hh
    have := (hh.ok c List.mem_cons_self).nonempty
    have := hh.length_eq
    simp only [List.length_nil] at this
    omega

theorem Rep.setList_null (h : Rep arena s D) (hp : D p = []) : s.setList p .null = s := by
  obtain ⟨cs, free, own, h⟩ := h
  rw [← h.eq_null hp, Clists.setList, Function.update_eq_self]

theorem Rep.getc (h : Rep arena s D) : Rep arena (s.getc p).2 (Function.update D p (D p).tail) ∧
    (s.getc p).1 = ((D p).head?.map fun b => (b.toNat : Int)).getD (-1) := by
  have hcc := h.cc_eq (p := p)
  rw [Clists.getc_eq]
  cases hp : D p with
  | nil =>
    rw [hp] at hcc
    rw [if_pos (by rw [hcc]; simp), h.setList_null hp]
    refine ⟨?_, rfl⟩
    rwa [List.tail_nil, ← hp, Function.update_eq_self]
  | cons b bs =>
    rw [hp, List.length_cons] at hcc
    rw [if_neg (by omega)]
    have hlow : low (s.q p).cf < cblock := Nat.mod_lt _ (by decide)
    obtain ⟨hr, hl⟩ := h.advance (p := p) (n := 1) Nat.one_pos (by omega) (by rw [hp, List.length_cons]; omega)
    rw [hp] at hr hl
    refine ⟨hr, ?_⟩
    have hb : s.byte (s.q p).cf = b := (List.cons.inj hl).1
    rw [hb]
    rfl

theorem Rep.qToBLoop (h : Rep arena s D) (hp : D p ≠ []) (hn : m ≤ n) :
    ∃ r, Clists.qToBLoop p n m bs s = some (bs ++ (D p).take m, r) ∧
      Rep arena r (Function.update D p ((D p).drop m)) ∧
      s.cfreecount + place s p + ((D p).take m).length ≤ r.cfreecount + place r p := by
  induction n generalizing s D m bs with
  | zero =>
    obtain rfl := Nat.le_zero.mp hn
    refine ⟨s, by rw [Clists.qToBLoop, List.take_zero, List.append_nil], ?_, by simp⟩
    rwa [List.drop_zero, Function.update_eq_self]
  | succ n ih =>
    cases m with
    | zero =>
      refine ⟨s, by rw [Clists.qToBLoop, List.take_zero, List.append_nil], ?_, by simp⟩
      rwa [List.drop_zero, Function.update_eq_self]
    | succ m =>
      have hcc := h.cc_eq (p := p)
      have hlow : low (s.q p).cf < cblock := Nat.mod_lt _ (by decide)
      have hpos := List.length_pos_iff.mpr hp
      rw [Clists.qToBLoop_succ, hcc, Int.toNat_natCast]
      dsimp only
      generalize hk : min (min (cblock - low (s.q p).cf) (m + 1)) (D p).length = k
      obtain ⟨hr, hl⟩ := h.advance (p := p) (n := k) (by omega) (by omega) (by omega)
      have hcount := h.advance_count (p := p) (n := k) (by omega) (by omega) (by omega)
      rw [hl]
      split
      next hle =>
        have hall : (D p).length = k := by omega
        refine ⟨_, by rw [List.take_of_length_le (by omega), List.take_of_length_le (by omega)], ?_, ?_⟩
        · rwa [List.drop_of_length_le (by omega), ← List.drop_of_length_le (by omega : (D p).length ≤ k)]
        · rwa [List.length_take, Nat.min_eq_right (by omega), hall]
      next hgt =>
        have hne : Function.update D p ((D p).drop k) p ≠ [] := by
          rw [Function.update_self]
          refine List.ne_nil_of_length_pos ?_
          rw [List.length_drop]
          omega
        obtain ⟨r, hr', hrep, hcount'⟩ := ih hr hne (show m + 1 - k ≤ n by omega)
        rw [Function.update_self] at hr' hrep hcount'
        rw [Function.update_idem, List.drop_drop, Nat.add_sub_cancel' (by omega)] at hrep
        refine ⟨r, ?_, hrep, ?_⟩
        · rw [hr', List.append_assoc, ← List.take_add, Nat.add_sub_cancel' (by omega)]
        · simp only [List.length_take, List.length_drop] at hcount' ⊢
          omega

theorem Rep.qToB (h : Rep arena s D) (cc : Int) :
    ∃ r, s.qToB p cc = some ((D p).take cc.toNat, r) ∧ Rep arena r (Function.update D p ((D p).drop cc.toNat)) ∧
      s.cfreecount + place s p + ((D p).take cc.toNat).length ≤ r.cfreecount + place r p := by
  rw [Clists.qToB]
  split
  next hcc =>
    refine ⟨s, by rw [Int.toNat_of_nonpos hcc, List.take_zero], ?_, by simp [Int.toNat_of_nonpos hcc]⟩
    rwa [Int.toNat_of_nonpos hcc, List.drop_zero, Function.update_eq_self]
  next =>
  split
  next hempty =>
    have hp : D p = [] := List.eq_nil_of_length_eq_zero (by have := h.cc_eq (p := p); omega)
    refine ⟨s, by rw [h.setList_null hp, hp, List.take_nil], ?_, by simp [hp]⟩
    rwa [hp, List.drop_nil, ← hp, Function.update_eq_self]
  next hne =>
    refine h.qToBLoop ?_ (Nat.le_refl _)
    rintro hp
    have := h.cc_eq (p := p)
    rw [hp] at this
    simp only [List.length_nil] at this
    omega

end Front

section Flush

theorem Inv.first_stop (h : Inv arena s cs free own D) (hc : cs p = c :: rest) :
    base (s.q p).cf = c.block ∧
      (if base (s.q p).cf = base ((s.q p).cl - 1) then (s.q p).cl else base (s.q p).cf + cblock) = c.finish := by
  have hh := h.holds p
  have hnodup := h.nodup p
  rw [hc] at hh hnodup
  have hal : ∀ e ∈ c :: rest, e.block % cblock = 0 := fun e he =>
    (h.aligned_of_mem (p := p) (by rw [hc]; exact List.mem_map_of_mem he)).2
  have hfirst : base (s.q p).cf = c.block := by
    have hok := hh.ok c List.mem_cons_self
    have := hok.fits
    have := hok.nonempty
    rw [hh.cf_eq, Nat.add_assoc, base_eq (hal c List.mem_cons_self)]
    simp only [cbsize, cblock] at *
    omega
  have hlast : ∀ e ∈ c :: rest, base (e.finish - 1) = e.block := by
    intro e he
    have hok := hh.ok e he
    have hfits := hok.fits
    have hne := hok.nonempty
    simp only [cbsize, cblock] at hfits
    rw [Chunk.finish, Chunk.start, info, Nat.add_assoc, Nat.add_assoc, Nat.add_sub_assoc (by omega),
      base_eq (hal e he)]
    rw [cblock]
    omega
  refine ⟨hfirst, ?_⟩
  rw [hfirst]
  cases rest with
  | nil =>
    have hcl : (s.q p).cl = c.finish := hh.cl
    rw [hcl, hlast c List.mem_cons_self, if_pos rfl]
  | cons d rest =>
    obtain ⟨⟨-, hfull, -⟩, -⟩ := List.isChain_cons_cons.mp hh.links
    have he := List.getLast_mem (List.cons_ne_nil d rest)
    have hcl : (s.q p).cl = ((d :: rest).getLast (List.cons_ne_nil d rest)).finish := by
      rw [hh.cl, List.getLast?_cons_cons, List.getLast?_eq_getLast_of_ne_nil (List.cons_ne_nil d rest)]
      rfl
    rw [hcl, hlast _ (List.mem_cons_of_mem _ he), if_neg]
    · rw [Chunk.finish, Chunk.start, info, Nat.add_assoc, Nat.add_assoc, hfull]
      rfl
    · intro heq
      exact (List.nodup_cons.mp hnodup).1 (heq ▸ List.mem_map_of_mem he)

/-- What `ndflush` does after its loop. -/
def normalize (s : Clists) (p : ListId) : Clists := if (s.q p).cc ≤ 0 then s.setList p .null else s

theorem Rep.normalize_eq (h : Rep arena s D) (hp : D p ≠ []) : normalize s p = s := by
  have := h.cc_eq (p := p)
  have := List.length_pos_iff.mpr hp
  rw [normalize, if_neg (by omega)]

theorem setList_freeBlock {l' : Clist} :
    ((s.setList p l).freeBlock b).setList p l' = (s.setList p l').freeBlock b := by
  simp only [Clists.setList, Clists.freeBlock, Clists.putBlock, Clists.setNext, Function.update_idem]

theorem ndflushLoop_stop {cc : Int} (h : ¬ (0 < cc ∧ (s.q p).cc ≠ 0)) : s.ndflushLoop p n cc = some s := by
  rw [Clists.ndflushLoop.eq_def]
  exact if_neg h

theorem Rep.ndflushLoop {cc : Int} (h : Rep arena s D) (hp : D p ≠ []) (hn : cc ≤ n) :
    ∃ r, s.ndflushLoop p n cc = some r ∧ Rep arena (normalize r p) (Function.update D p ((D p).drop cc.toNat)) := by
  induction n generalizing s D cc with
  | zero =>
    rw [ndflushLoop_stop (by omega), Int.toNat_of_nonpos hn, List.drop_zero, Function.update_eq_self]
    exact ⟨s, rfl, by rwa [h.normalize_eq hp]⟩
  | succ n ih =>
    have hcc := h.cc_eq (p := p)
    have hpos := List.length_pos_iff.mpr hp
    by_cases hgo : 0 < cc
    · obtain ⟨cs, free, own, hi⟩ := h
      obtain ⟨c, rest, hc, -, hcf, hok, hlast⟩ := hi.exists_first hp
      obtain ⟨hbase, hstop⟩ := hi.first_stop hc
      have hne := hok.nonempty
      have hh := hi.holds p
      rw [hc] at hh
      have hrem : ((c.finish : Nat) : Int) - (s.q p).cf = c.bytes.length := by
        rw [hh.cf, Chunk.finish]
        simp only [List.head?_cons, Option.map_some, Option.getD_some]
        omega
      rw [Clists.ndflushLoop.eq_def]
      dsimp only
      rw [if_pos ⟨hgo, by omega⟩, hstop, hbase, hrem]
      split
      next hle =>
        rcases hlast with ⟨rfl, hlen⟩ | ⟨hne, -, hlen⟩
        · have hcc0 : (s.q p).cc - c.bytes.length = 0 := by omega
          rw [hcc0, ndflushLoop_stop (by simp [Clists.freeBlock, Clists.putBlock, Clists.setNext, Clists.setList])]
          refine ⟨_, rfl, ?_⟩
          have hdrop : (D p).drop c.bytes.length = [] := hh.drop_first
          have hfree := (hi.free_first (l := .null) hc (by rw [hdrop]; exact .null)).woken false
          rw [hdrop] at hfree
          rw [List.drop_of_length_le (by omega), normalize, if_pos (by
            simp [Clists.freeBlock, Clists.putBlock, Clists.setNext, Clists.setList])]
          rw [setList_freeBlock]
          exact ⟨_, _, _, hfree⟩
        · obtain ⟨d, rest, rfl⟩ := List.exists_cons_of_ne_nil hne
          have hrep : Rep arena _ _ := ⟨_, _, _, (hi.free_first hc hh.tail).woken false⟩
          obtain ⟨r, hr, hrep⟩ := ih hrep (by
            rw [Function.update_self]
            refine List.ne_nil_of_length_pos ?_
            rw [List.length_drop]
            omega) (show cc - c.bytes.length ≤ n by omega)
          refine ⟨r, hr, ?_⟩
          rwa [Function.update_idem, Function.update_self, List.drop_drop,
            show c.bytes.length + (cc - c.bytes.length).toNat = cc.toNat by omega] at hrep
      next hgt =>
        have hlen := hh.length_eq
        have hskip := hi.skip hc (n := cc.toNat) (by omega)
        rw [Int.toNat_of_nonneg (by omega)] at hskip
        rw [if_neg (by omega)]
        refine ⟨_, rfl, ?_⟩
        have hrep : Rep arena _ _ := ⟨_, _, _, hskip⟩
        rwa [hrep.normalize_eq]
        rw [Function.update_self]
        refine List.ne_nil_of_length_pos ?_
        rw [List.length_drop]
        omega
    · rw [ndflushLoop_stop (by omega), Int.toNat_of_nonpos (by omega), List.drop_zero, Function.update_eq_self]
      exact ⟨s, rfl, by rwa [h.normalize_eq hp]⟩

theorem Rep.ndflush (h : Rep arena s D) (cc : Int) :
    ∃ r, s.ndflush p cc = some r ∧ Rep arena r (Function.update D p ((D p).drop cc.toNat)) := by
  have hcc := h.cc_eq (p := p)
  rw [Clists.ndflush]
  split
  next hle =>
    have hp : D p = [] := List.eq_nil_of_length_eq_zero (by omega)
    refine ⟨s, rfl, ?_⟩
    rwa [hp, List.drop_nil, ← hp, Function.update_eq_self]
  next hgt =>
    have hp : D p ≠ [] := List.ne_nil_of_length_pos (by omega)
    obtain ⟨r, hr, hrep⟩ := h.ndflushLoop hp (Int.self_le_toNat cc)
    exact ⟨normalize r p, by rw [hr]; rfl, hrep⟩

end Flush

end MachVM.Tty
