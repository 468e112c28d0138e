import MachVM.ClistFront

namespace MachVM.Tty

variable {arena : Nat → Prop} {s r : Clists} {cs : ListId → List Chunk} {free free' : List Nat}
  {own own' : Nat → Option ListId} {D : ListId → List Byte} {p q : ListId} {l l' : Clist} {c d e : Chunk}
  {ks rest : List Chunk} {bs ws : List Byte} {a b : Nat} {n m : Nat}

section Chunks

theorem Holds.length_concat (h : Holds s l (ks ++ [c]) bs) :
    bs.length = (ks.flatMap Chunk.bytes).length + c.bytes.length := by
  rw [← h.content, List.flatMap_append, List.flatMap_singleton, List.length_append]

theorem Holds.cl_eq (h : Holds s l (ks ++ [c]) bs) : l.cl = c.block + 4 + c.off + c.bytes.length := by
  rw [h.cl, List.getLast?_concat]
  rfl

theorem isChain_concat (h : (ks ++ [c]).IsChain (Chunk.Linked s)) (hb : d.block = c.block) (ho : d.off = c.off)
    (hn : ∀ k ∈ ks, r.next k.block = s.next k.block) : (ks ++ [d]).IsChain (Chunk.Linked r) := by
  obtain ⟨hks, -, hl⟩ := List.isChain_append.mp h
  refine List.isChain_append.mpr ⟨hks.imp_of_mem_imp fun x y hx _ hxy => ?_, List.isChain_singleton _, ?_⟩
  · rw [Chunk.Linked, hn x hx]
    exact hxy
  · intro x hx y hy
    cases hy
    obtain ⟨hnext, hfull, hoff⟩ := hl x hx c rfl
    exact ⟨by rw [hn x (List.mem_of_getLast? hx), hnext, hb], hfull, by rw [ho, hoff]⟩

theorem store_apart (ha : Aligned a) (hb : Aligned b) (hne : b ≠ a) (hn : n + ws.length ≤ cblock) :
    ∀ i < cblock, (s.store (a + n) ws).byte (b + i) = s.byte (b + i) := by
  intro i hi
  obtain ⟨-, ha⟩ := ha
  obtain ⟨-, hb⟩ := hb
  simp only [cblock] at *
  rcases Nat.lt_or_gt_of_ne hne with hlt | hgt
  · exact byte_store_before (by omega)
  · exact byte_store_behind (by omega)

theorem Holds.extend (h : Holds s l (ks ++ [c]) bs) (hfit : c.off + c.bytes.length + ws.length ≤ cbsize)
    (hal : ∀ k ∈ ks ++ [c], Aligned k.block) (hne : ∀ k ∈ ks, k.block ≠ c.block) :
    Holds (s.store l.cl ws) ⟨l.cc + ws.length, l.cf, l.cl + ws.length⟩
      (ks ++ [⟨c.block, c.off, c.bytes ++ ws⟩]) (bs ++ ws) := by
  have hcl := h.cl_eq
  have hok := h.ok c (List.mem_append_right _ (List.mem_singleton_self c))
  refine ⟨fun k hk => ?_, isChain_concat h.links rfl rfl fun _ _ => rfl, ?_, ?_, ?_, ?_⟩
  · rcases List.mem_append.mp hk with hk | hk
    · refine (h.ok k (List.mem_append_left _ hk)).congr ?_
      rw [hcl, Nat.add_assoc, Nat.add_assoc]
      refine store_apart (hal c (by simp)) (hal k (List.mem_append_left _ hk)) (hne k hk) ?_
      simp only [cbsize, cblock] at *
      omega
    · cases List.mem_singleton.mp hk
      refine ⟨?_, by rwa [List.length_append, ← Nat.add_assoc], ?_⟩
      · have := hok.nonempty
        simp only [List.length_append]
        omega
      · rw [List.length_append, load_add]
        refine congrArg₂ (· ++ ·) ((load_congr fun i hi => byte_store_before ?_).trans hok.bytes) ?_
        · rw [hcl, Chunk.start, info]
          dsimp only
          omega
        · rw [hcl]
          exact load_store
  · rw [← h.content, List.flatMap_append, List.flatMap_append, List.flatMap_singleton, List.flatMap_singleton,
      List.append_assoc]
  · rw [h.cc, List.length_append, Int.natCast_add]
  · rw [h.cf]
    cases ks <;> rfl
  · rw [hcl, List.getLast?_concat]
    simp only [Option.map_some, Option.getD_some, Chunk.finish, Chunk.start, info, List.length_append]
    omega

theorem Chunk.ok_new (hws : 0 < ws.length) (hfit : ws.length ≤ cbsize) (hload : r.load (info b) ws.length = ws) :
    (⟨b, 0, ws⟩ : Chunk).Ok r :=
  ⟨hws, by rwa [Nat.zero_add], hload⟩

theorem Holds.single (hws : 0 < ws.length) (hfit : ws.length ≤ cbsize) (hload : r.load (info b) ws.length = ws) :
    Holds r ⟨ws.length, info b, info b + ws.length⟩ [⟨b, 0, ws⟩] ws where
  ok k hk := by
    cases List.mem_singleton.mp hk
    exact Chunk.ok_new hws hfit hload
  links := List.isChain_singleton _
  content := List.flatMap_singleton _ _
  cc := rfl
  cf := rfl
  cl := rfl

theorem Holds.concat (h : Holds s l (ks ++ [c]) bs) (hfull : c.off + c.bytes.length = cbsize) (hws : 0 < ws.length)
    (hfit : ws.length ≤ cbsize) (hc : r.next c.block = b) (hn : ∀ k ∈ ks, r.next k.block = s.next k.block)
    (hb : ∀ k ∈ ks ++ [c], ∀ i < cblock, r.byte (k.block + i) = s.byte (k.block + i))
    (hload : r.load (info b) ws.length = ws) :
    Holds r ⟨l.cc + ws.length, l.cf, info b + ws.length⟩ (ks ++ [c] ++ [⟨b, 0, ws⟩]) (bs ++ ws) where
  ok k hk := by
    rcases List.mem_append.mp hk with hk | hk
    · exact (h.ok k hk).congr (hb k hk)
    · cases List.mem_singleton.mp hk
      exact Chunk.ok_new hws hfit hload
  links := by
    refine List.isChain_append.mpr ⟨isChain_concat h.links rfl rfl hn, List.isChain_singleton _, fun x hx y hy => ?_⟩
    rw [List.getLast?_concat] at hx
    cases hx
    cases hy
    exact ⟨hc, hfull, rfl⟩
  content := by rw [List.flatMap_append, List.flatMap_singleton, h.content]
  cc := by rw [h.cc, List.length_append, Int.natCast_add]
  cf := by
    rw [h.cf]
    cases ks <;> rfl
  cl := by
    rw [List.getLast?_concat]
    rfl

theorem Holds.chop (h : Holds s l (ks ++ [c]) bs) (hlen : 1 < c.bytes.length) :
    Holds s ⟨l.cc - 1, l.cf, l.cl - 1⟩ (ks ++ [⟨c.block, c.off, c.bytes.dropLast⟩]) bs.dropLast := by
  have hcl := h.cl_eq
  have hok := h.ok c (List.mem_append_right _ (List.mem_singleton_self c))
  have hne : c.bytes ≠ [] := List.ne_nil_of_length_pos hok.nonempty
  refine ⟨fun k hk => ?_, isChain_concat h.links rfl rfl fun _ _ => rfl, ?_, ?_, ?_, ?_⟩
  · rcases List.mem_append.mp hk with hk | hk
    · exact h.ok k (List.mem_append_left _ hk)
    · cases List.mem_singleton.mp hk
      have := hok.fits
      refine ⟨?_, ?_, ?_⟩
      · simp only [List.length_dropLast]
        omega
      · simp only [List.length_dropLast]
        omega
      · simp only [List.length_dropLast]
        rw [List.dropLast_eq_take]
        exact load_take hok.bytes (Nat.sub_le _ _)
  · rw [← h.content, List.flatMap_append, List.flatMap_append, List.flatMap_singleton, List.flatMap_singleton,
      List.dropLast_append_of_ne_nil hne]
  · have := h.length_concat
    rw [h.cc, List.length_dropLast]
    dsimp only
    omega
  · rw [h.cf]
    cases ks <;> rfl
  · rw [hcl, List.getLast?_concat]
    simp only [Option.map_some, Option.getD_some, Chunk.finish, Chunk.start, info, List.length_dropLast]
    omega

theorem Holds.unlink (h : Holds s l (ks ++ [e, c]) bs) (hlen : c.bytes.length = 1)
    (hn : ∀ k ∈ ks, r.next k.block = s.next k.block) (hb : r.byte = s.byte) :
    Holds r ⟨l.cc - 1, l.cf, e.block + cblock⟩ (ks ++ [e]) bs.dropLast := by
  have hassoc : ks ++ [e, c] = ks ++ [e] ++ [c] := by simp
  obtain ⟨hks, -, hl⟩ := List.isChain_append.mp (hassoc ▸ h.links)
  obtain ⟨-, hfull, -⟩ := hl e (by simp) c rfl
  refine ⟨fun k hk => (h.ok k ?_).congr fun i _ => by rw [hb], isChain_concat hks rfl rfl hn, ?_, ?_, ?_, ?_⟩
  · rw [hassoc]
    exact List.mem_append_left _ hk
  · have hcon := h.content
    rw [hassoc, List.flatMap_append, List.flatMap_singleton] at hcon
    rw [← hcon, List.dropLast_append_of_ne_nil (List.ne_nil_of_length_pos (by omega)), List.dropLast_eq_take, hlen,
      Nat.sub_self, List.take_zero, List.append_nil]
  · have := (hassoc ▸ h).length_concat
    rw [h.cc, List.length_dropLast]
    dsimp only
    omega
  · rw [h.cf, hassoc]
    cases ks <;> rfl
  · rw [List.getLast?_concat]
    simp only [Option.map_some, Option.getD_some, Chunk.finish, Chunk.start, info, Nat.add_assoc, hfull]
    rfl

end Chunks

section Back

theorem Inv.exists_last (h : Inv arena s cs free own D) (hp : D p ≠ []) :
    ∃ ks c, cs p = ks ++ [c] ∧ Aligned c.block ∧ (s.q p).cl = c.block + 4 + c.off + c.bytes.length ∧ c.Ok s ∧
      (∀ k ∈ ks ++ [c], Aligned k.block) ∧ ∀ k ∈ ks, k.block ≠ c.block := by
  have hh := h.holds p
  rcases List.eq_nil_or_concat' (cs p) with hc | ⟨ks, c, hc⟩
  · rw [hc] at hh
    exact absurd hh.content.symm hp
  · have hal : ∀ k ∈ ks ++ [c], Aligned k.block := fun k hk =>
      h.aligned_of_mem (p := p) (by rw [hc]; exact List.mem_map_of_mem hk)
    have hnodup := h.nodup p
    rw [hc] at hh hnodup
    refine ⟨ks, c, hc, hal c (by simp), hh.cl_eq, hh.ok c (by simp), hal, fun k hk heq => ?_⟩
    rw [blocks, List.map_append, List.nodup_append] at hnodup
    exact hnodup.2.2 _ (List.mem_map_of_mem hk) _ (by simp) heq

theorem Rep.store (ws : List Byte) (h : Rep arena s D) (hp : D p ≠ []) (hlow : low (s.q p).cl ≠ 0)
    (hfit : ws.length ≤ cblock - low (s.q p).cl) :
    Rep arena ((s.store (s.q p).cl ws).setList p ⟨(s.q p).cc + ws.length, (s.q p).cf, (s.q p).cl + ws.length⟩)
      (Function.update D p (D p ++ ws)) := by
  obtain ⟨cs, free, own, h⟩ := h
  obtain ⟨ks, c, hc, hal, hcl, hok, hals, hne⟩ := h.exists_last hp
  have hh := h.holds p
  rw [hc] at hh
  have hroom : c.off + c.bytes.length + ws.length ≤ cbsize := by
    have hfits := hok.fits
    rw [hcl, Nat.add_assoc, Nat.add_assoc, low_eq hal.2] at hlow hfit
    simp only [cbsize, cblock] at *
    omega
  refine ⟨_, _, _, h.rewrite rfl (fun _ _ => rfl) (fun q hq b hb => ?_) rfl rfl
    ((hh.extend hroom hals hne).congr (fun _ _ => rfl) fun _ _ _ _ => rfl) ?_⟩
  · have hcb : c.block ∈ blocks (cs p) := by
      rw [hc]
      exact List.mem_map_of_mem (by simp)
    have hbc : b ≠ c.block := by
      rintro rfl
      exact h.disjoint hq hb hcb
    have hst := store_apart (s := s) hal (h.aligned_of_mem hb) hbc
      (show 4 + c.off + c.bytes.length + ws.length ≤ cblock by
        simp only [cbsize, cblock] at *
        omega)
    rwa [← Nat.add_assoc, ← Nat.add_assoc, ← hcl] at hst
  · rw [hc, blocks, blocks, List.map_append, List.map_append]
    rfl

theorem Rep.cl_ne_zero (h : Rep arena s D) : (s.q p).cl = 0 ↔ D p = [] := by
  obtain ⟨cs, free, own, h⟩ := h
  constructor
  · intro hz
    by_contra hp
    obtain ⟨ks, c, -, -, hcl, -⟩ := h.exists_last hp
    omega
  · intro hp
    rw [h.eq_null hp]
    rfl

theorem Inv.free_eq (h : Inv arena s cs free own D) (hf : s.cfreelist ≠ 0) :
    ∃ rest, free = s.cfreelist :: rest ∧ Aligned s.cfreelist := by
  cases hc : free with
  | nil =>
    have hchain := h.chain
    rw [hc] at hchain
    exact absurd hchain hf
  | cons b rest =>
    have hchain := h.chain
    rw [hc] at hchain
    obtain ⟨rfl, -⟩ := hchain
    exact ⟨rest, rfl, h.aligned _ ((h.memFree _).mp (by rw [hc]; exact List.mem_cons_self)).1⟩

theorem Rep.count_eq_zero (h : Rep arena s D) (hf : s.cfreelist = 0) : s.cfreecount = 0 := by
  obtain ⟨cs, free, own, h⟩ := h
  have hc := h.chain
  have hcount := h.count
  cases free with
  | nil => simpa using hcount
  | cons b rest =>
    have := (h.aligned b ((h.memFree b).mp List.mem_cons_self).1).1
    rw [hf] at hc
    obtain ⟨rfl, -⟩ := hc
    omega

theorem Rep.exists_count (h : Rep arena s D) : ∃ k : Nat, s.cfreecount = cbsize * k := by
  obtain ⟨cs, free, own, h⟩ := h
  exact ⟨free.length, h.count⟩

theorem store_new (hb : Aligned b) (hfit : ws.length ≤ cbsize) (ha : Aligned a) (hne : a ≠ b) :
    ∀ i < cblock, (s.store (info b) ws).byte (a + i) = s.byte (a + i) :=
  store_apart hb ha hne (by simp only [cbsize, cblock] at *; omega)

theorem Rep.first_block (ws : List Byte) (h : Rep arena s D) (hp : D p = []) (hf : s.cfreelist ≠ 0) (hws : 0 < ws.length)
    (hfit : ws.length ≤ cbsize) :
    Rep arena ((s.takeBlock.store (info s.cfreelist) ws).setList p
      ⟨ws.length, info s.cfreelist, info s.cfreelist + ws.length⟩) (Function.update D p ws) := by
  obtain ⟨cs, free, own, h⟩ := h
  obtain ⟨rest, rfl, hal⟩ := h.free_eq hf
  have hcs : cs p = [] := by
    have hh := h.holds p
    cases hc : cs p with
    | nil => rfl
    | cons c ks =>
      rw [hc] at hh
      have := hh.length_eq
      have := (hh.ok c List.mem_cons_self).nonempty
      simp only [hp, List.length_nil] at *
      omega
  have hperm : (blocks [⟨s.cfreelist, 0, ws⟩]).Perm (s.cfreelist :: blocks (cs p)) := by
    rw [hcs]
    exact List.Perm.refl _
  refine ⟨_, _, _, h.acquire rfl hperm (fun x _ hx => Function.update_of_ne hx _ _) (fun q _ x hx => ?_) rfl rfl
    (Holds.single hws hfit load_store)⟩
  refine store_new hal hfit (h.aligned_of_mem hx) ?_
  rintro rfl
  exact h.not_free hx List.mem_cons_self

theorem Inv.exists_full (h : Inv arena s cs free own D) (hp : D p ≠ []) (hlow : low (s.q p).cl = 0) :
    ∃ ks c, cs p = ks ++ [c] ∧ c.off + c.bytes.length = cbsize ∧ (s.q p).cl - cblock = c.block ∧
      (∀ k ∈ ks ++ [c], k.block ∈ blocks (cs p)) ∧ ∀ k ∈ ks, k.block ≠ c.block := by
  obtain ⟨ks, c, hc, halc, hcl, hok, -, hne⟩ := h.exists_last hp
  have hfits := hok.fits
  have := hok.nonempty
  rw [hcl, Nat.add_assoc, Nat.add_assoc, low_eq halc.2] at hlow
  simp only [cbsize, cblock] at hlow hfits
  refine ⟨ks, c, hc, ?_, ?_, fun k hk => ?_, hne⟩
  · simp only [cbsize, cblock]
    omega
  · rw [cblock]
    omega
  · rw [hc]
    exact List.mem_map_of_mem hk

theorem Rep.next_block (ws : List Byte) (h : Rep arena s D) (hp : D p ≠ []) (hlow : low (s.q p).cl = 0) (hf : s.cfreelist ≠ 0)
    (hws : 0 < ws.length) (hfit : ws.length ≤ cbsize) :
    Rep arena (((s.setNext ((s.q p).cl - cblock) s.cfreelist).takeBlock.store (info s.cfreelist) ws).setList p
      ⟨(s.q p).cc + ws.length, (s.q p).cf, info s.cfreelist + ws.length⟩) (Function.update D p (D p ++ ws)) := by
  obtain ⟨cs, free, own, h⟩ := h
  obtain ⟨rest, rfl, hal⟩ := h.free_eq hf
  obtain ⟨ks, c, hc, hfull, hblock, hmem, hne⟩ := h.exists_full hp hlow
  have hh := h.holds p
  rw [hc] at hh
  have hnew : ∀ q, ∀ x ∈ blocks (cs q), x ≠ s.cfreelist := fun q x hx heq =>
    h.not_free hx (by rw [heq]; exact List.mem_cons_self)
  have hcb := hmem c (by simp)
  have hcf := hnew p _ hcb
  have hnext : ∀ x, x ≠ s.cfreelist → x ≠ c.block →
      (s.setNext c.block s.cfreelist).takeBlock.next x = s.next x := fun x hx hxc =>
    (Function.update_of_ne hx _ _).trans (Function.update_of_ne hxc _ _)
  have hnewh : Holds (((s.setNext c.block s.cfreelist).takeBlock.store (info s.cfreelist) ws).setList p
      ⟨(s.q p).cc + ws.length, (s.q p).cf, info s.cfreelist + ws.length⟩)
      ⟨(s.q p).cc + ws.length, (s.q p).cf, info s.cfreelist + ws.length⟩ (ks ++ [c] ++ [⟨s.cfreelist, 0, ws⟩])
      (D p ++ ws) :=
    hh.concat hfull hws hfit ((Function.update_of_ne hcf _ _).trans (Function.update_self _ _ _))
      (fun k hk => hnext _ (hnew p _ (hmem k (List.mem_append_left _ hk))) (hne k hk))
      (fun k hk => store_new hal hfit (h.aligned_of_mem (hmem k hk)) (hnew p _ (hmem k hk))) load_store
  rw [hblock]
  refine ⟨_, _, _, h.acquire rfl ?_ (fun x hx hxf => hnext x hxf ?_)
    (fun q _ x hx => store_new hal hfit (h.aligned_of_mem hx) (hnew q x hx)) ?_ rfl hnewh⟩
  · rw [hc, blocks, blocks, List.map_append]
    exact List.perm_append_singleton _ _
  · rintro rfl
    exact hx hcb
  · exact Function.update_of_ne hcf.symm _ _

theorem Rep.setNext (h : Rep arena s D) (hp : D p ≠ []) (hlow : low (s.q p).cl = 0) :
    Rep arena (s.setNext ((s.q p).cl - cblock) a) D := by
  obtain ⟨cs, free, own, h⟩ := h
  obtain ⟨ks, c, hc, -, hblock, hmem, hne⟩ := h.exists_full hp hlow
  have hh := h.holds p
  have hlinks : (cs p).IsChain (Chunk.Linked (s.setNext c.block a)) := by
    have hl := hh.links
    rw [hc] at hl ⊢
    exact isChain_concat hl rfl rfl fun k hk => Function.update_of_ne (hne k hk) _ _
  have hholds : Holds (s.setNext c.block a) (s.q p) (cs p) (D p) :=
    ⟨fun k hk => (hh.ok k hk).congr fun _ _ => rfl, hlinks, hh.content, hh.cc, hh.cf, hh.cl⟩
  have hinv := h.rewrite (r := s.setNext c.block a) (Function.update_eq_self p s.q).symm
    (fun x hx => Function.update_of_ne ?_ _ _) (fun _ _ _ _ _ _ => rfl) rfl rfl hholds rfl
  · rw [Function.update_eq_self, Function.update_eq_self] at hinv
    rw [hblock]
    exact ⟨_, _, _, hinv⟩
  · rintro rfl
    exact hx (hmem c (by simp))

theorem setList_store {x y : Clist} :
    ((s.setList p x).store a ws).setList p y = (s.store a ws).setList p y := by
  simp only [Clists.setList, Clists.store, Function.update_idem]

theorem setList_next_block {x y : Clist} :
    ((((s.setList p x).setNext b (s.setList p x).cfreelist).takeBlock.store a ws).setList p y) =
      ((s.setNext b s.cfreelist).takeBlock.store a ws).setList p y := by
  simp only [Clists.setList, Clists.store, Clists.setNext, Clists.takeBlock, Function.update_idem]

theorem Rep.putc (h : Rep arena s D) (c : BitVec 32) :
    (s.putc c p).1 = 0 ∧ Rep arena (s.putc c p).2 (Function.update D p (D p ++ [c.setWidth 8])) ∨
      (s.putc c p).1 = -1 ∧ (s.putc c p).2.cfreelist = 0 ∧ Rep arena (s.putc c p).2 D := by
  have hcc := h.cc_eq (p := p)
  have hcl := h.cl_ne_zero (p := p)
  have hone : [c.setWidth 8].length ≤ cbsize := (by decide : 1 ≤ cbsize)
  rw [Clists.putc]
  dsimp only
  split
  next hnew =>
    have hp : D p = [] := by
      rcases hnew with hz | hneg
      · exact hcl.mp hz
      · omega
    split
    next hf => exact .inr ⟨rfl, hf, h⟩
    next hf =>
      have hrep := h.first_block [c.setWidth 8] hp hf Nat.one_pos hone
      have hq : (s.takeBlock.setList p ⟨(s.q p).cc, info s.cfreelist, (s.q p).cl⟩).q p =
          ⟨(s.q p).cc, info s.cfreelist, (s.q p).cl⟩ := Function.update_self _ _ _
      refine .inl ⟨rfl, ?_⟩
      rw [hp, List.nil_append, Clists.putcAt, hq, setList_store, hcc, hp]
      exact hrep
  next hold =>
    have hp : D p ≠ [] := fun he => hold (.inl (hcl.mpr he))
    split
    next hlow =>
      split
      next hf => exact .inr ⟨rfl, hf, h.setNext hp hlow⟩
      next hf => exact .inl ⟨rfl, h.next_block _ hp hlow hf Nat.one_pos hone⟩
    next hlow =>
      refine .inl ⟨rfl, h.store _ hp hlow ?_⟩
      have : low (s.q p).cl < cblock := Nat.mod_lt _ (by decide)
      rw [List.length_singleton]
      omega

theorem Rep.low_info (h : Rep arena s D) (hf : s.cfreelist ≠ 0) : low (info s.cfreelist) = 4 := by
  obtain ⟨cs, free, own, h⟩ := h
  obtain ⟨-, -, hal⟩ := h.free_eq hf
  exact low_eq hal.2

/-- What `b_to_q` has done when `k` characters are moved and it is at `cq`: what is left over is left because the
free list has run out, and each of its blocks was filled. -/
structure Moved (arena : Nat → Prop) (s r : Clists) (D : ListId → List Byte) (p : ListId) (l : Clist) (bs : List Byte)
    (k : Nat) (cq : Nat) : Prop where
  le : k ≤ bs.length
  lists : r.q = s.q
  rep : Rep arena (r.setList p ⟨l.cc + k, l.cf, cq⟩) (Function.update D p (D p ++ bs.take k))
  short : k < bs.length → r.cfreelist = 0 ∧ s.cfreecount ≤ k

theorem Moved.zero (h : Rep arena (r.setList p l) D) (hq : r.q = s.q) (hc : r.cfreecount = s.cfreecount)
    (hf : 0 < bs.length → r.cfreelist = 0) : Moved arena s r D p l bs 0 l.cl where
  le := Nat.zero_le _
  lists := hq
  rep := by rwa [List.take_zero, List.append_nil, Function.update_eq_self, Int.natCast_zero, Int.add_zero]
  short hlt := ⟨hf hlt, Int.le_of_eq (hc.symm.trans (h.count_eq_zero (hf hlt)))⟩

theorem Moved.next {t : Clists} {cq : Nat}
    (h : Moved arena t r (Function.update D p (D p ++ bs.take m)) p ⟨l.cc + m, l.cf, a⟩ (bs.drop m) n cq)
    (hm : m ≤ bs.length) (hq : t.q = s.q) (hs : m < bs.length → s.cfreecount ≤ t.cfreecount + m) :
    Moved arena s r D p l bs (m + n) cq where
  le := by
    have := h.le
    rw [List.length_drop] at this
    omega
  lists := h.lists.trans hq
  rep := by
    have := h.rep
    rwa [Function.update_self, Function.update_idem, List.append_assoc, ← List.take_add, Int.add_assoc,
      ← Int.natCast_add] at this
  short hlt := by
    obtain ⟨hf, hc⟩ := h.short (by rw [List.length_drop]; omega)
    have := hs (by omega)
    exact ⟨hf, by omega⟩

theorem Rep.bToQLoop {l : Clist} (h : Rep arena (s.setList p l) D) (hp : D p ≠ []) (hn : bs.length ≤ n) :
    ∃ k r cq, Clists.bToQLoop n bs l.cl s = some (bs.drop k, cq, r) ∧ Moved arena s r D p l bs k cq := by
  induction n generalizing bs s D l with
  | zero =>
    obtain rfl := List.eq_nil_of_length_eq_zero (Nat.le_zero.mp hn)
    exact ⟨0, s, l.cl, by rw [Clists.bToQLoop]; rfl, Moved.zero h rfl rfl fun hlt => absurd hlt (Nat.lt_irrefl _)⟩
  | succ n ih =>
    cases hbs : bs with
    | nil => exact ⟨0, s, l.cl, by rw [Clists.bToQLoop]; rfl, Moved.zero h rfl rfl fun hlt => absurd hlt (Nat.lt_irrefl _)⟩
    | cons b bs' =>
      have hpos : 0 < bs.length := by
        rw [hbs]
        exact Nat.succ_pos _
      have hlowlt : low l.cl < cblock := Nat.mod_lt _ (by decide)
      have hq : (s.setList p l).q p = l := Function.update_self _ _ _
      have hne {m : Nat} : Function.update D p (D p ++ bs.take m) p ≠ [] := by
        rw [Function.update_self]
        exact List.append_ne_nil_of_left_ne_nil hp _
      rw [Clists.bToQLoop, ← hbs]
      dsimp only
      split
      next hlow =>
        split
        next hf =>
          have hrep := h.setNext (p := p) (a := s.cfreelist) hp (by rwa [hq])
          rw [hq] at hrep
          exact ⟨0, _, _, rfl, Moved.zero hrep rfl rfl fun _ => hf⟩
        next hf =>
          have hli : low (info s.cfreelist) = 4 := h.low_info hf
          rw [hli]
          generalize hk : min bs.length (cblock - 4) = k
          have hlen : (bs.take k).length = k := by
            rw [List.length_take]
            omega
          have hrep := h.next_block (bs.take k) hp (by rwa [hq]) hf (by rw [hlen, ← hk, cblock]; omega) (by
            rw [hlen, cbsize]
            omega)
          rw [hq, hlen, setList_next_block] at hrep
          change Rep arena (((s.setNext (l.cl - cblock) s.cfreelist).takeBlock.store (info s.cfreelist)
            (bs.take k)).setList p ⟨l.cc + k, l.cf, info s.cfreelist + k⟩) _ at hrep
          obtain ⟨k', r, cq, hloop, hmoved⟩ := ih hrep hne (show (bs.drop k).length ≤ n by
            rw [List.length_drop, ← hk, cblock]
            omega)
          refine ⟨k + k', r, cq, by rw [hloop, List.drop_drop], hmoved.next (by omega) rfl fun hlt => ?_⟩
          rw [cblock] at hk
          simp only [Clists.store, Clists.takeBlock, Clists.setNext, cbsize, cblock]
          omega
      next hlow =>
        generalize hk : min bs.length (cblock - low l.cl) = k
        have hlen : (bs.take k).length = k := by
          rw [List.length_take]
          omega
        have hrep := h.store (bs.take k) hp (by rwa [hq]) (by rw [hlen, hq]; omega)
        rw [hq, hlen, setList_store] at hrep
        obtain ⟨k', r, cq, hloop, hmoved⟩ := ih hrep hne (show (bs.drop k).length ≤ n by
          rw [List.length_drop]
          omega)
        refine ⟨k + k', r, cq, by rw [hloop, List.drop_drop], hmoved.next (by omega) rfl fun _ => ?_⟩
        simp only [Clists.store]
        omega

theorem Rep.bToQFrom (h : Rep arena (s.setList p l) D) (hp : D p ≠ []) (hq : s.q p = l) :
    ∃ k r, s.bToQFrom bs p l.cl = some (bs.length - k, r) ∧ k ≤ bs.length ∧
      Rep arena r (Function.update D p (D p ++ bs.take k)) ∧
      (k < bs.length → r.cfreelist = 0 ∧ s.cfreecount ≤ k) := by
  obtain ⟨k, r, cq, hloop, hm⟩ := h.bToQLoop hp (Nat.le_refl bs.length)
  have hk := hm.le
  refine ⟨k, _, ?_, hk, hm.rep, hm.short⟩
  rw [Clists.bToQFrom, hloop, Option.map_some]
  dsimp only
  rw [hm.lists, hq, List.length_drop, show (bs.length : Int) - ((bs.length - k : Nat) : Int) = k by omega]

theorem bToQLoop_within {cq : Nat} (hbs : 0 < bs.length) (hlow : low cq ≠ 0)
    (hk : min bs.length (cblock - low cq) = m) :
    Clists.bToQLoop bs.length bs cq s =
      Clists.bToQLoop (bs.length - 1) (bs.drop m) (cq + m) (s.store cq (bs.take m)) := by
  obtain ⟨b, bs, rfl⟩ := List.exists_cons_of_length_pos hbs
  rw [List.length_cons, Clists.bToQLoop, if_neg hlow, ← hk]
  rfl

theorem Rep.eq_null (h : Rep arena s D) (hp : D p = []) : s.q p = .null := by
  obtain ⟨cs, free, own, h⟩ := h
  exact h.eq_null hp

theorem Rep.bToQ_first (h : Rep arena s D) (hp : D p = []) (hf : s.cfreelist ≠ 0) (hbs : 0 < bs.length) :
    ∃ k r, (s.takeBlock.setList p ⟨0, info s.cfreelist, 0⟩).bToQFrom bs p (info s.cfreelist) =
        some (bs.length - k, r) ∧ k ≤ bs.length ∧
      Rep arena r (Function.update D p (D p ++ bs.take k)) ∧ (k < bs.length → r.cfreelist = 0 ∧ s.cfreecount ≤ k) := by
  have hlow := h.low_info hf
  have hroom : cblock - low (info s.cfreelist) = cbsize := by rw [hlow, cbsize]
  generalize hm : min bs.length (cblock - low (info s.cfreelist)) = m
  have hlen : (bs.take m).length = m := by
    rw [List.length_take]
    omega
  have hpos : 0 < m := by
    rw [← hm, hroom, cbsize, cblock]
    omega
  have hrep := h.first_block (bs.take m) hp hf (by omega) (by omega)
  rw [hlen, ← setList_store (x := ⟨0, info s.cfreelist, 0⟩)] at hrep
  obtain ⟨k, r, cq, hloop, hmoved⟩ := hrep.bToQLoop (by
    rw [Function.update_self]
    exact List.ne_nil_of_length_pos (by omega)) (show (bs.drop m).length ≤ bs.length - 1 by
      rw [List.length_drop]
      omega)
  have hle := hmoved.le
  have hr := hmoved.rep
  rw [List.length_drop] at hle
  rw [Function.update_self, Function.update_idem, ← List.take_add, ← Int.natCast_add] at hr
  refine ⟨m + k, r.setList p ⟨(m + k : Nat), info s.cfreelist, cq⟩, ?_, by omega, ?_, fun hlt => ?_⟩
  · rw [Clists.bToQFrom, bToQLoop_within hbs (by omega) hm, hloop, Option.map_some]
    dsimp only
    rw [hmoved.lists, List.drop_drop, List.length_drop]
    have hq : ((s.takeBlock.setList p ⟨0, info s.cfreelist, 0⟩).store (info s.cfreelist) (bs.take m)).q p =
        ⟨0, info s.cfreelist, 0⟩ := Function.update_self _ _ _
    rw [hq, show (0 : Int) + ((bs.length : Int) - ((bs.length - (m + k) : Nat) : Int)) = (m + k : Nat) by omega]
  · rw [hp, List.nil_append]
    exact hr
  · obtain ⟨hfree, hcount⟩ := hmoved.short (by rw [List.length_drop]; omega)
    refine ⟨hfree, ?_⟩
    simp only [Clists.store, Clists.setList, Clists.takeBlock, Clists.setNext] at hcount
    omega

theorem Rep.bToQ (bs : List Byte) (p : ListId) (h : Rep arena s D) :
    ∃ k r, s.bToQ bs p = some (bs.length - k, r) ∧ k ≤ bs.length ∧
      Rep arena r (Function.update D p (D p ++ bs.take k)) ∧ (k < bs.length → r.cfreelist = 0 ∧ s.cfreecount ≤ k) := by
  have hcc := h.cc_eq (p := p)
  have hcl := h.cl_ne_zero (p := p)
  have hrefl : Rep arena s (Function.update D p (D p ++ bs.take 0)) := by
    rwa [List.take_zero, List.append_nil, Function.update_eq_self]
  rw [Clists.bToQ]
  dsimp only
  split
  next hz => exact ⟨0, s, by rw [hz], Nat.zero_le _, hrefl, fun hlt => absurd hlt (by omega)⟩
  next hbs =>
  split
  next hnew =>
    have hp : D p = [] := by
      rcases hnew with hz | hneg
      · exact hcl.mp hz
      · omega
    split
    next hf => exact ⟨0, s, rfl, Nat.zero_le _, hrefl, fun _ => ⟨hf, Int.le_of_eq (h.count_eq_zero hf)⟩⟩
    next hf =>
      rw [h.eq_null hp]
      exact h.bToQ_first hp hf (Nat.pos_of_ne_zero hbs)
  next hold =>
    have hp : D p ≠ [] := fun he => hold (.inl (hcl.mpr he))
    refine Rep.bToQFrom ?_ hp rfl
    rwa [Clists.setList, Function.update_eq_self]

end Back

section Last

theorem beforeBlock_chain (hl : (ks ++ [e, c]).IsChain (Chunk.Linked s)) (hnodup : (blocks (ks ++ [e, c])).Nodup)
    (hhead : (ks ++ [e, c]).head? = some d) (hn : ks.length < n) : s.beforeBlock c.block n d.block = some e.block := by
  induction ks generalizing n d with
  | nil =>
    cases Option.some.inj hhead
    obtain ⟨⟨hnext, -⟩, -⟩ := List.isChain_cons_cons.mp hl
    obtain ⟨n, rfl⟩ := Nat.exists_eq_succ_of_ne_zero (Nat.ne_of_gt hn)
    rw [Clists.beforeBlock, if_pos hnext]
  | cons k ks ih =>
    cases Option.some.inj hhead
    obtain ⟨n, rfl⟩ := Nat.exists_eq_succ_of_ne_zero (Nat.ne_of_gt (Nat.lt_of_le_of_lt (Nat.zero_le _) hn))
    obtain ⟨x, xs, hxs⟩ := List.exists_cons_of_ne_nil (by simp : ks ++ [e, c] ≠ [])
    rw [List.cons_append, hxs] at hl hnodup
    obtain ⟨⟨hnext, -⟩, hl⟩ := List.isChain_cons_cons.mp hl
    have hnodup' := (List.nodup_cons.mp hnodup).2
    have hcx : c ∈ xs := by
      cases ks <;> cases hxs <;> simp
    have hxc : x.block ≠ c.block := fun heq =>
      (List.nodup_cons.mp hnodup').1 (heq ▸ List.mem_map_of_mem hcx)
    rw [Clists.beforeBlock, hnext, if_neg hxc]
    refine ih (by rwa [hxs]) (by rwa [hxs]) (by rw [hxs]; rfl) ?_
    rw [List.length_cons] at hn
    omega

theorem length_le_flatMap (h : ∀ k ∈ ks, 0 < k.bytes.length) : ks.length ≤ (ks.flatMap Chunk.bytes).length := by
  induction ks with
  | nil => exact Nat.le_refl _
  | cons k ks ih =>
    have := h k List.mem_cons_self
    have := ih fun x hx => h x (List.mem_cons_of_mem _ hx)
    rw [List.flatMap_cons, List.length_append, List.length_cons]
    omega

theorem Holds.byte_last (h : Holds s l (ks ++ [c]) bs) : bs.getLast? = some (s.byte (l.cl - 1)) := by
  have hok := h.ok c (by simp)
  have hne : c.bytes ≠ [] := List.ne_nil_of_length_pos hok.nonempty
  have hlast : c.bytes.getLast? = some (s.byte (l.cl - 1)) := by
    rw [← hok.bytes, List.getLast?_eq_getElem?, length_load, List.getElem?_eq_getElem (by
      rw [length_load]
      exact Nat.sub_lt hok.nonempty Nat.one_pos), getElem_load, h.cl_eq, Chunk.start, info,
      Nat.add_sub_assoc hok.nonempty]
  rw [← h.content, List.flatMap_append, List.flatMap_singleton, List.getLast?_append_of_ne_nil _ hne, hlast]

theorem Inv.unlink (h : Inv arena s cs free own D) (hc : cs p = ks ++ [e, c]) (hlen : c.bytes.length = 1) :
    Rep arena (((s.setList p ⟨(s.q p).cc - 1, (s.q p).cf, e.block + cblock⟩).putBlock c.block).setNext e.block 0)
      (Function.update D p (D p).dropLast) := by
  have hh := h.holds p
  have hnodup := h.nodup p
  rw [hc] at hh hnodup
  rw [blocks, List.map_append, List.nodup_append] at hnodup
  obtain ⟨-, hec, hks⟩ := hnodup
  have hne : e.block ≠ c.block := by simpa using hec
  have hke : ∀ k ∈ ks, k.block ≠ e.block := fun k hk => hks _ (List.mem_map_of_mem hk) _ (by simp)
  have hkc : ∀ k ∈ ks, k.block ≠ c.block := fun k hk => hks _ (List.mem_map_of_mem hk) _ (by simp)
  have hnext : ∀ x, x ≠ e.block → x ≠ c.block →
      (((s.setList p ⟨(s.q p).cc - 1, (s.q p).cf, e.block + cblock⟩).putBlock c.block).setNext e.block 0).next x =
        s.next x := fun x he hx => (Function.update_of_ne he _ _).trans (Function.update_of_ne hx _ _)
  have hperm : (blocks (cs p)).Perm (c.block :: blocks (ks ++ [e])) := by
    have hmap : blocks (ks ++ [e, c]) = blocks (ks ++ [e]) ++ [c.block] := by simp [blocks]
    rw [hc, hmap]
    exact List.perm_append_singleton _ _
  refine ⟨_, _, _, h.release rfl hperm (fun x hx => hnext x ?_ ?_) ?_ rfl rfl rfl
    (hh.unlink hlen (fun k hk => hnext _ (hke k hk) (hkc k hk)) rfl)⟩
  · rintro rfl
    exact hx (by rw [hc]; exact List.mem_map_of_mem (by simp))
  · rintro rfl
    exact hx (by rw [hc]; exact List.mem_map_of_mem (by simp))
  · exact (Function.update_of_ne hne.symm _ _).trans (Function.update_self _ _ _)

theorem Holds.off_last (h : Holds s l (ks ++ [c]) bs) (hks : ks ≠ []) : c.off = 0 := by
  obtain ⟨-, -, hl⟩ := List.isChain_append.mp h.links
  exact (hl _ (List.getLast?_eq_getLast_of_ne_nil hks) c rfl).2.2

theorem Rep.unputc (signed : Bool) (p : ListId) (h : Rep arena s D) :
    ∃ r, s.unputc signed p = some (((D p).getLast?.map (Clists.charValue signed)).getD (-1), r) ∧
      Rep arena r (Function.update D p (D p).dropLast) := by
  have hcc := h.cc_eq (p := p)
  rw [Clists.unputc]
  dsimp only
  split
  next hle =>
    have hp : D p = [] := List.eq_nil_of_length_eq_zero (by omega)
    refine ⟨s, by rw [hp]; rfl, ?_⟩
    rwa [hp, List.dropLast_nil, ← hp, Function.update_eq_self]
  next hgt =>
  have hp : D p ≠ [] := List.ne_nil_of_length_pos (by omega)
  obtain ⟨cs, free, own, h⟩ := h
  obtain ⟨ks, c, hc, hal, hcl, hok, hals, hne⟩ := h.exists_last hp
  have hh := h.holds p
  rw [hc] at hh
  have hfits := hok.fits
  have hpos := hok.nonempty
  have hcount := hh.length_concat
  have hnum := length_le_flatMap fun k hk => (hh.ok k (List.mem_append_left _ hk)).nonempty
  rw [hh.byte_last]
  have hlast : (s.q p).cl - 1 = c.block + (4 + c.off + c.bytes.length - 1) := by omega
  have hsmall : 4 + c.off + c.bytes.length - 1 < cblock := by
    simp only [cbsize, cblock] at *
    omega
  have hbase : base ((s.q p).cl - 1) = c.block := by rw [hlast, base_eq hal.2 hsmall]
  have hlow : low ((s.q p).cl - 1) = 4 + c.off + c.bytes.length - 1 := by
    rw [hlast, low_eq hal.2, Nat.mod_eq_of_lt hsmall]
  rw [hbase, hlow]
  split
  next hone =>
    -- The only chunk has the only character.
    obtain rfl : ks = [] := List.eq_nil_of_length_eq_zero (by omega)
    have hdrop : (D p).drop c.bytes.length = [] := hh.drop_first
    have hfree := h.free_first (l := .null) hc (by rw [hdrop]; exact .null)
    rw [hdrop] at hfree
    rw [show (s.q p).cc - 1 = 0 by omega, List.dropLast_eq_take, show (D p).length - 1 = 0 by omega, List.take_zero]
    exact ⟨_, rfl, _, _, _, hfree⟩
  next hmore =>
  have hks : c.bytes.length = 1 → ks ≠ [] := by
    rintro hone rfl
    simp only [List.flatMap_nil, List.length_nil] at hcount
    omega
  split
  next hfour =>
    obtain ⟨ks, e, rfl⟩ := (List.eq_nil_or_concat' ks).resolve_left (hks (by omega))
    have hassoc : ks ++ [e] ++ [c] = ks ++ [e, c] := by simp
    have hnodup := h.nodup p
    rw [hc, hassoc] at hnodup
    rw [hassoc] at hc hh
    obtain ⟨d, rest, hd⟩ := List.exists_cons_of_ne_nil (by simp : ks ++ [e, c] ≠ [])
    obtain ⟨hfirst, -⟩ := h.first_stop (hc.trans hd)
    have hbefore := beforeBlock_chain hh.links hnodup (by rw [hd]; rfl : _ = some d) (n := (s.q p).cc.toNat) (by
      rw [List.length_append, List.length_singleton] at hnum
      omega)
    obtain ⟨-, -, hl⟩ := List.isChain_append.mp (hassoc ▸ hh.links)
    have hnext : s.next e.block = c.block := (hl e (by simp) c rfl).1
    rw [hfirst, hbefore, Option.map_some, hnext]
    exact ⟨_, rfl, h.unlink hc (by omega)⟩
  next hfour =>
    have hlen : 1 < c.bytes.length := by
      by_contra hle
      have := hh.off_last (hks (by omega))
      omega
    refine ⟨_, rfl, _, _, _, h.rewrite rfl (fun _ _ => rfl) (fun _ _ _ _ _ _ => rfl) rfl rfl
      ((hh.chop hlen).congr (fun _ _ => rfl) fun _ _ _ _ => rfl) ?_⟩
    rw [hc, blocks, blocks, List.map_append, List.map_append]
    rfl

end Last

end MachVM.Tty
