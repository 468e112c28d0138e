import MachVM.ClistBack
import MachVM.Lib.Run

namespace MachVM.Tty

open Machine

variable {arena : Nat → Prop} {s r : Clists} {cs : ListId → List Chunk} {free : List Nat} {own : Nat → Option ListId}
  {D : ListId → List Byte} {p q src dst : ListId} {bs : List Byte} {a b n : Nat} {signed : Bool}

section Catq

theorem Inv.move (h : Inv arena s cs free own D) (hne : src ≠ dst) (hto : D dst = []) :
    Inv arena ((s.setList dst (s.q src)).setList src .null)
      (Function.update (Function.update cs dst (cs src)) src []) free
      (fun b => if own b = some src then some dst else own b)
      (Function.update (Function.update D src []) dst (D dst ++ D src)) := by
  have hcs : cs dst = [] := by
    have hh := h.holds dst
    cases hc : cs dst with
    | nil => rfl
    | cons c ks =>
      rw [hc] at hh
      have := hh.length_eq
      have := (hh.ok c List.mem_cons_self).nonempty
      simp only [hto, List.length_nil] at *
      omega
  have hown : ∀ b, arena b → own b ≠ some dst := fun b hb ho => by
    have := (h.memList dst b).mpr ⟨hb, ho⟩
    rw [hcs] at this
    cases this
  refine ⟨fun q => ?_, h.chain, h.count, fun q => ?_, h.freeNodup, fun b => ?_, fun q b => ?_, h.aligned⟩
  · refine Holds.congr (s := s) ?_ (fun _ _ => rfl) fun _ _ _ _ => rfl
    simp only [Clists.setList]
    by_cases hqf : q = src
    · subst hqf
      rw [Function.update_self, Function.update_self, Function.update_of_ne hne, Function.update_self]
      exact .null
    · by_cases hqt : q = dst
      · subst hqt
        rw [Function.update_of_ne hqf, Function.update_self, Function.update_of_ne hqf, Function.update_self,
          Function.update_self, hto]
        exact h.holds src
      · rw [Function.update_of_ne hqf, Function.update_of_ne hqt, Function.update_of_ne hqf,
          Function.update_of_ne hqt, Function.update_of_ne hqt, Function.update_of_ne hqf]
        exact h.holds q
  · by_cases hqf : q = src
    · rw [hqf, Function.update_self]
      exact List.nodup_nil
    · by_cases hqt : q = dst
      · rw [Function.update_of_ne hqf, hqt, Function.update_self]
        exact h.nodup src
      · rw [Function.update_of_ne hqf, Function.update_of_ne hqt]
        exact h.nodup q
  · rw [h.memFree b]
    split
    next ho => simp [ho]
    next => rfl
  · by_cases hqf : q = src
    · subst hqf
      rw [Function.update_self]
      split
      next => simp [Ne.symm hne]
      next ho => simp [ho]
    · by_cases hqt : q = dst
      · subst hqt
        rw [Function.update_of_ne hqf, Function.update_self, h.memList src b]
        split
        next ho => simp [ho]
        next ho =>
          refine and_congr_right fun hb => ?_
          simp [ho, hown b hb]
      · rw [Function.update_of_ne hqf, Function.update_of_ne hqt, h.memList q b]
        split
        next ho => simp [ho, Ne.symm hqf, Ne.symm hqt]
        next => rfl

theorem catqLoop_stop (h : (s.q src).cc ≤ 0) : Clists.catqLoop src dst n s = some s := by
  rw [Clists.catqLoop.eq_def]
  exact if_neg (Int.not_lt.mpr h)

theorem Rep.catq_step (h : Rep arena s D) (hne : src ≠ dst) :
    ∃ r t k, s.qToB src (cbsize * 4) = some ((D src).take (cbsize * 4), r) ∧
      r.bToQ ((D src).take (cbsize * 4)) dst = some (k, t) ∧
      Rep arena t (Function.update (Function.update D src ((D src).drop (cbsize * 4))) dst
        (D dst ++ (D src).take (cbsize * 4))) := by
  obtain ⟨r, hr, hrep, hcount⟩ := h.qToB (p := src) (cbsize * 4 : Nat)
  rw [Int.toNat_natCast] at hr hrep hcount
  obtain ⟨k, t, ht, hk, hrep', hshort⟩ := hrep.bToQ ((D src).take (cbsize * 4)) dst
  rw [Function.update_of_ne hne.symm] at hrep'
  have hall : ¬ k < ((D src).take (cbsize * 4)).length := by
    intro hlt
    obtain ⟨-, hfew⟩ := hshort hlt
    obtain ⟨x, hx⟩ := h.exists_count
    obtain ⟨y, hy⟩ := hrep.exists_count
    have hs := h.place_ge (p := src)
    have hrcc := hrep.cc_eq (p := src)
    rw [Function.update_self, List.length_drop] at hrcc
    rw [List.length_take] at hcount hlt
    simp only [cbsize, cblock] at *
    by_cases hrest : (D src).length ≤ 240
    · have : place r src = 4 := if_pos (by omega)
      omega
    · have : place r src < cblock := place_lt
      rw [cblock] at this
      omega
  rw [List.take_of_length_le (by omega)] at hrep'
  exact ⟨r, t, _, hr, ht, hrep'⟩

theorem Rep.catqLoop (h : Rep arena s D) (hne : src ≠ dst) (hn : (D src).length ≤ n) :
    ∃ r, Clists.catqLoop src dst n s = some r ∧
      Rep arena r (Function.update (Function.update D src []) dst (D dst ++ D src)) := by
  have hempty {s : Clists} {D : ListId → List Byte} {n : Nat} (h : Rep arena s D) (hp : D src = []) :
      ∃ r, Clists.catqLoop src dst n s = some r ∧
        Rep arena r (Function.update (Function.update D src []) dst (D dst ++ D src)) := by
    refine ⟨s, catqLoop_stop (by rw [h.cc_eq, hp]; simp), ?_⟩
    rwa [hp, List.append_nil, ← hp, Function.update_eq_self, Function.update_eq_self]
  induction n generalizing s D with
  | zero => exact hempty h (List.eq_nil_of_length_eq_zero (Nat.le_zero.mp hn))
  | succ n ih =>
    by_cases hp : D src = []
    · exact hempty h hp
    · have hpos := List.length_pos_iff.mpr hp
      obtain ⟨r, t, k, hr, ht, hrep⟩ := h.catq_step hne
      obtain ⟨u, hu, hrep'⟩ := ih hrep (by
        rw [Function.update_of_ne hne, Function.update_self, List.length_drop]
        simp only [cbsize, cblock]
        omega)
      refine ⟨u, ?_, ?_⟩
      · rw [Clists.catqLoop.eq_def]
        dsimp only
        rw [if_pos (by rw [h.cc_eq]; omega), hr, Option.bind_some]
        dsimp only
        rw [ht, Option.bind_some, hu]
      · have heq : ∀ w : List Byte,
            Function.update (Function.update (Function.update (Function.update D src ((D src).drop (cbsize * 4))) dst w)
              src []) dst (D dst ++ D src) = Function.update (Function.update D src []) dst (D dst ++ D src) := by
          intro w
          rw [Function.update_comm hne, Function.update_idem, Function.update_comm hne.symm,
            Function.update_idem, Function.update_comm hne]
        rwa [Function.update_self, Function.update_of_ne hne, Function.update_self, List.append_assoc,
          List.take_append_drop, heq] at hrep'

theorem Rep.catq (h : Rep arena s D) (hne : src ≠ dst) :
    ∃ r, s.catq src dst = some r ∧
      Rep arena r (Function.update (Function.update D src []) dst (D dst ++ D src)) := by
  have hcc := h.cc_eq (p := dst)
  rw [Clists.catq]
  split
  next hz =>
    obtain ⟨cs, free, own, h⟩ := h
    exact ⟨_, rfl, _, _, _, h.move hne (List.eq_nil_of_length_eq_zero (by omega))⟩
  next =>
    refine h.catqLoop hne ?_
    rw [h.cc_eq, Int.toNat_natCast]

end Catq

section Cinit

/-- The blocks of memory from `start` to `stop`. -/
def Arena (start stop b : Nat) : Prop := start ≤ b ∧ b < stop ∧ b % cblock = 0

theorem cinit_block {start cp : Nat} (hstart : 0 < start) (hle : start ≤ cp) (hcp : cp % cblock = 0)
    (h : Inv (Arena start cp) s (fun _ => []) free (fun _ => none) fun _ => []) :
    Inv (Arena start (cp + cblock)) (s.putBlock cp) (fun _ => []) (cp :: free) (fun _ => none) fun _ => [] := by
  have hcf : cp ∉ free := fun hm => by
    have := ((h.memFree cp).mp hm).1.2.1
    omega
  have hnext : (s.putBlock cp).next cp = s.cfreelist := Function.update_self _ _ _
  refine ⟨fun p => ?_, ⟨rfl, ?_⟩, ?_, fun _ => List.nodup_nil, List.nodup_cons.mpr ⟨hcf, h.freeNodup⟩,
    fun b => ?_, fun p b => by simp, fun b hb => ⟨?_, hb.2.2⟩⟩
  · exact (h.holds p).congr (fun _ hm => absurd hm List.not_mem_nil) fun _ hm => absurd hm List.not_mem_nil
  · rw [hnext]
    refine h.chain.congr fun b hb => putBlock_next ?_
    rintro rfl
    exact hcf hb
  · simp only [Clists.putBlock, Clists.setNext, h.count, List.length_cons, cbsize, cblock]
    omega
  · rw [List.mem_cons, h.memFree b]
    simp only [Arena, cblock, and_true] at *
    omega
  · have := hb.1
    omega

theorem cinitLoop_inv {start stop cp : Nat} (hstart : 0 < start) (hle : start ≤ cp) (hcp : cp % cblock = 0)
    (hs : cp = start ∨ cp < stop + cblock) (hn : stop ≤ cp + cblock * n)
    (h : Inv (Arena start cp) s (fun _ => []) free (fun _ => none) fun _ => []) :
    Rep (Arena start stop) (cinitLoop stop n cp s) fun _ => [] := by
  have hdone (hge : stop ≤ cp) : Rep (Arena start stop) s fun _ => [] := by
    have heq : Arena start cp = Arena start stop := by
      funext b
      simp only [Arena, cblock, eq_iff_iff] at *
      omega
    exact ⟨_, _, _, heq ▸ h⟩
  induction n generalizing cp s free with
  | zero => exact hdone (by omega)
  | succ n ih =>
    rw [cinitLoop]
    split
    next hlt =>
      have hblock := cinit_block hstart hle hcp h
      have hal : (cp + cblock) % cblock = 0 := by rw [Nat.add_mod_right, hcp]
      refine ih (by omega) hal (.inr (by omega)) (by rw [Nat.mul_succ] at hn; omega) hblock fun hge => ?_
      have heq : Arena start (cp + cblock) = Arena start stop := by
        funext b
        simp only [Arena, cblock, eq_iff_iff] at *
        omega
      exact ⟨_, _, _, heq ▸ hblock⟩
    next hge => exact hdone (by omega)

/-- The state after `cinit` has run over the `nclist` blocks of memory at `cfree`. -/
structure Started (cfree nclist : Nat) (s : Clists) : Prop where
  memory : 0 < cfree
  init : ∃ r : Clists, r.cfreelist = 0 ∧ r.cfreecount = 0 ∧ (∀ p, r.q p = .null) ∧ s = cinit cfree nclist r

/-- The blocks that `cinit` finds: from the first boundary on, but for the last of the array. -/
def CblockArena (cfree nclist : Nat) : Nat → Prop :=
  Arena (base (cfree + (cblock - 1))) (cfree + cblock * (nclist - 1))

theorem Started.rep {cfree nclist : Nat} (h : Started cfree nclist s) :
    Rep (CblockArena cfree nclist) s fun _ => [] := by
  obtain ⟨hmem, r, hf, hc, hq, rfl⟩ := h
  have hbase : base (cfree + (cblock - 1)) % cblock = 0 ∧ cfree ≤ base (cfree + (cblock - 1)) := by
    simp only [base, cblock]
    omega
  have hinv : Inv (Arena (base (cfree + (cblock - 1))) (base (cfree + (cblock - 1)))) r (fun _ => []) []
      (fun _ => none) fun _ => [] := by
    refine ⟨fun p => ?_, hf, hc, fun _ => List.nodup_nil, List.nodup_nil, fun b => ?_, fun p b => by simp, fun b hb => ?_⟩
    · rw [hq p]
      exact .null
    · simp only [List.not_mem_nil, Arena, and_true, false_iff]
      omega
    · have := hb.1
      have := hb.2.1
      omega
  refine cinitLoop_inv (by omega) (Nat.le_refl _) hbase.1 (.inl rfl) ?_ hinv
  have : cblock * (nclist - 1) ≤ cblock * nclist := Nat.mul_le_mul_left _ (Nat.sub_le _ _)
  omega

end Cinit

section Queues

/-- A queue of bytes for each list, after a call that has given the answer. -/
def nextQueues (D : ListId → List Byte) : Call → Answer → ListId → List Byte
  | .getc p, _ => Function.update D p (D p).tail
  | .qToB p cc, _ => Function.update D p ((D p).drop cc.toNat)
  | .ndflush p cc, _ => Function.update D p ((D p).drop cc.toNat)
  | .putc c p, a => if a = .int 0 then Function.update D p (D p ++ [c.setWidth 8]) else D
  | .bToQ bs p, .int left => Function.update D p (D p ++ bs.take (bs.length - left.toNat))
  | .bToQ _ _, _ => D
  | .unputc p, _ => Function.update D p (D p).dropLast
  | .catq src dst, _ => Function.update (Function.update D src []) dst (D dst ++ D src)

/-- The answer a queue of bytes gives. A call may fall short where the free list is empty after it. -/
def Answers (D : ListId → List Byte) (r : Clists) : Call → Answer → Prop
  | .getc p, a => a = .int (((D p).head?.map fun b => (b.toNat : Int)).getD (-1))
  | .qToB p cc, a => a = .bytes ((D p).take cc.toNat)
  | .ndflush _ _, a => a = .done
  | .putc _ _, a => a = .int 0 ∨ a = .int (-1) ∧ r.cfreelist = 0
  | .bToQ bs _, a => ∃ left : Nat, a = .int left ∧ left ≤ bs.length ∧ (left ≠ 0 → r.cfreelist = 0)
  | .unputc p, a => a = .int (((D p).getLast?.map fun b => (b.toNat : Int)).getD (-1))
  | .catq _ _, a => a = .done

/-- `catq` is for two lists. -/
def Call.Proper : Call → Prop
  | .catq src dst => src ≠ dst
  | _ => True

/-- A call and what becomes of the queues. -/
def step (signed : Bool) : Clists × (ListId → List Byte) → Call → Option (Clists × (ListId → List Byte))
  | (s, D), call => (exec signed s call).map fun (a, r) => (r, nextQueues D call a)

/-- The character comes back as the unsigned value it was put in with. -/
def Unsigned (signed : Bool) (D : ListId → List Byte) : Call → Prop
  | .unputc p => ∀ b, (D p).getLast? = some b → signed = true → b.toNat < 128
  | _ => True

theorem charValue_iff {b : Byte} : Clists.charValue signed b = (b.toNat : Int) ↔ (signed = true → b.toNat < 128) := by
  cases signed with
  | false => simp [Clists.charValue]
  | true =>
    simp only [Clists.charValue, if_true, true_imp_iff]
    rw [BitVec.toInt_eq_toNat_cond]
    have := b.isLt
    split <;> omega

theorem Rep.exec (signed : Bool) (h : Rep arena s D) {call : Call} (hc : call.Proper) :
    ∃ a r, exec signed s call = some (a, r) ∧ Rep arena r (nextQueues D call a) ∧
      (Answers D r call a ↔ Unsigned signed D call) := by
  cases call with
  | getc p =>
    obtain ⟨hr, ha⟩ := h.getc (p := p)
    exact ⟨_, _, rfl, hr, iff_of_true (by rw [ha]; rfl) trivial⟩
  | qToB p cc =>
    obtain ⟨r, hr, hrep, -⟩ := h.qToB (p := p) cc
    exact ⟨_, r, by rw [Tty.exec, hr]; rfl, hrep, iff_of_true rfl trivial⟩
  | ndflush p cc =>
    obtain ⟨r, hr, hrep⟩ := h.ndflush (p := p) cc
    exact ⟨_, r, by rw [Tty.exec, hr]; rfl, hrep, iff_of_true rfl trivial⟩
  | putc c p =>
    rcases h.putc (p := p) c with ⟨ha, hrep⟩ | ⟨ha, hf, hrep⟩
    · refine ⟨_, _, rfl, ?_, iff_of_true (.inl (by rw [ha])) trivial⟩
      rw [ha]
      exact hrep
    · refine ⟨_, _, rfl, ?_, iff_of_true (.inr ⟨by rw [ha], hf⟩) trivial⟩
      rw [ha]
      exact hrep
  | bToQ bs p =>
    obtain ⟨k, r, hr, hk, hrep, hshort⟩ := h.bToQ bs p
    refine ⟨_, r, by rw [Tty.exec, hr]; rfl, ?_, iff_of_true ⟨_, rfl, Nat.sub_le _ _, fun hne => ?_⟩ trivial⟩
    · rw [nextQueues, Int.toNat_natCast, Nat.sub_sub_self hk]
      exact hrep
    · exact (hshort (by omega)).1
  | unputc p =>
    obtain ⟨r, hr, hrep⟩ := h.unputc signed p
    refine ⟨_, r, by rw [Tty.exec, hr]; rfl, hrep, ?_⟩
    rw [Answers, Unsigned]
    cases (D p).getLast? with
    | none => simp
    | some b => simp [charValue_iff]
  | catq src dst =>
    obtain ⟨r, hr, hrep⟩ := h.catq hc
    exact ⟨_, r, by rw [Tty.exec, hr]; rfl, hrep, iff_of_true rfl trivial⟩

/-- The lists hold the queues `D`, each block is on the free list or in one list, and the blocks of the free list are
counted. -/
def Represents (arena : Nat → Prop) (s : Clists) (D : ListId → List Byte) : Prop :=
  ∃ (cs : ListId → List Chunk) (free : List Nat), (∀ p, Holds s (s.q p) (cs p) (D p)) ∧
    Links s.next s.cfreelist free ∧ free.Nodup ∧ s.cfreecount = cbsize * free.length ∧
    (∀ p, (blocks (cs p)).Nodup) ∧
    ∀ b, arena b → b ∈ free ∧ (∀ p, b ∉ blocks (cs p)) ∨ b ∉ free ∧ ∃! p, b ∈ blocks (cs p)

theorem Rep.represents (h : Rep arena s D) : Represents arena s D := by
  obtain ⟨cs, free, own, h⟩ := h
  refine ⟨cs, free, h.holds, h.chain, h.freeNodup, h.count, h.nodup, fun b hb => ?_⟩
  cases ho : own b with
  | none =>
    have hm := (h.memFree b).mpr ⟨hb, ho⟩
    exact .inl ⟨hm, fun p hp => h.not_free hp hm⟩
  | some p =>
    have hm := (h.memList p b).mpr ⟨hb, ho⟩
    refine .inr ⟨h.not_free hm, p, hm, fun q hq => ?_⟩
    exact Option.some.inj (((h.memList q b).mp hq).2.symm.trans ho)

/-- In every run the lists are queues of bytes and every call comes to its end with the answer of a queue, but that
`unputc` gives the value of a `char`. -/
theorem clists_are_queues {cfree nclist : Nat}
    (h : Reach (fun x => Started cfree nclist x.1 ∧ x.2 = fun _ => []) (step signed) (fun _ call => call.Proper) (s, D)) :
    Represents (CblockArena cfree nclist) s D ∧
      ∀ call : Call, call.Proper →
        ∃ a r, exec signed s call = some (a, r) ∧ (Answers D r call a ↔ Unsigned signed D call) := by
  have hrep : Rep (CblockArena cfree nclist) s D := by
    refine Reach.invariant (p := fun x => Rep (CblockArena cfree nclist) x.1 x.2) ?_ ?_ h
    · rintro ⟨s, D⟩ ⟨hs, rfl⟩
      exact hs.rep
    · rintro ⟨s, D⟩ call ⟨r, D'⟩ hrep hc hstep
      obtain ⟨a, t, he, ht, -⟩ := hrep.exec signed hc
      rw [step, he] at hstep
      cases Option.some.inj hstep
      exact ht
  refine ⟨hrep.represents, fun call hc => ?_⟩
  obtain ⟨a, r, he, -, ha⟩ := hrep.exec signed hc
  exact ⟨a, r, he, ha⟩

/-- Memory that is clear, as the loader leaves it. -/
def noClists : Clists where
  next _ := 0
  byte _ := 0
  cfreelist := 0
  cfreecount := 0
  cwaiting := false
  q _ := .null

theorem noClists_started : Started 64 3 (cinit 64 3 noClists) :=
  ⟨by decide, noClists, rfl, rfl, fun _ => rfl, rfl⟩

theorem noClists_reach :
    Reach (fun x => Started 64 3 x.1 ∧ x.2 = fun _ => []) (step true) (fun _ call => call.Proper)
      (cinit 64 3 noClists, fun _ => []) :=
  .start ⟨noClists_started, rfl⟩

instance (call : Call) : Decidable call.Proper :=
  match call with
  | .catq src dst => inferInstanceAs (Decidable (src ≠ dst))
  | .getc _ | .qToB _ _ | .ndflush _ _ | .putc _ _ | .bToQ _ _ | .unputc _ => .isTrue trivial

/-- One character more than a block has, from which the first and the last are taken, and another is put in. -/
def crossing : List Call := [.bToQ ((List.range 61).map (BitVec.ofNat 8)) 0, .getc 0, .unputc 0, .putc 70 0]

def crossed : Clists × (ListId → List Byte) :=
  (runIf (step true) (fun _ call => call.Proper) (cinit 64 3 noClists, fun _ => []) crossing).getD
    (cinit 64 3 noClists, fun _ => [])

theorem two_blocks_are_queues :
    crossed.2 0 = (List.range' 1 59).map (BitVec.ofNat 8) ++ [70] ∧ Represents (CblockArena 64 3) crossed.1 crossed.2 ∧
      ∃ a r, exec true crossed.1 (.unputc 0) = some (a, r) ∧ Answers crossed.2 r (.unputc 0) a := by
  have hrun : (runIf (step true) (fun _ call => call.Proper) (cinit 64 3 noClists, fun _ => []) crossing).isSome =
      true := by decide
  have hreach := noClists_reach.runD hrun
  have hd : crossed.2 0 = (List.range' 1 59).map (BitVec.ofNat 8) ++ [70] := by decide
  obtain ⟨a, r, he, ha⟩ := (clists_are_queues hreach).2 (.unputc 0) trivial
  refine ⟨hd, (clists_are_queues hreach).1, a, r, he, ha.mpr fun b hb _ => ?_⟩
  change (crossed.2 0).getLast? = some b at hb
  rw [hd, List.getLast?_append, List.getLast?_singleton] at hb
  cases hb
  decide

/-- List 0 with the one character 0377. -/
def fullByte : Clists := ((cinit 64 3 noClists).putc 255 0).2

theorem fullByte_reach :
    Reach (fun x => Started 64 3 x.1 ∧ x.2 = fun _ => []) (step true) (fun _ call => call.Proper)
      (fullByte, Function.update (fun _ => []) 0 [255]) :=
  noClists_reach.next (a := .putc 255 0) trivial rfl

/-- `unputc` gives -1 for it, as for an empty list. -/
theorem fullByte_negative :
    Reach (fun x => Started 64 3 x.1 ∧ x.2 = fun _ => []) (step true) (fun _ call => call.Proper)
      (fullByte, Function.update (fun _ => []) 0 [255]) ∧
    (exec true fullByte (.unputc 0)).map Prod.fst = some (.int (-1)) ∧
    ¬ Answers (Function.update (fun _ => []) 0 [255]) fullByte (.unputc 0) (.int (-1)) :=
  ⟨fullByte_reach, by decide, by simp [Answers]⟩

end Queues

end MachVM.Tty
