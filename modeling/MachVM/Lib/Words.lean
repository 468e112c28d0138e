import Mathlib.Algebra.Group.Nat.Defs

namespace Words

/-- A byte-addressed memory of 32-bit words, the low byte first. -/
abbrev Bytes := Nat → UInt8

def load32 (m : Bytes) (a : Nat) : Nat :=
  (m a).toNat + 2 ^ 8 * (m (a + 1)).toNat + 2 ^ 16 * (m (a + 2)).toNat + 2 ^ 24 * (m (a + 3)).toNat

def store32 (m : Bytes) (a v : Nat) : Bytes := fun x =>
  if x = a then UInt8.ofNat v
  else if x = a + 1 then UInt8.ofNat (v / 2 ^ 8)
  else if x = a + 2 then UInt8.ofNat (v / 2 ^ 16)
  else if x = a + 3 then UInt8.ofNat (v / 2 ^ 24)
  else m x

variable {m m' : Bytes} {a v x : Nat}

theorem load32_congr (h : ∀ i < 4, m' (a + i) = m (a + i)) : load32 m' a = load32 m a := by
  have h0 := h 0 (by omega)
  simp only [Nat.add_zero] at h0
  rw [load32, load32, h0, h 1 (by omega), h 2 (by omega), h 3 (by omega)]

theorem load32_store32 (hv : v < 2 ^ 32) : load32 (store32 m a v) a = v := by
  simp only [load32, store32, if_true, show a + 1 ≠ a by omega, show a + 2 ≠ a by omega, show a + 3 ≠ a by omega,
    show a + 2 ≠ a + 1 by omega, show a + 3 ≠ a + 1 by omega, show a + 3 ≠ a + 2 by omega, if_false,
    UInt8.toNat_ofNat']
  omega

theorem store32_of_ne (h : ∀ i < 4, x ≠ a + i) : store32 m a v x = m x := by
  have h0 := h 0 (by omega)
  simp only [Nat.add_zero] at h0
  rw [store32, if_neg h0, if_neg (h 1 (by omega)), if_neg (h 2 (by omega)), if_neg (h 3 (by omega))]

/-- A list that is linked through the first word of its elements and ends with a null word. -/
def Linked (m : Bytes) : Nat → List Nat → Prop
  | h, [] => h = 0
  | h, e :: l => h = e ∧ e ≠ 0 ∧ Linked m (load32 m e) l

theorem Linked.congr {h : Nat} {l : List Nat} (hl : Linked m h l)
    (hm : ∀ e ∈ l, ∀ i < 4, m' (e + i) = m (e + i)) : Linked m' h l := by
  induction l generalizing h with
  | nil => exact hl
  | cons e l ih =>
    obtain ⟨rfl, hne, hl⟩ := hl
    refine ⟨rfl, hne, ?_⟩
    rw [load32_congr (hm h List.mem_cons_self)]
    exact ih hl fun f hf => hm f (List.mem_cons_of_mem h hf)

theorem Linked.push {h e : Nat} {l : List Nat} (hl : Linked m h l) (hh : h < 2 ^ 32) (he : e ≠ 0)
    (hm : ∀ f ∈ l, ∀ i < 4, ∀ j < 4, f + i ≠ e + j) : Linked (store32 m e h) e (e :: l) := by
  refine ⟨rfl, he, ?_⟩
  rw [load32_store32 hh]
  exact hl.congr fun f hf i hi => store32_of_ne fun j hj => hm f hf i hi j hj

end Words
