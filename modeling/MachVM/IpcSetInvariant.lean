import MachVM.IpcSet

namespace MachVM.Ipc.Members

open Mirror

/-- A `set_destroy` that has its reference. -/
def Destroyer.running : Destroyer → Bool
  | .looping => true
  | .waiting _ => true
  | _ => false

structure MInv (s : MState) : Prop where
  members : ∀ x, Mirrors (s.set x).members fun p => (s.port p).set = some x
  receiver : ∀ p x, (s.port p).set = some x → (s.port p).receiver = .task (s.set x).owner
  portRefs : ∀ p, (s.port p).refs =
    (s.port p).held + (if (s.port p).set = none then 0 else 1) + (s.port p).gifts.length
  setRefs : ∀ x, (s.set x).refs =
    (s.set x).held + (s.set x).members.length + (if (s.set x).destroyer.running then 1 else 0)
  gifts : ∀ p, Mirrors (s.port p).gifts fun x =>
    (s.set x).destroyer = .waiting p ∧ (s.set x).traversal = none
  traversal : ∀ x p, (s.set x).traversal = some p →
    (s.set x).destroyer = .waiting p ∧ (s.port p).set = some x
  inUse : ∀ x, (s.set x).inUse = true → (s.set x).destroyer = .none
  returned : ∀ x, (s.set x).destroyer = .returned → (s.set x).members = []
  portLive : ∀ p, (s.port p).inUse = true → 0 < (s.port p).held
  setLive : ∀ x, (s.set x).inUse = true → 0 < (s.set x).held
  portFreed : ∀ p, (s.port p).freed = true → (s.port p).refs = 0
  setFreed : ∀ x, (s.set x).freed = true → (s.set x).refs = 0
  newPort : ∀ p, s.nextPort ≤ p → (s.port p).set = none ∧ (s.port p).gifts = [] ∧ (s.port p).held = 0
  newSet : ∀ x, s.nextSet ≤ x → (s.set x).members = [] ∧ (s.set x).destroyer = .none ∧ (s.set x).held = 0

variable {s s' : MState} {p : PortId} {x : SetId} {t : TaskId}

theorem mport_setPort (s : MState) (p p' : PortId) (a : MPort) :
    (s.setPort p a).port p' = if p' = p then a else s.port p' := Function.update_apply ..

theorem mset_setSet (s : MState) (x x' : SetId) (a : MSet) :
    (s.setSet x a).set x' = if x' = x then a else s.set x' := Function.update_apply ..

theorem noPorts_inv : MInv noPorts := by
  refine ⟨fun x => ⟨List.nodup_nil, ?_⟩, ?_, ?_, ?_, fun p => ⟨List.nodup_nil, ?_⟩, ?_, ?_, ?_, ?_, ?_, ?_, ?_,
    ?_, ?_⟩
  all_goals simp [noPorts, Destroyer.running]

/-! ## One port, one set -/

theorem MInv.setPort (h : MInv s) {a : MPort} (hset : a.set = (s.port p).set)
    (hgifts : a.gifts = (s.port p).gifts)
    (hreceiver : a.receiver = (s.port p).receiver ∨ (s.port p).set = none)
    (hrefs : a.refs - a.held = (s.port p).refs - (s.port p).held) (hlive : a.inUse = true → 0 < a.held)
    (hfreed : a.freed = true → a.refs = 0) (hnew : (s.port p).held = 0 → a.held = 0) :
    MInv (s.setPort p a) := by
  have hport := mport_setPort s p (a := a)
  have hsame : ∀ p', ((s.setPort p a).port p').set = (s.port p').set := by
    intro p'
    rw [hport]
    split
    next he =>
      rw [he]
      exact hset
    next => rfl
  refine ⟨fun y => (h.members y).congr fun p' => by rw [hsame], fun p' y hp => ?_, fun p' => ?_, h.setRefs,
    fun p' => ?_, fun y p' ht => ?_, h.inUse, h.returned, fun p' hu => ?_, h.setLive, fun p' hf => ?_, h.setFreed,
    fun p' hp => ?_, h.newSet⟩
  · rw [hsame] at hp
    rw [hport]
    split
    next he =>
      rw [he] at hp
      rcases hreceiver with hr | hr
      · rw [hr]
        exact h.receiver p y hp
      · rw [hr] at hp
        simp at hp
    next => exact h.receiver p' y hp
  · rw [hport]
    split
    next =>
      have := h.portRefs p
      rw [hset, hgifts]
      omega
    next => exact h.portRefs p'
  · rw [hport]
    split
    next he =>
      rw [hgifts, he]
      exact h.gifts p
    next => exact h.gifts p'
  · rw [hsame]
    exact h.traversal y p' ht
  · rw [hport] at hu ⊢
    split at hu
    next he =>
      rw [if_pos he]
      exact hlive hu
    next he =>
      rw [if_neg he]
      exact h.portLive p' hu
  · rw [hport] at hf ⊢
    split at hf
    next he =>
      rw [if_pos he]
      exact hfreed hf
    next he =>
      rw [if_neg he]
      exact h.portFreed p' hf
  · rw [hsame, hport]
    split
    next he =>
      obtain ⟨h1, h2, h3⟩ := h.newPort p' hp
      rw [he] at h2 h3
      rw [hgifts]
      exact ⟨h1, h2, hnew h3⟩
    next => exact h.newPort p' hp

theorem MInv.setSet (h : MInv s) {a : MSet} (hmembers : a.members = (s.set x).members)
    (howner : a.owner = (s.set x).owner)
    (hgift : ∀ p, a.destroyer = .waiting p ∧ a.traversal = none ↔
      (s.set x).destroyer = .waiting p ∧ (s.set x).traversal = none)
    (htraversal : ∀ p, a.traversal = some p → a.destroyer = .waiting p ∧ (s.port p).set = some x)
    (hrefs : a.refs - a.held - (if a.destroyer.running then 1 else 0) =
      (s.set x).refs - (s.set x).held - (if (s.set x).destroyer.running then 1 else 0))
    (hlive : a.inUse = true → 0 < a.held ∧ a.destroyer = .none)
    (hreturned : a.destroyer = .returned → (s.set x).members = [])
    (hfreed : a.freed = true → a.refs = 0)
    (hnew : (s.set x).held = 0 → s.nextSet ≤ x → a.destroyer = .none ∧ a.held = 0) :
    MInv (s.setSet x a) := by
  have hset := mset_setSet s x (a := a)
  have hsame : ∀ y, ((s.setSet x a).set y).members = (s.set y).members ∧
      ((s.setSet x a).set y).owner = (s.set y).owner ∧
      ∀ p, ((s.setSet x a).set y).destroyer = .waiting p ∧ ((s.setSet x a).set y).traversal = none ↔
        (s.set y).destroyer = .waiting p ∧ (s.set y).traversal = none := by
    intro y
    rw [hset]
    split
    next he =>
      rw [he]
      exact ⟨hmembers, howner, hgift⟩
    next => exact ⟨rfl, rfl, fun _ => .rfl⟩
  refine ⟨fun y => ?_, fun p y hp => ?_, h.portRefs, fun y => ?_,
    fun p => (h.gifts p).congr fun y => ((hsame y).2.2 p).symm, fun y p ht => ?_, fun y hu => ?_, fun y hd => ?_,
    h.portLive, fun y hu => ?_, h.portFreed, fun y hf => ?_, h.newPort, fun y hn => ?_⟩
  · rw [(hsame y).1]
    exact h.members y
  · rw [(hsame y).2.1]
    exact h.receiver p y hp
  · rw [(hsame y).1, hset]
    split
    next he =>
      have := h.setRefs x
      rw [he]
      omega
    next => exact h.setRefs y
  · rw [hset] at ht ⊢
    split at ht
    next he =>
      rw [if_pos he, he]
      exact htraversal p ht
    next he =>
      rw [if_neg he]
      exact h.traversal y p ht
  · rw [hset] at hu ⊢
    split at hu
    next he =>
      rw [if_pos he]
      exact (hlive hu).2
    next he =>
      rw [if_neg he]
      exact h.inUse y hu
  · rw [(hsame y).1]
    rw [hset] at hd
    split at hd
    next he =>
      rw [he]
      exact hreturned hd
    next => exact h.returned y hd
  · rw [hset] at hu ⊢
    split at hu
    next he =>
      rw [if_pos he]
      exact (hlive hu).1
    next he =>
      rw [if_neg he]
      exact h.setLive y hu
  · rw [hset] at hf ⊢
    split at hf
    next he =>
      rw [if_pos he]
      exact hfreed hf
    next he =>
      rw [if_neg he]
      exact h.setFreed y hf
  · rw [(hsame y).1, hset]
    refine ⟨(h.newSet y hn).1, ?_⟩
    split
    next he =>
      rw [he] at hn
      exact hnew (h.newSet x hn).2.2 hn
    next => exact (h.newSet y hn).2

theorem MInv.port_refs_nonneg (h : MInv s) (p : PortId) : 0 ≤ (s.port p).refs := by
  rw [h.portRefs p]
  split <;> omega

theorem MInv.set_refs_nonneg (h : MInv s) (x : SetId) : 0 ≤ (s.set x).refs := by
  rw [h.setRefs x]
  split <;> omega

theorem MInv.portCheck (h : MInv s) (p : PortId) : MInv (s.portCheck p) := by
  unfold MState.portCheck
  split
  next hz =>
    refine h.setPort rfl rfl (.inl rfl) rfl (h.portLive p) (fun _ => ?_) fun hn => hn
    exact Int.le_antisymm hz (h.port_refs_nonneg p)
  next => exact h

theorem MInv.setCheck (h : MInv s) (x : SetId) : MInv (s.setCheck x) := by
  unfold MState.setCheck
  split
  next hz =>
    refine h.setSet rfl rfl (fun _ => .rfl) (h.traversal x) rfl (fun hu => ⟨h.setLive x hu, h.inUse x hu⟩) (h.returned x)
      (fun _ => ?_) fun _ hn => (h.newSet x hn).2
    exact Int.le_antisymm hz (h.set_refs_nonneg x)
  next => exact h

/-! ## Membership -/

theorem MInv.held_pos_lt (h : MInv s) (hp : 0 < (s.port p).held) : p < s.nextPort := by
  by_contra hn
  have := (h.newPort p (Nat.le_of_not_lt hn)).2.2
  omega

theorem MInv.set_held_pos_lt (h : MInv s) (hx : 0 < (s.set x).held) : x < s.nextSet := by
  by_contra hn
  have := (h.newSet x (Nat.le_of_not_lt hn)).2.2
  omega

theorem MInv.not_freed (h : MInv s) (hp : 0 < (s.port p).refs) : (s.port p).freed = false := by
  by_contra hf
  have := h.portFreed p (by simpa using hf)
  omega

theorem MInv.set_not_freed (h : MInv s) (hx : 0 < (s.set x).refs) : (s.set x).freed = false := by
  by_contra hf
  have := h.setFreed x (by simpa using hf)
  omega

theorem MInv.setAddMember (h : MInv s) (hnone : (s.port p).set = none) (hlive : (s.port p).inUse = true)
    (hx : (s.set x).inUse = true) (hr : (s.port p).receiver = .task (s.set x).owner) :
    MInv (Members.setAddMember s x p) := by
  set s₁ := Members.setAddMember s x p with hs₁
  have hport : ∀ p', s₁.port p' = if p' = p then
      { s.port p with set := some x, refs := (s.port p).refs + 1 } else s.port p' :=
    fun p' => mport_setPort _ _ _ _
  have hset : ∀ y, s₁.set y = if y = x then
      { s.set x with members := (s.set x).members ++ [p], refs := (s.set x).refs + 1 } else s.set y :=
    fun y => mset_setSet _ _ _ _
  have hheld := h.portLive p hlive
  have hsame : ∀ y, (s₁.set y).traversal = (s.set y).traversal ∧ (s₁.set y).owner = (s.set y).owner ∧
      (s₁.set y).destroyer = (s.set y).destroyer ∧ (s₁.set y).inUse = (s.set y).inUse ∧
      (s₁.set y).held = (s.set y).held := by
    intro y
    rw [hset]
    split
    next he =>
      rw [he]
      exact ⟨rfl, rfl, rfl, rfl, rfl⟩
    next => exact ⟨rfl, rfl, rfl, rfl, rfl⟩
  have hkeep : ∀ p', (s₁.port p').receiver = (s.port p').receiver ∧ (s₁.port p').inUse = (s.port p').inUse ∧
      (s₁.port p').held = (s.port p').held ∧ (s₁.port p').gifts = (s.port p').gifts := by
    intro p'
    rw [hport]
    split
    next he =>
      rw [he]
      exact ⟨rfl, rfl, rfl, rfl⟩
    next => exact ⟨rfl, rfl, rfl, rfl⟩
  have hin : ∀ p' y, (s₁.port p').set = some y ↔ (s.port p').set = some y ∨ (p' = p ∧ y = x) := by
    intro p' y
    rw [hport]
    split
    next he => simp [he, hnone, eq_comm]
    next he => simp [he]
  refine ⟨fun y => ?_, fun p' y hp => ?_, fun p' => ?_, fun y => ?_, fun p' => ?_, fun y p' ht => ?_,
    fun y hu => ?_, fun y hd => ?_, fun p' hu => ?_, fun y hu => ?_, fun p' hf => ?_, fun y hf => ?_,
    fun p' hn => ?_, fun y hn => ?_⟩
  · rw [hset]
    split
    next he =>
      rw [he]
      refine (h.members x).append (by simp [hnone]) fun p' => ?_
      rw [hin]
      simp
    next he =>
      refine (h.members y).congr fun p' => ?_
      rw [hin]
      simp [he]
  · rw [(hkeep p').1, (hsame y).2.1]
    rcases (hin p' y).mp hp with hp | ⟨rfl, rfl⟩
    · exact h.receiver p' y hp
    · exact hr
  · rw [hport]
    split
    next =>
      have := h.portRefs p
      rw [hnone] at this
      simp only [if_true] at this
      simp only [reduceCtorEq, if_false]
      omega
    next => exact h.portRefs p'
  · rw [(hsame y).2.2.1, (hsame y).2.2.2.2, hset]
    split
    next he =>
      have := h.setRefs x
      rw [he, List.length_append, List.length_singleton]
      push_cast
      omega
    next => exact h.setRefs y
  · rw [(hkeep p').2.2.2]
    refine (h.gifts p').congr fun y => ?_
    rw [(hsame y).1, (hsame y).2.2.1]
  · rw [(hsame y).1] at ht
    rw [(hsame y).2.2.1, hin]
    exact ⟨(h.traversal y p' ht).1, .inl (h.traversal y p' ht).2⟩
  · rw [(hsame y).2.2.2.1] at hu
    rw [(hsame y).2.2.1]
    exact h.inUse y hu
  · rw [(hsame y).2.2.1] at hd
    rw [hset]
    split
    next he =>
      rw [he, h.inUse x hx] at hd
      simp at hd
    next => exact h.returned y hd
  · rw [(hkeep p').2.1] at hu
    rw [(hkeep p').2.2.1]
    exact h.portLive p' hu
  · rw [(hsame y).2.2.2.1] at hu
    rw [(hsame y).2.2.2.2]
    exact h.setLive y hu
  · rw [hport] at hf ⊢
    split at hf
    next he =>
      have hpos : 0 < (s.port p).refs := by
        rw [h.portRefs p]
        split <;> omega
      have hf' : (s.port p).freed = true := hf
      rw [h.not_freed hpos] at hf'
      simp at hf'
    next he =>
      rw [if_neg he]
      exact h.portFreed p' hf
  · rw [hset] at hf ⊢
    split at hf
    next he =>
      have hpos : 0 < (s.set x).refs := by
        have := h.setLive x hx
        rw [h.setRefs x]
        split <;> omega
      have hf' : (s.set x).freed = true := hf
      rw [h.set_not_freed hpos] at hf'
      simp at hf'
    next he =>
      rw [if_neg he]
      exact h.setFreed y hf
  · have hne : p' ≠ p := by
      rintro rfl
      exact absurd (h.held_pos_lt hheld) (Nat.not_lt.mpr hn)
    rw [hport, if_neg hne]
    exact h.newPort p' hn
  · have hne : y ≠ x := by
      rintro rfl
      exact absurd (h.set_held_pos_lt (h.setLive y hx)) (Nat.not_lt.mpr hn)
    rw [hset, if_neg hne]
    exact h.newSet y hn

end MachVM.Ipc.Members
