import MachVM.Lib.Run
import MachVM.PmapAttributes
import MachVM.PmapSteps

namespace MachVM.I386

open Machine State

/-- A pmap that its callers still refer to. -/
def Live (s : State) (p : PmapId) : Prop := ∃ c, s.refCount p = some (c + 1)

/-- An address that the operations are called with. -/
def Address (s : State) (p : PmapId) (va : Va) : Prop :=
  if p = kernelPmap then s.layout.virtualAvail ≤ va else va < s.layout.minKernel

instance (s : State) (p : PmapId) (va : Va) : Decidable (Address s p va) :=
  inferInstanceAs (Decidable (if p = kernelPmap then s.layout.virtualAvail ≤ va else va < s.layout.minKernel))

/-- What an operation in progress relies on. One that takes a pmap apart has an empty one to itself. -/
def OpOk (s : State) : Op → Prop
  | .enter e => Live s e.pmap ∧ s.inDomain (e.pmap, e.v) = true
  | .collect p _ => Live s p ∧ p ≠ kernelPmap
  | .destroy p _ => s.refCount p = some 0 ∧ ∀ va, s.mapping (p, va) = none

structure Inv (s : State) : Prop where
  coherent : Coherent s
  ops : ∀ t op, s.ops t = some op → OpOk s op
  destroyer : ∀ t t' p i j, s.ops t = some (.destroy p i) → s.ops t' = some (.destroy p j) → t = t'

/-- The state after `pmap_init`: no page is in a list, and the kernel's entries above those it has from the
start have no managed frame. -/
structure Start (s : State) : Prop where
  kernel : Live s kernelPmap
  users : ∀ p, p ≠ kernelPmap → s.pmaps p = none
  unmapped : ∀ va pte, s.layout.virtualAvail ≤ va → s.pmapPte kernelPmap va = some pte → s.managedPhys pte.pfn = false
  lists : ∀ f, (s.pvHeadTable f).pmap = none
  attributes : ∀ f, s.physAttributes f = {}
  idle : ∀ t, s.ops t = none
  history : s.history = []

/-- What the callers see to: pmaps are used while there are references, with addresses that are theirs, and the
last reference goes when no mapping is left and no operation is in progress. `kmem_alloc` gives a page that the
kernel maps. -/
def ok (s : State) : Action → Prop
  | .create p => s.pmaps p = none
  | .reference p => Live s p
  | .destroy t p =>
    s.ops t = none ∧ p ≠ kernelPmap ∧ Live s p ∧
      (s.refCount p = some 1 → (∀ va, s.mapping (p, va) = none) ∧ ∀ t op, s.ops t = some op → op.pmap ≠ p)
  | .enter t p v _ _ _ => s.ops t = none ∧ Live s p ∧ Address s p v
  | .remove p va n | .protect p va n _ => Live s p ∧ ∀ w, va ≤ w → w < va + n → Address s p w
  | .removeAll _ | .clearModify _ | .isModified _ | .clearReference _ | .isReferenced _ => True
  | .copyOnWrite f | .pageProtect f _ => s.managedPhys f = true
  | .changeWiring p va _ => Live s p ∧ Address s p va
  | .collect t p => s.ops t = none ∧ Live s p
  | .read p va => Address s p va ∧ ∃ pte, s.pmapPte p va = some pte ∧ pte.valid = true
  | .write p va supervisor =>
    Address s p va ∧ ∃ pte, s.pmapPte p va = some pte ∧ pte.valid = true ∧ (supervisor = true ∨ pte.prot = .uw)
  | .proceed _ page =>
    ∀ kv, page = some kv → s.layout.virtualAvail ≤ kv ∧
      ∃ pte, s.pmapPte kernelPmap kv = some pte ∧ s.managedPhys pte.pfn = true

/-- The states of the runs that have not panicked. -/
abbrev Reachable : State → Prop := Reach Start (fun s a => (step s a).toOption) ok

variable {s r : State} {p : PmapId} {va : Va} {f : Frame} {op : Op} {t : ThreadId} {a : Action}

theorem Address.inDomain (h : Address s p va) : s.inDomain (p, va) = true := by
  unfold Address at h
  split at h
  next => simp [State.inDomain, h]
  next hp => simp [State.inDomain, hp]

theorem OpOk.congr (h : OpOk s op) (hl : r.layout = s.layout) (hc : r.refCount op.pmap = s.refCount op.pmap)
    (hm : s.refCount op.pmap = some 0 → ∀ va, s.mapping (op.pmap, va) = none → r.mapping (op.pmap, va) = none) :
    OpOk r op := by
  cases op with
  | enter e => exact ⟨h.1.imp fun c h => hc.trans h, by rw [inDomain_congr hl, h.2]⟩
  | collect p i => exact ⟨h.1.imp fun c h => hc.trans h, h.2⟩
  | destroy p i => exact ⟨hc.trans h.1, fun va => hm h.1 va (h.2 va)⟩

theorem OpOk.exists_refCount (h : OpOk s op) : ∃ c, s.refCount op.pmap = some c := by
  cases op with
  | enter e => exact h.1.imp' _ fun _ => id
  | collect p i => exact h.1.imp' _ fun _ => id
  | destroy p i => exact ⟨0, h.1⟩

theorem OpOk.live (h : OpOk s op) (hl : r.layout = s.layout) (hs : Live s op.pmap) (hr : Live r op.pmap) :
    OpOk r op := by
  cases op with
  | enter e => exact ⟨hr, by rw [inDomain_congr hl, h.2]⟩
  | collect p i => exact ⟨hr, h.2⟩
  | destroy p i =>
    obtain ⟨c, hc⟩ := hs
    exact absurd (h.1.symm.trans hc) (by simp)

theorem Inv.keep (h : Inv s) (hc : Coherent r) (hk : Kept s r) : Inv r where
  coherent := hc
  ops t op ht := by
    rw [hk.ops] at ht
    exact (h.ops t op ht).congr hk.layout (hk.refCount _) fun h0 va hn => hk.unmapped _ h0 hn
  destroyer := by
    rw [hk.ops]
    exact h.destroyer

theorem setOp_ops_of_ne {o : Option Op} {t' : ThreadId} (h : t' ≠ t) : (s.setOp t o).ops t' = s.ops t' :=
  Function.update_of_ne h ..

@[simp] theorem setOp_ops_self {o : Option Op} : (s.setOp t o).ops t = o := Function.update_self ..

theorem Inv.setOp {o : Option Op} (h : Inv s) (ho : ∀ op, o = some op → OpOk s op)
    (hd : ∀ p i, o = some (.destroy p i) → ∀ t' j, t' ≠ t → s.ops t' ≠ some (.destroy p j)) :
    Inv (s.setOp t o) where
  coherent := h.coherent.congr rfl rfl rfl rfl rfl
  ops t' op ht := by
    have hop : OpOk s op := by
      by_cases he : t' = t
      · subst t'
        rw [setOp_ops_self] at ht
        exact ho op ht
      · rw [setOp_ops_of_ne he] at ht
        exact h.ops t' op ht
    exact hop.congr rfl rfl fun _ _ h => h
  destroyer t₁ t₂ p i j h₁ h₂ := by
    by_cases he₁ : t₁ = t <;> by_cases he₂ : t₂ = t
    · exact he₁.trans he₂.symm
    · subst t₁
      rw [setOp_ops_self] at h₁
      rw [setOp_ops_of_ne he₂] at h₂
      exact absurd h₂ (hd p i h₁ t₂ j he₂)
    · subst t₂
      rw [setOp_ops_self] at h₂
      rw [setOp_ops_of_ne he₁] at h₁
      exact absurd h₁ (hd p j h₂ t₁ i he₁)
    · rw [setOp_ops_of_ne he₁] at h₁
      rw [setOp_ops_of_ne he₂] at h₂
      exact h.destroyer t₁ t₂ p i j h₁ h₂

theorem setPmap_refCount_of_ne {m : Option Pmap} {q : PmapId} (h : q ≠ p) :
    (s.setPmap p m).refCount q = s.refCount q := by
  simp [State.refCount, setPmap, h]

theorem setPmap_pmapPte_of_ne {m : Option Pmap} {q : PmapId} (h : q ≠ p) :
    (s.setPmap p m).pmapPte q va = s.pmapPte q va := by
  simp [pmapPte, setPmap, h]

theorem setPmap_mapping {m : Option Pmap} (hn : ∀ va, s.mapping (p, va) = none)
    (hm : ∀ k, m = some k → ∀ i, k.cr3 i = none) : (s.setPmap p m).mapping = s.mapping := by
  funext x
  obtain ⟨q, w⟩ := x
  by_cases hq : q = p
  · subst q
    rw [hn w]
    apply mapping_eq_none
    intro pte hp
    cases m with
    | none => simp [pmapPte, setPmap] at hp
    | some k => simp [pmapPte, setPmap, hm k rfl] at hp
  · exact mapping_congr rfl (setPmap_pmapPte_of_ne hq)

theorem setRefCount_mapping (c : Nat) : (setRefCount s p c).mapping = s.mapping := by
  funext x
  apply mapping_congr (show (setRefCount s p c).layout = s.layout from rfl)
  by_cases hx : x.1 = p
  · subst p
    cases hm : s.pmaps x.1 <;> simp [pmapPte, setRefCount, setPmap, hm]
  · exact setPmap_pmapPte_of_ne hx

theorem setRefCount_refCount_self {n : Nat} (c : Nat) (h : s.refCount p = some n) :
    (setRefCount s p c).refCount p = some c := by
  obtain ⟨m, hm, _⟩ := Option.map_eq_some_iff.mp h
  simp [State.refCount, setRefCount, setPmap, hm]

theorem setRefCount_refCount_of_ne {q : PmapId} (c : Nat) (h : q ≠ p) :
    (setRefCount s p c).refCount q = s.refCount q :=
  setPmap_refCount_of_ne h

theorem Live.ne_zero (h : Live s p) : s.refCount p ≠ some 0 := by
  obtain ⟨c, hc⟩ := h
  simp [hc]

theorem OpOk.setRefCount {c : Nat} (h : OpOk s op) (hs : Live s p) (hc : c ≠ 0 ∨ op.pmap ≠ p) :
    OpOk (setRefCount s p c) op := by
  by_cases hp : op.pmap = p
  · subst p
    obtain ⟨n, hn⟩ := hs
    refine h.live rfl ⟨n, hn⟩ ⟨c - 1, ?_⟩
    rw [setRefCount_refCount_self c hn]
    have := hc.resolve_right (fun h => h rfl)
    congr 1
    omega
  · exact h.congr rfl (setRefCount_refCount_of_ne c hp) fun _ va hn => by rw [setRefCount_mapping, hn]

theorem Coherent.setRefCount (h : Coherent s) (c : Nat) : Coherent (setRefCount s p c) :=
  h.congr rfl rfl (setRefCount_mapping c) rfl rfl

theorem create_gives (h : Inv s) (hp : s.pmaps p = none) : Inv (pmapCreate s p) := by
  have hn : ∀ va, s.mapping (p, va) = none := fun va => mapping_eq_none (by simp [pmapPte, hp])
  have hm := setPmap_mapping (m := some ⟨1, fun _ => none⟩) hn (by rintro k hk i; cases Option.some.inj hk; rfl)
  refine ⟨h.coherent.congr rfl rfl hm rfl rfl, fun t op ht => ?_, h.destroyer⟩
  have hop := h.ops t op ht
  have hne : op.pmap ≠ p := by
    rintro rfl
    obtain ⟨c, hc⟩ := hop.exists_refCount
    simp [State.refCount, hp] at hc
  exact hop.congr rfl (setPmap_refCount_of_ne hne) fun _ va hv => by rw [pmapCreate, hm, hv]

theorem destroy_gives (h : Inv s) (ha : ok s (.destroy t p)) :
    Gives (step s (.destroy t p)) Panic.ofCaller Inv := by
  obtain ⟨ht, hk, ⟨n, hn⟩, hlast⟩ := ha
  simp only [step, hn, Option.getD_some, Nat.add_sub_cancel, gives_ok]
  have hr : ∀ t' op, s.ops t' = some op → OpOk (setRefCount s p n) op := by
    intro t' op hop
    refine (h.ops t' op hop).setRefCount ⟨n, hn⟩ ?_
    rcases Nat.eq_zero_or_pos n with rfl | hpos
    · exact .inr ((hlast hn).2 t' op hop)
    · exact .inl (Nat.ne_of_gt hpos)
  have hi : Inv (setRefCount s p n) := ⟨h.coherent.setRefCount n, hr, h.destroyer⟩
  split
  next h0 =>
    subst n
    obtain ⟨hempty, hothers⟩ := hlast hn
    refine hi.setOp ?_ ?_
    · rintro op hop
      cases Option.some.inj hop
      exact ⟨setRefCount_refCount_self 0 hn, fun va => by rw [setRefCount_mapping, hempty]⟩
    · rintro q i hq t' j _ ht'
      cases Option.some.inj hq
      exact hothers t' _ ht' rfl
  next => exact hi

theorem proceed_gives {page : Option Va} (h : Inv s) (ht : s.ops t = some op) :
    Gives (proceed s t page op) Panic.ofCaller Inv := by
  have hop := h.ops t op ht
  cases op with
  | enter e =>
    obtain ⟨hl, hd⟩ := hop
    rw [proceed]
    split
    next =>
      refine (pmapEnter_gives h.coherent hd hl.ne_zero).bind fun r hgives => ?_
      obtain ⟨hr, hk, hg⟩ := hgives
      refine (h.keep hr hk).setOp ?_ (fun p i hq => by simp at hq)
      rintro op hop
      obtain ⟨e', he, rfl⟩ := Option.map_eq_some_iff.mp hop
      obtain ⟨hp, hv⟩ := hg e' he
      rw [OpOk, hp, hv, inDomain_congr hk.layout]
      exact ⟨hl.imp fun c h => (hk.refCount _).trans h, hd⟩
    next =>
      refine (pmapExpand_gives h.coherent).bind fun r hgives => ?_
      obtain ⟨hr, hk⟩ := hgives
      refine (h.keep hr hk).setOp ?_ (fun p i hq => by simp at hq)
      rintro op hop
      cases Option.some.inj hop
      rw [OpOk, inDomain_congr hk.layout]
      exact ⟨hl.imp fun c h => (hk.refCount _).trans h, hd⟩
    next =>
      refine h.setOp ?_ (fun p i hq => by simp at hq)
      rintro op hop
      cases Option.some.inj hop
      exact ⟨hl, hd⟩
  | collect p i =>
    obtain ⟨hl, hk⟩ := hop
    rw [proceed]
    split
    next =>
      refine (collectPde_gives h.coherent hk).bind fun r hgives => ?_
      obtain ⟨hr, hkr⟩ := hgives
      refine (h.keep hr hkr).setOp ?_ (fun p i hq => by simp at hq)
      rintro op hop
      cases Option.some.inj hop
      exact ⟨hl.imp fun c h => (hkr.refCount _).trans h, hk⟩
    next => exact h.setOp (fun _ ho => by simp at ho) (fun _ _ ho => by simp at ho)
  | destroy p i =>
    have hother : ∀ t' j, t' ≠ t → s.ops t' ≠ some (.destroy p j) :=
      fun t' j hne ht' => hne (h.destroyer t' t p j i ht' ht)
    rw [proceed]
    split
    next =>
      refine (destroyPde_gives h.coherent).bind fun r hgives => ?_
      obtain ⟨hr, hk⟩ := hgives
      have hi := h.keep hr hk
      refine hi.setOp ?_ ?_
      · rintro op hop
        cases Option.some.inj hop
        exact hi.ops t (.destroy p i) (by rw [hk.ops, ht])
      · rintro q j hq t' k hne
        cases Option.some.inj hq
        rw [hk.ops]
        exact hother t' k hne
    next =>
      have hm := setPmap_mapping (m := none) hop.2 (by simp)
      refine ⟨h.coherent.congr rfl rfl hm rfl rfl, fun t' op' ht' => ?_, ?_⟩
      · by_cases he : t' = t
        · subst t'
          simp at ht'
        · rw [setOp_ops_of_ne he] at ht'
          have ho := h.ops t' op' ht'
          have hne : op'.pmap ≠ p := by
            rintro rfl
            cases op' with
            | enter e => exact ho.1.ne_zero hop.1
            | collect p i => exact ho.1.ne_zero hop.1
            | destroy p j => exact hother t' j he ht'
          exact ho.congr rfl (setPmap_refCount_of_ne hne) fun _ va hv => (congrFun hm _).trans hv
      · intro t₁ t₂ q j k h₁ h₂
        have hr : ∀ t' op', ((s.setPmap p none).setOp t none).ops t' = some op' → s.ops t' = some op' := by
          intro t' op' ht'
          by_cases he : t' = t
          · subst t'
            simp at ht'
          · rwa [setOp_ops_of_ne he] at ht'
        exact h.destroyer t₁ t₂ q j k (hr _ _ h₁) (hr _ _ h₂)

theorem step_gives (h : Inv s) (ha : ok s a) : Gives (step s a) Panic.ofCaller Inv := by
  have keep : ∀ {x : Except Panic State}, Gives x Panic.ofCaller (fun r => Coherent r ∧ Kept s r) →
      Gives x Panic.ofCaller Inv := fun hx => hx.mono fun r hr => h.keep hr.1 hr.2
  cases a with
  | create p => exact create_gives h ha
  | reference p =>
    obtain ⟨n, hn⟩ := ha
    simp only [step, hn, Option.getD_some, gives_ok]
    exact ⟨h.coherent.setRefCount _, fun t op ht => (h.ops t op ht).setRefCount ⟨n, hn⟩ (.inl (by simp)), h.destroyer⟩
  | destroy t p => exact destroy_gives h ha
  | enter t p v pa prot wired =>
    obtain ⟨_, hl, hv⟩ := ha
    refine h.setOp ?_ (fun p i hq => by simp at hq)
    rintro op hop
    cases Option.some.inj hop
    exact ⟨hl, hv.inDomain⟩
  | remove p va n =>
    exact keep ((pmapRemoveRange_gives h.coherent fun w hw hn => (ha.2 w hw hn).inDomain).mono
      fun r hr => ⟨hr.1, hr.2.1⟩)
  | removeAll f => exact keep ((pmapRemoveAll_gives h.coherent f).mono fun r hr => ⟨hr.1, hr.2.1⟩)
  | copyOnWrite f => exact keep (pmapCopyOnWrite_gives h.coherent f)
  | pageProtect f prot => exact keep (pmapPageProtect_gives h.coherent f prot)
  | protect p va n prot =>
    exact keep (pmapProtect_gives h.coherent (fun w hw hn => (ha.2 w hw hn).inDomain) prot)
  | changeWiring p va wired => exact keep (pmapChangeWiring_gives h.coherent ha.2.inDomain wired)
  | collect t p =>
    obtain ⟨_, hl⟩ := ha
    rw [step]
    split
    next => exact trivial
    next hk =>
      refine h.setOp ?_ (fun p i hq => by simp at hq)
      rintro op hop
      cases Option.some.inj hop
      exact ⟨hl, hk⟩
  | clearModify f => exact keep (pmapClearModify_gives h.coherent f)
  | isModified f =>
    exact ((pmapIsModified_keeps h.coherent f).weaken fun _ => False.elim).bind fun r hr => h.keep hr.1 hr.2
  | clearReference f => exact keep (pmapClearReference_gives h.coherent f)
  | isReferenced f =>
    exact ((pmapIsReferenced_gives h.coherent f).weaken fun _ => False.elim).bind fun r hr => h.keep hr.1 hr.2
  | read p va =>
    rw [step]
    split
    next => exact h
    next pte hp =>
      have hr := rewrite_gives { pte with ref := true } h.coherent ha.1.inDomain hp rfl rfl rfl
      exact h.keep hr.1 hr.2
  | write p va sup =>
    rw [step]
    split
    next => exact h
    next pte hp =>
      have hd := ha.1.inDomain
      refine h.keep (h.coherent.write hd hp) ((kept_writePte hd hp fun _ hn => ?_).trans (kept_note _ _))
      simpa [mapping, hd, hp, Option.filter_some] using hn
  | proceed t page =>
    rw [step]
    split
    next => exact h
    next op ht => exact proceed_gives h ht

end MachVM.I386

namespace MachVM.I386

open Machine State

variable {s : State} {f : Frame}

theorem start_pvList (h : Start s) (f : Frame) : s.pvList f = [] := PvHead.elems_eq_nil.mpr (h.lists f)

theorem start_mapping (h : Start s) (x : PmapId × Va) : s.mapping x = none := by
  obtain ⟨p, va⟩ := x
  cases hm : s.mapping (p, va) with
  | none => rfl
  | some pte =>
    obtain ⟨hd, hp, hg⟩ := mapping_eq_some.mp hm
    by_cases hk : p = kernelPmap
    · subst p
      have hva : s.layout.virtualAvail ≤ va := by simpa [inDomain] using hd
      rw [h.unmapped va pte hva hp] at hg
      exact absurd hg Bool.false_ne_true
    · simp [pmapPte, h.users p hk] at hp

theorem start_inv (h : Start s) : Inv s where
  coherent :=
    { lists := fun f => by
        rw [start_pvList h]
        exact Mirror.mirrors_nil.congr fun x => by simp [start_mapping h]
      present := fun x pte hx => by simp [start_mapping h] at hx
      modified := fun f _ => by simp [h.history, writtenSince, h.attributes, start_mapping h] }
  ops t op ht := by simp [h.idle] at ht
  destroyer t t' p i j ht := by simp [h.idle] at ht

theorem reachable_inv (h : Reachable s) : Inv s :=
  h.invariant (fun _ => start_inv) fun r a q hr ha hs => by
    have hg := step_gives hr ha
    cases hx : step r a with
    | ok q' =>
      rw [hx] at hs hg
      cases Option.some.inj hs
      exact hg
    | error e =>
      rw [hx] at hs
      simp [Except.toOption] at hs

/-- No entry maps the page. -/
def Unmapped (s : State) (f : Frame) : Prop :=
  ∀ p va pte, s.inDomain (p, va) = true → s.pmapPte p va = some pte → pte.pfn ≠ f

theorem Coherent.mem_iff_pte {p : PmapId} {va : Va} (h : Coherent s) (hg : s.managedPhys f = true) :
    (p, va) ∈ s.pvList f ↔
      s.inDomain (p, va) = true ∧ ∃ pte, s.pmapPte p va = some pte ∧ pte.pfn = f := by
  rw [h.mem_pvList]
  constructor
  · rintro ⟨pte, hm, hf⟩
    obtain ⟨hd, hp, _⟩ := mapping_eq_some.mp hm
    exact ⟨hd, pte, hp, hf⟩
  · rintro ⟨hd, pte, hp, rfl⟩
    exact ⟨pte, mapping_eq_some.mpr ⟨hd, hp, hg⟩, rfl⟩

theorem Coherent.unmapped_iff (h : Coherent s) (hg : s.managedPhys f = true) :
    (s.pvHeadTable f).pmap = none ↔ Unmapped s f := by
  rw [← PvHead.elems_eq_nil]
  change s.pvList f = [] ↔ _
  rw [List.eq_nil_iff_forall_not_mem]
  constructor
  · intro hn p va pte hd hp hf
    exact hn (p, va) ((h.mem_iff_pte hg).mpr ⟨hd, pte, hp, hf⟩)
  · rintro hu ⟨p, va⟩ hx
    obtain ⟨hd, pte, hp, hf⟩ := (h.mem_iff_pte hg).mp hx
    exact hu p va pte hd hp hf

theorem empty_next : (none : Option PmapId) = none → ([] : List (PmapId × Va)) = [] := fun _ => rfl

/-- A kernel with a page table for its addresses from 1024 on, and eight managed pages. -/
def bootState : State where
  layout := { vmFirstPhys := 2, vmLastPhys := 10, minKernel := 1024, virtualAvail := 1030, first_pos := by decide }
  pmaps p := if p = kernelPmap then some ⟨1, fun i => if i = 1 then some ⟨1, fun _ => {}⟩ else none⟩ else none
  pvHeadTable _ := ⟨none, 0, [], empty_next⟩
  physAttributes _ := {}
  ops _ := none
  history := []

theorem bootState_start : Start bootState where
  kernel := ⟨0, rfl⟩
  users p hp := if_neg hp
  unmapped va pte _ hp := by
    have h0 : pte.pfn = 0 := by
      by_cases hi : pdenum va = 1
      · simp [pmapPte, bootState, hi] at hp
        rw [← hp]
      · simp [pmapPte, bootState, hi] at hp
    rw [h0, managedPhys_zero]
  lists _ := rfl
  attributes _ := rfl
  idle _ := rfl
  history := rfl

/-- The kernel maps a page for a page table, and a user pmap gets a mapping that is written to. -/
def writtenCalls : List Action :=
  [.enter 0 0 1031 3 protDefault true, .proceed 0 none, .create 1, .enter 0 1 5 4 protDefault false,
    .proceed 0 none, .proceed 0 (some 1031), .proceed 0 none, .write 1 5 false]

def writtenState : State := ((writtenCalls.foldlM step bootState).toOption).getD bootState

theorem writtenState_reachable : Reachable writtenState := by
  have h : Reachable bootState := .start bootState_start
  have h := h.next (a := Action.enter 0 0 1031 3 protDefault true) ⟨rfl, ⟨0, rfl⟩, by decide⟩ rfl
  have h := h.next (a := Action.proceed 0 none) (by simp [ok]) rfl
  have h := h.next (a := Action.create 1) rfl rfl
  have h := h.next (a := Action.enter 0 1 5 4 protDefault false) ⟨rfl, ⟨0, rfl⟩, by decide⟩ rfl
  have h := h.next (a := Action.proceed 0 none) (by simp [ok]) rfl
  have h := h.next (a := Action.proceed 0 (some 1031)) (by rintro _ ⟨⟩; exact ⟨by decide, _, rfl, by decide⟩) rfl
  have h := h.next (a := Action.proceed 0 none) (by simp [ok]) rfl
  have h := h.next (a := Action.write 1 5 false) ⟨by decide, _, rfl, by decide, .inr (by decide)⟩ rfl
  exact h

/-- The list of a managed page has one element for each entry whose frame it is, so `pmap_verify_free` is exact
and the panics about lists and entries that do not agree do not happen. -/
theorem pvLists_mirror_pageTables (h : Reachable s) :
    (∀ f, s.managedPhys f = true →
      (s.pvList f).Nodup ∧
      (∀ p va, (p, va) ∈ s.pvList f ↔
        s.inDomain (p, va) = true ∧ ∃ pte, s.pmapPte p va = some pte ∧ pte.pfn = f) ∧
      ((s.pvHeadTable f).pmap = none ↔ Unmapped s f) ∧ (pmapVerifyFree s f = true ↔ Unmapped s f)) ∧
    ∀ a, ok s a → ∀ e, step s a = .error e →
      e ≠ .nullPvList ∧ e ≠ .mappingNotInPvList ∧ e ≠ .pteWrongPage ∧ e ≠ .pteInvalid := by
  have hi := reachable_inv h
  constructor
  · intro f hg
    have hu := hi.coherent.unmapped_iff hg
    refine ⟨hi.coherent.lists.nodup f, fun p va => hi.coherent.mem_iff_pte hg, hu, ?_⟩
    rw [pmapVerifyFree, hg, Bool.true_and, Option.isNone_iff_eq_none]
    exact hu
  · intro a ha e he
    have hc := (step_gives hi ha).of_error he
    refine ⟨?_, ?_, ?_, ?_⟩ <;> rintro rfl <;> exact hc

theorem writtenState_mirrors : (writtenState.pvList 4).Nodup ∧ Unmapped writtenState 5 := by
  obtain ⟨hl, _⟩ := pvLists_mirror_pageTables writtenState_reachable
  exact ⟨(hl 4 (by decide)).1, (hl 5 (by decide)).2.2.2.mp (by decide)⟩

/-- `pmap_is_modified` returns, and tells at any time whether the page has been written to since the last
`pmap_clear_modify`. -/
theorem isModified_iff_written (h : Reachable s) (hg : s.managedPhys f = true) :
    ∃ r b, pmapIsModified s f = .ok (r, b) ∧ (b = true ↔ writtenSince (fun _ => true) f s.history = true) := by
  obtain ⟨⟨r, b⟩, hr, _, _, hb⟩ := (pmapIsModified_gives (reachable_inv h).coherent hg).exists_ok fun _ => id
  exact ⟨r, b, hr, hb⟩

/-- The mapping of the written page is removed. -/
def removedState : State := ((step writtenState (.remove 1 5 1)).toOption).getD writtenState

theorem removedState_reachable : Reachable removedState :=
  writtenState_reachable.next (a := Action.remove 1 5 1)
    ⟨⟨0, rfl⟩, fun w _ hw => Nat.lt_of_lt_of_le hw (show 6 ≤ 1024 by decide)⟩ rfl

theorem removedState_modified : ∃ r, pmapIsModified removedState 4 = .ok (r, true) := by
  obtain ⟨r, b, hr, hb⟩ := isModified_iff_written (f := 4) removedState_reachable (by decide)
  obtain rfl : b = true := hb.mpr (by decide)
  exact ⟨r, hr⟩

/-- The modify bits are cleared while the page is mapped, and then the mapping is removed. -/
def clearedState : State :=
  (([Action.clearModify 4, .remove 1 5 1].foldlM step writtenState).toOption).getD writtenState

theorem clearedState_reachable : Reachable clearedState :=
  (writtenState_reachable.next (a := Action.clearModify 4) trivial rfl).next (a := Action.remove 1 5 1)
    ⟨⟨0, rfl⟩, fun w _ hw => Nat.lt_of_lt_of_le hw (show 6 ≤ 1024 by decide)⟩ rfl

/-- A `pmap_clear_modify` of a mapped page clears the bits of its mappings too. -/
theorem clearedState_not_modified :
    Reachable clearedState ∧ clearedState.managedPhys 4 = true ∧ Unmapped clearedState 4 ∧
      writtenSince (fun unmapped => unmapped) 4 clearedState.history = true ∧
      ∃ r, pmapIsModified clearedState 4 = .ok (r, false) := by
  have hu := ((reachable_inv clearedState_reachable).coherent.unmapped_iff (f := 4) (by decide)).mp (by decide)
  exact ⟨clearedState_reachable, by decide, hu, by decide, _, rfl⟩

end MachVM.I386
