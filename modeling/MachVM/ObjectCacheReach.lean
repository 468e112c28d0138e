import MachVM.ObjectCacheSections

namespace MachVM

open Mirror

variable {s t : CacheState} {cs : List CacheCall} {c : CacheCall} {o n : ObjId} {p q : PortId}
  {internal : Bool} {size : VmSize} {extra : ObjId → Nat} {spare : Nat}

/-- The object a section is about to terminate. -/
def terminates (s : CacheState) : CacheCall → Option ObjId
  | .deallocate o =>
    if (s.object o).refCount ≤ 1 ∧ (s.object o).canPersist = false then some o else none
  | .trim => if s.cached ≤ s.cacheMax then none else s.cachedList.head?
  | _ => none

/-- Whether a call is creating the pager of an internal object. -/
def CacheCall.creates (o : ObjId) : CacheCall → Bool
  | .associate x _ internal => internal && x = o
  | .attach x _ internal => internal && x = o
  | _ => false

/-- No port is looked up after it has died, and no object is terminated while
`vm_object_pager_create` is at work on it. -/
def portsLive (s : CacheState) : CacheOp → Bool
  | .lookup pager => pager.all fun p => (s.port p).inUse
  | .run (.enter p _ _) => (s.port p).inUse
  | .run c => (terminates s c).all fun o => s.calls.all fun d => !d.creates o
  | _ => true

theorem enters_pin (h : c.enters o = true) (hc : c.creates o = false) : c.pin = some o := by
  cases c <;> simp_all [CacheCall.enters, CacheCall.creates, CacheCall.pin]

theorem enters_zero_of_refs (hr : s.refs o = 0) (hc : ∀ d ∈ s.calls, d.creates o = false) :
    s.calls.countP (·.enters o) = 0 := by
  apply List.countP_eq_zero.mpr
  intro d hd hde
  have hpin : 0 < s.pins o := List.countP_pos_iff.mpr ⟨d, hd, by simpa using enters_pin hde (hc d hd)⟩
  unfold CacheState.refs at hr
  omega

theorem deallocateSection_ports (hr : RefInv s (plus noRef o) 0) (hp : PortInv s s.calls)
    (hc : terminates s (.deallocate o) = some o → ∀ d ∈ s.calls, d.creates o = false)
    (ht : deallocateSection s o = some t) : PortInv t t.calls := by
  have ha : (s.object o).alive = true := hr.alive (by rw [plus_self]; omega)
  have hx := hr.exact o ha
  have hp₁ := plus_self noRef o
  have hn : noRef o = 0 := rfl
  have htouch := hp.touch (o := o) (f := loseReference) (fun _ => rfl) (fun _ => rfl) (fun _ => rfl)
    (fun _ => rfl)
  simp only [deallocateSection, modObject_self] at ht
  split at ht
  next =>
    cases Option.some.inj ht
    exact htouch
  next hzero =>
    have hle : (s.object o).refCount ≤ 1 := by
      have : ¬ 0 < (s.object o).refCount - 1 := hzero
      omega
    split at ht
    next =>
      cases Option.some.inj ht
      apply PortInv.goOn
      split
      next => exact (htouch.recache _ _).add (fun _ => rfl) trivial
      next => exact htouch.recache _ _
    next hper =>
      have hper' : ¬ (s.object o).canPersist = true := hper
      have hz : s.calls.countP (·.enters o) = 0 := by
        refine enters_zero_of_refs (by omega) (hc ?_)
        rw [terminates, if_pos ⟨hle, by simpa using hper'⟩]
      refine terminateSection_ports htouch ?_ hz ht
      rw [modObject_self]
      exact ha

theorem trimSection_ports (hr : RefInv s noRef 1) (hp : PortInv s s.calls)
    (hc : ∀ o, terminates s .trim = some o → ∀ d ∈ s.calls, d.creates o = false)
    (ht : trimSection s = some t) : PortInv t t.calls := by
  simp only [trimSection] at ht
  split at ht
  next =>
    cases Option.some.inj ht
    exact hp
  next hfull =>
    split at ht
    next => cases ht
    next o rest hl =>
      obtain ⟨ha, h₀⟩ := (idle_iff _).mp ((hr.listed.mem_iff o).mp (by rw [hl]; exact List.mem_cons_self))
      have hx := hr.exact o ha
      have hz : s.calls.countP (·.enters o) = 0 := by
        refine enters_zero_of_refs (by omega) (hc o ?_)
        rw [terminates, if_neg hfull, hl]
        rfl
      exact terminateSection_ports (hp.recache rest (s.cached - 1)) ha hz ht

theorem portsLive_creates (h : ((terminates s c).all fun o => s.calls.all fun d => !d.creates o) = true)
    (ht : terminates s c = some o) : ∀ d ∈ s.calls, d.creates o = false := by
  rw [ht] at h
  intro d hd
  simpa using List.all_eq_true.mp h d hd

theorem runSection_inv (hr : RefInv s noRef 0) (hp : PortInv s s.calls) (hm : c ∈ s.calls)
    (ha : portsLive s (.run c) = true) (ht : runSection { s with calls := s.calls.erase c } c = some t) :
    RefInv t noRef 0 ∧ PortInv t t.calls := by
  have hr' := hr.takeCall hm
  have hp' : PortInv { s with calls := s.calls.erase c } (c :: s.calls.erase c) :=
    (hp.perm (List.perm_cons_erase hm)).congr rfl rfl (fun _ => rfl) (fun _ => rfl) (fun _ => rfl)
      (fun _ => rfl)
  have hsub : ∀ d ∈ s.calls.erase c, d ∈ s.calls := fun d hd => List.mem_of_mem_erase hd
  cases c with
  | deallocate o =>
    refine ⟨deallocateSection_refs hr' ht, deallocateSection_ports hr' (hp'.drop fun _ _ => rfl) ?_ ht⟩
    exact fun hto d hd => portsLive_creates ha hto d (hsub d hd)
  | trim =>
    refine ⟨trimSection_refs hr' ht, trimSection_ports hr' (hp'.drop fun _ _ => rfl) ?_ ht⟩
    exact fun o hto d hd => portsLive_creates ha hto d (hsub d hd)
  | enter p size newObject =>
    cases Option.some.inj ht
    refine ⟨enterSection_refs hr' ?_, enterSection_ports newObject (hr.fresh _ (Nat.le_refl _)) hp'⟩
    exact fun o ho => (hp.named o p ha ho).1
  | associate o p internal =>
    cases Option.some.inj ht
    refine ⟨?_, associateSection_ports hp'⟩
    apply RefInv.goOn (d := .attach o p internal)
    apply RefInv.portAlloc
    exact hr'.touch (fun _ => rfl) (fun _ => rfl) (fun _ => rfl)
  | attach o p internal =>
    cases Option.some.inj ht
    refine ⟨?_, attachSection_ports hp'⟩
    apply RefInv.goOn (d := .ready o internal)
    exact hr'.touch (fun _ => rfl) (fun _ => rfl) (fun _ => rfl)
  | ready o internal =>
    cases Option.some.inj ht
    have hpt := (hp'.drop fun _ _ => rfl).touch (o := o) (f := fun x => { x with pagerInitialized := true })
      (fun _ => rfl) (fun _ => rfl) (fun _ => rfl) (fun _ => rfl)
    have hrt := hr'.touch (o := o) (f := fun x => { x with pagerInitialized := true })
      (fun _ => rfl) (fun _ => rfl) (fun _ => rfl)
    cases internal with
    | true => exact ⟨hrt, hpt⟩
    | false => exact ⟨hrt.hand, hpt.hand o⟩

theorem vmObjectDestroy_refs (hr : RefInv s noRef 0)
    (ha : ∀ o, (s.port p).object = .pager o → (s.object o).alive = true)
    (ht : vmObjectDestroy s p = some t) : RefInv t noRef 0 := by
  simp only [vmObjectDestroy] at ht
  split at ht
  next o ho =>
    obtain ⟨m, hm, rfl⟩ := Option.map_eq_some_iff.mp ht
    have htake := (hr.takeReference (ha o ho)).touch (o := o)
      (f := fun x => { x with canPersist := false, pager := none }) (fun _ => rfl) (fun _ => rfl) (fun _ => rfl)
    apply RefInv.goOn (d := .deallocate o)
    exact (htake.remove hm).touch (fun _ => rfl) (fun _ => rfl) (fun _ => rfl)
  next =>
    cases Option.some.inj ht
    exact hr

theorem memoryObjectDestroy_refs (hr : RefInv s (plus noRef o) 0) (ht : memoryObjectDestroy s o = some t) :
    RefInv t noRef 0 := by
  obtain ⟨m, hm, rfl⟩ := Option.map_eq_some_iff.mp ht
  apply RefInv.goOn (d := .deallocate o)
  exact (hr.remove hm).touch (fun _ => rfl) (fun _ => rfl) (fun _ => rfl)

theorem setAttributesSection_inv {objectReady mayCache : Bool} {strategy : Option CopyStrategy}
    (hr : RefInv s (plus noRef o) 0) (hp : PortInv s s.calls) :
    RefInv (setAttributesSection s o objectReady mayCache strategy) noRef 0 ∧
      PortInv (setAttributesSection s o objectReady mayCache strategy)
        (setAttributesSection s o objectReady mayCache strategy).calls := by
  unfold setAttributesSection
  split
  next => exact ⟨RefInv.goOn (d := .deallocate o) hr, hp.goOn_deallocate (some o)⟩
  next =>
    refine ⟨RefInv.goOn (d := .deallocate o) ?_, PortInv.goOn_deallocate ?_ (some o)⟩
    · exact hr.touch (fun _ => rfl) (fun _ => rfl) (fun _ => rfl)
    · exact hp.touch (fun _ => rfl) (fun _ => rfl) (fun _ => rfl) (fun _ => rfl)

/-- The invariant of the object cache. -/
def CacheInv (s : CacheState) : Prop := RefInv s noRef 0 ∧ PortInv s s.calls

theorem allocate_inv (h : CacheInv s) : CacheInv ((s.allocate size none).hand s.nextObject) :=
  ⟨(RefInv.allocate none h.1 size (by rintro b ⟨⟩)).hand,
    (h.2.allocate (h.1.fresh _ (Nat.le_refl _)) size none).hand _⟩

theorem cacheStep_inv {op : CacheOp} (h : CacheInv s) (ha : portsLive s op = true) (ht : cacheStep s op = some t) :
    CacheInv t := by
  obtain ⟨hr, hp⟩ := h
  have hlive : ∀ o, 0 < s.held o → (s.object o).alive = true := by
    intro o hh
    apply hr.alive
    unfold CacheState.refs
    omega
  have hfresh := hr.fresh s.nextObject (Nat.le_refl _)
  cases op with
  | allocate size =>
    cases Option.some.inj ht
    exact allocate_inv ⟨hr, hp⟩
  | allocatePort x =>
    simp only [cacheStep] at ht
    split at ht
    next hx =>
      cases Option.some.inj ht
      exact ⟨hr.portAlloc x, hp.portAlloc hx⟩
    next => cases ht
  | reference o =>
    simp only [cacheStep] at ht
    split at ht
    next hh =>
      cases Option.some.inj ht
      have hne : ¬ (s.object o).refCount = 0 := by
        have := hr.exact o (hlive o hh)
        unfold CacheState.refs at this
        omega
      have htake := hr.takeReference (hlive o hh)
      rw [takeReference, if_neg hne] at htake
      refine ⟨htake.hand, PortInv.hand ?_ o⟩
      exact hp.touch (fun _ => rfl) (fun _ => rfl) (fun _ => rfl) (fun _ => rfl)
    next => cases ht
  | shadow o size =>
    simp only [cacheStep] at ht
    split at ht
    next hh =>
      cases Option.some.inj ht
      refine ⟨?_, ((hp.donate o).allocate hfresh size (some o)).hand _⟩
      apply RefInv.hand
      refine RefInv.allocate (some o) (hr.donate hh) size ?_
      rintro b ⟨⟩
      exact hr.lt (hlive o hh)
    next => cases ht
  | deallocate o =>
    simp only [cacheStep] at ht
    split at ht
    next hh =>
      cases Option.some.inj ht
      exact ⟨RefInv.goOn (d := .deallocate o) (hr.donate hh), (hp.donate o).goOn_deallocate (some o)⟩
    next => cases ht
  | lookup pager =>
    cases Option.some.inj ht
    refine lookupSection_inv hr hp ?_
    rintro p rfl
    exact ha
  | enter pager size =>
    cases pager with
    | none =>
      cases Option.some.inj ht
      exact allocate_inv ⟨hr, hp⟩
    | some p =>
      simp only [cacheStep] at ht
      split at ht
      next hlt =>
        cases Option.some.inj ht
        refine ⟨RefInv.goOn (d := .enter p size none) hr, PortInv.goOn (c := some (.enter p size none)) ?_⟩
        exact hp.add (fun _ => rfl) ⟨hlt, by rintro n ⟨⟩⟩
      next => cases ht
  | pagerCreate o =>
    simp only [cacheStep] at ht
    split at ht
    next hc =>
      cases Option.some.inj ht
      exact pagerCreateSection_inv hr hp hc.1 hc.2.1 hc.2.2
    next => cases ht
  | setAttributes o objectReady mayCache strategy =>
    simp only [cacheStep] at ht
    split at ht
    next hh =>
      cases Option.some.inj ht
      exact setAttributesSection_inv (hr.donate hh) (hp.donate o)
    next => cases ht
  | destroyObject o =>
    simp only [cacheStep] at ht
    split at ht
    next hh =>
      exact ⟨memoryObjectDestroy_refs (hr.donate hh) ht,
        memoryObjectDestroy_ports (hp.donate o) (hlive o hh) ht⟩
    next => cases ht
  | destroyPort p =>
    simp only [cacheStep] at ht
    split at ht
    next hu =>
      refine ⟨vmObjectDestroy_refs (hr.setPort p _) ?_ ht, vmObjectDestroy_ports hp hu ht⟩
      intro o ho
      rw [setPort_self] at ho
      exact (hp.named o p hu ho).1
    next => cases ht
  | run c =>
    simp only [cacheStep] at ht
    split at ht
    next hm => exact runSection_inv hr hp hm ha ht
    next => cases ht

/-- Runs of the cache whose steps are all allowed. -/
inductive CacheRun (allowed : CacheState → CacheOp → Bool) (start : CacheState) : CacheState → Prop
  | start : CacheRun allowed start start
  | step {s t : CacheState} {op : CacheOp} : CacheRun allowed start s → allowed s op = true →
      cacheStep s op = some t → CacheRun allowed start t

/-- An empty cache. -/
def emptyCache (max : Nat) : CacheState := { cacheMax := max }

theorem emptyCache_inv (max : Nat) : CacheInv (emptyCache max) := by
  refine ⟨⟨fun _ _ => rfl, ?_, ?_, ?_, rfl, ?_⟩, ⟨fun _ _ => rfl, ?_, ?_, ?_, ?_, ?_, ?_, ?_⟩⟩
  · rintro o ⟨⟩
  · intro o _
    rfl
  · apply mirrors_nil.congr
    intro o
    simp [idle, emptyCache]
  · show (0 : Int) ≤ (max : Int) + ((0 : Nat) : Int) + ((0 : Nat) : Int)
    omega
  · rintro o p ⟨⟩
  · rintro o p ⟨⟩
  · rintro o p _ ⟨⟩
  · rintro o p ⟨⟩
  · rintro o ⟨⟩
  · rintro c ⟨⟩
  · intro o
    exact Nat.zero_le 1

theorem cacheRun_inv {max : Nat} (h : CacheRun portsLive (emptyCache max) s) : CacheInv s := by
  induction h with
  | start => exact emptyCache_inv max
  | step _ ha ht ih => exact cacheStep_inv ih ha ht

/-- The object a port lookup finds. -/
def found (s : CacheState) (p : PortId) : Option ObjId :=
  match (s.port p).object with
  | .pager o => some o
  | .pagingRequest o => some o
  | _ => none

def CacheCall.deallocates : CacheCall → Bool
  | .deallocate _ => true
  | .trim => true
  | _ => false

/-- The cache is exactly the unreferenced live objects: the list has each of them once and the
count is its length, no port in use finds a terminated object, and the limit is kept unless a
deallocation is in progress. -/
structure CacheExact (s : CacheState) : Prop where
  nodup : s.cachedList.Nodup
  mem_iff : ∀ o, o ∈ s.cachedList ↔ (s.object o).alive = true ∧ (s.object o).refCount = 0
  cached : s.cached = s.cachedList.length
  found_alive : ∀ p o, (s.port p).inUse = true → found s p = some o → (s.object o).alive = true
  limit : (∀ c ∈ s.calls, c.deallocates = false) → s.cached ≤ s.cacheMax

theorem CacheInv.exact (h : CacheInv s) : CacheExact s := by
  obtain ⟨hr, hp⟩ := h
  refine ⟨hr.listed.nodup, fun o => (hr.listed.mem_iff o).trans (idle_iff _), hr.cached, ?_, ?_⟩
  · intro p o hu hf
    unfold found at hf
    split at hf
    next ho =>
      cases Option.some.inj hf
      exact (hp.named _ p hu ho).1
    next ho =>
      cases Option.some.inj hf
      exact (hp.controlled _ p ho).1
    next => cases hf
  · intro hc
    have hov := hr.overflow
    have hz : s.trims = 0 := by
      apply List.count_eq_zero.mpr
      intro hm
      cases hc _ hm
    omega

/-- The operations of a list, one after the other. -/
def cacheSteps (allowed : CacheState → CacheOp → Bool) : CacheState → List CacheOp → Option CacheState
  | s, [] => some s
  | s, op :: ops => if allowed s op then (cacheStep s op).bind fun t => cacheSteps allowed t ops else none

theorem cacheSteps_run {allowed : CacheState → CacheOp → Bool} {start : CacheState} {ops : List CacheOp}
    (h : CacheRun allowed start s) (ht : cacheSteps allowed s ops = some t) : CacheRun allowed start t := by
  induction ops generalizing s with
  | nil =>
    cases Option.some.inj ht
    exact h
  | cons op ops ih =>
    simp only [cacheSteps] at ht
    split at ht
    next ha =>
      obtain ⟨m, hm, ht⟩ := Option.bind_eq_some_iff.mp ht
      exact ih (h.step ha hm) ht
    next => cases ht

/-- In every run that looks no dead port up and terminates no object whose pager is being
created, the cache stays exact. -/
theorem cacheRun_exact {max : Nat} (h : CacheRun portsLive (emptyCache max) s) : CacheExact s :=
  (cacheRun_inv h).exact

/-- Object 0 is entered through port 0. -/
def enterPort : List CacheOp :=
  [.allocatePort .none, .enter (some 0) 4096, .run (.enter 0 4096 none), .run (.enter 0 4096 (some 0)),
    .run (.associate 0 0 false), .run (.attach 0 0 false), .run (.ready 0 false)]

/-- The object is made persistent through its control port, cached without room for it, found
again by its memory object port while the overflow is still to be trimmed, and given up once more. -/
def overflowOps : List CacheOp :=
  enterPort ++ [.lookup (some 1), .setAttributes 0 true true (some .delay), .run (.deallocate 0),
    .deallocate 0, .run (.deallocate 0), .lookup (some 0), .deallocate 0, .run (.deallocate 0),
    .run .trim, .run .trim]

theorem overflowOps_exact : ∃ s, cacheSteps portsLive (emptyCache 0) overflowOps = some s ∧
    (s.object 0).alive = false ∧ CacheExact s := by
  have hrun : ((cacheSteps portsLive (emptyCache 0) overflowOps).any fun s => !(s.object 0).alive) = true := by
    decide +kernel
  obtain ⟨s, hs, hd⟩ := (Option.any_eq_true _ _).mp hrun
  exact ⟨s, hs, by simpa using hd, cacheRun_exact (cacheSteps_run .start hs)⟩

/-- The memory object port of object 0 dies, the object is terminated, and a call that still
holds the port looks it up. -/
def deadPortOps : List CacheOp :=
  enterPort ++ [.destroyPort 0, .run (.deallocate 0), .deallocate 0, .run (.deallocate 0),
    .lookup (some 0)]

theorem dead_port_lookup : ∃ s, CacheRun (fun _ _ => true) (emptyCache 100) s ∧ ¬ CacheExact s := by
  have hrun : ((cacheSteps (fun _ _ => true) (emptyCache 100) deadPortOps).any fun s =>
      s.cached = -1 && s.cachedList.length = 0) = true := by
    decide +kernel
  obtain ⟨s, hs, hd⟩ := (Option.any_eq_true _ _).mp hrun
  simp only [Bool.and_eq_true, decide_eq_true_eq] at hd
  refine ⟨s, cacheSteps_run .start hs, ?_⟩
  intro h
  have hc := h.cached
  omega

end MachVM
