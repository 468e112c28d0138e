import MachVM.Lib.Index
import MachVM.Lib.Mirror
import Mathlib.Data.List.Perm.Basic
import Mathlib.Logic.Function.Basic

namespace MachVM.Builtin.InodePager

abbrev IstructId := Nat

/-- An inode in core. -/
abbrev Inode := Nat

/-- What says which inode of the disk it is. -/
structure FsIp where
  dev : Nat
  fs : Nat
  ino : Nat
  deriving DecidableEq

/-- `inode_pager_state_t`. -/
inductive PagerState
  | out
  | inMemory
  | busy
  deriving DecidableEq

/-- The union of `struct istruct`. -/
inductive InodeRef
  | ip (p : Inode)
  | fsIp (id : FsIp)
  deriving DecidableEq

/-- `struct istruct`, as far as the reclaim list goes. -/
structure Istruct where
  useCount : Int
  state : PagerState
  queued : Bool
  paging : Bool
  swapfile : Bool
  inode : InodeRef
  deriving DecidableEq

/-- How far a call of `istruct_get`, its use of the inode or its `istruct_put` has come. Each of them stands for what
is between two sections under `istruct_lock`. -/
inductive Call
  | sleeping (is : IstructId)
  | woken (is : IstructId)
  | fetching (is : IstructId)
  | fetched (is : IstructId) (ip : Inode)
  | holding (is : IstructId) (ip : Inode)
  | reclaiming (is : IstructId) (ip : Inode)
  | reclaimed (is : IstructId)
  deriving DecidableEq

/-- `fsIp` is what the inodes in core are of. The fields after it are history: the structures that have been allocated,
the references to inodes that are held on behalf of a structure, and which inode a structure has been made for. -/
structure State where
  istruct : IstructId → Istruct
  istructQueue : List IstructId
  istructQcount : Int
  istructReleased : Int
  calls : List Call
  fsIp : Inode → FsIp
  live : List IstructId
  refs : IstructId → List Inode
  file : IstructId → FsIp

/-- A step that is not possible, a failed assertion, and a member of the union that has not been written last. -/
inductive Fault
  | disabled
  | assertion
  | union
  deriving DecidableEq

def State.setIstruct (s : State) (is : IstructId) (x : Istruct) : State :=
  { s with istruct := Function.update s.istruct is x }

/-- `queue_remove` of a structure that may be on the list, as `istruct_get` and the termination do it. -/
def unqueue (s : State) (is : IstructId) : State :=
  if (s.istruct is).queued then
    { s.setIstruct is { s.istruct is with queued := false } with
      istructQueue := s.istructQueue.erase is
      istructQcount := s.istructQcount - 1 }
  else s

def wake (is : IstructId) (c : Call) : Call := if c = .sleeping is then .woken is else c

def threadWakeup (s : State) (is : IstructId) : State := { s with calls := s.calls.map (wake is) }

/-- `istruct_get` from the test of the state on. -/
def istructTry (s : State) (is : IstructId) : Except Fault State :=
  match (s.istruct is).state with
  | .busy => .ok { s with calls := .sleeping is :: s.calls }
  | .inMemory =>
    match (s.istruct is).inode with
    | .ip p => .ok { s with calls := .holding is p :: s.calls }
    | .fsIp _ => .error .union
  | .out => .ok { s.setIstruct is { s.istruct is with state := .busy } with calls := .fetching is :: s.calls }

def istructGet (s : State) (is : IstructId) : Except Fault State :=
  istructTry (unqueue (s.setIstruct is { s.istruct is with useCount := (s.istruct is).useCount + 1 }) is) is

/-- `iget` in `istruct_get`, which panics when there is no such inode. -/
def istructFetch (s : State) (is : IstructId) (p : Inode) : Except Fault State :=
  match (s.istruct is).inode with
  | .fsIp id =>
    if s.fsIp p = id then
      .ok { s with refs := Function.update s.refs is (p :: s.refs is), calls := .fetched is p :: s.calls }
    else .error .disabled
  | .ip _ => .error .union

/-- The rest of `istruct_get` after `iget`. -/
def istructFetched (s : State) (is : IstructId) (p : Inode) : State :=
  let s := threadWakeup (s.setIstruct is { s.istruct is with inode := .ip p, state := .inMemory }) is
  { s with istructReleased := s.istructReleased - 1, calls := .holding is p :: s.calls }

/-- The start of `istruct_put`: the place of the structure on the list. -/
def requeue (s : State) (is : IstructId) : State :=
  let x := s.istruct is
  if x.paging && !x.swapfile then
    let s := unqueue s is
    if x.useCount = 0 then
      { s.setIstruct is { s.istruct is with queued := true } with
        istructQueue := s.istructQueue ++ [is]
        istructQcount := s.istructQcount + 1 }
    else s
  else s

/-- The loop of `istruct_put` up to where it lets the lock go. -/
def reclaimNext (qmax : Int) (s : State) : Except Fault State :=
  if qmax < s.istructQcount then
    match s.istructQueue with
    | [] => .ok s
    | is :: rest =>
      match (s.istruct is).inode with
      | .ip p => .ok { s.setIstruct is
          { s.istruct is with queued := false, inode := .fsIp (s.fsIp p), state := .busy } with
          istructQueue := rest
          istructQcount := s.istructQcount - 1
          istructReleased := s.istructReleased + 1
          calls := .reclaiming is p :: s.calls }
      | .fsIp _ => .error .union
  else .ok s

def istructPut (qmax : Int) (s : State) (is : IstructId) : Except Fault State :=
  let s := s.setIstruct is { s.istruct is with useCount := (s.istruct is).useCount - 1 }
  if (s.istruct is).useCount < 0 then .error .assertion else reclaimNext qmax (requeue s is)

/-- The loop of `istruct_put` after `RELEASE_INODE`. -/
def istructReclaimed (qmax : Int) (s : State) (is : IstructId) : Except Fault State :=
  reclaimNext qmax (threadWakeup (s.setIstruct is { s.istruct is with state := .out }) is)

/-- `inode_pager_create` up to its `istruct_put`. -/
def inodePagerCreate (s : State) (is : IstructId) (ip : Inode) (paging : Bool) : State :=
  { s with
    istruct := Function.update s.istruct is
      { useCount := 1, state := .inMemory, queued := false, paging, swapfile := false, inode := .ip ip }
    calls := .holding is ip :: s.calls
    live := is :: s.live
    refs := Function.update s.refs is [ip]
    file := Function.update s.file is (s.fsIp ip) }

/-- `pf_pager_create` up to its `istruct_put`. The structure takes the inode of the paging file as it is. -/
def pfPagerCreate (s : State) (is : IstructId) (ip : Inode) : State :=
  { s with
    istruct := Function.update s.istruct is
      { useCount := 1, state := .inMemory, queued := false, paging := true, swapfile := true, inode := .ip ip }
    calls := .holding is ip :: s.calls
    live := is :: s.live
    refs := Function.update s.refs is []
    file := Function.update s.file is (s.fsIp ip) }

/-- `memory_object_terminate` after its `istruct_get`, and `pf_dealloc` and `inode_dealloc` likewise. -/
def istructFree (s : State) (is : IstructId) (p : Inode) : State :=
  let refs := if (s.istruct is).swapfile then s.refs is else (s.refs is).erase p
  let s := unqueue s is
  { s with live := s.live.erase is, refs := Function.update s.refs is refs }

/-- The number is the place of the call in the list of the calls in progress. -/
inductive Action
  | inodePagerCreate (is : IstructId) (ip : Inode) (paging : Bool)
  | pfPagerCreate (is : IstructId) (ip : Inode)
  | get (is : IstructId)
  | resume (i : Nat)
  | iget (i : Nat) (ip : Inode)
  | fetched (i : Nat)
  | put (i : Nat)
  | releaseInode (i : Nat)
  | reclaimed (i : Nat)
  | free (i : Nat)
  | recycle (ip : Inode) (id : FsIp)

/-- One section under `istruct_lock`, or what a call does between two of them. An inode in core that is no longer
used may become another one. -/
def step (qmax : Int) (s : State) : Action → Except Fault State
  | .inodePagerCreate is ip paging =>
    if is ∈ s.live then .error .disabled else .ok (inodePagerCreate s is ip paging)
  | .pfPagerCreate is ip => if is ∈ s.live then .error .disabled else .ok (pfPagerCreate s is ip)
  | .get is => if is ∈ s.live then istructGet s is else .error .disabled
  | .resume i =>
    match s.calls[i]? with
    | some (.woken is) => istructTry { s with calls := s.calls.eraseIdx i } is
    | _ => .error .disabled
  | .iget i ip =>
    match s.calls[i]? with
    | some (.fetching is) => istructFetch { s with calls := s.calls.eraseIdx i } is ip
    | _ => .error .disabled
  | .fetched i =>
    match s.calls[i]? with
    | some (.fetched is ip) => .ok (istructFetched { s with calls := s.calls.eraseIdx i } is ip)
    | _ => .error .disabled
  | .put i =>
    match s.calls[i]? with
    | some (.holding is _) => istructPut qmax { s with calls := s.calls.eraseIdx i } is
    | _ => .error .disabled
  | .releaseInode i =>
    match s.calls[i]? with
    | some (.reclaiming is ip) => .ok { s with
        refs := Function.update s.refs is ((s.refs is).erase ip)
        calls := .reclaimed is :: s.calls.eraseIdx i }
    | _ => .error .disabled
  | .reclaimed i =>
    match s.calls[i]? with
    | some (.reclaimed is) => istructReclaimed qmax { s with calls := s.calls.eraseIdx i } is
    | _ => .error .disabled
  | .free i =>
    match s.calls[i]? with
    | some (.holding is ip) => .ok (istructFree { s with calls := s.calls.eraseIdx i } is ip)
    | _ => .error .disabled
  | .recycle ip id => .ok { s with fsIp := Function.update s.fsIp ip id }

end MachVM.Builtin.InodePager

namespace MachVM.Builtin.InodePager

open Mirror

variable {s r : State} {is j : IstructId} {x : Istruct} {c : Call} {calls : List Call} {refs : List Inode}
  {file : FsIp} {fsIp fsIp' : Inode → FsIp} {p : Inode}

/-- The structure that a call is about. -/
def Call.on : Call → IstructId
  | .sleeping is | .woken is | .fetching is | .fetched is _ | .holding is _ | .reclaiming is _ | .reclaimed is => is

/-- The calls between the start of `istruct_get` and `istruct_put`. -/
def Call.uses : Call → Bool
  | .sleeping _ | .woken _ | .fetching _ | .fetched _ _ | .holding _ _ => true
  | _ => false

/-- The calls that have made a structure busy. -/
def Call.works : Call → Bool
  | .fetching _ | .fetched _ _ | .reclaiming _ _ | .reclaimed _ => true
  | _ => false

def callsAt (calls : List Call) (is : IstructId) : List Call := calls.filter fun c => c.on = is

@[simp] theorem callsAt_cons_self : callsAt (c :: calls) c.on = c :: callsAt calls c.on := by
  simp [callsAt]

theorem callsAt_cons (h : c.on = is) : callsAt (c :: calls) is = c :: callsAt calls is := by
  subst h
  exact callsAt_cons_self

theorem callsAt_cons_of_ne (h : c.on ≠ is) : callsAt (c :: calls) is = callsAt calls is := by
  simp [callsAt, h]

theorem mem_callsAt : c ∈ callsAt calls is ↔ c ∈ calls ∧ c.on = is := by
  simp [callsAt]

theorem wake_on : (wake is c).on = c.on := by
  unfold wake
  split
  next h =>
    subst h
    rfl
  next => rfl

theorem wake_uses : (wake is c).uses = c.uses := by
  unfold wake
  split
  next h =>
    subst h
    rfl
  next => rfl

theorem wake_of_ne (h : c.on ≠ is) : wake is c = c := by
  unfold wake
  split
  next hc =>
    subst hc
    exact absurd rfl h
  next => rfl

theorem callsAt_wake : callsAt (calls.map (wake is)) j = (callsAt calls j).map (wake is) := by
  induction calls with
  | nil => rfl
  | cons c cs ih =>
    by_cases hc : c.on = j
    · rw [callsAt_cons hc, List.map_cons, List.map_cons, callsAt_cons (wake_on.trans hc), ih]
    · rw [callsAt_cons_of_ne hc, List.map_cons, callsAt_cons_of_ne fun h => hc (wake_on.symm.trans h), ih]

theorem callsAt_wake_of_ne (h : j ≠ is) : callsAt (calls.map (wake is)) j = callsAt calls j := by
  rw [callsAt_wake, List.map_congr_left fun c hc => wake_of_ne ?_]
  · exact List.map_id ..
  · rw [(mem_callsAt.mp hc).2]
    exact h

/-- What a busy structure is between: an inode that it gives back or has given back, or one that it is about to have
or has. -/
def Works (file : FsIp) (fsIp : Inode → FsIp) (refs : List Inode) : Call → Prop
  | .fetching _ => refs = []
  | .fetched _ p => refs = [p] ∧ fsIp p = file
  | .reclaiming _ p => refs = [p]
  | .reclaimed _ => refs = []
  | _ => False

/-- What holds of one structure and the calls about it. -/
structure Local (x : Istruct) (refs : List Inode) (file : FsIp) (fsIp : Inode → FsIp) (is : IstructId)
    (calls : List Call) : Prop where
  uses : x.useCount = calls.countP Call.uses
  quiet : x.queued = true → x.paging = true ∧ x.swapfile = false ∧ x.useCount = 0 ∧ x.state = .inMemory
  memory : x.state = .inMemory → ∃ p, x.inode = .ip p ∧ fsIp p = file ∧ refs = (if x.swapfile then [] else [p]) ∧
    ∀ c ∈ calls, c = .woken is ∨ c = .holding is p
  out : x.state = .out → x.inode = .fsIp file ∧ refs = [] ∧ x.swapfile = false ∧ ∀ c ∈ calls, c = .woken is
  busy : x.state = .busy → x.inode = .fsIp file ∧ x.swapfile = false ∧
    ∃ w, calls.filter Call.works = [w] ∧ Works file fsIp refs w ∧
      ∀ c ∈ calls, c.works = true ∨ c = .woken is ∨ c = .sleeping is

def Istruct.away (x : Istruct) : Bool := x.state ≠ .inMemory

structure Inv (s : State) : Prop where
  live : s.live.Nodup
  placed : ∀ c ∈ s.calls, c.on ∈ s.live
  queue : Mirrors s.istructQueue fun is => (s.istruct is).queued = true
  inside : ∀ is, (s.istruct is).queued = true → is ∈ s.live
  qcount : s.istructQcount = s.istructQueue.length
  released : s.istructReleased = s.live.countP fun is => (s.istruct is).away
  place : ∀ is ∈ s.live, Local (s.istruct is) (s.refs is) (s.file is) s.fsIp is (callsAt s.calls is)

theorem Local.perm {calls' : List Call} (h : Local x refs file fsIp is calls) (hp : calls'.Perm calls) :
    Local x refs file fsIp is calls' := by
  refine ⟨by rw [hp.countP_eq]; exact h.uses, h.quiet, fun hs => ?_, fun hs => ?_, fun hs => ?_⟩
  · obtain ⟨p, h1, h2, h3, h4⟩ := h.memory hs
    exact ⟨p, h1, h2, h3, fun c hc => h4 c (hp.mem_iff.mp hc)⟩
  · obtain ⟨h1, h2, h3, h4⟩ := h.out hs
    exact ⟨h1, h2, h3, fun c hc => h4 c (hp.mem_iff.mp hc)⟩
  · obtain ⟨h1, h2, w, h3, h4, h5⟩ := h.busy hs
    have hf : (calls'.filter Call.works).Perm [w] := h3 ▸ hp.filter _
    exact ⟨h1, h2, w, List.perm_singleton.mp hf, h4, fun c hc => h5 c (hp.mem_iff.mp hc)⟩

theorem Inv.perm (h : Inv s) (hp : calls.Perm s.calls) : Inv { s with calls } :=
  ⟨h.live, fun c hc => h.placed c (hp.mem_iff.mp hc), h.queue, h.inside, h.qcount, h.released,
    fun is hl => (h.place is hl).perm (hp.filter _)⟩

theorem Inv.change (h : Inv s) (hl : is ∈ s.live) (hi : r.istruct = Function.update s.istruct is x)
    (hsame : r.live = s.live ∧ r.file = s.file ∧ r.fsIp = s.fsIp) (hrefs : ∀ j, j ≠ is → r.refs j = s.refs j)
    (hcalls : ∀ j, j ≠ is → callsAt r.calls j = callsAt s.calls j)
    (hlocal : Local x (r.refs is) (s.file is) s.fsIp is (callsAt r.calls is))
    (hqueue : Mirrors r.istructQueue fun j => (Function.update s.istruct is x j).queued = true)
    (hqcount : r.istructQcount = r.istructQueue.length)
    (hreleased : r.istructReleased + (s.istruct is).away.toNat = s.istructReleased + x.away.toNat) : Inv r := by
  obtain ⟨hlive, hfile, hfs⟩ := hsame
  refine ⟨hlive ▸ h.live, fun c hc => ?_, hi ▸ hqueue, fun j hj => ?_, hqcount, ?_, fun j hj => ?_⟩
  · rw [hlive]
    by_cases hon : c.on = is
    · rw [hon]
      exact hl
    · have hm : c ∈ callsAt r.calls c.on := mem_callsAt.mpr ⟨hc, rfl⟩
      rw [hcalls _ hon] at hm
      exact h.placed c (mem_callsAt.mp hm).1
  · rw [hlive]
    by_cases hji : j = is
    · exact hji ▸ hl
    · rw [hi, Function.update_of_ne hji] at hj
      exact h.inside j hj
  · have hcount : s.live.countP (fun j => (Function.update s.istruct is x j).away) + (s.istruct is).away.toNat =
        s.live.countP (fun j => (s.istruct j).away) + x.away.toNat := countP_update_mem h.live hl
    have hrel := h.released
    rw [hlive, hi]
    omega
  · rw [hfile, hfs, hi]
    by_cases hji : j = is
    · subst hji
      rw [Function.update_self]
      exact hlocal
    · rw [Function.update_of_ne hji, hrefs j hji, hcalls j hji]
      exact h.place j (hlive ▸ hj)

end MachVM.Builtin.InodePager

namespace MachVM.Builtin.InodePager

open Mirror

variable {x : Istruct} {is : IstructId} {c : Call} {calls : List Call} {refs : List Inode} {file : FsIp}
  {fsIp : Inode → FsIp} {p : Inode}

section Places

variable (h : Local x refs file fsIp is calls)
include h

theorem Local.state_busy (hc : c ∈ calls) (hw : c.works = true) : x.state = .busy := by
  cases hs : x.state with
  | busy => rfl
  | inMemory =>
    obtain ⟨p, -, -, -, hm⟩ := h.memory hs
    rcases hm c hc with rfl | rfl <;> cases hw
  | out =>
    obtain ⟨-, -, -, hm⟩ := h.out hs
    cases hm c hc
    cases hw

theorem Local.holding (hc : .holding is p ∈ calls) : x.state = .inMemory ∧ x.inode = .ip p ∧ fsIp p = file ∧
    refs = (if x.swapfile then [] else [p]) ∧ ∀ c ∈ calls, c = .woken is ∨ c = .holding is p := by
  cases hs : x.state with
  | busy =>
    obtain ⟨-, -, w, -, -, hm⟩ := h.busy hs
    rcases hm _ hc with hw | hw | hw <;> cases hw
  | inMemory =>
    obtain ⟨q, hi, hf, hr, hm⟩ := h.memory hs
    rcases hm _ hc with hq | hq
    · cases hq
    · cases hq
      exact ⟨rfl, hi, hf, hr, hm⟩
  | out =>
    obtain ⟨-, -, -, hm⟩ := h.out hs
    cases hm _ hc

theorem Local.sleeping_busy (hc : .sleeping is ∈ calls) : x.state = .busy := by
  cases hs : x.state with
  | busy => rfl
  | inMemory =>
    obtain ⟨p, -, -, -, hm⟩ := h.memory hs
    rcases hm _ hc with hq | hq <;> cases hq
  | out =>
    obtain ⟨-, -, -, hm⟩ := h.out hs
    cases hm _ hc

end Places

theorem Local.worker (h : Local x refs file fsIp is (c :: calls)) (hw : c.works = true) :
    x.state = .busy ∧ x.inode = .fsIp file ∧ x.swapfile = false ∧ Works file fsIp refs c ∧
      (∀ d ∈ calls, d = .woken is ∨ d = .sleeping is) ∧ calls.filter Call.works = [] := by
  have hs := h.state_busy List.mem_cons_self hw
  obtain ⟨hi, hsw, w, hf, hworks, hm⟩ := h.busy hs
  rw [List.filter_cons_of_pos hw] at hf
  obtain ⟨rfl, hnil⟩ := List.cons.inj hf
  refine ⟨hs, hi, hsw, hworks, fun d hd => ?_, hnil⟩
  rcases hm d (List.mem_cons_of_mem _ hd) with hdw | hdw
  · have hin : d ∈ calls.filter Call.works := List.mem_filter.mpr ⟨hd, hdw⟩
    rw [hnil] at hin
    cases hin
  · exact hdw

theorem Local.not_queued (h : Local x refs file fsIp is calls) (hs : x.state ≠ .inMemory) : x.queued = false := by
  cases hq : x.queued with
  | false => rfl
  | true => exact absurd (h.quiet hq).2.2.2 hs

theorem Local.used_not_queued (h : Local x refs file fsIp is calls) (hc : c ∈ calls) (hu : c.uses = true) :
    x.queued = false := by
  cases hq : x.queued with
  | false => rfl
  | true =>
    have hz := (h.quiet hq).2.2.1
    have hpos := List.countP_pos_iff.mpr ⟨c, hc, hu⟩
    have huses := h.uses
    omega

theorem Local.enter (h : Local x refs file fsIp is calls) :
    Local { x with useCount := x.useCount + 1, queued := false } refs file fsIp is (.woken is :: calls) := by
  refine ⟨?_, fun hq => absurd hq (by simp), fun hs => ?_, fun hs => ?_, fun hs => ?_⟩
  · rw [List.countP_cons_of_pos rfl, h.uses]
    rfl
  · obtain ⟨p, h1, h2, h3, h4⟩ := h.memory hs
    exact ⟨p, h1, h2, h3, List.forall_mem_cons.mpr ⟨.inl rfl, h4⟩⟩
  · obtain ⟨h1, h2, h3, h4⟩ := h.out hs
    exact ⟨h1, h2, h3, List.forall_mem_cons.mpr ⟨rfl, h4⟩⟩
  · obtain ⟨h1, h2, w, h3, h4, h5⟩ := h.busy hs
    exact ⟨h1, h2, w, by rw [List.filter_cons_of_neg (by simp [Call.works])]; exact h3, h4,
      List.forall_mem_cons.mpr ⟨.inr (.inl rfl), h5⟩⟩

theorem Local.sleep (h : Local x refs file fsIp is (.woken is :: calls)) (hs : x.state = .busy) :
    Local x refs file fsIp is (.sleeping is :: calls) := by
  refine ⟨h.uses, h.quiet, fun hm => absurd (hs.symm.trans hm) (by simp), fun hm => absurd (hs.symm.trans hm) (by simp),
    fun _ => ?_⟩
  obtain ⟨h1, h2, w, h3, h4, h5⟩ := h.busy hs
  exact ⟨h1, h2, w, h3, h4, List.forall_mem_cons.mpr ⟨.inr (.inr rfl), (List.forall_mem_cons.mp h5).2⟩⟩

theorem Local.hold (h : Local x refs file fsIp is (.woken is :: calls)) (hs : x.state = .inMemory)
    (hp : x.inode = .ip p) : Local x refs file fsIp is (.holding is p :: calls) := by
  refine ⟨h.uses, h.quiet, fun _ => ?_, fun hm => absurd (hs.symm.trans hm) (by simp),
    fun hm => absurd (hs.symm.trans hm) (by simp)⟩
  obtain ⟨q, h1, h2, h3, h4⟩ := h.memory hs
  cases InodeRef.ip.inj (hp.symm.trans h1)
  exact ⟨p, h1, h2, h3, List.forall_mem_cons.mpr ⟨.inr rfl, (List.forall_mem_cons.mp h4).2⟩⟩

theorem Local.fetch (h : Local x refs file fsIp is (.woken is :: calls)) (hs : x.state = .out) :
    Local { x with state := .busy } refs file fsIp is (.fetching is :: calls) := by
  obtain ⟨h1, h2, h3, h4⟩ := h.out hs
  have h4 := (List.forall_mem_cons.mp h4).2
  have hq : x.queued = false := h.not_queued (by simp [hs])
  refine ⟨h.uses, fun hq' => absurd (hq.symm.trans hq') (by simp), fun hm => absurd hm (by simp),
    fun hm => absurd hm (by simp), fun _ => ⟨h1, h3, .fetching is, ?_, h2, ?_⟩⟩
  · rw [List.filter_cons_of_pos rfl, List.filter_eq_nil_iff.mpr]
    intro c hc
    simp [h4 c hc, Call.works]
  · exact List.forall_mem_cons.mpr ⟨.inl rfl, fun c hc => .inr (.inl (h4 c hc))⟩

theorem Local.progress {refs' : List Inode} {d : Call} (h : Local x refs file fsIp is (c :: calls))
    (hc : c.works = true) (hd : d.works = true) (hu : d.uses = c.uses) (hw : Works file fsIp refs' d) :
    Local x refs' file fsIp is (d :: calls) := by
  obtain ⟨hs, hi, hsw, -, hm, hf⟩ := h.worker hc
  refine ⟨?_, h.quiet, fun hm => absurd (hs.symm.trans hm) (by simp), fun hm => absurd (hs.symm.trans hm) (by simp),
    fun _ => ⟨hi, hsw, d, ?_, hw, ?_⟩⟩
  · rw [h.uses, List.countP_cons, List.countP_cons, hu]
  · rw [List.filter_cons_of_pos hd, hf]
  · exact List.forall_mem_cons.mpr ⟨.inl hd, fun c hc => .inr (hm c hc)⟩

theorem countP_wake : (calls.map (wake is)).countP Call.uses = calls.countP Call.uses := by
  rw [List.countP_map]
  exact List.countP_congr fun c _ => by simp [wake_uses]

theorem woken_of_map (hm : ∀ d ∈ calls, d = .woken is ∨ d = .sleeping is) :
    ∀ d ∈ calls.map (wake is), d = .woken is := by
  intro d hd
  obtain ⟨c, hc, rfl⟩ := List.mem_map.mp hd
  rcases hm c hc with rfl | rfl
  · simp [wake]
  · simp [wake]

theorem Local.filled (h : Local x refs file fsIp is (.fetched is p :: calls)) :
    Local { x with inode := .ip p, state := .inMemory } refs file fsIp is (.holding is p :: calls.map (wake is)) := by
  obtain ⟨hs, -, hsw, hw, hm, -⟩ := h.worker rfl
  have hq : x.queued = false := h.not_queued (by simp [hs])
  refine ⟨?_, fun hq' => absurd (hq.symm.trans hq') (by simp), fun _ => ⟨p, rfl, hw.2, ?_, ?_⟩,
    fun hm => absurd hm (by simp), fun hm => absurd hm (by simp)⟩
  · rw [List.countP_cons_of_pos rfl, countP_wake]
    exact h.uses.trans (by rw [List.countP_cons_of_pos rfl])
  · rw [if_neg (by simp [hsw])]
    exact hw.1
  · exact List.forall_mem_cons.mpr ⟨.inr rfl, fun d hd => .inl (woken_of_map hm d hd)⟩

theorem Local.emptied (h : Local x refs file fsIp is (.reclaimed is :: calls)) :
    Local { x with state := .out } refs file fsIp is (calls.map (wake is)) := by
  obtain ⟨hs, hi, hsw, hw, hm, -⟩ := h.worker rfl
  have hq : x.queued = false := h.not_queued (by simp [hs])
  refine ⟨?_, fun hq' => absurd (hq.symm.trans hq') (by simp), fun hm => absurd hm (by simp),
    fun _ => ⟨hi, hw, hsw, woken_of_map hm⟩, fun hm => absurd hm (by simp)⟩
  rw [countP_wake]
  exact h.uses.trans (by rw [List.countP_cons_of_neg (by simp [Call.uses])])

theorem Local.leave {q : Bool} (h : Local x refs file fsIp is (.holding is p :: calls))
    (hq : q = true → x.paging = true ∧ x.swapfile = false ∧ x.useCount - 1 = 0) :
    Local { x with useCount := x.useCount - 1, queued := q } refs file fsIp is calls := by
  obtain ⟨hs, hi, hf, hr, hm⟩ := h.holding List.mem_cons_self
  refine ⟨?_, fun hq' => ?_, fun _ => ⟨p, hi, hf, hr, (List.forall_mem_cons.mp hm).2⟩,
    fun hm => absurd (hs.symm.trans hm) (by simp), fun hm => absurd (hs.symm.trans hm) (by simp)⟩
  · have hu := h.uses
    rw [List.countP_cons_of_pos rfl] at hu
    change x.useCount - 1 = _
    omega
  · obtain ⟨h1, h2, h3⟩ := hq hq'
    exact ⟨h1, h2, h3, hs⟩

theorem Local.reclaim (h : Local x refs file fsIp is calls) (hq : x.queued = true) (hp : x.inode = .ip p) :
    Local { x with queued := false, inode := .fsIp (fsIp p), state := .busy } refs file fsIp is
      (.reclaiming is p :: calls) := by
  obtain ⟨-, hsw, hu, hs⟩ := h.quiet hq
  obtain ⟨r, hi, hf, hr, hm⟩ := h.memory hs
  cases InodeRef.ip.inj (hp.symm.trans hi)
  have hnil : calls = [] := by
    refine List.eq_nil_iff_forall_not_mem.mpr fun c hc => ?_
    have huses : c.uses = true := by rcases hm c hc with rfl | rfl <;> rfl
    exact absurd ((h.used_not_queued hc huses).symm.trans hq) (by simp)
  subst hnil
  refine ⟨hu, fun hq' => absurd hq' (by simp), fun hm => absurd hm (by simp), fun hm => absurd hm (by simp),
    fun _ => ⟨by rw [hf], hsw, .reclaiming is p, rfl, ?_, by simp [Call.works]⟩⟩
  rw [hr, if_neg (by simp [hsw])]
  rfl

theorem Local.boot {b sw : Bool} (hr : refs = if sw then [] else [p]) :
    Local { useCount := 1, state := .inMemory, queued := false, paging := b, swapfile := sw, inode := .ip p } refs
      (fsIp p) fsIp is [.holding is p] :=
  ⟨rfl, fun hq => absurd hq (by simp), fun _ => ⟨p, rfl, rfl, hr, by simp⟩, fun hm => absurd hm (by simp),
    fun hm => absurd hm (by simp)⟩

end MachVM.Builtin.InodePager
