import Mathlib.Data.List.Nodup
import Mathlib.Data.List.Perm.Basic
import MachVM.Lib.Run
import MachVM.NetportSteps

namespace MachVM.Ipc.Netport

open Machine Tally

variable {s : Net} {l k n : List Section} {x : Section} {e f rp lp : EntryId} {m : MsgId} {t : Trid} {c : Code}
  {taken : Bool} {o : Option EntryId}

/-- A section that is not about a request on its way out, and not one of a `netport_remove`. -/
def Section.inert : Section → Bool
  | .send .. | .unmark .. | .referLocal .. | .referRemote .. | .detach _ | .removed _ => false
  | _ => true

attribute [local simp] Section.inert Section.marks Section.sends Section.links Section.detaches Section.Stored in
theorem inert_flatMap (h : l.all Section.inert = true) : l.flatMap Section.marks = [] ∧ l.flatMap Section.sends = [] ∧
    l.flatMap Section.links = [] ∧ l.flatMap Section.detaches = [] ∧ ∀ x ∈ l, x.Stored s := by
  have hx : ∀ x ∈ l, x.marks = [] ∧ x.sends = [] ∧ x.links = [] ∧ x.detaches = [] ∧ x.Stored s := fun x hx => by
    have := List.all_eq_true.mp h x hx
    cases x <;> simp_all
  exact ⟨List.flatMap_eq_nil_iff.mpr fun x h => (hx x h).1, List.flatMap_eq_nil_iff.mpr fun x h => (hx x h).2.1,
    List.flatMap_eq_nil_iff.mpr fun x h => (hx x h).2.2.1, List.flatMap_eq_nil_iff.mpr fun x h => (hx x h).2.2.2.1,
    fun x h => (hx x h).2.2.2.2⟩

theorem agree_of (hh : (n.flatMap Section.holds).Perm (k.flatMap Section.holds))
    (ht : n.flatMap Section.trids = k.flatMap Section.trids) (hg : n.flatMap Section.msgs = k.flatMap Section.msgs)
    (hk : k.all Section.inert = true) (hn : n.all Section.inert = true) : Agree s k n := by
  obtain ⟨km, ks, kl, kd, -⟩ := inert_flatMap (s := s) hk
  obtain ⟨nm, ns, -, -, hst⟩ := inert_flatMap (s := s) hn
  exact ⟨hh, .of_eq (nm.trans km.symm), .of_eq (ns.trans ks.symm), .of_eq ht, .of_eq hg, by simp [kl], by simp [kd], hst⟩

theorem Inv.goOn (h : Inv s (x :: l)) (hh : (n.flatMap Section.holds).Perm ([x].flatMap Section.holds))
    (ht : n.flatMap Section.trids = [x].flatMap Section.trids) (hg : n.flatMap Section.msgs = [x].flatMap Section.msgs)
    (hx : [x].all Section.inert = true) (hn : n.all Section.inert = true) : Inv s (n ++ l) :=
  h.replace (k := [x]) (agree_of hh ht hg hx hn)

theorem withEntry_inv {found : EntryId → List Section} {missing : List Section} (h : Inv s (x :: l))
    (ho : ∀ e, o = some e → 0 < s.uses (x :: l) e) (hf : ∀ e, Agree (s.reference e) [.release e, x] (found e))
    (hm : Agree s [x] missing) :
    Inv (s.withEntry o found missing).1 ((s.withEntry o found missing).2 ++ l) := by
  unfold Net.withEntry
  split
  next e => exact (h.reference (ho e rfl)).replace (k := [.release e, x]) (hf e)
  next => exact h.replace (k := [x]) hm

theorem Inv.uses_of_externalEntry {p : Option KernPort} (h : Inv s l) (he : s.externalEntry p = some e) :
    0 < s.uses l e := by
  cases p with
  | none => simp [Net.externalEntry] at he
  | some p => exact h.uses_of_external he

theorem uses_of_lookup {n : NetworkPort} (he : s.lookup n = some e) : 0 < s.uses l e := uses_of_table (lookup_mem he)

theorem quiesce_inv (h : Inv s (x :: l)) (hx : ∀ r : Net, (r.entry e).res = false → Agree r [x] [.release e]) :
    Inv (s.quiesce e).1 (.release e :: l) := by
  unfold Net.quiesce
  dsimp only
  split
  next hreq =>
    have hres : (s.entry e).res = false := by
      by_contra hr
      have h1 := (h.sides e).1 hreq
      have h2 := (h.sides e).2 (by simpa using hr)
      simp [h1] at h2
    exact h.replace (k := [x]) (hx s hres)
  next =>
    split
    next hr =>
      have hc : Inv ((s.setEntry e { s.entry e with res := false }).sendReply (s.entry e).trid .abortReply) (x :: l) :=
        (h.clearRes (c := .abortReply) hr).sendReply
      refine hc.replace (k := [x]) (hx _ ?_)
      change ((s.setEntry e { s.entry e with res := false }).entry e).res = false
      rw [setEntry_self]
    next hr => exact h.replace (k := [x]) (hx s (by simpa using hr))

theorem quiesce_calls : (s.quiesce e).2 = [.release e] ∨
    (s.quiesce e).2 = [.release e, .sendAbort (s.entry e).dest (s.entry e).netport (s.entry e).currentSeqNo] := by
  unfold Net.quiesce
  dsimp only
  split
  next => exact .inr rfl
  next =>
    split
    next => exact .inl rfl
    next => exact .inl rfl

theorem changedEntry_inv {done : Bool} (h : Inv s (.changedEntry e done :: l)) :
    Inv (s.exec taken (.changedEntry e done)).1 ((s.exec taken (.changedEntry e done)).2 ++ l) := by
  have hq := quiesce_inv h fun r _ =>
    agree_of .rfl rfl rfl rfl rfl
  refine hq.replace (k := [.release e]) ?_
  change Agree _ _ (if done then (s.quiesce e).2 ++ [.remove (s.entry e).netport] else (s.quiesce e).2)
  rcases quiesce_calls (s := s) (e := e) with hc | hc <;> rw [hc] <;> cases done <;>
    exact agree_of .rfl rfl rfl rfl rfl

theorem removed_inv (h : Inv s (.removed e :: l)) :
    Inv (s.exec taken (.removed e)).1 ((s.exec taken (.removed e)).2 ++ l) := by
  have hq := quiesce_inv h fun r hr => by
    refine ⟨.rfl, .rfl, .rfl, .rfl, .rfl, fun f hf hres => ?_, by simp [Section.detaches], by simp [Section.Stored]⟩
    have : f = e := by simpa [Section.links] using hf
    simp [this, hr] at hres
  refine hq.replace (k := [.release e]) ?_
  change Agree _ _ (s.quiesce e).2
  rcases quiesce_calls (s := s) (e := e) with hc | hc <;> rw [hc] <;>
    exact agree_of .rfl rfl rfl rfl rfl

theorem mark_inv {q : Kmsg} (h : Inv s (.mark q rp lp :: l)) :
    Inv (s.mark q rp lp).1 ((s.mark q rp lp).2 ++ l) := by
  unfold Net.mark
  dsimp only
  split
  next =>
    exact h.goOn .rfl rfl rfl rfl rfl
  next hloc =>
    split
    next =>
      exact h.goOn (.swap ..) rfl rfl rfl rfl
    next hreq => exact h.marked (by simpa using hreq) (by simpa using hloc)

theorem takeResponse_inv {q : Kmsg} (h : Inv s (.takeResponse q rp :: l)) :
    Inv (s.takeResponse q rp).1 ((s.takeResponse q rp).2 ++ l) := by
  unfold Net.takeResponse
  dsimp only
  split
  next hr =>
    have hc := h.clearRes (c := .none) hr
    exact hc.replace (k := [.reply (s.entry rp).trid .none, .takeResponse q rp])
      (agree_of .rfl rfl rfl rfl rfl)
  next =>
    exact h.goOn .rfl rfl rfl rfl rfl

theorem abortRequest_inv {i : Nat} (h : Inv s (.abort e i :: l)) :
    Inv (s.abortRequest e i).1 ((s.abortRequest e i).2 ++ l) := by
  have ha : ∀ r : Net, Agree r [.abort e i] [.release e] := fun r =>
    agree_of .rfl rfl rfl rfl rfl
  unfold Net.abortRequest
  dsimp only
  split
  next hr =>
    have hc : Inv ((s.setEntry e { s.entry e with res := false }).sendReply (s.entry e).trid .abortReply)
        (.abort e i :: l) := (h.clearRes (c := .abortReply) hr.1).sendReply
    exact hc.replace (k := [.abort e i]) (ha _)
  next => exact h.replace (k := [.abort e i]) (ha s)

/-- A request is accepted for the port of a client when its entry is not local, has no request to answer, and is still
in the table or will be looked at by its `netport_remove`. -/
def Accepts (s : Net) (l : List Section) : Section → Prop
  | .accept _ rq _ lp => rq.rpc = true →
    (s.entry lp).isLocal = false ∧ (s.entry lp).res = false ∧ s.Linked l lp
  | _ => True

theorem accept_inv {rq : Request} (h : Inv s (.accept t rq rp lp :: l)) (ha : Accepts s l (.accept t rq rp lp)) :
    Inv (s.acceptRequest t rq rp lp).1 ((s.acceptRequest t rq rp lp).2 ++ l) := by
  unfold Net.acceptRequest
  split
  next hrpc =>
    obtain ⟨hloc, hres, hl⟩ := ha hrpc
    have hr : Inv s (.reply t .none :: .release lp :: .release rp :: l) :=
      h.replace (k := [.accept t rq rp lp]) (n := [.reply t .none, .release lp, .release rp])
        (agree_of (.swap ..) rfl rfl rfl rfl)
    exact hr.accepted hloc hres hl
  next =>
    exact h.goOn .rfl rfl rfl rfl rfl

theorem create_inv {n : NetworkPort} {p : KernPort} {b : Bool} {i : Nat} (h : Inv s l) : Inv (s.create n p b i) l := by
  unfold Net.create
  split
  next => exact h
  next => exact h.created ⟨rfl, rfl, rfl, rfl⟩

attribute [local simp] Net.exec in
theorem referRemote_inv (h : Inv s (.referRemote rp lp :: l)) :
    Inv (s.exec taken (.referRemote rp lp)).1 ((s.exec taken (.referRemote rp lp)).2 ++ l) := by
  have hr := h.reference (e := rp) (uses_of_holds List.mem_cons_self (by simp [Section.holds]))
  obtain ⟨hin, hs⟩ := hr.store
  have hin : lp ∈ s.early := hin
  have he : (s.exec taken (.referRemote rp lp)) =
      ({ s.reference rp with early := s.early.erase lp, stored := lp :: s.stored }, [.release rp, .release lp]) := by
    simp [hin]
  rw [he]
  exact hs

theorem remove_inv {n : NetworkPort} (h : Inv s (.remove n :: l)) :
    Inv (s.exec taken (.remove n)).1 ((s.exec taken (.remove n)).2 ++ l) := by
  have hl : Inv s l := h.goOn (n := []) .rfl rfl rfl rfl rfl
  rw [Net.exec]
  split
  next => exact hl
  next e he => exact hl.unlink (lookup_mem he)

theorem exec_inv (taken : Bool) (h : Inv s (x :: l)) (ha : Accepts s l x) :
    Inv (s.exec taken x).1 ((s.exec taken x).2 ++ l) := by
  cases x with
  | queue q =>
    exact withEntry_inv h (fun e he => h.uses_of_externalEntry he) (fun e => agree_of .rfl rfl rfl rfl rfl)
      (agree_of .rfl rfl rfl rfl rfl)
  | look q rp =>
    rw [Net.exec]
    split
    next =>
      dsimp only
      split
      next => exact h.goOn .rfl rfl rfl rfl rfl
      next => exact h.goOn .rfl rfl rfl rfl rfl
    next => exact h.goOn .rfl rfl rfl rfl rfl
  | localPort q rp =>
    exact withEntry_inv h (fun e he => h.uses_of_externalEntry he) (fun e => agree_of (.swap ..) rfl rfl rfl rfl)
      (agree_of .rfl rfl rfl rfl rfl)
  | mark q rp lp => exact mark_inv h
  | send m rp lp =>
    rw [Net.exec]
    split
    next => exact h.sendTaken
    next =>
      refine h.replace (k := [.send m rp lp]) ⟨.rfl, .rfl, .rfl, .rfl, .rfl, ?_, ?_, ?_⟩
      · simp [Section.links]
      · simp [Section.detaches]
      · simp [Section.Stored]
  | unmark rp lp => exact h.unmarked
  | referLocal rp lp =>
    have hr := h.reference (e := lp) (uses_of_holds List.mem_cons_self (by simp [Section.holds]))
    have hs : Section.Stored s (.referLocal rp lp) := h.sections _ List.mem_cons_self
    refine hr.replace (k := [.release lp, .referLocal rp lp]) ⟨?_, .rfl, .rfl, .rfl, .rfl, ?_, ?_, ?_⟩
    · exact .swap ..
    · simp [Section.links]
    · simp [Section.detaches]
    · intro y hy
      rw [List.mem_singleton.mp hy]
      exact setEntry_stored (x := .referLocal rp lp) rfl rfl hs
  | referRemote rp lp => exact referRemote_inv h
  | takeResponse q rp => exact takeResponse_inv h
  | answer q rp t =>
    exact withEntry_inv h (fun e he => h.uses_of_externalEntry he) (fun e => agree_of (.swap ..) rfl rfl rfl rfl)
      (agree_of .rfl rfl rfl rfl rfl)
  | reply t c => exact h.sendReply
  | changed p done =>
    exact withEntry_inv h (fun e he => h.uses_of_externalEntry he) (fun e => agree_of .rfl rfl rfl rfl rfl)
      (agree_of .rfl rfl rfl rfl rfl)
  | changedEntry e done => exact changedEntry_inv h
  | sendAbort d p i => exact ⟨h.refs, h.live, h.table, h.freed, h.marks, h.early,
      fun y hy => h.sections y (List.mem_cons_of_mem _ hy), h.stored, h.trids, h.linked, h.external, h.msgs, h.sides⟩
  | remove p => exact remove_inv h
  | detach e => exact h.detach
  | removed e => exact removed_inv h
  | request t rq =>
    rw [Net.exec]
    split
    next => exact h.goOn .rfl rfl rfl rfl rfl
    next =>
      split
      next =>
        exact withEntry_inv h (fun e he => uses_of_lookup he) (fun e => agree_of .rfl rfl rfl rfl rfl)
          (agree_of .rfl rfl rfl rfl rfl)
      next =>
        exact withEntry_inv h (fun e he => uses_of_lookup he) (fun e => agree_of .rfl rfl rfl rfl rfl)
          (agree_of .rfl rfl rfl rfl rfl)
  | abort e i => exact abortRequest_inv h
  | requestRemote t rq rp =>
    rw [Net.exec]
    dsimp only
    split
    next => exact h.goOn .rfl rfl rfl rfl rfl
    next => exact h.goOn .rfl rfl rfl rfl rfl
  | requestLocal t rq rp =>
    exact withEntry_inv h (fun e he => uses_of_lookup he) (fun e => agree_of (.swap ..) rfl rfl rfl rfl)
      (agree_of .rfl rfl rfl rfl rfl)
  | accept t rq rp lp => exact accept_inv h ha
  | flush m rp lp b => exact h.goOn .rfl rfl rfl rfl rfl
  | checkDest m rp lp r =>
    rw [Net.exec]
    dsimp only
    split
    next => exact h.goOn .rfl rfl rfl rfl rfl
    next => exact h.goOn .rfl rfl rfl rfl rfl
  | checkSource m rp lp r =>
    rw [Net.exec]
    dsimp only
    split
    next => exact h.goOn .rfl rfl rfl rfl rfl
    next => exact h.goOn (.swap ..) rfl rfl rfl rfl
  | findSource m rp r =>
    exact withEntry_inv h (fun e he => uses_of_lookup he) (fun e => agree_of (.swap ..) rfl rfl rfl rfl)
      (agree_of .rfl rfl rfl rfl rfl)
  | destroy m => exact h.resolve
  | requeue m =>
    have hd : Inv s (.destroy m :: l) := h.goOn (n := [.destroy m]) .rfl rfl rfl rfl rfl
    exact hd.resolve
  | enter p q b =>
    exact withEntry_inv h (fun e he => h.uses_of_externalEntry he) (fun e => agree_of .rfl rfl rfl rfl rfl)
      (agree_of .rfl rfl rfl rfl rfl)
  | enterOld e p q b => exact h.goOn .rfl rfl rfl rfl rfl
  | create p q b i =>
    have hl : Inv s l := h.goOn (n := []) .rfl rfl rfl rfl rfl
    exact create_inv hl
  | release e => exact h.release

abbrev State.sections (s : State) : List Section := s.calls.flatten

/-- The transport answers a request only when its `netport_queue` has its two references. -/
def ok (s : State) : Action → Prop
  | .handleRp rp _ _ => rp ∈ s.net.stored
  | .proceed i _ =>
    match s.calls[i]? with
    | some (x :: _) => Accepts s.net s.sections x
    | _ => True
  | _ => True

/-- There are no entries at the start. -/
structure Start (s : State) : Prop where
  entry : ∀ e, (s.net.entry e).refCount = 0 ∧ (s.net.entry e).req = false ∧ (s.net.entry e).res = false
  next : s.net.next = 0
  table : s.net.table = []
  external : ∀ p, s.net.external p = none
  owed : s.net.early = [] ∧ s.net.stored = []
  freed : s.net.freed = []
  history : s.net.sent = [] ∧ s.net.resolved = [] ∧ s.net.arrived = [] ∧ s.net.replied = []
  calls : s.calls = []

abbrev Reachable : State → Prop := Reach Start step fun _ _ => True

abbrev OrderlyReachable : State → Prop := Reach Start step ok

variable {q r : State} {a : Action}

theorem Start.inv (h : Start q) : Inv q.net q.sections := by
  obtain ⟨hentry, hnext, htable, hext, ⟨hearly, hstored⟩, hfreed, ⟨hsent, hres, harr, hrep⟩, hcalls⟩ := h
  have hl : q.sections = [] := by rw [State.sections, hcalls]; rfl
  rw [hl]
  have huses : ∀ e, q.net.uses [] e = 0 := fun e => by simp [Net.uses, htable, hstored]
  refine ⟨fun e => ?_, fun e => ?_, by simp [htable], by simp [hfreed], fun e => ?_, fun e => by simp [hearly],
    by simp, by simp [hstored], fun t => ?_, fun e he => ?_, fun p e he => ?_, fun m => ?_, fun e => ?_⟩
  · rw [(hentry e).1, huses]
    rfl
  · rw [huses, hnext]
    exact iff_of_false (Nat.lt_irrefl 0) fun h => Nat.not_lt_zero e h.1
  · simp [hearly, hstored, (hentry e).2.1]
  · simp [harr, hrep, Net.pending, hnext]
  · simp [(hentry e).2.2] at he
  · simp [hext] at he
  · simp [hsent, hres, hearly, hstored]
  · simp [(hentry e).2]

theorem handleRp_inv {code : Code} {p : Response} {y : Net × List Section} (h : Inv s l) (he : e ∈ s.stored)
    (hr : (answered s e).handleRp e code p = some y) : Inv y.1 (y.2 ++ l) := by
  obtain ⟨lp, m, hreq, hlp, hm, hi⟩ := h.answered he
  have ha : answered s e = { s with stored := s.stored.erase e } := if_pos he
  rw [ha, Net.handleRp] at hr
  simp only [hreq, hlp, hm] at hr
  cases Option.some.inj hr
  refine hi.replace (k := [.destroy m, .release e, .release lp]) ?_
  cases code with
  | success =>
    dsimp only
    split
    next => exact agree_of .rfl rfl rfl rfl rfl
    next => exact agree_of .rfl rfl rfl rfl rfl
  | _ => exact agree_of .rfl rfl rfl rfl rfl

theorem step_inv (h : Inv q.net q.sections) (ha : ok q a) (hs : step q a = some r) : Inv r.net r.sections := by
  have begins : ∀ x : Section, [x].all Section.inert = true → x.holds = [] → x.trids = [] → x.msgs = [] →
      Inv q.net (q.begin x).sections := fun x hx hh ht hg =>
    h.replace (k := []) (n := [x]) (agree_of (.of_eq (by simp [hh])) (by simp [ht]) (by simp [hg]) rfl hx)
  cases a with
  | queue m =>
    cases Option.some.inj hs
    exact begins _ rfl rfl rfl rfl
  | changed p done =>
    cases Option.some.inj hs
    exact begins _ rfl rfl rfl rfl
  | remove n =>
    cases Option.some.inj hs
    exact begins _ rfl rfl rfl rfl
  | enter n p b =>
    cases Option.some.inj hs
    exact begins _ rfl rfl rfl rfl
  | handleRq t rq =>
    cases Option.some.inj hs
    exact (h.arrive (t := t) (c := .none)).replace (k := [.reply t .none]) (n := [.request t rq])
      (agree_of .rfl rfl rfl rfl rfl)
  | handleRp rp code p =>
    rw [step] at hs
    split at hs
    next =>
      obtain ⟨y, hy, rfl⟩ := Option.map_eq_some_iff.mp hs
      exact handleRp_inv h ha hy
    next => simp at hs
  | proceed i taken =>
    rw [step] at hs
    split at hs
    next x rest hc =>
      cases Option.some.inj hs
      simp only [ok, hc] at ha
      obtain ⟨hi, hx⟩ := List.getElem?_eq_some_iff.mp hc
      have hp : (q.calls[i] :: q.calls.eraseIdx i).Perm q.calls := List.getElem_cons_eraseIdx_perm hi
      rw [hx] at hp
      have hf : Inv q.net (x :: (rest ++ (q.calls.eraseIdx i).flatten)) := h.perm hp.flatten
      have hacc : Accepts q.net (rest ++ (q.calls.eraseIdx i).flatten) x := by
        cases x with
        | accept t rq rp lp =>
          intro hrpc
          obtain ⟨hloc, hres, hl⟩ := ha hrpc
          refine ⟨hloc, hres, hl.imp_right fun hin => ?_⟩
          exact (hp.flatten.flatMap_right Section.links).symm.subset hin
        | _ => trivial
      have hr := exec_inv taken hf hacc
      rw [← List.append_assoc] at hr
      exact hr
    next => simp at hs

theorem reachable_inv (h : OrderlyReachable q) : Inv q.net q.sections :=
  Reach.invariant (p := fun q => Inv q.net q.sections) (fun _ hs => hs.inv) (fun _ _ _ hp ha hs => step_inv hp ha hs) h

def noEntry : Entry where
  netport := ⟨0, 0⟩
  port := 0
  refCount := 0
  isLocal := false
  req := false
  res := false
  dest := 0
  serverPort := none
  reqKmsg := none
  currentSeqNo := 0
  trid := 0
  pendingSeqNo := 0

def bootState : State where
  net :=
    { entry := fun _ => noEntry
      next := 0
      table := []
      external := fun _ => none
      early := []
      stored := []
      freed := []
      sent := []
      resolved := []
      arrived := []
      replied := []
      aborts := [] }
  calls := []

theorem bootState_start : Start bootState :=
  ⟨fun _ => ⟨rfl, rfl, rfl⟩, rfl, rfl, fun _ => rfl, ⟨rfl, rfl⟩, rfl, ⟨rfl, rfl, rfl, rfl⟩, rfl⟩

instance : Decidable (s.Linked l e) := inferInstanceAs (Decidable (_ ∨ _))

instance : Decidable (Accepts s l x) := by
  unfold Accepts
  split <;> infer_instance

instance : Decidable (ok q a) := by
  unfold ok
  split
  · infer_instance
  · split <;> infer_instance
  · infer_instance

def rpcRequest : Request := ⟨true, false, ⟨9, 2⟩, ⟨0, 1⟩, true, 0⟩

/-- A request of the client, as far as it is accepted. -/
def requested (t : Trid) : List Action :=
  [.handleRq t rpcRequest, .proceed 0 true, .proceed 0 true, .proceed 0 true, .proceed 0 true]

end MachVM.Ipc.Netport
