import MachVM.IpcRightsMoves
import Mathlib.Logic.Basic

namespace MachVM.Ipc.Space

def LivePort (s : SState) (o : KernObjId) : Prop := (s.obj o).isSet = false ∧ (s.obj o).inUse = true

/-- The receiver of the port is a task with one entry for the right, under the name the port knows,
and neither another task nor a message has the right. -/
def TaskHolds (s : SState) (o : KernObjId) (t : TaskId) : Prop :=
  (s.obj o).receiver = .task t ∧ holding s o = 0 ∧
    ∃ e x, s.entry e = some x ∧ x.task = some t ∧ x.obj = o ∧ x.type = .receiveOwn ∧
      x.name = (s.obj o).name ∧
      ∀ f z, s.entry f = some z → z.obj = o → z.type = .receiveOwn → f = e

/-- The port is in transit: no task has the right, and one message does. -/
def MessageHolds (s : SState) (o : KernObjId) : Prop :=
  (s.obj o).receiver = .soft ∧ holding s o = 1 ∧
    ∀ e x, s.entry e = some x → x.obj = o → x.type ≠ .receiveOwn

def OneHolder (s : SState) (o : KernObjId) : Prop := Xor (∃ t, TaskHolds s o t) (MessageHolds s o)

/-- The message is gone with the right in it. -/
def LosesRight (s : SState) (i : Item) (o : KernObjId) : Prop :=
  i ∈ s.items ∧ i.obj = o ∧ i.rights = .portAll ∧ i.inside = true

/-- The holder of the right gives it up: the receiver its entry, or the message that has it. -/
def GivesUp (s : SState) : Action → KernObjId → Prop
  | .dealloc t p, o => p = o ∧ (s.obj o).receiver = .task t
  | .destroy i, o => LosesRight s i o
  | .copyout i _ _, o => LosesRight s i o
  | _, _ => False

variable {s r u : SState} {t : TaskId} {o p : KernObjId} {e f : EntryId} {n : PortName} {x z : Entry}
  {y : KernObj} {i j : Item} {a : Action}

theorem oneHolder_of (h : RightAt s o) (ht : Tables s) (hl : LivePort s o) : OneHolder s o := by
  have hne := (h.live hl.1).mp hl.2
  cases hr : (s.obj o).receiver with
  | none => exact absurd hr hne
  | soft =>
    refine .inr ⟨⟨hr, ?_, ?_⟩, ?_⟩
    · rw [h.count, if_pos hr]
    · exact no_owner h (by rw [hr]; simp)
    · rintro ⟨t, hc, _⟩
      rw [hr] at hc
      cases hc
  | task t =>
    obtain ⟨e, x, hx, hxt, hxo, hty⟩ := h.owned t hr
    obtain ⟨_, _, _, hn⟩ := h.owner e x hx hxo hty
    refine .inl ⟨⟨t, hr, ?_, e, x, hx, hxt, hxo, hty, hn.symm, ?_⟩, ?_⟩
    · rw [h.count, if_neg (by rw [hr]; simp)]
    · exact fun f z hz hzo hzt => owner_unique ht h hx hxo hty hz hzo hzt
    · rintro ⟨hc, _⟩
      rw [hr] at hc
      cases hc

section Lives

/-- No port dies in this step. -/
def Lives (s r : SState) : Prop := ∀ o, LivePort s o → LivePort r o

theorem Lives.trans (h : Lives s u) (h' : Lives u r) : Lives s r := fun o ho => h' o (h o ho)

theorem lives_update (ho : r.obj = Function.update s.obj o y) (hs : y.isSet = (s.obj o).isSet)
    (hu : y.inUse = (s.obj o).inUse) : Lives s r := by
  intro p h
  rw [LivePort, ho]
  by_cases hp : p = o
  · subst hp
    rw [Function.update_self, hs, hu]
    exact h
  · rwa [Function.update_of_ne hp]

theorem OnlyAt.lives (h : OnlyAt p s r) (ho : o ≠ p) (hl : LivePort s o) : LivePort r o := by
  obtain ⟨hs, _, hu⟩ := h.obj o ho
  exact ⟨hs.trans hl.1, (hu hl.1).2.trans hl.2⟩

theorem lives_destroyEntry (s : SState) (t : TaskId) (e : EntryId) (x : Entry) :
    Lives s (objEntryDestroy s t e x) :=
  lives_update (objEntryDestroy_obj s t e x) rfl rfl

theorem lives_clear (s : SState) (o : KernObjId) (c : Receiver) : Lives s (portClearReceiver s o c) :=
  lives_update rfl (by rfl) (by rfl)

theorem lives_make (hm : objEntryMake s t o e = some (f, u)) : Lives s u := by
  obtain ⟨_, y, hobj, hsame, hyu, _⟩ := make_obj hm
  exact lives_update hobj hsame.1 hyu

theorem lives_copyin {d : Bool} {rights : MsgType} (hx : s.entry e = some x)
    (hr : copyinEntry s t e x rights d = some r) : Lives s r := by
  obtain ⟨_, ⟨_, _, _, rfl⟩ | ⟨_, _, _, rfl⟩ | ⟨_, _, u, hu, rfl⟩⟩ := copyinEntry_cases hx hr
  · exact (lives_destroyEntry s t e x).trans (lives_update rfl (by rfl) (by rfl))
  · exact lives_update rfl (by rfl) (by rfl)
  · have hsu : Lives s u := by
      rw [hu]
      exact lives_clear s x.obj .soft
    split
    · exact (hsu.trans (lives_destroyEntry u t e _)).trans (lives_update rfl (by rfl) (by rfl))
    · exact hsu.trans (lives_update rfl (by rfl) (by rfl))

theorem lives_destroy (h : RightInv s) (hr : objectDestroy s i = some r) (ho : LivePort s o)
    (hg : ¬LosesRight s i o) : LivePort r o := by
  obtain ⟨hi, ⟨rfl, _⟩ | ⟨hri, hu, hrec, rfl⟩⟩ := objectDestroy_cases hr
  · exact lives_update rfl (by rfl) (by rfl) o ho
  · have hdrop : Lives s (dropItem (s.setObj i.obj { s.obj i.obj with receiver := .none }) i) :=
      lives_update rfl (by rfl) (by rfl)
    refine (portDestroy_onlyAt _ i.obj).lives ?_ (hdrop o ho)
    rintro rfl
    have hsoft := hrec.resolve_right fun hn => ((h i.obj).live ho.1).mp ho.2 hn
    refine hg ⟨hi, rfl, hri, ?_⟩
    by_contra hin
    exact (h i.obj).left i hi rfl hri (by simpa using hin) hsoft

theorem lives_dealloc (h : RightInv s) (ht : Tables s) (hr : portDealloc s t p = some r)
    (ho : LivePort s o) (hg : ¬(p = o ∧ (s.obj o).receiver = .task t)) : LivePort r o := by
  obtain ⟨e, x, _, hx, hxt, rfl, ⟨_, rfl⟩ | ⟨hty, u, hu, rfl⟩⟩ := portDealloc_cases ht hr
  · exact lives_destroyEntry s t e x o ho
  · have hsu : Lives s (u.setObj x.obj { u.obj x.obj with refs := (u.obj x.obj).refs + 1 }) := by
      rw [hu]
      exact ((lives_destroyEntry s t e x).trans (lives_clear _ x.obj .none)).trans
        (lives_update rfl (by rfl) (by rfl))
    refine (portDestroy_onlyAt _ x.obj).lives ?_ (hsu o ho)
    rintro rfl
    obtain ⟨v, hv, hrec, _⟩ := (h x.obj).owner e x hx rfl hty
    cases Option.some.inj (hv.symm.trans hxt)
    exact hg ⟨rfl, hrec⟩

theorem lives_counts (hr : portReference s o = some r ∨ portRelease s o = some r ∨
    setAddMember s o = some r ∨ setRemoveMember s o = some r) : Lives s r := by
  obtain ⟨refs, held, inSet, rfl⟩ := counts_cases hr
  exact lives_update rfl (by rfl) (by rfl)

theorem lives_step (h : RightInv s) (hs : SpaceInv s) (hr : step s a = some r) (ho : LivePort s o)
    (hg : ¬GivesUp s a o) : LivePort r o := by
  cases a with
  | taskInit t k | taskTerminate t =>
    obtain ⟨_, hr⟩ := Option.ite_none_right_eq_some.mp hr
    cases Option.some.inj hr
    exact ho
  | portAlloc t p e | setAlloc t p e =>
    obtain ⟨hu, _, n, y, hobj, _⟩ := objAlloc_cases hr
    have hp : o ≠ p := by
      rintro rfl
      rw [LivePort, hu.2.1] at ho
      cases ho.2
    rwa [LivePort, hobj, Function.update_of_ne hp]
  | copyin t n rights d =>
    obtain ⟨e, x, hx, _, _, hq⟩ := objectCopyin_cases hs.tables hr
    exact lives_copyin hx hq o ho
  | copyinFromKernel t p rights d =>
    obtain ⟨_, _, rfl⟩ | ⟨e, x, hx, _, _, hq⟩ := objectCopyinFromKernel_cases hs.tables hr
    · exact lives_update rfl (by rfl) (by rfl) o ho
    · exact lives_copyin hx hq o ho
  | headerCopyin t n =>
    obtain ⟨⟨p, r'⟩, hq, rfl⟩ := Option.map_eq_some_iff.mp hr
    obtain ⟨_, ⟨_, _, rfl⟩ | ⟨_, rfl⟩ | ⟨_, _, e, x, _, _, _, _, _, rfl⟩⟩ :=
      objCacheCopyin_cases hs.tables hq
    · exact lives_update rfl (by rfl) (by rfl) o ho
    · exact lives_update rfl (by rfl) (by rfl) o ho
    · exact lives_update rfl (by rfl) (by rfl) o ho
  | copyout i t e =>
    obtain ⟨hi, hin, hd | ⟨_, _, f, u, x, w, hm, hx, rfl, rfl⟩⟩ := objectCopyout_cases hr
    · exact lives_destroy h hd ho hg
    · have hu := lives_make hm
      split
      · exact (hu.trans (lives_update rfl (by rfl) (by rfl))).trans (lives_update rfl (by rfl) (by rfl)) o ho
      · exact hu.trans (lives_update rfl (by rfl) (by rfl)) o ho
  | replyCopyout i t e =>
    obtain ⟨_, _, rfl | ⟨_, _, f, u, x, w, hm, hx, rfl, rfl⟩⟩ := replyCopyout_cases hr
    · exact lives_update rfl (by rfl) (by rfl) o ho
    · exact (lives_make hm).trans (lives_update rfl (by rfl) (by rfl)) o ho
  | destroy i => exact lives_destroy h hr ho hg
  | rename t old new =>
    obtain ⟨_, _, e, x, hx, _, _, _, rfl⟩ := portRename_cases hs.tables hr
    have hc : LivePort (objEntryChange s t e x new) o := by
      rwa [LivePort, objEntryChange_obj]
    split
    · exact lives_update rfl (by rfl) (by rfl) o hc
    · exact hc
  | insertSend t p n e =>
    obtain ⟨_, hr⟩ := Option.ite_none_right_eq_some.mp hr
    cases Option.some.inj hr
    exact lives_update rfl (by rfl) (by rfl) o ho
  | insertReceive i t n e =>
    obtain ⟨_, hr⟩ := Option.ite_none_right_eq_some.mp hr
    cases Option.some.inj hr
    have hins : Lives s (objEntryInsert s e t i.obj n .receiveOwn) := lives_update rfl (by rfl) (by rfl)
    exact hins.trans (lives_update rfl (by rfl) (by rfl)) o ho
  | dealloc t p => exact lives_dealloc h hs.tables hr ho hg
  | setDestroy t e =>
    obtain ⟨x, u, hx, _, hty, rfl, rfl⟩ := setDestroy_cases hr
    have hset := (hs.kinds e x hx).mp hty
    have hp : o ≠ x.obj := by
      rintro rfl
      rw [LivePort, hset] at ho
      cases ho.1
    simpa [LivePort, objEntryDealloc, SState.setEntry, SState.setObj, hp] using ho
  | destroyRights p =>
    obtain ⟨_, e, x, hx, rfl, ⟨_, rfl⟩ | ⟨t, _, rfl⟩⟩ := objDestroyRights_cases hs.tables hr
    · exact ho
    · exact lives_update (objEntryRemove_obj s t e x) rfl rfl o ho
  | receive t n =>
    obtain ⟨⟨p, r'⟩, hq, rfl⟩ := Option.map_eq_some_iff.mp hr
    obtain rfl | ⟨_, _, e, x, _, _, _, _, _, rfl⟩ := msgReceiveTrap_cases hs.tables hq
    · exact lives_update rfl (by rfl) (by rfl) o ho
    · exact lives_update rfl (by rfl) (by rfl) o ho
  | setBackup t n b =>
    obtain ⟨p, rfl⟩ := portSetBackup_cases hr
    have hb : Lives s (reference s b) := lives_update rfl (by rfl) (by rfl)
    exact hb.trans (lives_update rfl (by rfl) (by rfl)) o ho
  | reference p => exact lives_counts (.inl hr) o ho
  | release p => exact lives_counts (.inr (.inl hr)) o ho
  | joinSet p => exact lives_counts (.inr (.inr (.inl hr))) o ho
  | leaveSet p => exact lives_counts (.inr (.inr (.inr hr))) o ho

end Lives

/-- Where a right goes into a message only after the older messages with it are gone, every live port
has exactly one holder, and it dies only when that holder gives up the right. -/
theorem receive_right_holder (h : Reach Settled s) :
    (∀ o, LivePort s o → OneHolder s o) ∧
      ∀ a r o, step s a = some r → LivePort s o → ¬LivePort r o → GivesUp s a o := by
  obtain ⟨hs, _⟩ := reach_space h
  have hi := reach_rights (fun _ _ ha => ha) h
  refine ⟨fun o ho => oneHolder_of (hi o) hs.tables ho, ?_⟩
  intro a r o hr ho hd
  by_contra hg
  exact hd (lives_step hi hs hr ho hg)

theorem settled_of_items (h : s.items = []) : Settled s a := by
  have hno : ∀ o, NoRightMessage s o := by
    intro o i hi
    rw [h] at hi
    cases hi
  cases a with
  | copyin t n rights d =>
    cases rights with
    | port => trivial
    | portAll => exact fun e x _ _ => hno x.obj
  | copyinFromKernel t o rights d =>
    cases rights with
    | port => trivial
    | portAll => exact hno o
  | dealloc t o => exact fun _ _ => hno o
  | _ => trivial

/-- The right of a port goes to another task before its message is destroyed. -/
def insertedPort : List Action := [.insertReceive ⟨32, .portAll, true⟩ 8 5 2, .destroy ⟨32, .portAll, false⟩]

theorem insertedPort_holder : ∃ s u r,
    run [.taskInit 4 false, .taskInit 8 false, .portAlloc 4 32 1] SState.empty = some s ∧
      step s (.copyin 4 1 .portAll true) = some u ∧ run insertedPort u = some r ∧
      (r.obj 32).receiver = .task 8 ∧ OneHolder r 32 := by
  have hrun : ((run [.taskInit 4 false, .taskInit 8 false, .portAlloc 4 32 1] SState.empty).bind fun s =>
      (step s (.copyin 4 1 .portAll true)).bind fun u => (run insertedPort u).bind fun r =>
      if s.items = [] ∧ (r.obj 32).isSet = false ∧ (r.obj 32).inUse = true ∧
        (r.obj 32).receiver = .task 8 then some r else none).isSome = true := by
    decide +kernel
  obtain ⟨v, hv⟩ := Option.isSome_iff_exists.mp hrun
  obtain ⟨s, hs, hv⟩ := Option.bind_eq_some_iff.mp hv
  obtain ⟨u, hu, hv⟩ := Option.bind_eq_some_iff.mp hv
  obtain ⟨r, hr, hv⟩ := Option.bind_eq_some_iff.mp hv
  obtain ⟨⟨hitems, hset, huse, hrec⟩, _⟩ := Option.ite_none_right_eq_some.mp hv
  have hstart : Reach Settled s := reach_run (by simp [Settled]) .start hs
  have hsent : Reach Settled u := .next hstart (settled_of_items hitems) hu
  have hreach : Reach Settled r := reach_run (by simp [insertedPort, Settled]) hsent hr
  exact ⟨s, u, r, hs, hu, hr, hrec, (receive_right_holder hreach).1 32 ⟨hset, huse⟩⟩

/-- The right of a port with a backup goes into a second message before the first is destroyed. -/
def resentPort : List Action :=
  [.taskInit 4 false, .taskInit 8 false, .taskInit 12 false, .portAlloc 4 32 1, .portAlloc 12 64 2,
    .setBackup 4 1 64, .copyin 4 1 .portAll true, .insertReceive ⟨32, .portAll, true⟩ 8 5 3,
    .copyin 8 5 .portAll true, .destroy ⟨32, .portAll, false⟩]

theorem resentPort_held_twice : ¬∀ s, Reach Any s → (∀ o, LivePort s o → OneHolder s o) ∧
    ∀ a r o, step s a = some r → LivePort s o → ¬LivePort r o → GivesUp s a o := by
  intro hall
  have hrun : ((run resentPort SState.empty).bind fun s =>
      if (s.obj 32).isSet = false ∧ (s.obj 32).inUse = true ∧ holding s 32 = 2 then some s
      else none).isSome = true := by
    decide +kernel
  obtain ⟨u, hu⟩ := Option.isSome_iff_exists.mp hrun
  obtain ⟨s, hs, hc⟩ := Option.bind_eq_some_iff.mp hu
  obtain ⟨⟨hset, huse, htwo⟩, _⟩ := Option.ite_none_right_eq_some.mp hc
  rcases (hall s (reach_run (fun _ _ _ => trivial) .start hs)).1 32 ⟨hset, huse⟩ with
    ⟨⟨_, _, hc, _⟩, _⟩ | ⟨⟨_, hc, _⟩, _⟩
  · rw [htwo] at hc
    cases hc
  · rw [htwo] at hc
    cases hc

end MachVM.Ipc.Space
