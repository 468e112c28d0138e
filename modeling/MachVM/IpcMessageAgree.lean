import MachVM.IpcMessageKernelWords

namespace MachVM.Ipc

variable {σ : Type} {c : MsgConfig} {sv : MsgServices σ} {size : Nat}

theorem setMsgSimple_word {w : MsgWalk σ} {s : Bool} {q : Nat} (h : q ≠ 0) :
    (w.setMsgSimple s).word q = w.word q := setWord_ne h

theorem setMsgSimple_msgSimple (w : MsgWalk σ) (s : Bool) : (w.setMsgSimple s).msgSimple = s := by
  have hlow : ∀ x : Word, (x &&& 0xffffff) >>> 24 = 0 := by
    intro x
    apply BitVec.eq_of_toNat_eq
    have hle : (x &&& 0xffffff).toNat ≤ 0xffffff := by
      rw [BitVec.toNat_and]
      exact Nat.and_le_right
    rw [BitVec.toNat_ushiftRight, Nat.shiftRight_eq_div_pow]
    show _ = 0
    omega
  cases s with
  | true =>
    simp only [MsgWalk.msgSimple, MsgWalk.setMsgSimple, setWord_word, if_true,
      BitVec.ushiftRight_or_distrib, hlow]
    decide
  | false =>
    simp only [MsgWalk.msgSimple, MsgWalk.setMsgSimple, setWord_word, if_true, Bool.false_eq_true,
      if_false, BitVec.ushiftRight_or_distrib, hlow]
    decide

theorem msgCopyin_accepted {msg : UserMessage} {m : σ} {x : CopyinReturn σ} {k : MsgWalk σ}
    (h : msgCopyin c sv m msg = some x) (hk : x.kmsg = some k) :
    (¬ msg.Complex ∧ x.log = [] ∧ k.msgSimple = true ∧ ∃ m' dest reply,
        k = translatedHeader sv m' msg (msg.toKernel sv m) dest reply) ∨
      (msg.Complex ∧ ∃ m' dest reply f s,
        CopyinRun c sv msg.size msgHeaderWords true
          (translatedHeader sv m' msg (msg.toKernel sv m) dest reply) s f x.log ∧
        k = f.setMsgSimple s) := by
  rcases msgCopyin_cases c sv m msg with ⟨code, m', _, hr⟩ | ⟨hmin, hmax, hread, hport, m', dest, reply, hr⟩
  · rw [hr] at h
    cases Option.some.inj h
    simp at hk
  · rw [hr] at h
    have hsize := @translatedHeader_msgSize σ sv m' msg (msg.toKernel sv m) dest reply hmax
    have hsimple := @translatedHeader_msgSimple σ sv m' msg (msg.toKernel sv m) dest reply
    unfold copyinBody at h
    split at h
    next hs =>
      cases Option.some.inj h
      cases Option.some.inj hk
      refine .inl ⟨fun hc => ?_, rfl, hs, m', dest, reply, rfl⟩
      rw [hsimple] at hs
      exact absurd hc.2.2.2.2 (by simpa using hs)
    next hs =>
      obtain ⟨e, he, h⟩ := Option.bind_eq_some_iff.mp h
      split at h
      next hcode =>
        cases Option.some.inj h
        cases Option.some.inj hk
        refine .inr ⟨⟨hmin, hmax, hread, hport, ?_⟩, m', dest, reply, e.walk, e.simple, ?_, rfl⟩
        · rw [hsimple] at hs
          simpa using hs
        · rw [hsize] at he
          exact copyinLoop_run he hcode
      next hcode =>
        obtain ⟨d, _, rfl⟩ := Option.map_eq_some_iff.mp h
        simp at hk

/-- A walk of the kernel copy that agrees with the walk of `msg_copyin`. A message left simple is not
walked, and then there was nothing to take out; otherwise the items, their elements and regions are
the same, and each kernel address is one `msg_copyin` stored. -/
def LogAgrees (k : MsgWalk σ) (log log' : List Visit) : Prop :=
  if k.msgSimple then log' = [] ∧ ∀ v ∈ log, v.derefs = []
  else log' = log ∧ ∀ v ∈ log', ∀ x ∈ v.derefs, x.stored = true

instance (k : MsgWalk σ) (log log' : List Visit) : Decidable (LogAgrees k log log') := by
  unfold LogAgrees
  exact inferInstance

/-- Whatever the state of the machine by then, both walkers return and agree with `log`. -/
def WalkersAgree (c : MsgConfig) (sv : MsgServices σ) (k : MsgWalk σ) (log : List Visit) : Prop :=
  ∀ m, (∃ o, msgCopyout c sv (k.setMachine m) = some o ∧ LogAgrees k log o.log) ∧
    ∃ o, msgDestroy c sv (k.setMachine m) = some o ∧ LogAgrees k log o.log

/-- The words of the kernel message a walk used as kernel addresses; `mach_msg` uses those of the
header and then destroys the message. -/
def WalkOut.derefs {τ : Type} (o : WalkOut τ) : List Cell := o.header ++ o.log.flatMap Visit.derefs

def KernelWordsStored (c : MsgConfig) (sv : MsgServices σ) (k : MsgWalk σ) : Prop :=
  ∀ m, (∃ o, msgCopyout c sv (k.setMachine m) = some o ∧ ∀ x ∈ o.derefs, x.stored = true) ∧
    ∃ o, msgDestroy c sv (k.setMachine m) = some o ∧ ∀ x ∈ o.derefs, x.stored = true

theorem copyoutHeader_word {w : MsgWalk σ} {q : Nat} (h3 : q ≠ 3) (h4 : q ≠ 4) :
    (copyoutHeader sv w).word q = w.word q := by
  unfold copyoutHeader
  dsimp only
  rw [setWord_ne h4, setWord_ne h3, setMachine_word]

theorem copyoutHeader_msgSimple (w : MsgWalk σ) : (copyoutHeader sv w).msgSimple = w.msgSimple := by
  rw [MsgWalk.msgSimple, copyoutHeader_word (by decide) (by decide), ← MsgWalk.msgSimple]

theorem copyoutHeader_msgSize (w : MsgWalk σ) : (copyoutHeader sv w).msgSize = w.msgSize := by
  rw [MsgWalk.msgSize, copyoutHeader_word (by decide) (by decide), ← MsgWalk.msgSize]

theorem walks_simple {k : MsgWalk σ} (hs : k.msgSimple = true) (m : σ) :
    (∃ o, msgCopyout c sv (k.setMachine m) = some o ∧ o.log = [] ∧ o.header = heldPorts k) ∧
      ∃ o, msgDestroy c sv (k.setMachine m) = some o ∧ o.log = [] ∧ o.header = heldPorts k := by
  have hs' : (k.setMachine m).msgSimple = true := hs
  constructor
  · unfold msgCopyout
    dsimp only
    rw [copyoutHeader_msgSimple, if_pos hs']
    exact ⟨_, rfl, rfl, rfl⟩
  · unfold msgDestroy
    dsimp only
    rw [if_pos hs']
    exact ⟨_, rfl, rfl, rfl⟩

section Message

variable {held : σ → Word → Prop} {m : σ} {msg : UserMessage} {x : CopyinReturn σ} {k f : MsgWalk σ}
  {s : Bool} {log : List Visit}

theorem kmsg_agrees {w u : MsgWalk σ} (hrun : CopyinRun c sv size msgHeaderWords true w s f log)
    (hb : ∀ v ∈ log, Counted c v.item)
    (hword : ∀ q, q ≠ 0 → q ≠ 3 → q ≠ 4 → u.word q = f.word q) (harray : u.array = f.array)
    (hkernel : u.kernelMessage = f.kernelMessage) : Agrees c held msgHeaderWords w f u := by
  obtain ⟨hw, hk⟩ := hrun.frame hb
  unfold msgHeaderWords at hw ⊢
  refine ⟨fun q hq => hword q (by omega) (by omega) (by omega), fun b _ => by rw [harray], ?_⟩
  rw [MsgWalk.fastPagerData, MsgWalk.fastPagerData, hword 5 (by decide) (by decide) (by decide),
    hw 5 (by decide), hkernel, hk]

theorem setMsgSimple_msgSize (w : MsgWalk σ) (s : Bool) : (w.setMsgSimple s).msgSize = w.msgSize := by
  rw [MsgWalk.msgSize, setMsgSimple_word (by decide), ← MsgWalk.msgSize]

theorem complex_walks {w : MsgWalk σ} (hc : MsgContract sv held)
    (hrun : CopyinRun c sv size msgHeaderWords true w false f log) (hsize : w.msgSize = size)
    (hmax : size ≤ msgSizeMax) (hb : ∀ v ∈ log, Counted c v.item)
    (htr : ∀ v ∈ log, Translated c (w.fastPagerData c) v.item) (m : σ) :
    (∃ o, msgCopyout c sv ((f.setMsgSimple false).setMachine m) = some o ∧ o.log = log ∧
        o.header = heldPorts f) ∧
      ∃ o, msgDestroy c sv ((f.setMsgSimple false).setMachine m) = some o ∧ o.log = log ∧
        o.header = heldPorts f := by
  have hsimple := setMsgSimple_msgSimple f false
  have hend : (f.setMsgSimple false).msgSize = size := by
    rw [setMsgSimple_msgSize, MsgWalk.msgSize, (hrun.frame hb).1 1 (by decide), ← MsgWalk.msgSize, hsize]
  have hheader : heldPorts (f.setMsgSimple false) = heldPorts f := by
    unfold heldPorts
    rw [setMsgSimple_word (by decide), setMsgSimple_word (by decide)]
  obtain ⟨hcopyout, hdestroy⟩ := @CopyinRun.walkers_agree σ c sv size msgHeaderWords held true false w f
    log (msgSizeMax + 1) hrun hc (Nat.le_refl _) (by omega) hb htr
  constructor
  · obtain ⟨u', hu'⟩ := hcopyout (copyoutHeader sv ((f.setMsgSimple false).setMachine m))
      (kmsg_agrees hrun hb
        (fun q h0 h3 h4 => by rw [copyoutHeader_word h3 h4, setMachine_word, setMsgSimple_word h0])
        rfl rfl)
    refine ⟨⟨u', heldPorts f, log⟩, ?_, rfl, rfl⟩
    have hms : ((f.setMsgSimple false).setMachine m).msgSize = size := hend
    have hns : ((f.setMsgSimple false).setMachine m).msgSimple = false := hsimple
    have hh : heldPorts ((f.setMsgSimple false).setMachine m) = heldPorts f := hheader
    unfold msgCopyout
    dsimp only
    rw [copyoutHeader_msgSimple, hns, if_neg (by decide), copyoutHeader_msgSize, hms, hu', hh]
    rfl
  · have hms : ((f.setMsgSimple false).setMachine m).msgSize = size := hend
    have hns : ((f.setMsgSimple false).setMachine m).msgSimple = false := hsimple
    have hh : heldPorts ((f.setMsgSimple false).setMachine m) = heldPorts f := hheader
    have hall : ∀ n, ∃ m', destroyLoop c sv size (msgSizeMax + 1) msgHeaderWords
        (((f.setMsgSimple false).setMachine m).setMachine n) = some (m', log) := by
      intro n
      refine hdestroy _ (kmsg_agrees hrun hb (fun q h0 _ _ => ?_) rfl rfl)
      rw [setMachine_word, setMachine_word, setMsgSimple_word h0]
    obtain ⟨m', hm'⟩ := hall (releasePort sv (releasePort sv ((f.setMsgSimple false).setMachine m).machine
      (((f.setMsgSimple false).setMachine m).word 4)) (((f.setMsgSimple false).setMachine m).word 3))
    refine ⟨⟨m', heldPorts f, log⟩, ?_, rfl, rfl⟩
    unfold msgDestroy
    dsimp only
    rw [hns, if_neg (by decide), hms, hh, hm']
    rfl

theorem complex_forged {w : MsgWalk σ}
    (hrun : CopyinRun c sv size msgHeaderWords true w false f log) (hsize : w.msgSize = size)
    (hb : ∀ v ∈ log, Counted c v.item)
    (hfresh : ∀ q, msgHeaderWords ≤ q → (w.word q).stored = false)
    (hbad : ¬ ∀ v ∈ log, Translated c (w.fastPagerData c) v.item) (m : σ) {o : WalkOut (MsgWalk σ)}
    (ho : msgCopyout c sv ((f.setMsgSimple false).setMachine m) = some o) :
    ∃ v ∈ o.log, ∃ x ∈ v.derefs, x.stored = false := by
  have hms : ((f.setMsgSimple false).setMachine m).msgSize = size := by
    show (f.setMsgSimple false).msgSize = size
    rw [setMsgSimple_msgSize, MsgWalk.msgSize, (hrun.frame hb).1 1 (by decide), ← MsgWalk.msgSize, hsize]
  have hns : ((f.setMsgSimple false).setMachine m).msgSimple = false := setMsgSimple_msgSimple f false
  have hagree : Agrees c (fun _ _ => False) msgHeaderWords w f
      (copyoutHeader sv ((f.setMsgSimple false).setMachine m)) := by
    refine kmsg_agrees hrun hb (fun q h0 h3 h4 => ?_) rfl rfl
    rw [copyoutHeader_word h3 h4, setMachine_word, setMsgSimple_word h0]
  unfold msgCopyout at ho
  dsimp only at ho
  rw [copyoutHeader_msgSimple, hns, if_neg (by decide), copyoutHeader_msgSize, hms] at ho
  obtain ⟨r, hr, rfl⟩ := Option.map_eq_some_iff.mp ho
  exact hrun.forged (Nat.le_refl _) hb hfresh hbad hagree.word hagree.fast hr

/-- There are bytes for every port element of an item that is accepted: no element count wraps. -/
def UserMessage.PortsCounted (c : MsgConfig) (msg : UserMessage) : Prop :=
  msg.EveryItem c fun i => i.Accepted c msg.size → Counted c i

/-- No item is internal memory, and in fast pager data no port is out of line. -/
def UserMessage.AllTranslated (c : MsgConfig) (sv : MsgServices σ) (m : σ) (msg : UserMessage) : Prop :=
  msg.EveryItem c (Translated c (msg.fastMessage c && msg.toKernel sv m))

/-- The body is inline data without ports. -/
def UserMessage.AllPlain (c : MsgConfig) (msg : UserMessage) : Prop := msg.EveryItem c (Plain c)

theorem translatedHeader_fast {m' : σ} {dest reply : Word} :
    (translatedHeader sv m' msg (msg.toKernel sv m) dest reply).fastPagerData c =
      (msg.fastMessage c && msg.toKernel sv m) := by
  rw [MsgWalk.fastPagerData, translatedHeader_word (by decide)]
  rfl

theorem accepted_walks (hc : MsgContract sv held) (hcount : msg.PortsCounted c)
    (h : msgCopyin c sv m msg = some x) (hk : x.kmsg = some k) :
    (∀ y ∈ heldPorts k, y.stored = true) ∧
    ((k.msgSimple = true ∧ (∀ v ∈ x.log, v.derefs = []) ∧ msg.AllPlain c) ∨
      (k.msgSimple = false ∧ (∀ v ∈ x.log, ∀ y ∈ v.derefs, y.stored = true) ∧
        msg.AllTranslated c sv m ∧ ∀ n,
          (∃ o, msgCopyout c sv (k.setMachine n) = some o ∧ o.log = x.log ∧ o.header = heldPorts k) ∧
          ∃ o, msgDestroy c sv (k.setMachine n) = some o ∧ o.log = x.log ∧ o.header = heldPorts k) ∨
      (k.msgSimple = false ∧ ¬ msg.AllTranslated c sv m ∧ ¬ msg.AllPlain c ∧
        ∀ n o, msgCopyout c sv (k.setMachine n) = some o →
          ∃ v ∈ o.log, ∃ y ∈ v.derefs, y.stored = false)) := by
  have hports : ∀ (m' : σ) (b : Bool) (dest reply : Word), ∀ y ∈ heldPorts (translatedHeader sv m' msg b dest reply),
      y.stored = true := by
    intro m' b dest reply y hy
    obtain ⟨hy, _⟩ := List.mem_filter.mp hy
    unfold translatedHeader at hy
    rw [setWord_ne (by decide), setWord_word, setWord_word, if_pos rfl, if_pos rfl] at hy
    rcases List.mem_cons.mp hy with rfl | hy
    · rfl
    · cases List.mem_singleton.mp hy
      rfl
  rcases msgCopyin_accepted h hk with ⟨hnc, hlog, hs, m', dest, reply, rfl⟩ |
    ⟨hcx, m', dest, reply, f, s, hrun, rfl⟩
  · refine ⟨hports m' _ dest reply, .inl ⟨hs, by simp [hlog], fun hcx => absurd hcx hnc⟩⟩
  · have hsize := @translatedHeader_msgSize σ sv m' msg (msg.toKernel sv m) dest reply hcx.2.1
    have hun := @translatedHeader_untouched σ sv m' msg (msg.toKernel sv m) dest reply
    have hfuel : msg.size - msgHeaderWords < msgSizeMax + 1 := by
      have := hcx.2.1
      omega
    have hb := hrun.counted (Nat.le_refl _) hfuel hun (hcount hcx)
    have hheld : heldPorts (f.setMsgSimple s) =
        heldPorts (translatedHeader sv m' msg (msg.toKernel sv m) dest reply) := by
      unfold heldPorts
      rw [setMsgSimple_word (by decide), setMsgSimple_word (by decide),
        (hrun.frame hb).1 3 (by decide), (hrun.frame hb).1 4 (by decide)]
    have hplain : msg.AllPlain c ↔ ∀ v ∈ x.log, Plain c v.item := by
      rw [← hrun.items_iff (Nat.le_refl _) hfuel hun hb]
      exact ⟨fun ha => ha hcx, fun ha _ => ha⟩
    have htrans : msg.AllTranslated c sv m ↔ ∀ v ∈ x.log, Translated c
        ((translatedHeader sv m' msg (msg.toKernel sv m) dest reply).fastPagerData c) v.item := by
      rw [← hrun.items_iff (Nat.le_refl _) hfuel hun hb, translatedHeader_fast]
      exact ⟨fun ha => ha hcx, fun ha _ => ha⟩
    have hsimple := hrun.simple_iff
    refine ⟨by rw [hheld]; exact hports _ _ _ _, ?_⟩
    rw [setMsgSimple_msgSimple]
    cases s with
    | true =>
      have hall := (hsimple.mp rfl).2
      exact .inl ⟨rfl, hrun.plain hall, hplain.mpr hall⟩
    | false =>
      have hnp : ¬ msg.AllPlain c := by
        intro hp
        have := hsimple.mpr ⟨rfl, hplain.mp hp⟩
        simp at this
      by_cases ht : msg.AllTranslated c sv m
      · refine .inr (.inl ⟨rfl, hrun.stored hc (Nat.le_refl _) hb (htrans.mp ht), ht, fun n => ?_⟩)
        have hkf : heldPorts (f.setMsgSimple false) = heldPorts f := by
          unfold heldPorts
          rw [setMsgSimple_word (by decide), setMsgSimple_word (by decide)]
        rw [hkf]
        exact complex_walks hc hrun hsize hcx.2.1 hb (htrans.mp ht) n
      · refine .inr (.inr ⟨rfl, ht, hnp, fun n o ho => ?_⟩)
        refine complex_forged hrun hsize hb (fun q hq => ?_) (fun hall => ht (htrans.mpr hall)) n ho
        rw [hun.ahead q hq]
        rfl

/-- The walkers agree on an accepted message exactly when every item is translated, or the message
is left simple. -/
theorem walkersAgree_iff (hc : MsgContract sv held) (hcount : msg.PortsCounted c)
    (h : msgCopyin c sv m msg = some x) (hk : x.kmsg = some k) :
    WalkersAgree c sv k x.log ↔ msg.AllTranslated c sv m ∨ msg.AllPlain c := by
  obtain ⟨_, ⟨hs, hnone, hp⟩ | ⟨hs, hst, ht, hwalk⟩ | ⟨hs, hnt, hnp, hforged⟩⟩ :=
    accepted_walks hc hcount h hk
  · refine ⟨fun _ => .inr hp, fun _ n => ?_⟩
    obtain ⟨⟨o, ho, hlog, _⟩, ⟨o', ho', hlog', _⟩⟩ := @walks_simple σ c sv k hs n
    refine ⟨⟨o, ho, ?_⟩, o', ho', ?_⟩
    · rw [LogAgrees, if_pos hs]
      exact ⟨hlog, hnone⟩
    · rw [LogAgrees, if_pos hs]
      exact ⟨hlog', hnone⟩
  · refine ⟨fun _ => .inl ht, fun _ n => ?_⟩
    obtain ⟨⟨o, ho, hlog, _⟩, ⟨o', ho', hlog', _⟩⟩ := hwalk n
    refine ⟨⟨o, ho, ?_⟩, o', ho', ?_⟩
    · rw [LogAgrees, hs, if_neg (by decide), hlog]
      exact ⟨rfl, hst⟩
    · rw [LogAgrees, hs, if_neg (by decide), hlog']
      exact ⟨rfl, hst⟩
  · constructor
    · intro hagree
      obtain ⟨⟨o, ho, hlog⟩, _⟩ := hagree m
      rw [LogAgrees, hs, if_neg (by decide)] at hlog
      obtain ⟨v, hv, y, hy, hns⟩ := hforged m o ho
      rw [hlog.2 v hv y hy] at hns
      simp at hns
    · rintro (ht | hp)
      · exact absurd ht hnt
      · exact absurd hp hnp

theorem mem_derefs {τ : Type} {o : WalkOut τ} {y : Cell} :
    y ∈ o.derefs ↔ y ∈ o.header ∨ ∃ v ∈ o.log, y ∈ v.derefs := by
  rw [WalkOut.derefs, List.mem_append, List.mem_flatMap]

/-- Every word used as a kernel address was stored by `msg_copyin` under the same condition. -/
theorem kernelWordsStored_iff (hc : MsgContract sv held) (hcount : msg.PortsCounted c)
    (h : msgCopyin c sv m msg = some x) (hk : x.kmsg = some k) :
    KernelWordsStored c sv k ↔ msg.AllTranslated c sv m ∨ msg.AllPlain c := by
  obtain ⟨hheader, ⟨hs, hnone, hp⟩ | ⟨hs, hst, ht, hwalk⟩ | ⟨hs, hnt, hnp, hforged⟩⟩ :=
    accepted_walks hc hcount h hk
  · refine ⟨fun _ => .inr hp, fun _ n => ?_⟩
    have hderef : ∀ {τ : Type} (o : WalkOut τ), o.log = [] → o.header = heldPorts k →
        ∀ y ∈ o.derefs, y.stored = true := by
      intro τ o hlog hh y hy
      rcases mem_derefs.mp hy with hy | ⟨v, hv, _⟩
      · exact hheader y (hh ▸ hy)
      · rw [hlog] at hv
        simp at hv
    obtain ⟨⟨o, ho, hlog, hh⟩, ⟨o', ho', hlog', hh'⟩⟩ := @walks_simple σ c sv k hs n
    exact ⟨⟨o, ho, hderef o hlog hh⟩, o', ho', hderef o' hlog' hh'⟩
  · refine ⟨fun _ => .inl ht, fun _ n => ?_⟩
    have hderef : ∀ {τ : Type} (o : WalkOut τ), o.log = x.log → o.header = heldPorts k →
        ∀ y ∈ o.derefs, y.stored = true := by
      intro τ o hlog hh y hy
      rcases mem_derefs.mp hy with hy | ⟨v, hv, hy⟩
      · exact hheader y (hh ▸ hy)
      · exact hst v (hlog ▸ hv) y hy
    obtain ⟨⟨o, ho, hlog, hh⟩, ⟨o', ho', hlog', hh'⟩⟩ := hwalk n
    exact ⟨⟨o, ho, hderef o hlog hh⟩, o', ho', hderef o' hlog' hh'⟩
  · constructor
    · intro hstored
      obtain ⟨⟨o, ho, hall⟩, _⟩ := hstored m
      obtain ⟨v, hv, y, hy, hns⟩ := hforged m o ho
      rw [hall y (mem_derefs.mpr (.inr ⟨v, hv, hy⟩))] at hns
      simp at hns
    · rintro (ht | hp)
      · exact absurd ht hnt
      · exact absurd hp hnp

end Message

/-! ## Concrete messages -/

/-- A sender in a kernel that hands out the addresses of its ipc maps one after the other. -/
def countingServices : MsgServices Nat where
  objCacheCopyin := fun m _ => (m, some 1)
  receiverIsKernel := fun _ _ => false
  objRelease := fun m _ => m
  objectCopyin := fun m _ _ _ => (m, some 1)
  vmMoveIn := fun m _ _ _ _ =>
    if m + 1 < 2 ^ 32 then (m + 1, some (BitVec.ofNat 32 (m + 1), fun _ => 0)) else (m, none)
  portList := fun _ => 0
  memory := fun _ _ => 0
  destName := fun m _ => (m, 1)
  replyName := fun m _ => (m, 1)
  objectCopyout := fun m _ _ => (m, 1)
  vmMapFind := fun m _ _ => (m, 0)
  vmMoveOut := fun m _ _ _ => (m, some 1)
  objectDestroy := fun m _ _ => m
  vmDeallocate := fun m _ _ _ => m
  vmObjectDeallocate := fun m _ => m

theorem countingServices_contract : MsgContract countingServices fun m b => b.toNat ≤ m := by
  refine ⟨fun _ _ _ _ _ _ h => ?_, fun _ _ _ _ _ h => h, fun m _ _ _ _ b h => ?_,
    fun m _ _ _ _ _ _ _ h => ?_⟩
  · cases h
    exact ⟨by decide, by decide⟩
  · simp only [countingServices]
    split
    · dsimp only
      omega
    · exact h
  · simp only [countingServices] at h
    split at h
    next hlt =>
      cases h
      rw [BitVec.toNat_ofNat, Nat.mod_eq_of_lt hlt]
      omega
    next => cases h

/-- A port right out of line, sent as a message of 32 bytes. -/
def oneRight : UserMessage where
  word := fun p => if p = 4 then 1 else if p = 6 then 0x00012006 else if p = 7 then 4096 else 0
  size := 32
  readable := true

/-- An item that a sender marked as internal memory, with an address of its own choice. -/
def forgedObject : UserMessage where
  word := fun p => if p = 4 then 1 else if p = 6 then 0x0001080e else if p = 7 then 0x80000000 else 0
  size := 32
  readable := true

theorem oneItem_counted {msg : UserMessage} (hsize : msg.size = 32) (hb : Counted c (msgItem msg.cells 6))
    (hn : 8 ≤ (msgItem msg.cells 6).next) : msg.PortsCounted c := by
  intro _
  show ItemsFrom c msg.size msg.cells _ (msgSizeMax + 1) 6
  intro _
  refine ⟨fun _ => hb, fun _ => ?_⟩
  show ItemsFrom c msg.size msg.cells _ 8192 _
  intro hlt
  omega

theorem oneRight_walkersAgree_iff : ∃ x k, msgCopyin ⟨false, false⟩ countingServices 0 oneRight = some x ∧
    x.kmsg = some k ∧
    (WalkersAgree ⟨false, false⟩ countingServices k x.log ↔
      oneRight.AllTranslated ⟨false, false⟩ countingServices 0 ∨ oneRight.AllPlain ⟨false, false⟩) := by
  refine ⟨_, _, rfl, rfl, ?_⟩
  exact walkersAgree_iff countingServices_contract (oneItem_counted rfl (by unfold Counted; decide) (by decide))
    rfl rfl

theorem oneRight_kernelWordsStored_iff : ∃ x k,
    msgCopyin ⟨false, false⟩ countingServices 0 oneRight = some x ∧ x.kmsg = some k ∧
    (KernelWordsStored ⟨false, false⟩ countingServices k ↔
      oneRight.AllTranslated ⟨false, false⟩ countingServices 0 ∨ oneRight.AllPlain ⟨false, false⟩) := by
  refine ⟨_, _, rfl, rfl, ?_⟩
  exact kernelWordsStored_iff countingServices_contract
    (oneItem_counted rfl (by unfold Counted; decide) (by decide)) rfl rfl

theorem forgedObject_not_agree : ∃ x k,
    msgCopyin ⟨false, false⟩ countingServices 0 forgedObject = some x ∧ x.code = .success ∧
    x.kmsg = some k ∧ ¬ WalkersAgree ⟨false, false⟩ countingServices k x.log := by
  refine ⟨_, _, rfl, rfl, rfl, fun h => ?_⟩
  obtain ⟨⟨o, ho, hlog⟩, _⟩ := h 0
  cases Option.some.inj ho
  revert hlog
  decide

theorem forgedObject_not_stored : ∃ x k,
    msgCopyin ⟨false, false⟩ countingServices 0 forgedObject = some x ∧ x.code = .success ∧
    x.kmsg = some k ∧ ¬ KernelWordsStored ⟨false, false⟩ countingServices k := by
  refine ⟨_, _, rfl, rfl, rfl, fun h => ?_⟩
  obtain ⟨⟨o, ho, hst⟩, _⟩ := h 0
  cases Option.some.inj ho
  revert hst
  decide

end MachVM.Ipc
