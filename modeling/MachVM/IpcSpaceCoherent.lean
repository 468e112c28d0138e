import MachVM.IpcRightsMoves

namespace MachVM.Ipc.Space

open Mirror

/-- Every valid line of every cache is the translation that the tables have, of a port, and its task
is active and no kernel task. -/
def Coherent (s : SState) : Prop :=
  ∀ t i, (s.cache t i).name ≠ 0 →
    (∃ e x, objEntryLookup s t (s.cache t i).name = some e ∧ s.entry e = some x ∧
      x.obj = (s.cache t i).object ∧ x.type ≠ .set) ∧
    (s.task t).active = true ∧ (s.task t).kernelSpace = false

variable {s : SState} {t : TaskId} {n : PortName} {e : EntryId} {x : Entry}

theorem coherent_of (h : Tables s) (hc : CacheOk False s) : Coherent s := by
  intro t i hv
  obtain ⟨_, ha, hk, e, x, hx, ht, hn, ho, hp⟩ := hc t i hv
  exact ⟨⟨e, x, (objEntryLookup_eq_some h).mpr ⟨x, hx, ht, hn⟩, hx, ho, hp⟩, ha,
    hk.resolve_left id⟩

section Miss

variable {o : KernObjId}

theorem line_eq {l : CacheLine} (hn : l.name = n) (ho : o = l.object) : l = ⟨n, o⟩ := by
  subst hn ho
  rfl

theorem flush_miss (hm : (s.cache t (objCacheIndex n)).name ≠ n) : objCacheFlush s t n = s := by
  rw [objCacheFlush, if_neg hm]

theorem flush_hit (hh : (s.cache t (objCacheIndex n)).name = n) :
    objCacheFlush s t n = s.setLine t (objCacheIndex n) noLine := by
  rw [objCacheFlush, if_pos hh]

theorem refill (hl : s.cache t (objCacheIndex n) = ⟨n, o⟩) :
    objCacheSet (s.setLine t (objCacheIndex n) noLine) t n o = s := by
  have hline : Function.update (s.cache t) (objCacheIndex n) ⟨n, o⟩ = s.cache t := by
    rw [← hl, Function.update_eq_self]
  simp only [objCacheSet, SState.setLine, Function.update_self, Function.update_idem, hline,
    Function.update_eq_self]

theorem objCacheCopyin_hit (hn : n ≠ 0) (hl : s.cache t (objCacheIndex n) = ⟨n, o⟩) :
    objCacheCopyin s t n = some (o, intoMessage s o .port) := by
  simp [objCacheCopyin, hn, hl]

theorem objCacheCopyin_flushed (hn : n ≠ 0) (hl : s.cache t (objCacheIndex n) = ⟨n, o⟩)
    (ha : (s.task t).active = true) (hk : (s.task t).kernelSpace = false)
    (he : objEntryLookup s t n = some e) (hx : s.entry e = some x) (ho : x.obj = o)
    (hp : x.type ≠ .set) :
    objCacheCopyin (s.setLine t (objCacheIndex n) noLine) t n = some (o, intoMessage s o .port) := by
  have hline : (s.setLine t (objCacheIndex n) noLine).cache t (objCacheIndex n) = noLine := by
    simp [SState.setLine]
  have hne : noLine.name ≠ n := fun h => hn h.symm
  have hlook : objEntryLookup (s.setLine t (objCacheIndex n) noLine) t n = some e := he
  have hact : ((s.setLine t (objCacheIndex n) noLine).task t).active = true := ha
  have hspace : ((s.setLine t (objCacheIndex n) noLine).task t).kernelSpace = false := hk
  have hent : (s.setLine t (objCacheIndex n) noLine).entry e = some x := hx
  have hl' : (intoMessage s o .port).cache t (objCacheIndex n) = ⟨n, o⟩ := hl
  simp only [objCacheCopyin, hline, if_neg hn, if_neg hne, objectCopyinCache, hact, hspace, hlook,
    Option.bind_eq_bind, Option.bind_some, hent, if_neg hp, Bool.true_eq_false, if_false, ho]
  exact congrArg (fun r => some (o, r)) (refill hl')

theorem msgReceiveTrap_hit (hn : n ≠ 0) (hl : s.cache t (objCacheIndex n) = ⟨n, o⟩) :
    msgReceiveTrap s t n =
      if (s.obj o).receiver ≠ .task t ∨ (s.obj o).inSet = true then none
      else some (o, reference s o) := by
  simp [msgReceiveTrap, hn, hl]

theorem msgReceiveTrap_flushed (hn : n ≠ 0) (hl : s.cache t (objCacheIndex n) = ⟨n, o⟩)
    (ha : (s.task t).active = true) (hk : (s.task t).kernelSpace = false)
    (he : objEntryLookup s t n = some e) (hx : s.entry e = some x) (ho : x.obj = o)
    (hp : x.type ≠ .set) :
    msgReceiveTrap (s.setLine t (objCacheIndex n) noLine) t n =
      if x.type ≠ .receiveOwn ∨ (s.obj o).inSet = true then none else some (o, reference s o) := by
  have hline : (s.setLine t (objCacheIndex n) noLine).cache t (objCacheIndex n) = noLine := by
    simp [SState.setLine]
  have hne : noLine.name ≠ n := fun h => hn h.symm
  have hlook : objEntryLookup (s.setLine t (objCacheIndex n) noLine) t n = some e := he
  have hact : ((s.setLine t (objCacheIndex n) noLine).task t).active = true := ha
  have hspace : ((s.setLine t (objCacheIndex n) noLine).task t).kernelSpace = false := hk
  have hent : (s.setLine t (objCacheIndex n) noLine).entry e = some x := hx
  have hobj : (s.setLine t (objCacheIndex n) noLine).obj = s.obj := rfl
  have hl' : (reference s o).cache t (objCacheIndex n) = ⟨n, o⟩ := hl
  have hback : objCacheSet (reference (s.setLine t (objCacheIndex n) noLine) o) t n o = reference s o :=
    refill hl'
  simp only [msgReceiveTrap, hline, if_neg hn, if_neg hne, hact, hspace, hlook, Option.bind_eq_bind,
    Option.bind_some, hent, Bool.true_eq_false, if_false, Bool.false_eq_true, ho, hobj, hback]
  cases hty : x.type with
  | set => exact absurd hty hp
  | receiveOwn => simp
  | send => simp
  | none => simp

end Miss

theorem header_same (hc : Coherent s) (t : TaskId) (n : PortName) :
    objCacheCopyin s t n = objCacheCopyin (objCacheFlush s t n) t n := by
  by_cases hn : n = 0
  · simp [objCacheCopyin, hn]
  · by_cases hh : (s.cache t (objCacheIndex n)).name = n
    · obtain ⟨⟨e, x, he, hx, ho, hp⟩, ha, hk⟩ := hc t (objCacheIndex n) (by rw [hh]; exact hn)
      have hl : s.cache t (objCacheIndex n) = ⟨n, x.obj⟩ := line_eq hh ho
      rw [hh] at he
      rw [flush_hit hh, objCacheCopyin_hit hn hl, objCacheCopyin_flushed hn hl ha hk he hx rfl hp]
    · rw [flush_miss hh]

theorem receive_same (ht : Tables s) (hc : Coherent s) (hr : RightInv s) (t : TaskId) (n : PortName) :
    msgReceiveTrap s t n = msgReceiveTrap (objCacheFlush s t n) t n := by
  by_cases hn : n = 0
  · simp [msgReceiveTrap, hn]
  · by_cases hh : (s.cache t (objCacheIndex n)).name = n
    · obtain ⟨⟨e, x, he, hx, ho, hp⟩, ha, hk⟩ := hc t (objCacheIndex n) (by rw [hh]; exact hn)
      have hl : s.cache t (objCacheIndex n) = ⟨n, x.obj⟩ := line_eq hh ho
      rw [hh] at he
      obtain ⟨hxt, _⟩ := entry_of_lookup ht he hx
      have hsame : (s.obj x.obj).receiver ≠ .task t ↔ x.type ≠ .receiveOwn := by
        apply not_congr
        constructor
        · intro hrec
          obtain ⟨f, z, hz, hzt, hzo, hzty⟩ := (hr x.obj).owned t hrec
          have hfe : f = e := ht.rights f e (t, x.obj) (rightKey_eq_some.mpr ⟨z, hz, hzt, hzo⟩)
            (rightKey_eq_some.mpr ⟨x, hx, hxt, rfl⟩)
          subst hfe
          cases Option.some.inj (hx.symm.trans hz)
          exact hzty
        · intro hty
          obtain ⟨v, hv, hrec, _⟩ := (hr x.obj).owner e x hx rfl hty
          cases Option.some.inj (hv.symm.trans hxt)
          exact hrec
      rw [flush_hit hh, msgReceiveTrap_hit hn hl, msgReceiveTrap_flushed hn hl ha hk he hx rfl hp]
      simp only [hsame]
    · rw [flush_miss hh]

/-- Where no kernel task receives a reply port, the caches are coherent, and a name in a header is
translated to the same port with the same state whether it hits the cache or not. Where besides every
receive right is settled, the same holds of a receive. -/
theorem cache_coherence (h : Reach UserReply s) :
    Coherent s ∧ (∀ t n, objCacheCopyin s t n = objCacheCopyin (objCacheFlush s t n) t n) ∧
      (Reach Settled s → ∀ t n, msgReceiveTrap s t n = msgReceiveTrap (objCacheFlush s t n) t n) := by
  have hi : SpaceInv s ∧ CacheOk False s := reach_inv (.inr fun _ _ ha => ha) h
  have hc := coherent_of hi.1.tables hi.2
  refine ⟨hc, header_same hc, fun hs => ?_⟩
  exact receive_same hi.1.tables hc (reach_rights (fun _ _ ha => ha) hs)

/-- A task sends a message with a reply port. -/
def replyPort : List Action := [.taskInit 4 false, .taskInit 8 true, .portAlloc 4 32 1, .headerCopyin 4 1]

theorem replyPort_coherent : ∃ s, run replyPort SState.empty = some s ∧
    (s.cache 4 1).name = 1 ∧ Coherent s ∧ msgReceiveTrap s 4 1 = msgReceiveTrap (objCacheFlush s 4 1) 4 1 := by
  have hrun : ((run replyPort SState.empty).bind fun s =>
      if (s.cache 4 1).name = 1 then some s else none).isSome = true := by
    decide +kernel
  obtain ⟨v, hv⟩ := Option.isSome_iff_exists.mp hrun
  obtain ⟨s, hs, hv⟩ := Option.bind_eq_some_iff.mp hv
  obtain ⟨hline, _⟩ := Option.ite_none_right_eq_some.mp hv
  have hreach : Reach UserReply s := reach_run (by simp [replyPort, UserReply]) .start hs
  have hsettled : Reach Settled s := reach_run (by simp [replyPort, Settled]) .start hs
  obtain ⟨hc, _, ht⟩ := cache_coherence hreach
  exact ⟨s, hs, hline, hc, ht hsettled 4 1⟩

/-- A kernel task receives that message. -/
theorem kernelReply_incoherent : ¬∀ s, Reach Any s → Coherent s := by
  intro hall
  have hrun : ((run (replyPort ++ [.replyCopyout ⟨32, .port, true⟩ 8 2]) SState.empty).bind fun s =>
      if (s.cache 8 1).name = 1 ∧ (s.task 8).kernelSpace = true then some s else none).isSome = true := by
    decide +kernel
  obtain ⟨v, hv⟩ := Option.isSome_iff_exists.mp hrun
  obtain ⟨s, hs, hv⟩ := Option.bind_eq_some_iff.mp hv
  obtain ⟨⟨hline, hk⟩, _⟩ := Option.ite_none_right_eq_some.mp hv
  obtain ⟨_, _, hu⟩ := hall s (reach_run (fun _ _ _ => trivial) .start hs) 8 1 (by rw [hline]; decide)
  rw [hk] at hu
  cases hu

end MachVM.Ipc.Space
