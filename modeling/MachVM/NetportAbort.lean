import MachVM.NetportValidated

namespace MachVM.Ipc.NetportMessage

/-- An `ipc_network_hdr_t` as it lies in memory. -/
def NetworkHdr.bytes (o : ByteOrder) (h : NetworkHdr) : List Byte :=
  o.shortBytes h.dispType ++ o.shortBytes h.srcFormat ++ portBytes h.localPort ++ portBytes h.remotePort ++
    (o.longBytes h.info ++ o.longBytes h.npdSize ++ o.longBytes h.inlineSize ++ o.longBytes h.oolSize ++
      o.longBytes h.oolNum ++ o.longBytes h.ipcSeqNo)
where
  portBytes (n : NetworkPort) : List Byte :=
    o.longBytes n.receiver ++ o.longBytes n.owner ++ o.longBytes n.puidHigh ++ o.longBytes n.puidLow ++
      o.longBytes n.sidHigh ++ o.longBytes n.sidLow

/-- The header that `netport_abort_client` builds over what the stack held, and sends alone. -/
def netportAbortClient (o : ByteOrder) (lpEntry : Entry) (stack : NetworkHdr) : NetworkHdr :=
  { stack with
    dispType := o.htons dispIpcAbort
    srcFormat := o.htons o.confOwnFormat
    ipcSeqNo := lpEntry.currentSeqNo
    localPort := lpEntry.netport }

/-- `netport_handle_rq` goes the way of an abort. -/
def TakesAbort (o : ByteOrder) (m : KMsg) : Prop :=
  m.netmsgHdr.srcFormat = o.htons o.confOwnFormat ∧ m.netmsgHdr.dispType = dispIpcAbort

variable {o : ByteOrder} {view : Nat → Heap} {t : Transaction} {m m' : KMsg} {h : MsgHeader} {len : Nat}
  {rp lp : EntryId} {id : MsgId} {accepted : Bool} {x : Transmission} {dest : Word}

theorem short_bytes (x : BitVec 16) : x.extractLsb' 8 8 ++ x.extractLsb' 0 8 = x := by
  rw [BitVec.extractLsb'_append_extractLsb'_eq_extractLsb' (by rfl)]
  exact BitVec.extractLsb'_eq_self

theorem long_bytes (x : Word) :
    x.extractLsb' 24 8 ++ x.extractLsb' 16 8 ++ x.extractLsb' 8 8 ++ x.extractLsb' 0 8 = x := by
  rw [BitVec.extractLsb'_append_extractLsb'_eq_extractLsb' (by rfl),
    BitVec.extractLsb'_append_extractLsb'_eq_extractLsb' (by rfl),
    BitVec.extractLsb'_append_extractLsb'_eq_extractLsb' (by rfl)]
  exact BitVec.extractLsb'_eq_self

theorem readShort_eq {b : Buffer} {k : Nat} {x : BitVec 16} (h : [b k, b (k + 1)] = o.shortBytes x) :
    readShort o b k = x := by
  cases o <;> obtain ⟨h₀, h₁⟩ := List.cons.inj h <;> obtain ⟨h₁, -⟩ := List.cons.inj h₁ <;>
    rw [readShort, ByteOrder.short, h₀, h₁, short_bytes]

theorem readLong_eq {b : Buffer} {k : Nat} {x : Word}
    (h : [b k, b (k + 1), b (k + 2), b (k + 3)] = o.longBytes x) : readLong o b k = x := by
  cases o <;> obtain ⟨h₀, h₁⟩ := List.cons.inj h <;> obtain ⟨h₁, h₂⟩ := List.cons.inj h₁ <;>
    obtain ⟨h₂, h₃⟩ := List.cons.inj h₂ <;> obtain ⟨h₃, -⟩ := List.cons.inj h₃ <;>
    rw [readLong, ByteOrder.long, h₀, h₁, h₂, h₃, long_bytes]

theorem readNetworkHdr_bytes (o : ByteOrder) (old : Buffer) (n : NetworkHdr) :
    readNetworkHdr o (receive old (n.bytes o)) = n := by
  obtain ⟨disp, format, l, r, info, npd, inline, ool, num, seq⟩ := n
  obtain ⟨l₁, l₂, l₃, l₄, l₅, l₆⟩ := l
  obtain ⟨r₁, r₂, r₃, r₄, r₅, r₆⟩ := r
  rw [readNetworkHdr, readPort, readPort]
  congr 1
  · exact readShort_eq (by cases o <;> rfl)
  · exact readShort_eq (by cases o <;> rfl)
  · congr 1 <;> exact readLong_eq (by cases o <;> rfl)
  · congr 1 <;> exact readLong_eq (by cases o <;> rfl)
  all_goals exact readLong_eq (by cases o <;> rfl)

theorem netportHandleRq_takesAbort (ht : TakesAbort o m) (hlen : len ≠ 0) :
    netportHandleRq o view t m len = some (abortTransaction view t m) := by
  rw [netportHandleRq, if_neg hlen, if_neg (not_not.mpr ht.1), if_pos ht.2]

theorem netportHandleRq_other {r : Result} (ht : ¬ TakesAbort o m)
    (hr : netportHandleRq o view t m len = some r) :
    ∀ x ∈ r.sent, x = .reply t .abortRequest none 0 ∨ x = .reply t .abortRequestFlush none 0 := by
  have hrefuse (flush : Bool) : ∀ x ∈ (abortRequest t flush).sent,
      x = .reply t .abortRequest none 0 ∨ x = .reply t .abortRequestFlush none 0 := by
    intro x hx
    cases List.mem_singleton.mp hx
    cases flush
    · exact .inl rfl
    · exact .inr rfl
  rw [netportHandleRq] at hr
  split at hr
  next => cases hr
  next =>
  split at hr
  next => cases Option.some.inj hr; exact hrefuse true
  next hformat =>
  split at hr
  next hdisp => exact absurd ⟨not_not.mp hformat, hdisp⟩ ht
  next =>
  split at hr
  next => cases Option.some.inj hr; exact hrefuse false
  next rp hrp =>
  split at hr
  next => cases Option.some.inj hr; exact hrefuse false
  next =>
  split at hr
  next => cases Option.some.inj hr; exact hrefuse false
  next lp hlp =>
  split at hr
  next => cases Option.some.inj hr; exact fun x hx => absurd hx List.not_mem_nil
  next => cases Option.some.inj hr; exact hrefuse false

theorem htons_dispIpcAbort : o.htons dispIpcAbort = dispIpcAbort ↔ o = .msf := by
  cases o <;> decide

theorem htons_dispIpcMsg (o : ByteOrder) : o.htons dispIpcMsg ≠ dispIpcAbort := by
  cases o <;> decide

theorem netportQueue_dispType (hx : x ∈ (netportQueue o view id m accepted).2.sent) (hm : x.kmsg = some m') :
    m'.netmsgHdr.dispType = o.htons dispIpcMsg := by
  rw [netportQueue] at hx
  split at hx
  next => cases hx
  next rp hrp =>
  dsimp only at hx
  split at hx
  next =>
    rw [queueRequest] at hx
    split at hx
    next => cases hx
    next =>
    split at hx
    next => cases hx
    next lp hlp =>
    dsimp only at hx
    split at hx
    next => cases hx
    next =>
    split at hx
    next => cases List.mem_singleton.mp hx; cases hm
    next =>
      cases List.mem_singleton.mp hx
      cases Option.some.inj hm
      rfl
  next =>
    rw [queueResponse] at hx
    dsimp only at hx
    split at hx
    next => cases hx
    next =>
    split at hx
    next => cases List.mem_singleton.mp hx; cases hm
    next lp hlp =>
    split at hx
    next => cases List.mem_singleton.mp hx; cases hm
    next =>
      cases List.mem_singleton.mp hx
      cases Option.some.inj hm
      rfl

/-- The peer answers the message with the dummy response of the transaction for which `lp` owes one, and `lp` owes
none any more. -/
def Understood (view : Nat → Heap) (t : Transaction) (lp : EntryId) (r : Option Result) : Prop :=
  r = some {
    sent := [.reply ((view 1).entry lp).server .abortReply none 0, .reply t .none none 0]
    changed := [(lp, { (view 1).entry lp with res := false })] }

/-- The peer's entry for the client's port owes the response that the client does not want any more. -/
structure Owes (view : Nat → Heap) (lpEntry : Entry) (lp : EntryId) : Prop where
  lookup : (view 0).lookup lpEntry.netport = some lp
  res : ((view 1).entry lp).res = true
  seqNo : ((view 1).entry lp).pendingSeqNo = lpEntry.currentSeqNo

theorem understood_takesAbort (hu : Understood view t lp (netportHandleRq o view t m len)) : TakesAbort o m := by
  by_contra ht
  rcases netportHandleRq_other ht hu _ List.mem_cons_self with h | h
  · exact nomatch h
  · exact nomatch h

theorem netportAbortClient_understood {lpEntry : Entry} (ho : Owes view lpEntry lp) (stack : NetworkHdr)
    (hhdr : m.netmsgHdr = netportAbortClient o lpEntry stack) (hlen : len ≠ 0) :
    Understood view t lp (netportHandleRq o view t m len) ↔ o = .msf := by
  have htakes : TakesAbort o m ↔ o = .msf := by
    rw [TakesAbort, hhdr]
    exact (and_iff_right rfl).trans htons_dispIpcAbort
  refine ⟨fun hu => htakes.mp (understood_takesAbort hu), fun hmsf => ?_⟩
  rw [netportHandleRq_takesAbort (htakes.mpr hmsf) hlen, abortTransaction, hhdr]
  have hlookup : (view 0).lookup (netportAbortClient o lpEntry stack).localPort = some lp := ho.lookup
  rw [hlookup]
  exact congrArg some (if_pos ⟨ho.res, ho.seqNo⟩)

/-- The message of `netport_abort_client`, delivered unchanged to a peer that owes the response, is understood if and
only if the two machines store the most significant byte first: the type is converted when it is written, and not
when it is tested. What `netport_queue` sends is never taken for an abort. -/
theorem abortClient_understood_iff (o : ByteOrder) (lpEntry : Entry) (stack : NetworkHdr) (view : Nat → Heap)
    (t : Transaction) (old : Buffer) (lp : EntryId) (ho : Owes view lpEntry lp) :
    (Understood view t lp (netportHandleRq o view t
        (readKMsg o (receive old ((netportAbortClient o lpEntry stack).bytes o))) sizeofNetworkHdr) ↔ o = .msf) ∧
    ∀ (view' : Nat → Heap) (id : MsgId) (m : KMsg) (accepted : Bool),
      ∀ x ∈ (netportQueue o view' id m accepted).2.sent, ∀ m', x.kmsg = some m' →
        ∀ old' : Buffer, ¬ TakesAbort o (readKMsg o (receive old' (m'.netmsgHdr.bytes o))) := by
  refine ⟨netportAbortClient_understood ho stack (readNetworkHdr_bytes o old _) (by decide), ?_⟩
  intro view' id m accepted x hx m' hm old' ht
  have htype : (readKMsg o (receive old' (m'.netmsgHdr.bytes o))).netmsgHdr.dispType = dispIpcAbort := ht.2
  rw [readKMsg, readNetworkHdr_bytes, netportQueue_dispType hx hm] at htype
  exact htons_dispIpcMsg o htype

theorem knownPort_owes : Owes (fun _ => knownPort) (knownPort.entry 0) 0 := ⟨rfl, rfl, rfl⟩

/-- Between two machines of the order of a Sun. -/
theorem knownPort_understood :
    Understood (fun _ => knownPort) ⟨0, 0, 0⟩ 0 (netportHandleRq .msf (fun _ => knownPort) ⟨0, 0, 0⟩
      (readKMsg .msf (receive (fun _ => 0)
        ((netportAbortClient .msf (knownPort.entry 0) (readNetworkHdr .msf fun _ => 0)).bytes .msf)))
      sizeofNetworkHdr) :=
  (abortClient_understood_iff .msf (knownPort.entry 0) _ _ _ _ 0 knownPort_owes).1.mpr rfl

/-- Between two machines of the order of a VAX the abort is taken for a request to the port the stack names. -/
theorem knownPort_not_understood :
    Owes (fun _ => knownPort) (knownPort.entry 0) 0 ∧ (knownPort.entry 0).req = true ∧
      ¬ Understood (fun _ => knownPort) ⟨0, 0, 0⟩ 0 (netportHandleRq .lsf (fun _ => knownPort) ⟨0, 0, 0⟩
        (readKMsg .lsf (receive (fun _ => 0)
          ((netportAbortClient .lsf (knownPort.entry 0) (readNetworkHdr .lsf fun _ => 0)).bytes .lsf)))
        sizeofNetworkHdr) := by
  refine ⟨knownPort_owes, rfl, fun hu => ?_⟩
  have := (netportAbortClient_understood knownPort_owes _ (readNetworkHdr_bytes .lsf _ _) (by decide)).mp hu
  exact nomatch this

end MachVM.Ipc.NetportMessage
