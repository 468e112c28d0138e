import Mathlib.Logic.Function.Iterate
import Mathlib.Algebra.Group.Nat.Defs

namespace MachVM.Ipc.NetportTcp

/-- An `int` or `unsigned long` of the machine. -/
abbrev Word := BitVec 32

def sizeofQueueChain : Nat := 2 * 4

def sizeofTcpCtl : Nat := 5 * 4

/-- `state`, `sock`, `th`, `lock`, `cond`, `dest`, `trans`, `count`, `connq`, `incarn` and `ctlbuf`. -/
def sizeofTcpConn : Nat := 4 + 4 + 4 + 4 + 4 + 4 + sizeofQueueChain + 4 + sizeofQueueChain + 4 + sizeofTcpCtl

/-- The `incarn` words at the indices of `conn_vec`, and at those beyond its ends. -/
abbrev Incarns := Int → Word

/-- `TCP_INVALID` to `TCP_CLOSED`. -/
inductive ConnState
  | invalid
  | free
  | connected
  | opening
  | closing
  | closed
  deriving DecidableEq, Repr

def tridSetClient (counter : Word) : Word := counter &&& 0xffff#32

def tridGetClient (trid : Word) : Word := trid &&& 0xffff#32

/-- The difference of the pointers is already the index of the record. -/
def cptoix (cp : Nat) : Nat := cp / sizeofTcpConn

def tridSetServer (trid : Word) (sv : Nat) (incarn : Word) : Word :=
  trid ||| (BitVec.ofNat 32 (cptoix sv) <<< 24 ||| incarn <<< 16)

/-- `trid >> 24`. The id is an `int` here, and its sign comes in from the left. -/
def serverIx (tcpid : Word) : Int := (tcpid.sshiftRight 24).toInt

def serverIncarn (tcpid : Word) : Word := tcpid.sshiftRight 16 &&& 0xff#32

def tridGetServer (incarn : Incarns) (tcpid : Word) : Option Int :=
  if serverIncarn tcpid ≠ incarn (serverIx tcpid) then none else some (serverIx tcpid)

/-- Which store of `cp->incarn = (cp->incarn++) & 0xff` comes last; C leaves it open. -/
inductive LastStore
  | increment
  | assignment
  deriving DecidableEq, Repr

/-- The incarnation of a record that is taken into use once more. -/
def LastStore.reuse : LastStore → Word → Word
  | .increment, incarn => incarn + 1
  | .assignment, incarn => incarn &&& 0xff#32

/-- The record `netport_tcp_sendreply` transmits on; `none` is `TR_FAILURE`. -/
def sendreply (state : Int → ConnState) (incarn : Incarns) (tcpid : Word) : Option Int := do
  let cp ← tridGetServer incarn tcpid
  if state cp ≠ .connected then none else some cp

/-- The id made for a request that came on record `sv` names that record, as long as its incarnation stays. -/
structure Names (last : LastStore) (sv : Nat) (incarn trid : Word) : Prop where
  same : ∀ now : Incarns, now sv = incarn → tridGetServer now (tridSetServer trid sv incarn) = some (sv : Int)
  reused : ∀ (now : Incarns) n, 0 < n → n < 256 → now sv = last.reuse^[n] incarn →
    tridGetServer now (tridSetServer trid sv incarn) = none
  client : tridGetClient (tridSetServer trid sv incarn) = tridGetClient trid ∧
    ∀ counter, tridGetClient (tridSetServer (tridSetClient counter) sv incarn) = tridSetClient counter
  inside : 0 ≤ serverIx (tridSetServer trid sv incarn) ∧ serverIx (tridSetServer trid sv incarn) < 32
  reply : ∀ (state : Int → ConnState) (now : Incarns) n cp, n < 256 → now sv = last.reuse^[n] incarn →
    sendreply state now (tridSetServer trid sv incarn) = some cp → cp = sv ∧ n = 0

variable {last : LastStore} {sv n : Nat} {incarn trid tcpid : Word} {now : Incarns} {cp : Int}

theorem cptoix_eq_zero (h : sv < 32) : cptoix sv = 0 := by
  refine Nat.div_eq_of_lt ?_
  simp only [sizeofTcpConn, sizeofQueueChain, sizeofTcpCtl]
  omega

theorem tridSetServer_eq (h : sv < 32) : tridSetServer trid sv incarn = trid ||| incarn <<< 16 := by
  simp [tridSetServer, cptoix_eq_zero h]

theorem byte_getLsbD (i : Nat) : (0xff#32).getLsbD i = decide (i < 8) := by
  rw [show 0xff#32 = BitVec.ofNat 32 (2 ^ 8 - 1) from rfl, BitVec.getLsbD_ofNat, Nat.testBit_two_pow_sub_one]
  simp
  omega

theorem half_getLsbD (i : Nat) : (0xffff#32).getLsbD i = decide (i < 16) := by
  rw [show 0xffff#32 = BitVec.ofNat 32 (2 ^ 16 - 1) from rfl, BitVec.getLsbD_ofNat, Nat.testBit_two_pow_sub_one]
  simp
  omega

theorem getLsbD_of_toNat_lt (h : incarn.toNat < 256) {i : Nat} (hi : 8 ≤ i) : incarn.getLsbD i = false :=
  Nat.testBit_lt_two_pow (Nat.lt_of_lt_of_le h (Nat.pow_le_pow_right (by decide) hi : 2 ^ 8 ≤ 2 ^ i))

theorem msb_shiftLeft (h : incarn.toNat < 256) : (incarn <<< 16).msb = false := by
  rw [BitVec.msb_shiftLeft, BitVec.getMsbD, Bool.and_eq_false_iff]
  exact Or.inr (getLsbD_of_toNat_lt h (by decide))

theorem shiftLeft_sshiftRight (h : incarn.toNat < 256) : (incarn <<< 16).sshiftRight 24 = 0 := by
  refine BitVec.eq_of_getLsbD_eq fun i hi => ?_
  rw [BitVec.getLsbD_sshiftRight, msb_shiftLeft h, BitVec.getLsbD_shiftLeft,
    getLsbD_of_toNat_lt h (by omega : 8 ≤ 24 + i - 16)]
  simp

theorem serverIncarn_shiftLeft (h : incarn.toNat < 256) : serverIncarn (incarn <<< 16) = incarn := by
  refine BitVec.eq_of_getLsbD_eq fun i hi => ?_
  rw [serverIncarn, BitVec.getLsbD_and, byte_getLsbD, BitVec.getLsbD_sshiftRight, BitVec.getLsbD_shiftLeft]
  by_cases h8 : i < 8
  · simp [h8, hi, show 16 + i < 32 by omega, show ¬ 32 ≤ i by omega]
  · simp [h8, getLsbD_of_toNat_lt h (Nat.le_of_not_lt h8)]

theorem serverIx_setServer (h : sv < 32) (hi : incarn.toNat < 256) :
    serverIx (tridSetServer trid sv incarn) = serverIx trid := by
  rw [serverIx, tridSetServer_eq h, BitVec.sshiftRight_or_distrib, shiftLeft_sshiftRight hi]
  simp [serverIx]

theorem serverIncarn_setServer (h : sv < 32) (hi : incarn.toNat < 256) :
    serverIncarn (tridSetServer trid sv incarn) = serverIncarn trid ||| incarn := by
  rw [serverIncarn, tridSetServer_eq h, BitVec.sshiftRight_or_distrib, BitVec.and_or_distrib_right]
  exact congrArg (serverIncarn trid ||| ·) (serverIncarn_shiftLeft hi)

theorem tridGetClient_setServer (h : sv < 32) : tridGetClient (tridSetServer trid sv incarn) = tridGetClient trid := by
  refine BitVec.eq_of_getLsbD_eq fun i hi => ?_
  rw [tridSetServer_eq h, tridGetClient, tridGetClient, BitVec.getLsbD_and, BitVec.getLsbD_and, half_getLsbD,
    BitVec.getLsbD_or, BitVec.getLsbD_shiftLeft]
  by_cases h16 : i < 16
  · simp [h16]
  · simp [h16]

theorem tridGetClient_setClient : tridGetClient (tridSetClient trid) = tridSetClient trid := by
  rw [tridGetClient, tridSetClient, BitVec.and_assoc, BitVec.and_self]

theorem tridGetServer_eq_some :
    tridGetServer now tcpid = some cp ↔ now (serverIx tcpid) = serverIncarn tcpid ∧ serverIx tcpid = cp := by
  rw [tridGetServer]
  split
  next h => simp [Ne.symm h]
  next h => simp [Classical.not_not.mp h]

theorem sendreply_eq_some {state : Int → ConnState} :
    sendreply state now tcpid = some cp ↔ tridGetServer now tcpid = some cp ∧ state cp = .connected := by
  rw [sendreply]
  cases tridGetServer now tcpid with
  | none => simp
  | some c =>
    simp only [Option.bind_eq_bind, Option.bind_some, Option.some.injEq]
    constructor
    · intro h
      split at h
      next => cases h
      next hc => exact ⟨Option.some.inj h, by rw [← Option.some.inj h]; exact Classical.not_not.mp hc⟩
    · rintro ⟨rfl, hc⟩
      rw [if_neg (not_not_intro hc)]

theorem reuse_increment (n : Nat) : LastStore.increment.reuse^[n] incarn = incarn + BitVec.ofNat 32 n := by
  induction n with
  | zero => simp
  | succ n ih =>
    rw [Function.iterate_succ_apply', ih, LastStore.reuse, BitVec.add_assoc, BitVec.ofNat_add]
    rfl

theorem reuse_increment_ne (h : 0 < n) (hn : n < 256) : LastStore.increment.reuse^[n] incarn ≠ incarn := by
  intro he
  rw [reuse_increment, BitVec.add_right_eq_self, ← BitVec.toNat_inj, BitVec.toNat_ofNat, Nat.mod_eq_of_lt (by omega)] at he
  exact absurd he (Nat.ne_of_gt h)

theorem reuse_assignment (h : incarn.toNat < 256) : LastStore.assignment.reuse incarn = incarn := by
  refine BitVec.eq_of_getLsbD_eq fun i hi => ?_
  rw [LastStore.reuse, BitVec.getLsbD_and, byte_getLsbD]
  by_cases h8 : i < 8
  · simp [h8]
  · simp [h8, getLsbD_of_toNat_lt h (Nat.le_of_not_lt h8)]

/-- An id names its record exactly where the index and the incarnation that the peer sent are the record's own
already, for the division by the record's size has left no index to be put in. -/
theorem names_iff (hsv : sv < 32) (hi : incarn.toNat < 256) :
    Names last sv incarn trid ↔
      last = .increment ∧ serverIx trid = sv ∧ serverIncarn trid ||| incarn = incarn := by
  constructor
  · intro h
    obtain ⟨hinc, hix⟩ := tridGetServer_eq_some.mp (h.same (fun _ => incarn) rfl)
    rw [serverIncarn_setServer hsv hi] at hinc
    rw [serverIx_setServer hsv hi] at hix
    refine ⟨?_, hix, hinc.symm⟩
    cases last with
    | increment => rfl
    | assignment =>
      have hnone := h.reused (fun _ => incarn) 1 (by decide) (by decide) (reuse_assignment hi).symm
      rw [h.same (fun _ => incarn) rfl] at hnone
      cases hnone
  · rintro ⟨rfl, hix, hinc⟩
    have hget : ∀ {now : Incarns} {cp : Int},
        tridGetServer now (tridSetServer trid sv incarn) = some cp ↔ now sv = incarn ∧ (sv : Int) = cp := by
      intro now cp
      rw [tridGetServer_eq_some, serverIx_setServer hsv hi, serverIncarn_setServer hsv hi, hix, hinc]
    refine ⟨fun now h => hget.mpr ⟨h, rfl⟩, fun now n hn hlt h => ?_, ⟨tridGetClient_setServer hsv, fun c => ?_⟩, ?_,
      fun state now n cp hlt h hs => ?_⟩
    · refine Option.eq_none_iff_forall_ne_some.mpr fun cp hcp => ?_
      exact reuse_increment_ne hn hlt (h.symm.trans (hget.mp hcp).1)
    · rw [tridGetClient_setServer hsv, tridGetClient_setClient]
    · rw [serverIx_setServer hsv hi, hix]
      omega
    · obtain ⟨hnow, hcp⟩ := hget.mp (sendreply_eq_some.mp hs).1
      refine ⟨hcp.symm, Nat.eq_zero_of_not_pos fun hn => ?_⟩
      exact reuse_increment_ne hn hlt (h.symm.trans hnow)

theorem first_record_named : Names .increment 0 7#32 5#32 :=
  (names_iff (by decide) (by decide)).mpr ⟨rfl, by decide, by decide⟩

/-- A request that came on record 1 is answered on record 0. -/
theorem second_record_misnamed :
    (∀ last, ¬ Names last 1 0#32 0#32) ∧
      sendreply (fun _ => .connected) (fun _ => 0#32) (tridSetServer 0#32 1 0#32) = some 0 := by
  refine ⟨fun last h => ?_, by decide⟩
  have hsome := h.same (fun _ => 0#32) rfl
  exact absurd hsome (by decide)

end MachVM.Ipc.NetportTcp
