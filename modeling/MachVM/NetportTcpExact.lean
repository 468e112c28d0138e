import MachVM.NetportTcp
import Mathlib.Tactic.Common

namespace MachVM.Ipc.NetportTcp

open NetportMessage

variable {o : ByteOrder} {zone : KmsgId → Buffer} {env : Nat → ConnView} {v : ConnView} {r r' : Recv}
  {buf buf' got s : List Byte} {cs cs' : List (List Byte)} {d need : Nat} {pending pending' : Option Recv}
  {new : KmsgId} {h : TcpCtl} {ev : List Event} {j : Nat}

/-- The bytes received so far lie in the kmsg from its byte `d` on, and the counters count them. The first `d` of
them have been dealt with. -/
structure Holds (r : Recv) (buf : List Byte) (d : Nat) : Prop where
  mem : ∀ i, d ≤ i → i < buf.length → buf[i]? = some (r.mem i)
  bufp : r.bufp = buf.length
  count : r.bufCount = buf.length - d
  free : r.bufFree = dataSizeMax - buf.length
  fits : buf.length ≤ dataSizeMax

theorem Holds.put (hr : Holds r buf d) (hfit : buf.length + got.length ≤ dataSizeMax) :
    ∃ r', r.put got = some r' ∧ Holds r' (buf ++ got) d ∧ r'.kmsg = r.kmsg := by
  have hroom : 0 ≤ r.bufp ∧ r.bufp + got.length ≤ room := by
    have := dataSizeMax_eq
    rw [hr.bufp]
    omega
  have hlen : ((buf ++ got).length : Int) = buf.length + got.length := by
    rw [List.length_append, Int.natCast_add]
  refine ⟨_, if_pos hroom, ⟨fun i hd hi => ?_, ?_, ?_, ?_, ?_⟩, rfl⟩
  · change _ = some (putBytes r.mem r.bufp.toNat got i)
    rw [hr.bufp, Int.toNat_natCast]
    unfold putBytes
    split
    next hlt => rw [List.getElem?_append_left hlt, hr.mem i hd hlt]
    next hge =>
      rw [List.getElem?_append_right (Nat.not_lt.mp hge), List.getD_eq_getElem?_getD]
      have hin : i - buf.length < got.length := by
        rw [List.length_append] at hi
        omega
      rw [List.getElem?_eq_getElem hin, Option.getD_some]
  · rw [hlen, hr.bufp]
  · change r.bufCount + _ = _
    rw [hlen, hr.count]
    omega
  · change r.bufFree - _ = _
    rw [hlen, hr.free]
    omega
  · rwa [List.length_append]

theorem readCtl_congr {b b' : Buffer} (hb : ∀ i, i < sizeofTcpCtl → b i = b' i) : readCtl b = readCtl b' := by
  rw [sizeofTcpCtl] at hb
  unfold readCtl readLong
  simp only [hb, Nat.reduceAdd, Nat.reduceMul, Nat.reduceLT]

theorem Holds.readCtl (hr : Holds r buf 0) (hs : buf ++ s = s') (hlen : sizeofTcpCtl ≤ buf.length) :
    readCtl r.mem = header s' := by
  refine readCtl_congr fun i hi => ?_
  have hin : i < buf.length := Nat.lt_of_lt_of_le hi hlen
  rw [← hs, List.getD_eq_getElem?_getD, List.getElem?_append_left hin, hr.mem i (Nat.zero_le i) hin, Option.getD_some]

theorem longBytes_length (o : ByteOrder) (w : Word) : (o.longBytes w).length = 4 := by
  cases o <;> rfl

theorem swapCtl_of_le {b : Buffer} {i : Nat} (hi : sizeofTcpCtl ≤ i) : swapCtl o b i = b i := by
  unfold swapCtl receive
  have hlen : (o.longBytes (readCtl b).ctl ++ o.longBytes (readCtl b).trid ++ o.longBytes (readCtl b).code ++
      o.longBytes (readCtl b).size ++ o.longBytes (readCtl b).cryptLevel).length ≤ i := by
    simp only [List.length_append, longBytes_length]
    exact hi
  rw [List.getD_eq_getElem?_getD, List.getElem?_eq_none hlen, Option.getD_none]

theorem Holds.swap (hr : Holds r buf 0) :
    Holds { r with mem := swapCtl o r.mem, bufCount := r.bufCount - sizeofTcpCtl } buf sizeofTcpCtl where
  mem i hd hi := by
    change _ = some (swapCtl o r.mem i)
    rw [swapCtl_of_le hd, hr.mem i (Nat.zero_le i) hi]
  bufp := hr.bufp
  count := by
    change r.bufCount - _ = _
    rw [hr.count]
    omega
  free := hr.free
  fits := hr.fits

theorem Holds.getBytes (hr : Holds r buf d) {k n : Nat} (hk : d ≤ k) (hn : k + n ≤ buf.length) :
    getBytes r.mem k n = (buf.drop k).take n := by
  refine List.ext_getElem? fun i => ?_
  rw [NetportTcp.getBytes, List.getElem?_map, List.getElem?_take, List.getElem?_drop]
  by_cases hi : i < n
  · rw [if_pos hi, List.getElem?_range hi, hr.mem (k + i) (by omega) (by omega)]
    rfl
  · rw [if_neg hi, List.getElem?_eq_none (by rw [List.length_range]; omega)]
    rfl

section Ledger

/-- How many more times a kmsg is allocated than handed on or freed. -/
def held (ev : List Event) (k : KmsgId) : Int := ev.count (.alloc k) - ev.count (.handOn k) - ev.count (.free k)

theorem held_append (ev ev' : List Event) (k : KmsgId) : held (ev ++ ev') k = held ev k + held ev' k := by
  simp only [held, List.count_append, Int.natCast_add]
  omega

def owed : Option Recv → KmsgId → Int
  | none, _ => 0
  | some r, k => if r.kmsg = k then 1 else 0

attribute [local simp] owed

/-- Events that dispatch the frames `fs` and leave `pending'` of the kmsgs, where `pending` was there before. -/
structure Settles (pending : Option Recv) (ev : List Event) (fs : List (TcpCtl × List Byte))
    (pending' : Option Recv) : Prop where
  frames : ev.filterMap Event.frame = fs
  held : ∀ k, held ev k + owed pending k = owed pending' k

variable {pending'' : Option Recv} {ev' : List Event} {fs fs' : List (TcpCtl × List Byte)}

theorem Settles.refl (pending : Option Recv) : Settles pending [] [] pending :=
  ⟨rfl, fun _ => Int.zero_add _⟩

theorem Settles.trans (h₁ : Settles pending ev fs pending') (h₂ : Settles pending' ev' fs' pending'') :
    Settles pending (ev ++ ev') (fs ++ fs') pending'' where
  frames := by rw [List.filterMap_append, h₁.frames, h₂.frames]
  held k := by
    have a := h₁.held k
    have b := h₂.held k
    rw [held_append]
    omega

theorem Settles.congr (hk : r'.kmsg = r.kmsg) (h : Settles pending ev fs (some r)) :
    Settles pending ev fs (some r') where
  frames := h.frames
  held k := by
    rw [h.held k, owed, owed, hk]

section Pass

variable {n : Nat}

end Pass

end Ledger

section Decode

variable (env : Nat → ConnView) (j : Nat) (hfits : sizeofTcpCtl + (header s).size.toNat ≤ dataSizeMax)
  (hall : sizeofTcpCtl + (header s).size.toNat ≤ s.length)

include hfits hall

end Decode

section Handler

end Handler

end MachVM.Ipc.NetportTcp
