import MachVM.MfsLru
import MachVM.Lib.Run
import Mathlib.Data.List.Perm.Basic
import Mathlib.Algebra.Order.Group.Int
import Mathlib.Algebra.Group.Nat.Defs

namespace MachVM.Mfs

open Machine

namespace Lru

/-- The condition under which the list is kept: a file that is taken into use is mapped, `mfs_memfree` finds no new
use of a file it gives up, `mfs_sync` takes the file off the queue and puts it back itself, and the 32 bits of the
version do not come round while a scan has let go of `vm_info_lock`. -/
def Fits (s : Lru) : Section → Prop
  | .use f _ => (s.file f).mapped = true
  | .unmap f _ => (s.file f).mapCount = 0 → (s.file f).useCount = 0 ∧ (s.file f).queued = false
  | .syncGet f _ _ => (s.file f).queued = true
  | .syncPut f _ _ => (s.file f).useCount = 1
  | .syncBack _ last => s.changes < last + 2 ^ 32
  | .clearBack _ last => s.changes < last + 2 ^ 32
  | _ => True

/-- The assertions of `vm_info_enqueue` and `vm_info_dequeue` that a section comes to. The other sections call
`vm_info_dequeue` on the test of `queued`. -/
def Asserts (filesMax : Nat) (s : Lru) : Section → Prop
  | .put f => (s.file f).useCount = 1 → (s.file f).queued = false ∧ (s.file f).mapped = true
  | .syncPut f _ _ => (s.file f).useCount = 1 → (s.file f).queued = false ∧ (s.file f).mapped = true
  | .work _ .reclaim => ∀ g ∈ s.first, (s.file g).queued = true
  | .trimLoop => (filesMax : Int) < s.filesMapped → ∃ g ∈ s.first, (s.file g).queued = true
  | _ => True

instance (s : Lru) (x : Section) : Decidable (s.Fits x) :=
  match x with
  | .use f _ => inferInstanceAs (Decidable ((s.file f).mapped = true))
  | .unmap f _ =>
    inferInstanceAs (Decidable ((s.file f).mapCount = 0 → (s.file f).useCount = 0 ∧ (s.file f).queued = false))
  | .syncGet f _ _ => inferInstanceAs (Decidable ((s.file f).queued = true))
  | .syncPut f _ _ => inferInstanceAs (Decidable ((s.file f).useCount = 1))
  | .syncBack _ last => inferInstanceAs (Decidable (s.changes < last + 2 ^ 32))
  | .clearBack _ last => inferInstanceAs (Decidable (s.changes < last + 2 ^ 32))
  | .mapUse _ _ | .setMapped _ _ | .lock _ | .unlock _ | .work _ _ | .put _ | .trim | .trimLoop | .memfree _ _
  | .mapInode _ _ | .unmapInode _ _ _ | .unmapLinks _ _ _ | .unmapDone _ | .fsync _ | .uncache _ | .sync
  | .syncAt _ _ | .clear | .clearAt _ _ | .clearFree _ _ => isTrue trivial

/-- The state of the list and the sections that are still to run. -/
structure Inv (s : Lru) (l : List Section) : Prop where
  kept : s.Kept
  uses : ∀ f, (s.file f).useCount = (l.countP (Section.uses f) : Nat)
  scans : l.countP Section.scans = s.infoLock.toNat
  ok : ∀ x ∈ l, s.Ok x

variable {s r : Lru} {f g : FileId} {v : VmInfo} {c : Option FileId} {last filesMax : Nat} {l ys : List Section}
  {x y : Section}

theorem underLock_eq_some {p q : Lru × List Section} : s.underLock p = some q ↔ s.infoLock = false ∧ p = q := by
  rw [underLock]
  split
  next h => simp [h]
  next h => simp [h]

theorem Inv.perm {k : List Section} (h : Inv s l) (hp : k.Perm l) : Inv s k :=
  ⟨h.kept, fun f => by rw [hp.countP_eq]; exact h.uses f, by rw [hp.countP_eq]; exact h.scans,
    fun x hx => h.ok x (hp.subset hx)⟩

theorem Inv.used (h : Inv s l) (hy : y ∈ l) (hu : y.uses f = true) : (s.file f).useCount ≠ 0 := by
  have hpos : 0 < l.countP (Section.uses f) := List.countP_pos_iff.mpr ⟨y, hy, hu⟩
  rw [h.uses f]
  omega

theorem Inv.locked (h : Inv s l) (hy : y ∈ l) (hs : y.scans = true) : s.infoLock = true := by
  have hpos : 0 < l.countP Section.scans := List.countP_pos_iff.mpr ⟨y, hy, hs⟩
  rw [h.scans] at hpos
  cases hi : s.infoLock with
  | true => rfl
  | false => rw [hi] at hpos; exact absurd hpos (Nat.lt_irrefl 0)

theorem Saved.moves (h : s.Saved c last) (hm : Moves s r) : r.Saved c last := by
  obtain ⟨hle, hon⟩ := h
  rcases hm.list with ⟨hq, hc⟩ | ⟨-, hlt⟩
  · rw [Saved, hq, hc]
    exact ⟨hle, hon⟩
  · exact ⟨by omega, fun he => absurd he (by omega)⟩

theorem Moves.refl (s : Lru) : Moves s s := ⟨fun _ _ hm => hm, .inl ⟨rfl, rfl⟩⟩

theorem Moves.setFile (hm : (s.file f).useCount ≠ 0 → (s.file f).mapped = true → v.mapped = true) :
    Moves s (s.setFile f v) := by
  refine ⟨fun g hu hg => ?_, .inl ⟨rfl, rfl⟩⟩
  by_cases hgf : g = f
  · subst hgf
    rw [setFile_self]
    exact hm hu hg
  · rw [setFile_of_ne hgf]
    exact hg

theorem Inv.ok_moves (h : Inv s l) (hm : Moves s r) (hy : y ∈ l) : r.Ok y := by
  have hok := h.ok y hy
  have still : y.scans = true → r.queue = s.queue ∧ r.changes = s.changes := fun hs => by
    rcases hm.list with hl | ⟨hi, -⟩
    · exact hl
    · rw [h.locked hy hs] at hi
      simp at hi
  cases y with
  | put f => exact hm.mapped f (h.used hy (by simp [Section.uses])) hok
  | syncAt c last =>
    obtain ⟨hq, hc⟩ := still rfl
    rw [Ok, hq, hc]
    exact hok
  | syncGet f next last => exact ⟨hok.1.moves hm, hok.2⟩
  | syncPut f next last => exact ⟨hm.mapped f (h.used hy (by simp [Section.uses])) hok.1, hok.2.moves hm⟩
  | syncBack next last => exact Saved.moves hok hm
  | clearAt c last =>
    obtain ⟨hq, hc⟩ := still rfl
    rw [Ok, hq, hc]
    exact hok
  | clearFree f last => exact Saved.moves hok hm
  | clearBack f last =>
    have hlt : last < s.changes := hok
    change last < r.changes
    rcases hm.list with ⟨-, hc⟩ | ⟨-, hc⟩
    · omega
    · omega
  | _ => trivial

theorem Inv.step (h : Inv s (x :: l)) (hm : Moves s r) (hk : r.Kept)
    (hu : ∀ g, (r.file g).useCount + (x.uses g).toNat = (s.file g).useCount + ys.countP (Section.uses g))
    (hs : r.infoLock.toNat + x.scans.toNat = s.infoLock.toNat + ys.countP Section.scans)
    (hok : ∀ y ∈ ys, r.Ok y) : Inv r (ys ++ l) := by
  refine ⟨hk, fun g => ?_, ?_, fun y hy => ?_⟩
  · have huses := h.uses g
    have hg := hu g
    rw [List.countP_cons] at huses
    rw [List.countP_append]
    cases hx : x.uses g with
    | true =>
      simp only [hx, Bool.toNat_true, if_true] at huses hg
      omega
    | false =>
      simp only [hx, Bool.toNat_false, Bool.false_eq_true, if_false] at huses hg
      omega
  · have hscans := h.scans
    rw [List.countP_cons] at hscans
    rw [List.countP_append]
    cases hx : x.scans with
    | true =>
      simp only [hx, Bool.toNat_true, if_true] at hscans hs
      omega
    | false =>
      simp only [hx, Bool.toNat_false, Bool.false_eq_true, if_false] at hscans hs
      omega
  · rcases List.mem_append.mp hy with hy | hy
    · exact hok y hy
    · exact h.ok_moves hm (List.mem_cons_of_mem x hy)

theorem Inv.setFile (h : Inv s (x :: l)) (hu : v.useCount = (s.file f).useCount)
    (hq : v.queued = (s.file f).queued)
    (hm : ((s.file f).useCount ≠ 0 ∨ (s.file f).queued = true) → (s.file f).mapped = true → v.mapped = true)
    (hys : ∀ g, ys.countP (Section.uses g) = (x.uses g).toNat) (hs : ys.countP Section.scans = x.scans.toNat)
    (hok : ∀ y ∈ ys, (s.setFile f v).Ok y) : Inv (s.setFile f v) (ys ++ l) := by
  refine h.step (.setFile fun hu => hm (.inl hu)) (h.kept.setFile hq fun hv => ?_) (fun g => ?_) (by rw [hs]; rfl) hok
  · rw [hq] at hv
    obtain ⟨h0, hmap⟩ := h.kept.idle f hv
    exact ⟨hu.trans h0, hm (.inr hv) hmap⟩
  · rw [hys]
    by_cases hgf : g = f
    · rw [hgf, setFile_self, hu]
    · rw [setFile_of_ne hgf]

theorem Inv.same (h : Inv s (x :: l)) (hys : ∀ g, ys.countP (Section.uses g) = (x.uses g).toNat)
    (hs : ys.countP Section.scans = x.scans.toNat) (hok : ∀ y ∈ ys, s.Ok y) : Inv s (ys ++ l) :=
  h.step (.refl s) h.kept (fun g => by rw [hys]) (by rw [hs]) hok

theorem Moves.setInfoLock (b : Bool) : Moves s (s.setInfoLock b) := ⟨fun _ _ hm => hm, .inl ⟨rfl, rfl⟩⟩

theorem Kept.setInfoLock (h : Kept s) (b : Bool) : Kept (s.setInfoLock b) :=
  ⟨h.nodup, h.queued, h.idle, h.filesMapped⟩

theorem Inv.setInfoLock {b : Bool} (h : Inv s (x :: l)) (hx : ∀ g, x.uses g = false)
    (hys : ∀ g, ys.countP (Section.uses g) = 0)
    (hs : b.toNat + x.scans.toNat = s.infoLock.toNat + ys.countP Section.scans)
    (hok : ∀ y ∈ ys, (s.setInfoLock b).Ok y) : Inv (s.setInfoLock b) (ys ++ l) :=
  h.step (.setInfoLock b) (h.kept.setInfoLock b) (fun g => by rw [hx, hys]; rfl) hs hok

theorem Moves.takeOff (f : FileId) (hi : s.infoLock = false) : Moves s (s.takeOff f) :=
  ⟨fun g _ hm => by rw [takeOff_mapped]; exact hm, takeOff_list hi⟩

theorem Moves.dequeue (f : FileId) (hi : s.infoLock = false) : Moves s (s.dequeue f) :=
  ⟨fun g _ hm => by rw [dequeue_mapped]; exact hm, .inr ⟨hi, Nat.lt_succ_self _⟩⟩

theorem Moves.get (f : FileId) (hi : s.infoLock = false) : Moves s (s.get f) :=
  ⟨fun g _ hm => by rw [get_mapped]; exact hm, takeOff_list hi⟩

theorem Moves.put (f : FileId) (hi : s.infoLock = false) : Moves s (s.put f) :=
  ⟨fun g _ hm => by rw [put_mapped]; exact hm, put_list hi⟩

theorem body_uses (f g : FileId) (ws : List Work) : (body f ws).countP (Section.uses g) = (f == g).toNat := by
  have hw : (ws.map (Section.work f)).countP (Section.uses g) = 0 := by simp [List.countP_eq_zero, Section.uses]
  rw [body, List.countP_append, hw]
  cases hfg : f == g <;> simp [Section.uses, hfg]

theorem body_scans (f : FileId) (ws : List Work) : (body f ws).countP Section.scans = 0 := by
  simp [body, List.countP_eq_zero, Section.scans]

theorem body_ok (hm : (s.file f).mapped = true) (ws : List Work) : ∀ y ∈ body f ws, s.Ok y := by
  intro y hy
  rcases List.mem_append.mp hy with hy | hy
  · obtain ⟨w, -, rfl⟩ := List.mem_map.mp hy
    trivial
  · simp only [List.mem_cons, List.not_mem_nil, or_false] at hy
    rcases hy with rfl | rfl | rfl
    · exact hm
    · trivial
    · trivial

theorem Saved.resumeSync (h : s.Saved c last) (hw : s.changes < last + 2 ^ 32) (b : Bool) :
    (s.setInfoLock b).Ok (s.resumeSync c last) := by
  rw [Lru.resumeSync]
  split
  next hv =>
    have hv' : last % 2 ^ 32 = s.changes % 2 ^ 32 := by
      simpa [version, BitVec.ofNat] using congrArg BitVec.toNat hv
    have hle : last ≤ s.changes := h.1
    have he : s.changes = last := by omega
    exact ⟨he, h.2 he⟩
  next => exact ⟨rfl, first_mem⟩

theorem resumeSync_counts (c : Option FileId) (last : Nat) :
    (∀ g, [s.resumeSync c last].countP (Section.uses g) = 0) ∧ [s.resumeSync c last].countP Section.scans = 1 := by
  rw [resumeSync]
  split
  next => exact ⟨fun _ => rfl, rfl⟩
  next => exact ⟨fun _ => rfl, rfl⟩

theorem resumeClear_counts (f : FileId) (last : Nat) :
    (∀ g, [s.resumeClear f last].countP (Section.uses g) = 0) ∧ [s.resumeClear f last].countP Section.scans = 1 := by
  rw [resumeClear]
  split
  next => exact ⟨fun _ => rfl, rfl⟩
  next => exact ⟨fun _ => rfl, rfl⟩

theorem resumeClear_restart (h : last < s.changes) (hw : s.changes < last + 2 ^ 32) :
    s.resumeClear f last = .clearAt s.first s.changes := by
  rw [resumeClear, if_neg]
  intro hv
  have hv' : last % 2 ^ 32 = s.changes % 2 ^ 32 := by
    simpa [version, BitVec.ofNat] using congrArg BitVec.toNat hv
  omega

theorem Inv.getFile (h : Inv s (x :: l)) (hi : s.infoLock = false) (hx : ∀ g, x.uses g = false)
    (hys : ∀ g, ys.countP (Section.uses g) = (f == g).toNat) (hxs : x.scans = false)
    (hs : ys.countP Section.scans = 0) (hok : ∀ y ∈ ys, (s.get f).Ok y) : Inv (s.get f) (ys ++ l) := by
  refine h.step (.get f hi) (h.kept.get f) (fun g => ?_) ?_ hok
  · rw [get_useCount, hx, hys]
    by_cases hgf : g = f
    · simp [hgf]
    · simp [hgf, Ne.symm hgf]
  · rw [hxs, hs]
    exact congrArg (fun b => b.toNat + 0) (takeOff_infoLock f)

theorem Inv.putFile (h : Inv s (x :: l)) (hi : s.infoLock = false) (hm : (s.file f).mapped = true)
    (hx : ∀ g, x.uses g = (f == g)) (hys : ∀ g, ys.countP (Section.uses g) = 0) (hxs : x.scans = false)
    (hs : ys.countP Section.scans = 0) (hok : ∀ y ∈ ys, (s.put f).Ok y) : Inv (s.put f) (ys ++ l) := by
  have hu : (s.file f).useCount ≠ 0 := h.used (List.mem_cons_self ..) (by simp [hx])
  refine h.step (.put f hi) (h.kept.put hu hm) (fun g => ?_) ?_ hok
  · have hp := put_useCount (s := s) f g
    rw [hx, hys, ← hp]
    by_cases hfg : f = g
    · simp [hfg]
    · simp [hfg]
  · rw [hxs, hs, put_infoLock]
    rfl

theorem Inv.takeOff (h : Inv s (x :: l)) (hi : s.infoLock = false) (hx : ∀ g, x.uses g = false)
    (hys : ∀ g, ys.countP (Section.uses g) = 0) (hxs : x.scans = false) (hs : ys.countP Section.scans = 0)
    (hok : ∀ y ∈ ys, (s.takeOff f).Ok y) : Inv (s.takeOff f) (ys ++ l) := by
  refine h.step (.takeOff f hi) (h.kept.takeOff f) (fun g => ?_) ?_ hok
  · rw [takeOff_useCount, hx, hys]
    rfl
  · rw [hxs, hs, takeOff_infoLock]
    rfl

theorem Inv.dequeueHead (h : Inv s (x :: l)) (hi : s.infoLock = false) (hf : f ∈ s.queue)
    (hx : ∀ g, x.uses g = false) (hys : ∀ g, ys.countP (Section.uses g) = 0) (hxs : x.scans = false)
    (hs : ys.countP Section.scans = 0) (hok : ∀ y ∈ ys, (s.dequeue f).Ok y) : Inv (s.dequeue f) (ys ++ l) := by
  refine h.step (.dequeue f hi) (h.kept.dequeue ((h.kept.queued f).mp hf)) (fun g => ?_) ?_ hok
  · rw [dequeue_useCount, hx, hys]
    rfl
  · rw [hxs, hs]
    rfl

theorem Inv.saved_next (h : Inv s l) (hc : s.changes = last) (hf : f ∈ s.queue) :
    s.Saved (s.next f) last ∧ s.next f ≠ some f :=
  ⟨⟨hc.ge, fun _ => next_mem hf⟩, next_ne h.kept.nodup hf⟩

theorem Saved.get (h : s.Saved c last) (hne : c ≠ some f) (hq : (s.file f).queued = true) :
    (s.get f).Saved c (last + 1) := by
  have hl : (s.get f).changes = s.changes + 1 ∧ (s.get f).queue = s.queue.erase f := by
    rw [Lru.get, setFile_changes, setFile_queue, Lru.takeOff, if_pos hq]
    exact ⟨rfl, rfl⟩
  obtain ⟨hle, hon⟩ := h
  rw [Saved, hl.1, hl.2]
  refine ⟨by omega, fun he g hg => ?_⟩
  have hgf : g ≠ f := by
    rintro rfl
    exact hne hg
  exact (List.mem_erase_of_ne hgf).mpr (hon (by omega) g hg)

theorem Saved.put (h : s.Saved c last) (hu : (s.file f).useCount = 1) : (s.put f).Saved c (last + 1) := by
  have hp : (s.put f).changes = s.changes + 1 ∧ (s.put f).queue = s.queue ++ [f] := by
    rw [Lru.put, hu]
    exact ⟨rfl, rfl⟩
  obtain ⟨hle, hon⟩ := h
  rw [Saved, hp.1, hp.2]
  exact ⟨by omega, fun he g hg => List.mem_append_left _ (hon (by omega) g hg)⟩

theorem takeOff_changes_of_saved (h : s.Saved (some f) last) (hk : s.Kept) : last < (s.takeOff f).changes := by
  obtain ⟨hle, hon⟩ := h
  rw [Lru.takeOff]
  split
  next => exact Nat.lt_succ_of_le hle
  next hq =>
    refine Nat.lt_of_le_of_ne hle fun he => hq ?_
    exact (hk.queued f).mp (hon he.symm f rfl)

theorem exec_inv {p : Lru × List Section} (h : Inv s (x :: l)) (hf : s.Fits x) (he : s.exec filesMax x = some p) :
    Inv p.1 (p.2 ++ l) := by
  have hx := h.ok x (List.mem_cons_self ..)
  cases x with
  | use f ws =>
    obtain ⟨hi, rfl⟩ := underLock_eq_some.mp he
    refine h.getFile hi (fun _ => rfl) (fun g => ?_) rfl (body_scans f ws) fun y hy => ?_
    · exact (body_uses f g ws)
    · rcases List.mem_cons.mp hy with rfl | hy
      · trivial
      · exact body_ok (by rw [get_mapped]; exact hf) ws y hy
  | mapUse f ws =>
    obtain ⟨hi, rfl⟩ := underLock_eq_some.mp he
    refine h.getFile hi (fun _ => rfl) (fun g => ?_) rfl rfl (by simp [Ok])
    cases hfg : f == g <;> simp [Section.uses, hfg]
  | setMapped f ws =>
    cases Option.some.inj he
    exact h.setFile rfl rfl (fun _ _ => rfl) (fun g => body_uses f g ws) (body_scans f ws)
      (body_ok (by rw [setFile_self]) ws)
  | lock f =>
    rw [exec] at he
    split at he
    next => simp at he
    next =>
      cases Option.some.inj he
      exact h.setFile rfl rfl (fun _ hm => hm) (fun _ => rfl) rfl (by simp)
  | unlock f =>
    cases Option.some.inj he
    exact h.setFile rfl rfl (fun _ hm => hm) (fun _ => rfl) rfl (by simp)
  | work f w =>
    cases w with
    | push =>
      cases Option.some.inj he
      exact h.setFile rfl rfl (fun _ hm => hm) (fun _ => rfl) rfl (by simp [Lru.work])
    | write =>
      cases Option.some.inj he
      exact h.setFile rfl rfl (fun _ hm => hm) (fun _ => rfl) rfl (by simp [Lru.work])
    | reclaim =>
      obtain ⟨hi, rfl⟩ := underLock_eq_some.mp he
      rw [Lru.work]
      split
      next => exact h.same (fun _ => rfl) rfl (by simp)
      next g gs hq =>
        exact h.dequeueHead hi (by simp [hq]) (fun _ => rfl) (fun _ => rfl) rfl rfl (by simp [Ok])
  | put f =>
    obtain ⟨hi, rfl⟩ := underLock_eq_some.mp he
    exact h.putFile hi hx (fun _ => rfl) (fun _ => rfl) rfl rfl (by simp)
  | trim =>
    cases Option.some.inj he
    dsimp only
    split
    next => exact h.same (fun _ => rfl) rfl (by simp [Ok])
    next => exact h.same (fun _ => rfl) rfl (by simp)
  | trimLoop =>
    rw [exec] at he
    split at he
    next =>
      obtain ⟨hi, rfl⟩ := underLock_eq_some.mp he
      exact h.same (fun _ => rfl) rfl (by simp)
    next =>
      split at he
      next => simp at he
      next g gs hq =>
        obtain ⟨hi, rfl⟩ := underLock_eq_some.mp he
        exact h.dequeueHead hi (by simp [hq]) (fun _ => rfl) (fun _ => rfl) rfl rfl (by simp [Ok])
  | memfree f flush =>
    obtain ⟨hi, rfl⟩ := underLock_eq_some.mp he
    exact h.takeOff hi (fun _ => rfl) (fun _ => rfl) rfl rfl (by simp [Ok])
  | unmap f flush =>
    cases Option.some.inj he
    refine h.setFile rfl rfl (fun hused hm => ?_) (fun _ => rfl) rfl (by simp)
    -- a file in use or on the queue is not given up
    have hc : (s.file f).mapCount ≠ 0 := fun h0 => by
      obtain ⟨hu, hq⟩ := hf h0
      simp [hu, hq] at hused
    simp [hm, hc]
  | mapInode f ws =>
    cases Option.some.inj he
    refine h.setFile rfl rfl (fun _ hm => hm) (fun _ => ?_) ?_ ?_
    · split <;> rfl
    · split <;> rfl
    · split <;> simp [Ok]
  | unmapInode f linked flush =>
    rw [exec] at he
    split at he
    next =>
      cases Option.some.inj he
      exact h.same (fun _ => rfl) rfl (by simp)
    next =>
      split at he
      next =>
        cases Option.some.inj he
        exact h.setFile rfl rfl (fun _ hm => hm) (fun _ => rfl) rfl (by simp)
      next =>
        cases Option.some.inj he
        exact h.same (fun _ => rfl) rfl (by simp [Ok])
  | unmapLinks f linked flush =>
    rw [exec] at he
    split at he
    next =>
      cases Option.some.inj he
      exact h.setFile rfl rfl (fun _ hm => hm) (fun _ => rfl) rfl (by simp [Ok])
    next =>
      split at he
      next =>
        cases Option.some.inj he
        exact h.same (fun _ => rfl) rfl (by simp [Ok])
      next =>
        cases Option.some.inj he
        exact h.setFile rfl rfl (fun _ hm => hm) (fun _ => rfl) rfl (by simp)
  | unmapDone f =>
    cases Option.some.inj he
    exact h.setFile rfl rfl (fun _ hm => hm) (fun _ => rfl) rfl (by simp)
  | fsync f =>
    cases Option.some.inj he
    dsimp only
    split
    next => exact h.same (fun _ => rfl) rfl (by simp [Ok])
    next => exact h.same (fun _ => rfl) rfl (by simp)
  | uncache f =>
    cases Option.some.inj he
    dsimp only
    split
    next => exact h.same (fun _ => rfl) rfl (by simp [Ok])
    next => exact h.same (fun _ => rfl) rfl (by simp)
  | sync =>
    obtain ⟨hi, rfl⟩ := underLock_eq_some.mp he
    refine h.setInfoLock (fun _ => rfl) (fun _ => rfl) (by rw [hi]; rfl) fun y hy => ?_
    rw [List.mem_singleton.mp hy]
    exact ⟨rfl, first_mem⟩
  | syncAt c last =>
    obtain ⟨hc, hon⟩ := hx
    have hi : s.infoLock = true := h.locked (List.mem_cons_self ..) rfl
    cases c with
    | none =>
      cases Option.some.inj he
      exact h.setInfoLock (fun _ => rfl) (fun _ => rfl) (by rw [hi]; rfl) (by simp)
    | some f =>
      have hq : f ∈ s.queue := hon f rfl
      rw [exec] at he
      split at he
      next =>
        cases Option.some.inj he
        refine h.setInfoLock (fun _ => rfl) (fun _ => rfl) (by rw [hi]; rfl) fun y hy => ?_
        rw [List.mem_singleton.mp hy]
        exact h.saved_next hc hq
      next =>
        cases Option.some.inj he
        obtain ⟨hu, hs⟩ := resumeSync_counts (s := s) (s.next f) last
        refine h.same hu hs fun y hy => ?_
        rw [List.mem_singleton.mp hy]
        exact (h.saved_next hc hq).1.resumeSync (by omega) true
  | syncGet f next last =>
    obtain ⟨hi, rfl⟩ := underLock_eq_some.mp he
    refine h.getFile hi (fun _ => rfl) (fun g => ?_) rfl rfl fun y hy => ?_
    · cases hfg : f == g <;> simp [Section.uses, hfg]
    · simp only [List.mem_cons, List.not_mem_nil, or_false] at hy
      rcases hy with rfl | rfl | rfl
      · trivial
      · trivial
      · have hm : (s.file f).mapped = true := (h.kept.idle f hf).2
        exact ⟨by rw [get_mapped]; exact hm, hx.1.get hx.2 hf⟩
  | syncPut f next last =>
    obtain ⟨hi, rfl⟩ := underLock_eq_some.mp he
    refine h.putFile hi hx.1 (fun _ => rfl) (fun _ => rfl) rfl rfl fun y hy => ?_
    simp only [List.mem_cons, List.not_mem_nil, or_false] at hy
    rcases hy with rfl | rfl | rfl
    · trivial
    · trivial
    · exact hx.2.put hf
  | syncBack next last =>
    obtain ⟨hi, rfl⟩ := underLock_eq_some.mp he
    obtain ⟨hu, hs⟩ := resumeSync_counts (s := s) next last
    refine h.setInfoLock (fun _ => rfl) hu (by rw [hi, hs]; rfl) fun y hy => ?_
    rw [List.mem_singleton.mp hy]
    exact Saved.resumeSync hx hf true
  | clear =>
    obtain ⟨hi, rfl⟩ := underLock_eq_some.mp he
    refine h.setInfoLock (fun _ => rfl) (fun _ => rfl) (by rw [hi]; rfl) fun y hy => ?_
    rw [List.mem_singleton.mp hy]
    exact ⟨rfl, first_mem⟩
  | clearAt c last =>
    obtain ⟨hc, hon⟩ := hx
    have hi : s.infoLock = true := h.locked (List.mem_cons_self ..) rfl
    cases c with
    | none =>
      cases Option.some.inj he
      exact h.setInfoLock (fun _ => rfl) (fun _ => rfl) (by rw [hi]; rfl) (by simp)
    | some f =>
      have hq : f ∈ s.queue := hon f rfl
      rw [exec] at he
      split at he
      next =>
        cases Option.some.inj he
        refine h.setInfoLock (fun _ => rfl) (fun _ => rfl) (by rw [hi]; rfl) fun y hy => ?_
        rw [List.mem_singleton.mp hy]
        exact ⟨hc.ge, fun _ g hg => by cases hg; exact hq⟩
      next =>
        cases Option.some.inj he
        obtain ⟨hu, hs⟩ := resumeClear_counts (s := s) f last
        refine h.same hu hs fun y hy => ?_
        rw [List.mem_singleton.mp hy, resumeClear, version, hc, if_pos rfl]
        exact ⟨hc, next_mem hq⟩
  | clearFree f last =>
    obtain ⟨hi, rfl⟩ := underLock_eq_some.mp he
    refine h.takeOff hi (fun _ => rfl) (fun _ => rfl) rfl rfl fun y hy => ?_
    simp only [List.mem_cons, List.not_mem_nil, or_false] at hy
    rcases hy with rfl | rfl | rfl | rfl
    · trivial
    · trivial
    · trivial
    · exact takeOff_changes_of_saved hx h.kept
  | clearBack f last =>
    obtain ⟨hi, rfl⟩ := underLock_eq_some.mp he
    rw [resumeClear_restart hx hf]
    refine h.setInfoLock (fun _ => rfl) (fun _ => rfl) (by rw [hi]; rfl) fun y hy => ?_
    rw [List.mem_singleton.mp hy]
    exact ⟨rfl, first_mem⟩

theorem Inv.asserts (h : Inv s (x :: l)) : s.Asserts filesMax x := by
  have hx := h.ok x (List.mem_cons_self ..)
  have head : ∀ g ∈ s.first, (s.file g).queued = true := fun g hg => (h.kept.queued g).mp (first_mem g hg)
  cases x with
  | put f => exact fun hu => ⟨h.kept.not_queued (by omega), hx⟩
  | syncPut f next last => exact fun hu => ⟨h.kept.not_queued (by omega), hx.1⟩
  | work f w =>
    cases w with
    | reclaim => exact head
    | _ => trivial
  | trimLoop =>
    intro hlt
    have hfm := h.kept.filesMapped
    cases hq : s.queue with
    | nil =>
      rw [hq] at hfm
      simp at hfm
      omega
    | cons g gs =>
      have hg : g ∈ s.first := by simp [first, hq]
      exact ⟨g, hg, head g hg⟩
  | _ => trivial

end Lru

/-- The condition on a step. -/
def fits (s : State) : Action → Prop
  | .call _ => True
  | .run i => ∀ x ∈ s.section? i, s.lru.Fits x

instance (s : State) (a : Action) : Decidable (fits s a) :=
  match a with
  | .call _ => isTrue trivial
  | .run i => inferInstanceAs (Decidable (∀ x ∈ s.section? i, s.lru.Fits x))

/-- What the list is to be in every state. -/
structure ListKept (filesMax : Nat) (s : State) : Prop where
  queued : ∀ f, f ∈ s.lru.queue ↔ (s.lru.file f).queued = true
  idle : ∀ f, (s.lru.file f).queued = true → (s.lru.file f).useCount = 0 ∧ (s.lru.file f).mapped = true
  filesMapped : s.lru.filesMapped = s.lru.queue.length
  asserts : ∀ i, ∀ x ∈ s.section? i, s.lru.Asserts filesMax x
  cursor : ∀ i f last, s.section? i = some (.syncAt (some f) last) ∨ s.section? i = some (.clearAt (some f) last) →
    f ∈ s.lru.queue

variable {filesMax : Nat} {s r : State} {a : Action} {i : Nat} {x : Section}

theorem Started.inv (h : Started s) : s.lru.Inv s.calls.flatten := by
  obtain ⟨hfile, hqueue, hfm, hlock, hcalls⟩ := h
  rw [hcalls]
  refine ⟨⟨by simp [hqueue], fun f => by simp [hqueue, (hfile f).2.2], fun f hq => ?_, by simp [hfm, hqueue]⟩,
    fun f => by simp [(hfile f).1], by simp [hlock], by simp⟩
  rw [(hfile f).2.2] at hq
  simp at hq

theorem section_perm (hx : s.section? i = some x) :
    ∃ xs, s.calls[i]? = some (x :: xs) ∧ (x :: (xs ++ (s.calls.eraseIdx i).flatten)).Perm s.calls.flatten := by
  obtain ⟨ys, hc, hy⟩ := Option.bind_eq_some_iff.mp hx
  obtain ⟨xs, rfl⟩ := List.head?_eq_some_iff.mp hy
  obtain ⟨hi, he⟩ := List.getElem?_eq_some_iff.mp hc
  have hp : (s.calls[i] :: s.calls.eraseIdx i).Perm s.calls := List.getElem_cons_eraseIdx_perm hi
  rw [he] at hp
  exact ⟨xs, hc, hp.flatten⟩

theorem step_inv (h : s.lru.Inv s.calls.flatten) (ha : fits s a) (hs : step filesMax s a = some r) :
    r.lru.Inv r.calls.flatten := by
  cases a with
  | call c =>
    cases Option.some.inj hs
    have hf : (s.calls ++ [[c.first]]).flatten = s.calls.flatten ++ [c.first] := by simp
    obtain ⟨hk, hu, hsc, hok⟩ := h
    dsimp only
    rw [hf]
    refine ⟨hk, fun f => ?_, ?_, fun y hy => ?_⟩
    · have hc : [c.first].countP (Section.uses f) = 0 := by cases c <;> rfl
      rw [List.countP_append, hc]
      exact hu f
    · have hc : [c.first].countP Section.scans = 0 := by cases c <;> rfl
      rw [List.countP_append, hc]
      exact hsc
    · rcases List.mem_append.mp hy with hy | hy
      · exact hok y hy
      · rw [List.mem_singleton.mp hy]
        cases c <;> trivial
  | run i =>
    rw [step] at hs
    split at hs
    next x xs hc =>
      have hx : s.section? i = some x := by rw [State.section?, hc]; rfl
      obtain ⟨xs', hc', hp⟩ := section_perm hx
      rw [hc] at hc'
      cases Option.some.inj hc'
      obtain ⟨⟨q, ys⟩, he, rfl⟩ := Option.map_eq_some_iff.mp hs
      have hr := Lru.exec_inv (h.perm hp) (ha x hx) he
      rw [← List.append_assoc] at hr
      exact hr
    next => simp at hs

theorem list_kept (h : Reach Started (step filesMax) fits s) : ListKept filesMax s := by
  have hinv : s.lru.Inv s.calls.flatten :=
    Reach.invariant (p := fun s => s.lru.Inv s.calls.flatten) (fun _ hs => hs.inv)
      (fun _ _ _ hp ha hs => step_inv hp ha hs) h
  refine ⟨hinv.kept.queued, hinv.kept.idle, hinv.kept.filesMapped, fun i x hx => ?_, fun i f last hx => ?_⟩
  · obtain ⟨xs, -, hp⟩ := section_perm hx
    exact (hinv.perm hp).asserts
  · rcases hx with hx | hx
    · obtain ⟨xs, -, hp⟩ := section_perm hx
      exact ((hinv.perm hp).ok _ (List.mem_cons_self ..)).2 f rfl
    · obtain ⟨xs, -, hp⟩ := section_perm hx
      exact ((hinv.perm hp).ok _ (List.mem_cons_self ..)).2 f rfl

/-- No file has been mapped since the machine was started. -/
def bootState : State where
  lru :=
    { file _ := ⟨0, 0, false, false, false, false, none⟩, queue := [], filesMapped := 0, changes := 0,
      infoLock := false }
  calls := []

theorem bootState_started : Started bootState := ⟨fun _ => ⟨rfl, rfl, rfl⟩, rfl, rfl, rfl, rfl⟩

/-- A file is mapped when it is opened. -/
def opened (f : FileId) (i : Nat) : List Action := .call (.mapInode f []) :: .run i :: List.replicate 6 (.run 0)

def oneFile : State := (runIf (step 10) fits bootState (opened 0 0)).getD bootState

theorem oneFile_kept : ListKept 10 oneFile := list_kept (Reach.runD (.start bootState_started) (by decide))

/-- `mfs_fsync` finds file 0 mapped, and the file is uncached before `vmp_get`. -/
def fsyncLate : List Action :=
  opened 0 0 ++ [.call (.unmapInode 0 true false), .run 1, .run 0, .call (.fsync 0), .run 2, .call (.uncache 0)] ++
    [.run 3, .run 0, .run 0, .run 0, .run 0, .run 1, .run 0, .run 0]

def lateFsync : State := (runIf (step 10) (fun _ _ => True) bootState fsyncLate).getD bootState

/-- The run has come to `vmp_put` of a file that is not mapped, of which the use is the last. -/
theorem lateFsync_unmapped :
    Reach Started (step 10) (fun _ _ => True) lateFsync ∧ lateFsync.section? 0 = some (.put 0) ∧
      ¬ ListKept 10 lateFsync := by
  refine ⟨Reach.runD (.start bootState_started) (by decide), by decide, fun h => ?_⟩
  have hput : (lateFsync.lru.file 0).useCount = 1 → (lateFsync.lru.file 0).queued = false ∧
      (lateFsync.lru.file 0).mapped = true := h.asserts 0 (.put 0) (by decide)
  exact absurd hput (by decide)

end MachVM.Mfs
