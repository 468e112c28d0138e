import MachVM.MfsFile
import Mathlib.Data.List.GetD
import Mathlib.Tactic.Common

namespace MachVM.Mfs

namespace File

variable {f : File} {off n length : Nat} {bs cs : List UInt8}

theorem write_size : (f.write off bs).size = max f.size (off + bs.length) := rfl

theorem write_byte (i : Nat) :
    (f.write off bs).byte i = if off ≤ i ∧ i < off + bs.length then bs.getD (i - off) 0 else f.byte i := rfl

theorem write_nil (f : File) (off : Nat) : (f.write off []).size = max f.size off ∧ (f.write off []).byte = f.byte := by
  refine ⟨rfl, funext fun i => ?_⟩
  rw [write_byte, if_neg (by simp)]

theorem write_append (f : File) (off : Nat) (bs cs : List UInt8) :
    (f.write off bs).write (off + bs.length) cs = f.write off (bs ++ cs) := by
  refine File.ext ?_ (funext fun i => ?_)
  · simp [write, List.length_append]
    omega
  · simp only [write_byte, List.length_append]
    by_cases hc : off + bs.length ≤ i ∧ i < off + bs.length + cs.length
    · rw [if_pos hc, if_pos (by omega), List.getD_append_right _ _ _ _ (by omega)]
      congr 1
      omega
    · rw [if_neg hc]
      by_cases hb : off ≤ i ∧ i < off + bs.length
      · rw [if_pos hb, if_pos (by omega), List.getD_append _ _ _ _ (by omega)]
      · rw [if_neg hb, if_neg (by omega)]

theorem trunc_of_le (h : f.size ≤ length) : f.trunc length = f := by
  refine File.ext ?_ (funext fun i => ?_)
  · exact Nat.min_eq_left h
  · simp only [trunc]
    split
    next => rfl
    next hi => exact (f.beyond i (by omega)).symm

theorem read_add (h : n ≤ f.size - off) :
    ∀ m, f.read off (n + m) = (List.range n).map (fun k => f.byte (off + k)) ++ f.read (off + n) m := by
  intro m
  have hmin : min (n + m) (f.size - off) = n + min m (f.size - (off + n)) := by omega
  rw [read, read, hmin, List.range_add, List.map_append, List.map_map]
  congr 1
  refine List.map_congr_left fun k _ => ?_
  simp [Nat.add_assoc]

end File

namespace MappedFile

/-- The file in memory and in the pager is the file that its users see. -/
structure Inv (s : MappedFile) (f : File) : Prop where
  size : s.inodeSize = f.size
  content : ∀ i, s.content i = f.byte i
  clean : ∀ p r, s.page p = some r → r.modified = false → ∀ i, i / pageBytes = p → r.data i = s.store i
  store : ∀ i, s.vnodeSize ≤ i → s.store i = 0
  vnode : s.vnodeSize ≤ s.inodeSize
  window : s.offset % pageBytes = 0 ∧ s.size % pageBytes = 0 ∧ s.offset + s.size ≤ 2 ^ 31 + chunkSize
  bound : f.size ≤ 2 ^ 31

variable {s r : MappedFile} {f : File} {p off n length : Nat} {bs : List UInt8}

theorem Inv.of_eq (h : Inv s f) (hi : r.inodeSize = s.inodeSize) (hp : r.page = s.page) (hs : r.store = s.store)
    (hv : r.vnodeSize = s.vnodeSize) (ho : r.offset = s.offset) (hw : r.size = s.size) : Inv r f := by
  refine ⟨hi.trans h.size, fun i => ?_, ?_, ?_, ?_, ?_, h.bound⟩
  · rw [← h.content i, MappedFile.content, MappedFile.content, hp, hs]
  · rw [hp, hs]
    exact h.clean
  · rw [hv, hs]
    exact h.store
  · rw [hv, hi]
    exact h.vnode
  · rw [ho, hw]
    exact h.window

theorem Inv.setWindow (h : Inv s f) (hoff : off % pageBytes = 0) (hn : n % pageBytes = 0)
    (hb : off + n ≤ 2 ^ 31 + chunkSize) : Inv { s with offset := off, size := n } f :=
  ⟨h.size, h.content, h.clean, h.store, h.vnode, ⟨hoff, hn, hb⟩, h.bound⟩

theorem pagein_data (i : Nat) : (s.pagein (i / pageBytes)).data i = s.content i := by
  rw [pagein, content]
  cases s.page (i / pageBytes) <;> rfl

theorem Inv.pageout (h : Inv s f) (p : Nat) : Inv (s.pageout p) f := by
  rw [MappedFile.pageout]
  split
  next => exact h
  next r hr =>
    split
    next =>
      have hdata : ∀ i, i / pageBytes = p → r.data i = f.byte i := fun i hi => by
        rw [← h.content i, MappedFile.content, hi, hr]
      refine ⟨h.size, fun i => ?_, fun q w hq hw i hi => ?_, fun i hi => ?_, ?_, h.window, h.bound⟩
      · simp only [MappedFile.content]
        by_cases hip : i / pageBytes = p
        · rw [hip, Function.update_self]
          exact hdata i hip
        · rw [Function.update_of_ne hip, if_neg hip]
          exact h.content i
      · by_cases hqp : q = p
        · subst hqp
          simp only [Function.update_self, Option.some.injEq] at hq
          subst hq
          exact (if_pos hi).symm
        · simp only [Function.update_of_ne hqp] at hq
          refine (h.clean q w hq hw i hi).trans (if_neg ?_).symm
          omega
      · have hi' : max s.vnodeSize (min s.inodeSize ((p + 1) * pageBytes)) ≤ i := hi
        have hsize := h.size
        change (if i / pageBytes = p then r.data i else s.store i) = 0
        split
        next hip =>
          have hlt : i < (p + 1) * pageBytes := by
            rw [pageBytes] at hip ⊢
            omega
          rw [hdata i hip]
          exact f.beyond i (by omega)
        next => exact h.store i (by omega)
      · have hv := h.vnode
        change max s.vnodeSize (min s.inodeSize ((p + 1) * pageBytes)) ≤ s.inodeSize
        omega
    next => exact h

theorem pageout_clean {w : Resident} (h : (s.pageout p).page p = some w) : w.modified = false := by
  rw [MappedFile.pageout] at h
  split at h
  next hn => simp [hn] at h
  next r hr =>
    split at h
    next =>
      simp only [Function.update_self, Option.some.injEq] at h
      rw [← h]
    next hm =>
      rw [hr] at h
      cases Option.some.inj h
      simpa using hm

theorem Inv.evict (h : Inv s f) (p : Nat) : Inv (s.evict p) f := by
  have hout := h.pageout p
  refine ⟨hout.size, fun i => ?_, fun q w hq hw i hi => ?_, hout.store, hout.vnode,
    hout.window, hout.bound⟩
  · rw [← hout.content i]
    by_cases hip : i / pageBytes = p
    · simp only [MappedFile.content, MappedFile.evict, hip, Function.update_self]
      cases hp : (s.pageout p).page p with
      | none => rfl
      | some w => exact (hout.clean p w hp (pageout_clean hp) i hip).symm
    · simp only [MappedFile.content, MappedFile.evict, Function.update_of_ne hip]
  · by_cases hqp : q = p
    · subst hqp
      simp [MappedFile.evict] at hq
    · simp only [MappedFile.evict, Function.update_of_ne hqp] at hq
      exact hout.clean q w hq hw i hi

theorem Inv.push (h : Inv s f) : Inv s.push f := by
  rw [MappedFile.push]
  split
  next =>
    have hd : Inv { s with dirty := false } f := h.of_eq rfl rfl rfl rfl rfl rfl
    dsimp only
    generalize List.range' _ _ = ps
    revert hd
    generalize { s with dirty := false } = r
    induction ps generalizing r with
    | nil => exact fun hr => hr
    | cons p ps ih => exact fun hr => ih _ (hr.pageout p)
  next => exact h

theorem truncPage_le (x : Nat) : truncPage x ≤ x ∧ x < truncPage x + pageBytes ∧ truncPage x % pageBytes = 0 := by
  rw [truncPage, pageBytes]
  omega

theorem le_roundPage (x : Nat) : x ≤ roundPage x ∧ roundPage x < x + pageBytes ∧ roundPage x % pageBytes = 0 := by
  rw [roundPage, pageBytes]
  omega

theorem Inv.remap (h : Inv s f) (hb : off + n ≤ 2 ^ 31) : Inv (s.remap off n) f := by
  have hpushed : Inv (if 0 < s.size then s.push else s) f := by
    split
    next => exact h.push
    next => exact h
  obtain ⟨ht, -, htm⟩ := truncPage_le off
  obtain ⟨hr, hrb, hrm⟩ := le_roundPage (off + n)
  rw [MappedFile.remap]
  refine hpushed.setWindow htm ?_ ?_
  · rw [chunkSize]
    rw [pageBytes] at htm hrm ⊢
    omega
  · rw [chunkSize]
    rw [pageBytes] at hrm hrb
    omega

theorem remap_inWindow (s : MappedFile) (off n : Nat) : (s.remap off n).inWindow off n = true := by
  obtain ⟨ht, -, -⟩ := truncPage_le off
  obtain ⟨hr, -, -⟩ := le_roundPage (off + n)
  have hw : truncPage off ≤ off ∧ off + n ≤ truncPage off + max (roundPage (off + n) - truncPage off) chunkSize := by
    omega
  rw [inWindow, Bool.or_eq_true, Bool.and_eq_true]
  exact .inr ⟨decide_eq_true hw.1, decide_eq_true hw.2⟩

theorem Inv.ready (h : Inv s f) (off n : Nat) (hb : off + n ≤ 2 ^ 31) : Inv (s.ready off n) f := by
  rw [MappedFile.ready]
  split
  next => exact h.remap hb
  next => exact h

theorem ready_inWindow (s : MappedFile) (off n : Nat) : (s.ready off n).inWindow off n = true := by
  rw [MappedFile.ready]
  split
  next => exact remap_inWindow s off n
  next hn =>
    rw [inWindow, Bool.or_eq_true, Bool.and_eq_true, decide_eq_true_eq, decide_eq_true_eq]
    exact .inr (by omega)

theorem Inv.get {maxWindow : Nat} (h : Inv s f) (hb : off + n ≤ 2 ^ 31) : Inv (s.get maxWindow off n) f := by
  rw [MappedFile.get]
  split
  next => exact h.remap (by omega)
  next => exact h

theorem moveOut_eq (h : s.inWindow off n = true) :
    s.moveOut off n = some ({ s with page := fun p => if touches p off n then some (s.pagein p) else s.page p },
      (List.range n).map fun k => s.content (off + k)) := if_pos h

theorem Inv.moveOut (h : Inv s f) (hw : s.inWindow off n = true) :
    ∃ r, s.moveOut off n = some (r, (List.range n).map fun k => f.byte (off + k)) ∧ Inv r f := by
  refine ⟨{ s with page := fun p => if touches p off n then some (s.pagein p) else s.page p },
    (moveOut_eq hw).trans (by simp only [h.content]), ⟨h.size, fun i => ?_, fun p w hp hc i hi => ?_, h.store,
    h.vnode, h.window, h.bound⟩⟩
  · rw [← h.content i]
    simp only [MappedFile.content]
    split
    next w hp =>
      split at hp
      next =>
        cases Option.some.inj hp
        exact pagein_data i
      next => rw [hp]
    next hp =>
      split at hp
      next => simp at hp
      next => rw [hp]
  · dsimp only at hp
    split at hp
    next =>
      cases Option.some.inj hp
      rw [pagein] at hc ⊢
      cases hs : s.page p with
      | none => rfl
      | some v =>
        rw [hs] at hc
        exact h.clean p v hs hc i hi
    next => exact h.clean p w hp hc i hi

theorem touches_of_mem {i : Nat} (hi : off ≤ i) (hn : i < off + n) : touches (i / pageBytes) off n = true := by
  rw [touches, Bool.and_eq_true, Bool.and_eq_true, decide_eq_true_eq, decide_eq_true_eq, decide_eq_true_eq, pageBytes]
  omega

theorem Inv.moveIn (h : Inv s f) (bs : List UInt8) (g : File) (hw : s.inWindow off bs.length = true) (hs : g.size = f.size)
    (hg : ∀ i, g.byte i = if off ≤ i ∧ i < off + bs.length then bs.getD (i - off) 0 else f.byte i) :
    ∃ r, s.moveIn off bs = some r ∧ Inv r g := by
  refine ⟨_, if_pos hw, ⟨h.size.trans hs.symm, fun i => ?_, fun p w hp hc i hi => ?_, h.store, h.vnode, h.window,
    hs.le.trans h.bound⟩⟩
  · rw [hg, ← h.content i]
    simp only [MappedFile.content]
    split
    next w hp =>
      split at hp
      next =>
        cases Option.some.inj hp
        dsimp only
        rw [pagein_data i]
        rfl
      next ht =>
        rw [hp, if_neg]
        intro hi
        exact ht (touches_of_mem hi.1 hi.2)
    next hp =>
      split at hp
      next => simp at hp
      next ht =>
        rw [hp, if_neg]
        intro hi
        exact ht (touches_of_mem hi.1 hi.2)
  · dsimp only at hp
    split at hp
    next =>
      cases Option.some.inj hp
      simp at hc
    next => exact h.clean p w hp hc i hi

end MappedFile

end MachVM.Mfs
