import MachVM.MfsFileSteps
import MachVM.Lib.Run

namespace MachVM.Mfs

open Machine

namespace MappedFile

variable {s r : MappedFile} {f : File} {p off n length bsize maxWindow : Nat} {bs : List UInt8}

theorem Inv.readLoop (hbs : 0 < bsize) (fuel off resid : Nat) (h : Inv s f) (hf : resid < fuel)
    (hb : off + resid ≤ 2 ^ 31) :
    ∃ r, MappedFile.readLoop bsize f.size fuel s off resid = some (r, f.read off resid) ∧ Inv r f := by
  induction fuel generalizing s off resid with
  | zero => omega
  | succ fuel ih =>
    rw [MappedFile.readLoop]
    split
    next hle =>
      refine ⟨s, ?_, h⟩
      rw [File.read, Nat.sub_eq_zero_of_le hle, Nat.min_zero]
      rfl
    next hlt =>
      dsimp only
      generalize hn : min (min bsize resid) (f.size - off) = n
      obtain ⟨r, hr, hrf⟩ := (h.ready off n (by omega)).moveOut (ready_inWindow s off n)
      rw [hr, Option.bind_some]
      have hadd := File.read_add (show n ≤ f.size - off by omega) (resid - n)
      rw [Nat.add_sub_cancel' (by omega)] at hadd
      split
      next hmore =>
        obtain ⟨q, hq, hqf⟩ := ih (off + n) (resid - n) hrf (by omega) (by omega)
        rw [hq, Option.map_some, hadd]
        exact ⟨q, rfl, hqf⟩
      next hlast =>
        have h0 : resid - n = 0 := by omega
        rw [h0] at hadd
        refine ⟨r, ?_, hrf⟩
        rw [hadd, File.read, Nat.zero_min]
        simp

theorem Inv.extend {m : Nat} (h : Inv s f) (hm : m ≤ 2 ^ 31) :
    Inv { s with inodeSize := if s.inodeSize < m then m else s.inodeSize } (f.write m []) := by
  obtain ⟨hsize, hbyte⟩ := File.write_nil f m
  have hs := h.size
  have hi : (if s.inodeSize < m then m else s.inodeSize) = max f.size m := by
    split
    next hlt => omega
    next hlt => omega
  refine ⟨?_, fun i => ?_, h.clean, h.store, ?_, h.window, ?_⟩
  · rw [hsize, ← hi]
  · rw [hbyte]
    exact h.content i
  · have hv := h.vnode
    dsimp only
    omega
  · have hb := h.bound
    rw [hsize]
    omega

theorem Inv.writeLoop (hbs : 0 < bsize) (fuel off : Nat) (bs : List UInt8) (h : Inv s f) (hf : bs.length < fuel)
    (hb : off + bs.length ≤ 2 ^ 31) :
    ∃ r, MappedFile.writeLoop bsize fuel s off bs = some r ∧ Inv r (f.write off bs) := by
  induction fuel generalizing s f off bs with
  | zero => omega
  | succ fuel ih =>
    rw [MappedFile.writeLoop]
    dsimp only
    generalize hn : min bsize bs.length = n
    have hlen : (bs.take n).length = n := by
      rw [List.length_take]
      omega
    obtain ⟨hsize, hbyte⟩ := File.write_nil f (off + n)
    have hext := h.extend (m := off + n) (by omega)
    obtain ⟨r, hr, hrf⟩ := (hext.ready off n (by omega)).moveIn (bs.take n) (f.write off (bs.take n)) (by rw [hlen]; exact ready_inWindow _ off n)
      (by rw [hsize, File.write_size, hlen]) (fun i => by rw [hbyte]; rfl)
    rw [hr, Option.bind_some]
    have hd : Inv { r with dirty := true } (f.write off (bs.take n)) := hrf.of_eq rfl rfl rfl rfl rfl rfl
    split
    next hmore =>
      obtain ⟨q, hq, hqf⟩ := ih (off + n) (bs.drop n) hd
        (by rw [List.length_drop]; omega) (by rw [List.length_drop]; omega)
      refine ⟨q, hq, ?_⟩
      have happ := File.write_append f off (bs.take n) (bs.drop n)
      rw [hlen, List.take_append_drop] at happ
      rw [← happ]
      exact hqf
    next hlast =>
      have hall : bs.take n = bs := List.take_of_length_le (by omega)
      rw [hall] at hd
      exact ⟨_, rfl, hd⟩

theorem Inv.mfsRead (hbs : 0 < bsize) (maxWindow : Nat) {len : Nat} (h : Inv s f) (hb : off + len ≤ 2 ^ 31) :
    ∃ r, s.mfsRead bsize maxWindow off len = some (r, f.read off len) ∧ Inv r f := by
  have hg : Inv (s.get maxWindow off len) f := h.get hb
  rw [MappedFile.mfsRead, hg.size]
  exact hg.readLoop hbs (len + 1) off len (by omega) hb

theorem Inv.mfsWrite (hbs : 0 < bsize) {append sync : Bool} (h : Inv s f) (hb : off + bs.length ≤ 2 ^ 31)
    (hab : append = true → f.size + bs.length ≤ 2 ^ 31) :
    ∃ r, s.mfsWrite bsize maxWindow off bs append sync = some r ∧
      Inv r (f.write (if append then f.size else off) bs) := by
  have hg : Inv (s.get maxWindow off bs.length) f := h.get hb
  rw [MappedFile.mfsWrite, hg.size]
  have hoff : (if append = true then f.size else off) + bs.length ≤ 2 ^ 31 := by
    split
    next ha => exact hab ha
    next => exact hb
  obtain ⟨r, hr, hrf⟩ := hg.writeLoop hbs (bs.length + 1) _ bs (by omega) hoff
  rw [hr, Option.map_some]
  refine ⟨_, rfl, ?_⟩
  split
  next => exact hrf.push
  next => exact hrf

/-- Pages come from pages with the same bytes. -/
def Shares (s r : MappedFile) : Prop := ∀ p w, r.page p = some w → ∃ v, s.page p = some v ∧ w.data = v.data

theorem pageout_shares (s : MappedFile) (p : Nat) : Shares s (s.pageout p) := by
  intro q w hw
  rw [MappedFile.pageout] at hw
  split at hw
  next => exact ⟨w, hw, rfl⟩
  next r hr =>
    split at hw
    next =>
      by_cases hqp : q = p
      · subst hqp
        simp only [Function.update_self, Option.some.injEq] at hw
        exact ⟨r, hr, by rw [← hw]⟩
      · simp only [Function.update_of_ne hqp] at hw
        exact ⟨w, hw, rfl⟩
    next => exact ⟨w, hw, rfl⟩

theorem push_shares (s : MappedFile) : Shares s s.push := by
  rw [MappedFile.push]
  split
  next =>
    dsimp only
    have hd : Shares s { s with dirty := false } := fun _ w hw => ⟨w, hw, rfl⟩
    generalize List.range' _ _ = ps
    revert hd
    generalize { s with dirty := false } = r
    induction ps generalizing r with
    | nil => exact fun hr => hr
    | cons p ps ih =>
      refine fun hr => ih _ fun q w hw => ?_
      obtain ⟨v, hv, he⟩ := pageout_shares r p q w hw
      obtain ⟨u, hu, he'⟩ := hr q v hv
      exact ⟨u, hu, he.trans he'⟩
  next => exact fun _ w hw => ⟨w, hw, rfl⟩

theorem ready_shares (s : MappedFile) (off n : Nat) : Shares s (s.ready off n) := by
  rw [MappedFile.ready]
  split
  next =>
    intro p w hw
    change (if 0 < s.size then s.push else s).page p = some w at hw
    split at hw
    next => exact push_shares s p w hw
    next => exact ⟨w, hw, rfl⟩
  next => exact fun _ w hw => ⟨w, hw, rfl⟩

/-- The new end page and what is behind it has no bytes in memory but those that are cleared or thrown away: a page is
thrown away where the window begins no later than the new end page and reaches the page, and the rest of the last page
is cleared where there is a window that does not begin at the new end page. -/
def Clears (s : MappedFile) (length : Nat) : Prop :=
  length ≤ s.inodeSize → ∀ p w, s.page p = some w → ∀ i, i / pageBytes = p → length ≤ i → w.data i = 0 ∨
    (s.mapped = true ∧ s.offset ≤ roundPage length ∧ roundPage length ≤ p * pageBytes ∧
      p * pageBytes < s.offset + s.size) ∨
    (s.mapped = true ∧ 0 < s.size ∧ roundPage length ≠ s.offset ∧ i < roundPage length)

theorem truncPage_of_mod {x : Nat} (h : x % pageBytes = 0) : truncPage x = x := by
  rw [truncPage]
  rw [pageBytes] at h ⊢
  omega

theorem roundPage_of_mod {x : Nat} (h : x % pageBytes = 0) : roundPage x = x := by
  rw [roundPage]
  rw [pageBytes] at h ⊢
  omega

theorem truncWindow_eq (h : Inv s f) (hl : length ≤ 2 ^ 31) :
    s.truncWindow length =
      if s.offset ≤ roundPage length ∧ roundPage length < s.offset + s.size then
        { s with
          page := fun p =>
            if roundPage length ≤ p * pageBytes ∧ p * pageBytes < s.offset + s.size then none else s.page p
          size := roundPage length - s.offset }
      else s := by
  obtain ⟨hoff, hsz, hb⟩ := h.window
  obtain ⟨-, hr, hrm⟩ := le_roundPage length
  rw [chunkSize] at hb
  have hle : roundPage length ≤ 2 ^ 31 + pageBytes := by omega
  rw [pageBytes] at hle
  rw [truncWindow]
  dsimp only
  by_cases hin : s.offset ≤ roundPage length ∧ roundPage length < s.offset + s.size
  · have hrs : (roundPage length + 2 ^ 32 - s.offset) % 2 ^ 32 = roundPage length - s.offset := by omega
    have hend : s.size - (roundPage length - s.offset) + roundPage length = s.offset + s.size := by omega
    have hem : (s.offset + s.size) % pageBytes = 0 := by
      rw [pageBytes] at hoff hsz ⊢
      omega
    rw [hrs, if_pos (by omega), if_pos hin, inoFlush, truncPage_of_mod hrm, hend, roundPage_of_mod hem]
  · rw [if_neg hin, if_neg]
    omega

theorem Inv.truncWindow (h : Inv s f) (hl : length ≤ f.size) (hc : s.Clears length) :
    ∃ g : File, Inv (s.truncWindow length) g ∧ g.size = f.size ∧ (∀ i < length, g.byte i = f.byte i) ∧
      ∀ p w, (s.truncWindow length).page p = some w → ∀ i, i / pageBytes = p → length ≤ i →
        w.data i = 0 ∨ (0 < (s.truncWindow length).size ∧ i < roundPage length) := by
  have hbound := h.bound
  have hsize := h.size
  obtain ⟨hoff, hsz, hb⟩ := h.window
  obtain ⟨hlr, hr, hrm⟩ := le_roundPage length
  rw [truncWindow_eq h (by omega)]
  have hc := hc (by omega)
  split
  next hin =>
    let t : MappedFile :=
      { s with
        page := fun p =>
          if roundPage length ≤ p * pageBytes ∧ p * pageBytes < s.offset + s.size then none else s.page p
        size := roundPage length - s.offset }
    have hcontent : ∀ i, t.content i = s.content i ∨ (length ≤ i ∧ t.content i = s.store i) := fun i => by
      by_cases hp : roundPage length ≤ i / pageBytes * pageBytes ∧ i / pageBytes * pageBytes < s.offset + s.size
      · refine .inr ⟨?_, by simp only [MappedFile.content, t, if_pos hp]⟩
        rw [pageBytes] at hp
        omega
      · exact .inl (by simp only [MappedFile.content, t, if_neg hp])
    let g : File :=
      { size := f.size
        byte := t.content
        beyond := fun i hi => by
          rcases hcontent i with he | ⟨-, he⟩
          · rw [he, h.content i]
            exact f.beyond i hi
          · rw [he]
            have hv := h.vnode
            exact h.store i (by omega) }
    refine ⟨g, ⟨h.size, fun _ => rfl, fun p w hp hw i hi => ?_, h.store, h.vnode, ⟨hoff, ?_, ?_⟩, hbound⟩, rfl,
      fun i hi => ?_, fun p w hp i hi hli => ?_⟩
    · change (if _ then none else s.page p) = some w at hp
      split at hp
      next => simp at hp
      next => exact h.clean p w hp hw i hi
    · change (roundPage length - s.offset) % pageBytes = 0
      rw [pageBytes] at hoff hrm ⊢
      omega
    · change s.offset + (roundPage length - s.offset) ≤ 2 ^ 31 + chunkSize
      omega
    · rcases hcontent i with he | ⟨hli, -⟩
      · exact he.trans (h.content i)
      · omega
    · change (if _ then none else s.page p) = some w at hp
      change w.data i = 0 ∨ (0 < roundPage length - s.offset ∧ i < roundPage length)
      split at hp
      next => simp at hp
      next hout =>
        rcases hc p w hp i hi hli with h0 | ⟨-, -, hle, hlt⟩ | ⟨-, -, hne, hlt⟩
        · exact .inl h0
        · exact absurd ⟨hle, hlt⟩ hout
        · exact .inr ⟨by omega, hlt⟩
  next hout =>
    refine ⟨f, h, rfl, fun _ _ => rfl, fun p w hp i hi hli => ?_⟩
    rcases hc p w hp i hi hli with h0 | ⟨-, hle, hpl, hlt⟩ | ⟨-, h0, -, hlt⟩
    · exact .inl h0
    · exact absurd ⟨hle, by omega⟩ hout
    · exact .inr ⟨h0, hlt⟩

theorem moveIn_page (h : s.moveIn off bs = some r) (ht : touches p off bs.length = false) : r.page p = s.page p := by
  rw [moveIn] at h
  split at h
  next =>
    cases Option.some.inj h
    exact if_neg (by simp [ht])
  next => simp at h

theorem Inv.truncTail (h : Inv s f) (hl : length ≤ f.size)
    (hc : ∀ p w, s.page p = some w → ∀ i, i / pageBytes = p → length ≤ i →
      w.data i = 0 ∨ (0 < s.size ∧ i < roundPage length)) :
    ∃ r g, s.truncTail length = some r ∧ Inv r g ∧ g.size = f.size ∧ (∀ i < length, g.byte i = f.byte i) ∧
      ∀ p w, r.page p = some w → ∀ i, i / pageBytes = p → length ≤ i → w.data i = 0 := by
  have hbound := h.bound
  obtain ⟨hlr, hr, hrm⟩ := le_roundPage length
  rw [MappedFile.truncTail]
  split
  next hz =>
    obtain ⟨h0, hne⟩ := hz
    have hrb : roundPage length ≤ 2 ^ 31 := by
      rw [pageBytes] at hr hrm
      omega
    have hready : Inv (s.ready length (roundPage length - length)) f := h.ready _ _ (by omega)
    let zs := List.replicate (roundPage length - length) (0 : UInt8)
    have hzs : zs.length = roundPage length - length := List.length_replicate
    let g : File :=
      { size := f.size
        byte := fun i => if length ≤ i ∧ i < length + zs.length then zs.getD (i - length) 0 else f.byte i
        beyond := fun i hi => by
          split
          next => simp [zs]
          next => exact f.beyond i hi }
    obtain ⟨r, hmove, hrg⟩ := hready.moveIn zs g (by rw [hzs]; exact ready_inWindow s _ _) rfl
      fun _ => rfl
    refine ⟨{ r with dirty := true }, g, congrArg (Option.map _) hmove, hrg.of_eq rfl rfl rfl rfl rfl rfl, rfl, fun i hi => ?_,
      fun p w hp i hi hli => ?_⟩
    · exact if_neg (by omega)
    · have hcont : w.data i = g.byte i := by
        have hp' : r.page p = some w := hp
        rw [← hrg.content i, MappedFile.content, hi, hp']
      by_cases hir : i < roundPage length
      · rw [hcont]
        change (if length ≤ i ∧ i < length + zs.length then zs.getD (i - length) 0 else f.byte i) = 0
        rw [if_pos (by omega)]
        simp [zs]
      · have hout : touches p length zs.length = false := by
          rw [hzs, touches, Bool.and_eq_false_iff]
          refine .inr (decide_eq_false ?_)
          rw [pageBytes] at hrm hi ⊢
          omega
        have hp' : (s.ready length (roundPage length - length)).page p = some w := (moveIn_page hmove hout).symm.trans hp
        obtain ⟨v, hv, he⟩ := ready_shares s length _ p w hp'
        rw [he]
        rcases hc p v hv i hi hli with h0 | ⟨-, hlt⟩
        · exact h0
        · exact absurd hlt hir
  next hz =>
    refine ⟨s, f, rfl, h, rfl, fun _ _ => rfl, fun p w hp i hi hli => ?_⟩
    rcases hc p w hp i hi hli with h0 | ⟨h0, hlt⟩
    · exact h0
    · exact absurd ⟨h0, by omega⟩ hz

theorem Inv.cut {g : File} (h : Inv s g) (hg : g.size = f.size) (hl : length ≤ f.size)
    (hbyte : ∀ i < length, g.byte i = f.byte i)
    (hc : ∀ p w, s.page p = some w → ∀ i, i / pageBytes = p → length ≤ i → w.data i = 0) :
    Inv ({ s with inodeSize := length }.cut length) (f.trunc length) := by
  have hsize : (f.trunc length).size = length := Nat.min_eq_right hl
  have hbound := h.bound
  have hbyte' : ∀ i, length ≤ i → (f.trunc length).byte i = 0 := fun i hi => if_neg (by omega)
  have hbelow : ∀ i < length, (f.trunc length).byte i = s.content i := fun i hi => by
    rw [h.content i, hbyte i hi]
    exact if_pos hi
  have hcontent : ∀ i, length ≤ i → ∀ w, s.page (i / pageBytes) = some w → w.data i = (f.trunc length).byte i :=
    fun i hi w hw => by
      rw [hbyte' i hi]
      exact hc _ w hw i rfl hi
  rw [MappedFile.cut]
  split
  next hv =>
    have hv : s.vnodeSize ≤ length := hv
    refine ⟨hsize.symm, fun i => ?_, h.clean, h.store, hv, h.window, by omega⟩
    by_cases hi : i < length
    · exact (hbelow i hi).symm
    · rw [MappedFile.content]
      dsimp only
      split
      next w hw => exact hcontent i (by omega) w hw
      next => rw [hbyte' i (by omega), h.store i (by omega)]
  next hv =>
    refine ⟨hsize.symm, fun i => ?_, fun p w hp hw i hi => ?_, fun i hi => if_neg (Nat.not_lt.mpr hi),
      Nat.le_refl length, h.window, by omega⟩
    · rw [MappedFile.content]
      dsimp only
      by_cases hi : i < length
      · rw [if_pos hi]
        exact (hbelow i hi).symm
      · rw [if_neg hi]
        split
        next w hw => exact hcontent i (by omega) w hw
        next => exact (hbyte' i (by omega)).symm
    · change w.data i = if i < length then s.store i else 0
      split
      next => exact h.clean p w hp hw i hi
      next hli => exact hc p w hp i hi (by omega)

theorem Inv.trunc (h : Inv s f) (hc : s.Clears length) :
    ∃ r, (s.mfsTrunc length).map (fun r => r.cut length) = some r ∧ Inv r (f.trunc length) := by
  have hsize := h.size
  rw [mfsTrunc]
  split
  next hlt =>
    have hv := h.vnode
    refine ⟨s, ?_, ?_⟩
    · rw [Option.map_some, MappedFile.cut, if_pos (by omega)]
    · rw [File.trunc_of_le (by omega)]
      exact h
  next hle =>
    have hl : length ≤ f.size := by omega
    split
    next hm =>
      refine ⟨_, rfl, h.cut rfl hl (fun _ _ => rfl) fun p w hp i hi hli => ?_⟩
      have hm : s.mapped = false := by simpa using hm
      rcases hc (by omega) p w hp i hi hli with h0 | ⟨hmt, -⟩ | ⟨hmt, -⟩
      · exact h0
      · simp [hm] at hmt
      · simp [hm] at hmt
    next =>
      obtain ⟨g, hg, hgs, hgb, hgc⟩ := h.truncWindow hl hc
      obtain ⟨r, k, hr, hk, hks, hkb, hkc⟩ := hg.truncTail (by omega) hgc
      refine ⟨_, by rw [hr]; rfl, hk.cut (hks.trans hgs) hl (fun i hi => ?_) hkc⟩
      rw [hkb i hi, hgb i hi]

theorem Inv.setMap {mapped : Bool} {mapCount : Nat} (h : Inv s f) :
    Inv { s with mapped := mapped, mapCount := mapCount } f :=
  h.of_eq rfl rfl rfl rfl rfl rfl

theorem Inv.memfree (h : Inv s f) (flush : Bool) : Inv (s.memfree flush) f := by
  have hpushed : Inv (if flush then s.push else s) f := by
    split
    next => exact h.push
    next => exact h
  have hw : Inv { (if flush then s.push else s) with size := 0 } f := by
    obtain ⟨hoff, -, hb⟩ := hpushed.window
    exact hpushed.setWindow hoff (Nat.zero_mod _) (by omega)
  exact hw.setMap

theorem Inv.uncache (h : Inv s f) : Inv s.uncache f := by
  rw [MappedFile.uncache]
  split
  next => exact h.memfree false
  next => exact h

theorem Inv.unmapInode (h : Inv s f) (linked flush : Bool) : Inv (s.unmapInode linked flush) f := by
  rw [MappedFile.unmapInode]
  split
  next => exact h
  next =>
    split
    next => exact h.setMap
    next =>
      split
      next => exact Inv.memfree (s := { s with mapCount := s.mapCount - 1 }) h.setMap false
      next =>
        split
        next => exact h.push.setMap
        next => exact h.setMap

theorem Inv.mapNew (h : Inv s f) (hv : s.vnodeSize = s.inodeSize) :
    Inv { s with mapCount := s.mapCount + 1, mapped := true, inodeSize := s.vnodeSize, offset := 0, size := 0 } f :=
  ⟨hv.trans h.size, h.content, h.clean, h.store, Nat.le_refl _, ⟨Nat.zero_mod _, Nat.zero_mod _, Nat.zero_le _⟩, h.bound⟩

theorem Inv.mapInode (h : Inv s f) (hv : s.mapCount = 0 → s.mapped = false → s.vnodeSize = s.inodeSize) :
    Inv (s.mapInode maxWindow) f := by
  rw [MappedFile.mapInode]
  split
  next => exact h.setMap
  next hn =>
    have hsize := h.size
    have hbound := h.bound
    have hv := hv (by omega) (by simpa using fun hm => hn (.inr hm))
    dsimp only
    split
    next => exact (h.mapNew hv).remap (by omega)
    next => exact h.mapNew hv

end MappedFile

/-- The condition on a call. An offset and a length are `int`, as is the size of a file; a file that is mapped again has
its size in the pager. -/
def FileCall.Fits (s : MappedFile) : FileCall → Prop
  | mapInode => s.mapCount = 0 → s.mapped = false → s.vnodeSize = s.inodeSize
  | read off len => s.mapped = true ∧ off + len ≤ 2 ^ 31
  | write off bs append _ =>
    s.mapped = true ∧ off + bs.length ≤ 2 ^ 31 ∧ (append = true → s.inodeSize + bs.length ≤ 2 ^ 31)
  | trunc length => s.Clears length
  | get start size => s.mapped = true ∧ start + size ≤ 2 ^ 31
  | _ => True

variable {s : MappedFile} {f : File} {bsize maxWindow : Nat}

theorem Opened.inv {x : MappedFile × File} (h : Opened maxWindow x) : x.1.Inv x.2 := by
  obtain ⟨t, ⟨⟨hm, hc⟩, ⟨hv, hb⟩, hpage, hstore⟩, he⟩ := h
  let u : MappedFile := { t with inodeSize := t.vnodeSize, offset := 0, size := 0 }
  have hu : u.Inv x.2 := by
    refine ⟨hv, fun i => ?_, fun p w hw => ?_, fun i hi => ?_, Nat.le_refl _,
      ⟨Nat.zero_mod _, Nat.zero_mod _, Nat.zero_le _⟩, hb⟩
    · simp only [MappedFile.content, u, hpage, hstore]
    · simp [u, hpage] at hw
    · have hi : t.vnodeSize ≤ i := hi
      exact (hstore i).trans (x.2.beyond i (by omega))
  have hmap : t.mapInode maxWindow = u.mapInode maxWindow := by
    simp [MappedFile.mapInode, u, hm, hc]
  rw [he, hmap]
  exact hu.mapInode fun _ _ => rfl

theorem exec_inv (hbs : 0 < bsize) (maxWindow : Nat) (h : s.Inv f) {c : FileCall} (hc : c.Fits s) :
    ∃ r, c.exec bsize maxWindow s = some r ∧ r.Inv (c.spec f) := by
  cases c with
  | mapInode => exact ⟨_, rfl, h.mapInode hc⟩
  | unmapInode linked flush => exact ⟨_, rfl, h.unmapInode linked flush⟩
  | read off len =>
    obtain ⟨r, hr, hrf⟩ := h.mfsRead hbs maxWindow hc.2
    exact ⟨r, congrArg (Option.map Prod.fst) hr, hrf⟩
  | write off bs append sync => exact h.mfsWrite hbs hc.2.1 fun ha => h.size ▸ hc.2.2 ha
  | trunc length => exact h.trunc hc
  | get start size => exact ⟨_, rfl, h.get hc.2⟩
  | trim => exact ⟨_, rfl, h.memfree true⟩
  | uncache => exact ⟨_, rfl, h.uncache⟩
  | evict p => exact ⟨_, rfl, h.evict p⟩

/-- In a run whose truncations leave no byte behind the new end in memory every read has the bytes of the file, and no
call refers to an address that is not mapped. -/
theorem mapped_file_reads (hbs : 0 < bsize)
    (h : Reach (Opened maxWindow) (fileStep bsize maxWindow) (fun x c => c.Fits x.1) (s, f)) :
    (∀ off len, (FileCall.read off len).Fits s →
      (s.mfsRead bsize maxWindow off len).map Prod.snd = some (f.read off len)) ∧
      s.inodeSize = f.size ∧ ∀ c : FileCall, c.Fits s → (c.exec bsize maxWindow s).isSome := by
  have hinv : s.Inv f := by
    refine Reach.invariant (p := fun x => x.1.Inv x.2) (fun _ hs => hs.inv) ?_ h
    rintro ⟨q, g⟩ c ⟨r, k⟩ hq hc hs
    obtain ⟨t, ht, hr⟩ := exec_inv hbs maxWindow hq hc
    rw [fileStep, ht] at hs
    cases Option.some.inj hs
    exact hr
  refine ⟨fun off len hc => ?_, hinv.size, fun c hc => ?_⟩
  · obtain ⟨r, hr, -⟩ := hinv.mfsRead hbs maxWindow hc.2
    rw [hr]
    rfl
  · obtain ⟨r, hr, -⟩ := exec_inv hbs maxWindow hinv hc
    rw [hr]
    rfl

/-- A file of the one byte 7. -/
def seven : File where
  size := 1
  byte i := if i = 0 then 7 else 0
  beyond i hi := if_neg (by omega)

def sevenStored : MappedFile where
  mapCount := 0
  mapped := false
  inodeSize := 0
  offset := 0
  size := 0
  dirty := false
  page _ := none
  store := seven.byte
  vnodeSize := 1

theorem sevenStored_opened : Opened chunkSize (sevenStored.mapInode chunkSize, seven) :=
  ⟨sevenStored, ⟨⟨rfl, rfl⟩, ⟨rfl, by decide⟩, fun _ => rfl, fun _ => rfl⟩, rfl⟩

abbrev FileReach : MappedFile × File → Prop :=
  Reach (Opened chunkSize) (fileStep 8192 chunkSize) fun x c => c.Fits x.1

/-- The state after a call that returns. -/
def afterCall (x : MappedFile × File) (c : FileCall) : MappedFile × File :=
  ((c.exec 8192 chunkSize x.1).getD x.1, c.spec x.2)

theorem FileReach.call {x : MappedFile × File} {c : FileCall} (h : FileReach x) (hc : c.Fits x.1)
    (hs : (c.exec 8192 chunkSize x.1).isSome) : FileReach (afterCall x c) := by
  obtain ⟨r, hr⟩ := Option.isSome_iff_exists.mp hs
  refine h.next hc ?_
  rw [fileStep, afterCall, hr]
  rfl

def sevenOpened : MappedFile × File := (sevenStored.mapInode chunkSize, seven)

def written : MappedFile × File := afterCall sevenOpened (.write 0 [1, 2, 3, 4, 5, 6] false false)

theorem written_page {p : Nat} (hp : p ≠ 0) : written.1.page p = none := by
  have h : ∃ f : Nat → Option Resident, written.1.page = fun p => if touches p 0 6 then f p else none := ⟨_, rfl⟩
  obtain ⟨f, h⟩ := h
  rw [h]
  refine if_neg ?_
  simp only [touches, Bool.and_eq_true, decide_eq_true_eq]
  rintro ⟨-, hlt⟩
  unfold pageBytes at hlt
  omega

theorem written_clears : written.1.Clears 3 := by
  intro _ p w hw i hi _
  have hp : p = 0 := by
    by_contra hp
    rw [written_page hp] at hw
    cases hw
  subst hp
  refine .inr (.inr ⟨by decide +kernel, by decide +kernel, by decide +kernel, ?_⟩)
  have hround : roundPage 3 = pageBytes := rfl
  unfold pageBytes at hi hround
  omega

/-- Six bytes are written, three are truncated, and one is written behind a gap. -/
def regrown : MappedFile × File := afterCall (afterCall written (.trunc 3)) (.write 10 [9] false false)

theorem regrown_reach : FileReach regrown := by
  have h : FileReach sevenOpened := .start sevenStored_opened
  have h : FileReach written := h.call ⟨rfl, by decide, by simp⟩ (by decide +kernel)
  have h : FileReach (afterCall written (.trunc 3)) := h.call written_clears (by decide +kernel)
  exact h.call ⟨by decide +kernel, by decide, by simp⟩ (by decide +kernel)

theorem regrown_read : (regrown.1.mfsRead 8192 chunkSize 0 12).map Prod.snd =
    some [1, 2, 3, 0, 0, 0, 0, 0, 0, 0, 9] := by
  have hpair : ∀ x, FileReach x → FileReach (x.1, x.2) := fun _ h => h
  have h : (regrown.1.mfsRead 8192 chunkSize 0 12).map Prod.snd = some (regrown.2.read 0 12) :=
    (mapped_file_reads (by decide) (hpair _ regrown_reach)).1 0 12 ⟨by decide +kernel, by decide⟩
  have hread : regrown.2.read 0 12 = [1, 2, 3, 0, 0, 0, 0, 0, 0, 0, 9] := by decide +kernel
  rw [h, hread]

/-- The file is read and loses its window, and is then truncated to nothing and written to at offset 1. -/
def sevenAgain : MappedFile × File :=
  (runIf (fileStep 8192 chunkSize) (fun _ _ => True) (sevenStored.mapInode chunkSize, seven)
    [.read 0 1, .trim, .trunc 0, .write 1 [9] false false]).getD (sevenStored.mapInode chunkSize, seven)

/-- The byte that was truncated is read again. -/
theorem sevenAgain_reappears :
    Reach (Opened chunkSize) (fileStep 8192 chunkSize) (fun _ _ => True) sevenAgain ∧
      (sevenAgain.1.mfsRead 8192 chunkSize 0 1).map Prod.snd = some [7] ∧ sevenAgain.2.read 0 1 = [0] :=
  ⟨Reach.runD (.start sevenStored_opened) (by decide +kernel), by decide +kernel, by decide +kernel⟩

end MachVM.Mfs
