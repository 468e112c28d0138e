import MachVM.Istruct
import MachVM.Lib.Outcome
import MachVM.Lib.Run

namespace MachVM.Builtin.InodePager

open Mirror Machine

variable {s r : State} {is : IstructId} {x : Istruct} {c d : Call} {p : Inode} {qmax : Int} {rest : List Call}

theorem Inv.advance {l : List Call} (is : IstructId) (h : Inv { s with calls := c :: rest }) (hc : c.on = is)
    (hd : d.on = is)
    (hi : r.istruct = Function.update s.istruct is x) (hq : x.queued = (s.istruct is).queued)
    (hsame : r.live = s.live ∧ r.file = s.file ∧ r.fsIp = s.fsIp) (hrefs : ∀ j, j ≠ is → r.refs j = s.refs j)
    (hcalls : r.calls = d :: rest ∨ r.calls = d :: rest.map (wake is) ∨ r.calls = rest.map (wake is))
    (hat : callsAt r.calls is = l) (hlocal : Local x (r.refs is) (s.file is) s.fsIp is l)
    (hqueue : r.istructQueue = s.istructQueue) (hqcount : r.istructQcount = s.istructQcount)
    (hreleased : r.istructReleased + (s.istruct is).away.toNat = s.istructReleased + x.away.toNat) : Inv r := by
  have hl : is ∈ s.live := hc ▸ h.placed c List.mem_cons_self
  refine h.change hl hi hsame hrefs (fun j hj => ?_) (hat ▸ hlocal) ?_ ?_ hreleased
  · have hcj : callsAt (c :: rest) j = callsAt rest j := callsAt_cons_of_ne (hc ▸ hj.symm)
    have hdj : ∀ l, callsAt (d :: l) j = callsAt l j := fun l => callsAt_cons_of_ne (hd ▸ hj.symm)
    rcases hcalls with hr | hr | hr <;> rw [hr]
    · rw [hdj, hcj]
    · rw [hdj, callsAt_wake_of_ne hj, hcj]
    · rw [callsAt_wake_of_ne hj, hcj]
  · rw [hqueue]
    exact h.queue.keep hq
  · rw [hqcount, hqueue]
    exact h.qcount

theorem Inv.local (h : Inv { s with calls := c :: rest }) (hc : c.on = is) :
    Local (s.istruct is) (s.refs is) (s.file is) s.fsIp is (c :: callsAt rest is) := by
  rw [← callsAt_cons hc]
  exact h.place is (hc ▸ h.placed c List.mem_cons_self)

theorem istructTry_inv (h : Inv { s with calls := .woken is :: s.calls }) :
    Gives (istructTry s is) (fun _ => False) Inv := by
  have hat : Local (s.istruct is) (s.refs is) (s.file is) s.fsIp is (.woken is :: callsAt s.calls is) := h.local rfl
  unfold istructTry
  split
  next hs =>
    refine h.advance is (x := s.istruct is) (d := .sleeping is) rfl rfl (Function.update_eq_self ..).symm rfl ⟨rfl, rfl, rfl⟩
      (fun _ _ => rfl) (.inl rfl) (callsAt_cons rfl) (hat.sleep hs) rfl rfl rfl
  next hs =>
    obtain ⟨q, hi, -, -, -⟩ := hat.memory hs
    rw [hi]
    refine h.advance is (x := s.istruct is) (d := .holding is q) rfl rfl (Function.update_eq_self ..).symm rfl
      ⟨rfl, rfl, rfl⟩ (fun _ _ => rfl) (.inl rfl) (callsAt_cons rfl) (hat.hold hs hi) rfl rfl rfl
  next hs =>
    refine h.advance is (d := .fetching is) rfl rfl rfl rfl ⟨rfl, rfl, rfl⟩ (fun _ _ => rfl) (.inl rfl)
      (callsAt_cons rfl) (hat.fetch hs) rfl rfl ?_
    rw [Istruct.away, Istruct.away, hs]
    rfl

theorem istructFetch_inv (h : Inv { s with calls := .fetching is :: s.calls }) :
    Gives (istructFetch s is p) (fun e => e = .disabled) Inv := by
  have hat : Local (s.istruct is) (s.refs is) (s.file is) s.fsIp is (.fetching is :: callsAt s.calls is) := h.local rfl
  obtain ⟨-, hi, -, hw, -⟩ := hat.worker rfl
  unfold istructFetch
  rw [hi]
  dsimp only
  split
  next hp =>
    refine h.advance is (x := s.istruct is) (d := .fetched is p) rfl rfl (Function.update_eq_self ..).symm rfl
      ⟨rfl, rfl, rfl⟩ (fun j hj => Function.update_of_ne hj ..) (.inl rfl) (callsAt_cons rfl)
      ?_ rfl rfl rfl
    dsimp only
    rw [Function.update_self]
    refine hat.progress rfl rfl rfl ⟨?_, hp⟩
    rw [show s.refs is = [] from hw]
  next => rfl

theorem istructFetched_inv (h : Inv { s with calls := .fetched is p :: s.calls }) : Inv (istructFetched s is p) := by
  have hat : Local (s.istruct is) (s.refs is) (s.file is) s.fsIp is (.fetched is p :: callsAt s.calls is) := h.local rfl
  obtain ⟨hs, -, -, -, -⟩ := hat.worker rfl
  refine h.advance is (d := .holding is p) rfl rfl rfl rfl ⟨rfl, rfl, rfl⟩ (fun _ _ => rfl) (.inr (.inl rfl))
    ((callsAt_cons rfl).trans (congrArg _ callsAt_wake)) hat.filled rfl rfl ?_
  · change s.istructReleased - 1 + _ = _
    rw [Istruct.away, Istruct.away, hs]
    simp

theorem release_inv (h : Inv { s with calls := .reclaiming is p :: s.calls }) : Inv { s with
    refs := Function.update s.refs is ((s.refs is).erase p)
    calls := .reclaimed is :: s.calls } := by
  have hat : Local (s.istruct is) (s.refs is) (s.file is) s.fsIp is (.reclaiming is p :: callsAt s.calls is) :=
    h.local rfl
  obtain ⟨-, -, -, hw, -⟩ := hat.worker rfl
  refine h.advance is (x := s.istruct is) (d := .reclaimed is) rfl rfl (Function.update_eq_self ..).symm rfl
    ⟨rfl, rfl, rfl⟩ (fun j hj => Function.update_of_ne hj ..) (.inl rfl) (callsAt_cons rfl)
    ?_ rfl rfl rfl
  dsimp only
  rw [Function.update_self]
  refine hat.progress rfl rfl rfl ?_
  rw [show s.refs is = [p] from hw]
  exact List.erase_cons_head ..

theorem reclaimNext_inv (h : Inv s) : Gives (reclaimNext qmax s) (fun _ => False) Inv := by
  unfold reclaimNext
  split
  next =>
    split
    next => exact h
    next is rest hqueue =>
      have hq : (s.istruct is).queued = true := (h.queue.mem_iff is).mp (hqueue ▸ List.mem_cons_self)
      have hl := h.inside is hq
      have hat := h.place is hl
      obtain ⟨-, hsw, -, hs⟩ := hat.quiet hq
      obtain ⟨p, hi, -, -, -⟩ := hat.memory hs
      rw [hi]
      have hlen := h.qcount
      refine h.change hl rfl ⟨rfl, rfl, rfl⟩ (fun _ _ => rfl) (fun j hj => callsAt_cons_of_ne hj.symm) ?_ ?_ ?_ ?_
      · rw [show callsAt (Call.reclaiming is p :: s.calls) is = .reclaiming is p :: callsAt s.calls is from
          callsAt_cons rfl]
        exact hat.reclaim hq hi
      · have hlow := h.queue.lower (x := is) (b := ⟨(s.istruct is).useCount, .busy, false, (s.istruct is).paging,
          (s.istruct is).swapfile, .fsIp (s.fsIp p)⟩) rfl
        rw [hqueue, List.erase_cons_head] at hlow
        exact hlow
      · dsimp only
        rw [hlen, hqueue, List.length_cons]
        omega
      · simp [Istruct.away, hs]
  next => exact h

theorem istructReclaimed_inv (h : Inv { s with calls := .reclaimed is :: s.calls }) :
    Gives (istructReclaimed qmax s is) (fun _ => False) Inv := by
  have hat : Local (s.istruct is) (s.refs is) (s.file is) s.fsIp is (.reclaimed is :: callsAt s.calls is) := h.local rfl
  obtain ⟨hs, -, -, -, -⟩ := hat.worker rfl
  refine reclaimNext_inv (h.advance is (d := .woken is) rfl rfl rfl rfl ⟨rfl, rfl, rfl⟩ (fun _ _ => rfl)
    (.inr (.inr rfl)) callsAt_wake hat.emptied rfl rfl ?_)
  rw [Istruct.away, Istruct.away, hs]
  rfl

@[simp] theorem istruct_setIstruct : (s.setIstruct is x).istruct is = x := Function.update_self ..

theorem enter_inv (h : Inv s) (hl : is ∈ s.live) :
    Inv { unqueue (s.setIstruct is { s.istruct is with useCount := (s.istruct is).useCount + 1 }) is with
      calls := .woken is :: s.calls } := by
  have hat := (h.place is hl).enter
  have hcalls : ∀ j, j ≠ is → callsAt (.woken is :: s.calls) j = callsAt s.calls j :=
    fun j hj => callsAt_cons_of_ne hj.symm
  have hself : callsAt (.woken is :: s.calls) is = .woken is :: callsAt s.calls is := callsAt_cons rfl
  unfold unqueue
  rw [istruct_setIstruct]
  dsimp only
  split
  next hq =>
    have hlen := h.queue.length_erase hq
    refine h.change hl (Function.update_idem ..) ⟨rfl, rfl, rfl⟩ (fun _ _ => rfl) hcalls (hself ▸ hat) ?_ ?_ rfl
    · exact h.queue.lower rfl
    · change s.istructQcount - 1 = ((s.istructQueue.erase is).length : Int)
      rw [h.qcount]
      omega
  next hq =>
    have hq : (s.istruct is).queued = false := Bool.eq_false_iff.mpr hq
    rw [← hq] at hat
    exact h.change hl rfl ⟨rfl, rfl, rfl⟩ (fun _ _ => rfl) hcalls (hself ▸ hat) (h.queue.keep rfl) h.qcount rfl

theorem istructGet_inv (h : Inv s) (hl : is ∈ s.live) : Gives (istructGet s is) (fun _ => False) Inv := by
  have hcalls : (unqueue (s.setIstruct is
      { s.istruct is with useCount := (s.istruct is).useCount + 1 }) is).calls = s.calls := by
    unfold unqueue
    split <;> rfl
  refine istructTry_inv ?_
  rw [hcalls]
  exact enter_inv h hl

theorem requeue_inv (h : Inv { s with calls := .holding is p :: s.calls }) :
    Inv (requeue (s.setIstruct is { s.istruct is with useCount := (s.istruct is).useCount - 1 }) is) := by
  have hat : Local (s.istruct is) (s.refs is) (s.file is) s.fsIp is (.holding is p :: callsAt s.calls is) := h.local rfl
  have hl : is ∈ s.live := h.placed (.holding is p) List.mem_cons_self
  have hcalls : ∀ j, j ≠ is → callsAt s.calls j = callsAt (.holding is p :: s.calls) j :=
    fun j hj => (callsAt_cons_of_ne (show (Call.holding is p).on ≠ j from hj.symm)).symm
  have hq : (s.istruct is).queued = false := hat.used_not_queued List.mem_cons_self rfl
  have hout : unqueue (s.setIstruct is { s.istruct is with useCount := (s.istruct is).useCount - 1 }) is =
      s.setIstruct is { s.istruct is with useCount := (s.istruct is).useCount - 1 } := by
    rw [unqueue, if_neg (by simp [hq])]
  have hstay : Inv (s.setIstruct is { s.istruct is with useCount := (s.istruct is).useCount - 1 }) := by
    refine h.change hl rfl ⟨rfl, rfl, rfl⟩ (fun _ _ => rfl) hcalls ?_ (h.queue.keep rfl) h.qcount rfl
    exact hat.leave fun hq' => absurd (hq.symm.trans hq') (by simp)
  unfold requeue
  rw [hout]
  simp only [istruct_setIstruct]
  split
  next hp =>
    split
    next hz =>
      obtain ⟨hpaging, hsw⟩ : (s.istruct is).paging = true ∧ (s.istruct is).swapfile = false := by simpa using hp
      refine h.change hl (Function.update_idem ..) ⟨rfl, rfl, rfl⟩ (fun _ _ => rfl) hcalls
        (hat.leave fun _ => ⟨hpaging, hsw, hz⟩) (h.queue.raise rfl hq) ?_ rfl
      change s.istructQcount + 1 = ((s.istructQueue ++ [is]).length : Int)
      rw [show s.istructQcount = s.istructQueue.length from h.qcount, List.length_append, List.length_singleton]
      omega
    next => exact hstay
  next => exact hstay

theorem istructPut_inv (h : Inv { s with calls := .holding is p :: s.calls }) :
    Gives (istructPut qmax s is) (fun _ => False) Inv := by
  have hat : Local (s.istruct is) (s.refs is) (s.file is) s.fsIp is (.holding is p :: callsAt s.calls is) := h.local rfl
  have huses := hat.uses
  rw [List.countP_cons_of_pos rfl] at huses
  unfold istructPut
  dsimp only
  rw [istruct_setIstruct, if_neg (by dsimp only; omega)]
  exact reclaimNext_inv (requeue_inv h)

theorem create_inv {b sw : Bool} {refs : List Inode} (h : Inv s) (hn : is ∉ s.live)
    (hr : refs = if sw then [] else [p]) :
    Inv { s with
      istruct := Function.update s.istruct is
        { useCount := 1, state := .inMemory, queued := false, paging := b, swapfile := sw, inode := .ip p }
      calls := .holding is p :: s.calls
      live := is :: s.live
      refs := Function.update s.refs is refs
      file := Function.update s.file is (s.fsIp p) } := by
  have hne : ∀ j ∈ s.live, j ≠ is := by
    rintro j hj rfl
    exact hn hj
  have hq : (s.istruct is).queued = false := Bool.eq_false_iff.mpr fun hq => hn (h.inside is hq)
  have hnone : callsAt s.calls is = [] := by
    refine List.eq_nil_iff_forall_not_mem.mpr fun c hc => ?_
    obtain ⟨hc, hon⟩ := mem_callsAt.mp hc
    exact hn (hon ▸ h.placed c hc)
  refine ⟨List.nodup_cons.mpr ⟨hn, h.live⟩, ?_, h.queue.keep hq.symm, fun j hj => ?_, h.qcount, ?_, fun j hj => ?_⟩
  · exact List.forall_mem_cons.mpr ⟨List.mem_cons_self, fun c hc => List.mem_cons_of_mem _ (h.placed c hc)⟩
  · by_cases hji : j = is
    · exact hji ▸ List.mem_cons_self
    · dsimp only at hj
      rw [Function.update_of_ne hji] at hj
      exact List.mem_cons_of_mem _ (h.inside j hj)
  · dsimp only
    rw [h.released, List.countP_cons_of_neg (by simp [Istruct.away])]
    exact congrArg _ (List.countP_congr fun j hj => by rw [Function.update_of_ne (hne j hj)])
  · dsimp only
    rcases List.mem_cons.mp hj with rfl | hj
    · rw [Function.update_self, Function.update_self, Function.update_self,
        show callsAt (Call.holding j p :: s.calls) j = [.holding j p] from
          (callsAt_cons rfl).trans (congrArg _ hnone)]
      exact .boot hr
    · have hji := hne j hj
      rw [Function.update_of_ne hji, Function.update_of_ne hji, Function.update_of_ne hji,
        show callsAt (Call.holding is p :: s.calls) j = callsAt s.calls j from callsAt_cons_of_ne hji.symm]
      exact h.place j hj

theorem istructFree_inv (h : Inv { s with calls := .holding is p :: s.calls }) (ho : ∀ c ∈ s.calls, c.on ≠ is) :
    Inv (istructFree s is p) := by
  have hat : Local (s.istruct is) (s.refs is) (s.file is) s.fsIp is (.holding is p :: callsAt s.calls is) := h.local rfl
  have hq : (s.istruct is).queued = false := hat.used_not_queued List.mem_cons_self rfl
  have hs := (hat.holding List.mem_cons_self).1
  have hl : is ∈ s.live := h.placed (.holding is p) List.mem_cons_self
  have hne : ∀ j ∈ s.live.erase is, j ≠ is ∧ j ∈ s.live := fun j hj => h.live.mem_erase_iff.mp hj
  have hout : unqueue s is = s := by rw [unqueue, if_neg (by simp [hq])]
  unfold istructFree
  rw [hout]
  refine ⟨h.live.erase _, fun c hc => ?_, h.queue, fun j hj => ?_, h.qcount, ?_, fun j hj => ?_⟩
  · exact h.live.mem_erase_iff.mpr ⟨ho c hc, h.placed c (List.mem_cons_of_mem _ hc)⟩
  · refine h.live.mem_erase_iff.mpr ⟨?_, h.inside j hj⟩
    rintro rfl
    exact absurd (hq.symm.trans hj) (by simp)
  · have hc := (List.perm_cons_erase hl).countP_eq fun j => (s.istruct j).away
    rw [List.countP_cons_of_neg (by simp [Istruct.away, hs])] at hc
    dsimp only
    rw [← hc]
    exact h.released
  · obtain ⟨hji, hj⟩ := hne j hj
    dsimp only
    rw [Function.update_of_ne hji]
    have := h.place j hj
    rwa [show callsAt (Call.holding is p :: s.calls) j = callsAt s.calls j from callsAt_cons_of_ne hji.symm] at this

theorem recycle_inv {id : FsIp} (h : Inv s) (hr : ∀ is ∈ s.live, p ∉ s.refs is ∧
    ((s.istruct is).swapfile = true → (s.istruct is).inode ≠ .ip p)) :
    Inv { s with fsIp := Function.update s.fsIp p id } := by
  refine { h with place := fun is hl => ?_ }
  have hat := h.place is hl
  obtain ⟨hp, hswap⟩ := hr is hl
  refine { hat with memory := fun hs => ?_, busy := fun hs => ?_ }
  · obtain ⟨q, hi, hf, href, hm⟩ := hat.memory hs
    have hne : q ≠ p := by
      rintro rfl
      cases hsw : (s.istruct is).swapfile with
      | false => exact hp (by rw [href, hsw]; simp)
      | true => exact hswap hsw hi
    exact ⟨q, hi, (Function.update_of_ne hne ..).trans hf, href, hm⟩
  · obtain ⟨h1, h2, w, h3, hw, h5⟩ := hat.busy hs
    refine ⟨h1, h2, w, h3, ?_, h5⟩
    cases w with
    | fetched j q =>
      obtain ⟨href, hf⟩ := hw
      have hne : q ≠ p := by
        rintro rfl
        exact hp (by rw [href]; simp)
      exact ⟨href, (Function.update_of_ne hne ..).trans hf⟩
    | _ => exact hw

end MachVM.Builtin.InodePager

namespace MachVM.Builtin.InodePager

open Mirror Machine

variable {s r : State} {is : IstructId} {c : Call} {p : Inode} {qmax : Int} {a : Action} {i : Nat}

/-- There are no structures at the start. -/
structure Start (s : State) : Prop where
  istructQueue : s.istructQueue = []
  istructQcount : s.istructQcount = 0
  istructReleased : s.istructReleased = 0
  calls : s.calls = []
  live : s.live = []
  queued : ∀ is, (s.istruct is).queued = false

/-- A structure is terminated when no other call is about it, and an inode in core becomes another one when it is not
in use. -/
def ok (s : State) : Action → Prop
  | .free i => ∀ is ip, s.calls[i]? = some (.holding is ip) → ∀ c ∈ s.calls.eraseIdx i, c.on ≠ is
  | .recycle ip _ => ∀ is ∈ s.live, ip ∉ s.refs is ∧ ((s.istruct is).swapfile = true → (s.istruct is).inode ≠ .ip ip)
  | _ => True

abbrev Reachable (qmax : Int) : State → Prop := Reach Start (fun s a => (step qmax s a).toOption) ok

theorem Start.inv (h : Start s) : Inv s := by
  obtain ⟨h1, h2, h3, h4, h5, h6⟩ := h
  refine ⟨by simp [h5], by simp [h4], ?_, fun is hq => absurd hq (by simp [h6]), by simp [h1, h2], by simp [h3, h5],
    by simp [h5]⟩
  rw [h1]
  exact mirrors_nil.congr fun is => by simp [h6]

theorem Inv.focus (h : Inv s) (hc : s.calls[i]? = some c) : Inv { s with calls := c :: s.calls.eraseIdx i } := by
  obtain ⟨hi, rfl⟩ := List.getElem?_eq_some_iff.mp hc
  exact h.perm (List.getElem_cons_eraseIdx_perm hi)

theorem step_gives (h : Inv s) (ha : ok s a) : Gives (step qmax s a) (fun e => e = .disabled) Inv := by
  cases a with
  | inodePagerCreate is ip paging =>
    rw [step]
    split
    next => rfl
    next hn => exact create_inv h hn rfl
  | pfPagerCreate is ip =>
    rw [step]
    split
    next => rfl
    next hn => exact create_inv h hn rfl
  | get is =>
    rw [step]
    split
    next hl => exact (istructGet_inv h hl).weaken fun _ => False.elim
    next => rfl
  | resume i =>
    rw [step]
    split
    next is hc => exact (istructTry_inv (h.focus hc)).weaken fun _ => False.elim
    next => rfl
  | iget i ip =>
    rw [step]
    split
    next is hc => exact istructFetch_inv (h.focus hc)
    next => rfl
  | fetched i =>
    rw [step]
    split
    next is ip hc => exact istructFetched_inv (h.focus hc)
    next => rfl
  | put i =>
    rw [step]
    split
    next is ip hc => exact (istructPut_inv (h.focus hc)).weaken fun _ => False.elim
    next => rfl
  | releaseInode i =>
    rw [step]
    split
    next is ip hc => exact release_inv (s := { s with calls := s.calls.eraseIdx i }) (h.focus hc)
    next => rfl
  | reclaimed i =>
    rw [step]
    split
    next is hc => exact (istructReclaimed_inv (h.focus hc)).weaken fun _ => False.elim
    next => rfl
  | free i =>
    rw [step]
    split
    next is ip hc => exact istructFree_inv (h.focus hc) (ha is ip hc)
    next => rfl
  | recycle ip id => exact recycle_inv h ha

theorem reachable_inv (h : Reachable qmax s) : Inv s :=
  h.invariant (fun _ hs => hs.inv) fun _ _ _ hi ha hr => (step_gives hi ha).of_ok (toOption_eq_some hr)

/-- The reclaim list and the inodes of the structures in every order of the sections under the lock. -/
theorem istruct_lru (h : Reachable qmax s) :
    (s.istructQueue.Nodup ∧ ∀ is, is ∈ s.istructQueue ↔ (s.istruct is).queued = true) ∧
    (∀ is ∈ s.istructQueue, is ∈ s.live ∧ (s.istruct is).paging = true ∧ (s.istruct is).swapfile = false ∧
      (s.istruct is).useCount = 0 ∧ (s.istruct is).state = .inMemory) ∧
    s.istructQcount = s.istructQueue.length ∧
    s.istructReleased = s.live.countP (fun is => (s.istruct is).state ≠ .inMemory) ∧
    (∀ is ip, .holding is ip ∈ s.calls → is ∈ s.live ∧ (s.istruct is).state = .inMemory ∧
      (s.istruct is).inode = .ip ip ∧ ((s.istruct is).swapfile = false → s.refs is = [ip])) ∧
    (∀ is ∈ s.live, ((s.istruct is).state = .inMemory → ∃ ip, (s.istruct is).inode = .ip ip ∧
        s.fsIp ip = s.file is ∧ s.refs is = if (s.istruct is).swapfile then [] else [ip]) ∧
      ((s.istruct is).state = .out → (s.istruct is).inode = .fsIp (s.file is) ∧ s.refs is = [])) ∧
    (∀ is, .sleeping is ∈ s.calls → (s.istruct is).state = .busy) ∧
    ∀ a, ok s a → ∀ e, step qmax s a = .error e → e = .disabled := by
  have hi := reachable_inv h
  have hat : ∀ c ∈ s.calls, Local (s.istruct c.on) (s.refs c.on) (s.file c.on) s.fsIp c.on (callsAt s.calls c.on) ∧
      c ∈ callsAt s.calls c.on := fun c hc => ⟨hi.place c.on (hi.placed c hc), mem_callsAt.mpr ⟨hc, rfl⟩⟩
  refine ⟨⟨hi.queue.nodup, hi.queue.mem_iff⟩, fun is hq => ?_, hi.qcount, ?_, fun is ip hc => ?_, fun is hl => ⟨fun hs => ?_,
    fun hs => ?_⟩, fun is hc => ?_, fun a ha e he => (step_gives hi ha).of_error he⟩
  · have hq := (hi.queue.mem_iff is).mp hq
    exact ⟨hi.inside is hq, (hi.place is (hi.inside is hq)).quiet hq⟩
  · exact hi.released
  · obtain ⟨hl, hin⟩ := hat _ hc
    obtain ⟨h1, h2, -, h4, -⟩ := hl.holding hin
    exact ⟨hi.placed _ hc, h1, h2, fun hsw => by rw [if_neg (by simp [Call.on, hsw])] at h4; exact h4⟩
  · obtain ⟨ip, h1, h2, h3, -⟩ := (hi.place is hl).memory hs
    exact ⟨ip, h1, h2, h3⟩
  · obtain ⟨h1, h2, -, -⟩ := (hi.place is hl).out hs
    exact ⟨h1, h2⟩
  · obtain ⟨hl, hin⟩ := hat _ hc
    exact hl.sleeping_busy hin

def bootState : State where
  istruct _ := ⟨0, .out, false, false, false, .ip 0⟩
  istructQueue := []
  istructQcount := 0
  istructReleased := 0
  calls := []
  fsIp ip := ⟨0, 0, ip⟩
  live := []
  refs _ := []
  file _ := ⟨0, 0, 0⟩

theorem bootState_reachable : Reachable qmax bootState := .start ⟨rfl, rfl, rfl, rfl, rfl, fun _ => rfl⟩

/-- A structure for inode 5 is put on a list that may be only of length zero and is given back. -/
def releasedState : State :=
  (runIf (fun s a => (step 0 s a).toOption) (fun _ _ => True) bootState
    [.inodePagerCreate 1 5 true, .put 0, .releaseInode 0, .reclaimed 0]).getD bootState

theorem releasedState_reachable : Reachable 0 releasedState := by
  have h1 : Reachable 0 _ := bootState_reachable.next (a := .inodePagerCreate 1 5 true) trivial rfl
  have h2 : Reachable 0 _ := h1.next (a := .put 0) trivial rfl
  have h3 : Reachable 0 _ := h2.next (a := .releaseInode 0) trivial rfl
  exact h3.next (a := .reclaimed 0) trivial rfl

theorem releasedState_out : releasedState.istructReleased = 1 ∧ releasedState.refs 1 = [] := by
  obtain ⟨-, -, -, hr, -, hplace, -⟩ := istruct_lru releasedState_reachable
  exact ⟨hr.trans (by decide), ((hplace 1 (by decide)).2 (by decide)).2⟩

/-- A structure for a paging file is in memory without a reference to its inode. -/
theorem swapfile_without_reference : ¬∀ qmax s, Reachable qmax s → ∀ is ∈ s.live, (s.istruct is).state = .inMemory →
    ∃ ip, (s.istruct is).inode = .ip ip ∧ s.refs is = [ip] := by
  intro hall
  have h1 : Reachable 0 (pfPagerCreate bootState 1 5) :=
    bootState_reachable.next (a := .pfPagerCreate 1 5) trivial rfl
  obtain ⟨ip, -, href⟩ := hall 0 _ h1 1 (by decide) (by decide)
  exact absurd href (by simp [pfPagerCreate])

end MachVM.Builtin.InodePager
