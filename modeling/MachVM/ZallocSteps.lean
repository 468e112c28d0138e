import MachVM.Zalloc

namespace MachVM.Kern.Zalloc

open Words Owns

variable {c : Config} {k : ZoneId → Nat} {free : ZoneId → List Nat} {s r : ZState} {t u : ThreadId} {z y : ZoneId}
  {e x n : Nat}

theorem ZInv.handOut (h : ZInv c k free s) (hn : (s.zone z).freeElements ≠ 0) :
    ∃ free', ZInv c k free' { (removeFromZone s z).2 with out := (z, (removeFromZone s z).1) :: s.out } := by
  obtain ⟨l, hl, hlink⟩ := h.first_free hn
  rw [removeFromZone, if_pos hn]
  set e := (s.zone z).freeElements with he
  have hnd := h.freeNodup z
  rw [hl] at hnd
  have hel : e ∉ l := (List.nodup_cons.mp hnd).1
  have hmem : e ∈ free z := hl ▸ List.mem_cons_self
  have hout : (z, e) ∉ s.out := by
    intro ho
    have := h.owns _ _ e (h.out_first ho) (h.free_first hmem)
    cases this
  refine ⟨Function.update free z l, fun y => ?_, h.sized,
    h.owns.split (a := .free z e) (b := .out z e) ?_ ?_ ?_, fun y => ?_, fun y => ?_,
    List.nodup_cons.mpr ⟨hout, h.outNodup⟩, fun y => ?_, h.window, h.bounds, h.space⟩
  · show (Function.update s.zone z _ y).elemSize = k y
    by_cases hyz : y = z
    · subst hyz
      rw [Function.update_self]
      exact h.size y
    · rw [Function.update_of_ne hyz]
      exact h.size y
  · intro x hx
    exact ⟨hmem, hx.2⟩
  · intro p x hp hx
    cases p with
    | out y f =>
      refine ⟨(List.mem_cons.mp hx.1).resolve_left fun hc => hp ?_, hx.2⟩
      rw [(Prod.mk.inj hc).1, (Prod.mk.inj hc).2]
    | free y f =>
      refine ⟨?_, hx.2⟩
      by_cases hyz : y = z
      · subst hyz
        have hf := hx.1
        rw [Function.update_self] at hf
        exact hl ▸ List.mem_cons_of_mem e hf
      · have hf := hx.1
        rwa [Function.update_of_ne hyz] at hf
    | window => exact hx
    | hand t => exact hx
    | result t => exact hx
    | wild => exact hx
  · intro x hx _
    have hf := hx.1
    rw [Function.update_self] at hf
    exact hel hf
  · show Linked s.mem (Function.update s.zone z _ y).freeElements (Function.update free z l y)
    by_cases hyz : y = z
    · subst hyz
      rw [Function.update_self, Function.update_self]
      exact hlink
    · rw [Function.update_of_ne hyz, Function.update_of_ne hyz]
      exact h.linked y
  · by_cases hyz : y = z
    · subst hyz
      rw [Function.update_self]
      exact (List.nodup_cons.mp hnd).2
    · rw [Function.update_of_ne hyz]
      exact h.freeNodup y
  · show (Function.update s.zone z _ y).count = _
    have hc := h.count y
    rw [List.countP_cons]
    by_cases hyz : y = z
    · subst hyz
      rw [Function.update_self]
      simp only [decide_true, if_true]
      omega
    · rw [Function.update_of_ne hyz]
      have hzy : z ≠ y := fun hc => hyz hc.symm
      simp only [decide_eq_true_eq, if_neg hzy]
      omega

theorem ZInv.free_apart {p : Piece} (h : ZInv c k free s) (hp : ∀ y f, p ≠ .free y f)
    (ho : ∀ i < n, Zalloc.owns k free s p (e + i)) (y : ZoneId) (f : Nat) (hf : f ∈ free y) (i : Nat) (hi : i < 4)
    (j : Nat) (hj : j < n) : f + i ≠ e + j := by
  intro hc
  have hs := h.sized y
  have hfree : Zalloc.owns k free s (.free y f) (f + i) := ⟨hf, by show f ≤ f + i; omega, by show f + i < f + k y; omega⟩
  exact hp y f (h.owns _ _ (e + j) (ho j hj) (hc ▸ hfree))

theorem ZInv.pushed {p : Piece} (h : ZInv c k free s) (hp : ∀ y f, p ≠ .free y f) (hw : p ≠ .wild)
    (ho : ∀ x, Inside x (e, k z) → Zalloc.owns k free s p x) (y : ZoneId) :
    Linked (store32 s.mem e (s.zone z).freeElements) (if y = z then e else (s.zone y).freeElements)
      (Function.update free z (e :: free z) y) ∧ (Function.update free z (e :: free z) y).Nodup := by
  have hk := h.sized z
  have hbytes : ∀ i < 4, Zalloc.owns k free s p (e + i) := fun i hi =>
    ho _ ⟨by show e ≤ e + i; omega, by show e + i < e + k z; omega⟩
  have hne := (h.addr_bounds hw (hbytes 0 (by omega))).1
  have hapart := fun y' f hf i hi j hj => h.free_apart hp hbytes y' f hf i hi j hj
  have hhead : (s.zone z).freeElements < 2 ^ 32 := by
    by_cases hz : (s.zone z).freeElements = 0
    · omega
    · obtain ⟨l, hl, _⟩ := h.first_free hz
      have hm : (s.zone z).freeElements ∈ free z := by
        rw [hl]
        exact List.mem_cons_self
      exact (h.addr_bounds (by simp) (h.free_first hm)).2
  by_cases hyz : y = z
  · subst hyz
    rw [Function.update_self, if_pos rfl]
    refine ⟨(h.linked y).push hhead (by omega) (hapart y), List.nodup_cons.mpr ⟨fun hm => ?_, h.freeNodup y⟩⟩
    exact hapart y e hm 0 (by omega) 0 (by omega) rfl
  · rw [Function.update_of_ne hyz, if_neg hyz]
    refine ⟨(h.linked y).congr fun f hf i hi => ?_, h.freeNodup y⟩
    exact store32_of_ne fun j hj => hapart y f hf i hi j hj

theorem zone_update (s : ZState) (z : ZoneId) (a : Zone) (y : ZoneId) :
    (Function.update s.zone z a y).freeElements = (if y = z then a.freeElements else (s.zone y).freeElements) ∧
    (Function.update s.zone z a y).elemSize = (if y = z then a.elemSize else (s.zone y).elemSize) ∧
    (Function.update s.zone z a y).count = if y = z then a.count else (s.zone y).count := by
  rw [Function.update_apply]
  split <;> exact ⟨rfl, rfl, rfl⟩

theorem countP_erase_out {l : List (ZoneId × Nat)} (hm : (z, e) ∈ l) (y : ZoneId) :
    ((l.erase (z, e)).countP fun q => q.1 = y : Int) = (l.countP fun q => q.1 = y) - if y = z then 1 else 0 := by
  have hp := (List.perm_cons_erase hm).countP_eq fun q => decide (q.1 = y)
  rw [List.countP_cons] at hp
  by_cases hyz : y = z
  · subst hyz
    simp only [decide_true, if_true] at hp
    rw [if_pos rfl]
    omega
  · have hzy : z ≠ y := fun hc => hyz hc.symm
    simp only [decide_eq_true_eq, if_neg hzy] at hp
    rw [if_neg hyz]
    omega

theorem ZInv.zfree (h : ZInv c k free s) (hm : (z, e) ∈ s.out) : ∃ free', ZInv c k free' (zfree s z e) := by
  have hpush := h.pushed (p := .out z e) (by simp) (by simp) fun x hx => ⟨hm, hx⟩
  refine ⟨Function.update free z (e :: free z), fun y => ?_, h.sized,
    h.owns.split (a := .out z e) (b := .free z e) (fun x hx => ⟨hm, hx.2⟩) ?_ ?_, fun y => ?_, fun y => (hpush y).2,
    h.outNodup.erase _, fun y => ?_, h.window, h.bounds, h.space⟩
  · show (Function.update s.zone z _ y).elemSize = k y
    rw [(zone_update s z _ y).2.1]
    split
    next hyz => exact hyz ▸ h.size z
    next => exact h.size y
  · intro p x hp hx
    cases p with
    | out y f => exact ⟨List.mem_of_mem_erase hx.1, hx.2⟩
    | free y f =>
      refine ⟨?_, hx.2⟩
      have hf := hx.1
      by_cases hyz : y = z
      · subst hyz
        rw [Function.update_self] at hf
        exact (List.mem_cons.mp hf).resolve_left fun hc => hp (by rw [hc])
      · rwa [Function.update_of_ne hyz] at hf
    | window => exact hx
    | hand t => exact hx
    | result t => exact hx
    | wild => exact hx
  · intro x hx _
    exact ((h.outNodup.mem_erase_iff).mp hx.1).1 rfl
  · show Linked (store32 s.mem e (s.zone z).freeElements) (Function.update s.zone z _ y).freeElements _
    rw [(zone_update s z _ y).1]
    exact (hpush y).1
  · show (Function.update s.zone z _ y).count = ((s.out.erase (z, e)).countP fun q => q.1 = y : Int)
    rw [(zone_update s z _ y).2.2, countP_erase_out hm, ← h.count]
    split
    next hyz =>
      subst hyz
      rfl
    next => omega

theorem ZInv.cramElement {mem size : Nat} (h : ZInv c k free s) (hp : s.thread t = .cramming z mem size)
    (hs : k z ≤ size) : ∃ free', ZInv c k free' ((cramElement s z mem).setPhase t (.cramming z (mem + k z) (size - k z))) := by
  have hhand : (s.thread t).hand k = some (mem, size) := by rw [hp]; rfl
  have hk := h.sized z
  have hin : ∀ x, Inside x (mem, k z) → Zalloc.owns k free s (.hand t) x := by
    intro x hx
    obtain ⟨h1, h2⟩ : mem ≤ x ∧ x < mem + k z := hx
    exact ⟨_, hhand, h1, by show x < mem + size; omega⟩
  have hpush := h.pushed (p := .hand t) (by simp) (by simp) hin
  have hzone : ∀ y, (Zalloc.cramElement s z mem).zone y =
      if y = z then { s.zone z with freeElements := mem } else s.zone y := by
    intro y
    simp only [Zalloc.cramElement, addToZone, ZState.setZone, Function.update_self, Function.update_idem]
    rw [Function.update_apply]
    split
    · congr 1
      omega
    · rfl
  refine ⟨Function.update free z (mem :: free z), fun y => ?_, h.sized,
    h.owns.split (a := .hand t) (b := .free z mem) (fun x hx => hin x hx.2) ?_ ?_, fun y => ?_,
    fun y => (hpush y).2, h.outNodup, fun y => ?_, h.window, h.bounds, fun u y new hu => ?_⟩
  · show ((Zalloc.cramElement s z mem).zone y).elemSize = k y
    rw [hzone]
    split
    next hyz => exact hyz ▸ h.size z
    next => exact h.size y
  · intro p x hne hx
    cases p with
    | out y f => exact hx
    | free y f =>
      refine ⟨?_, hx.2⟩
      have hf := hx.1
      by_cases hyz : y = z
      · subst hyz
        rw [Function.update_self] at hf
        exact (List.mem_cons.mp hf).resolve_left fun hc => hne (by rw [hc])
      · rwa [Function.update_of_ne hyz] at hf
    | window => exact hx
    | hand u =>
      obtain ⟨q, hq, h1, h2⟩ := hx
      rw [thread_setPhase] at hq
      split at hq
      next hut =>
        subst hut
        cases Option.some.inj hq
        refine ⟨_, hhand, ?_, ?_⟩
        · show mem ≤ x
          have : mem + k z ≤ x := h1
          omega
        · show x < mem + size
          have : x < mem + k z + (size - k z) := h2
          omega
      next => exact ⟨q, hq, h1, h2⟩
    | result u =>
      obtain ⟨y, f, hq, hi⟩ := hx
      rw [thread_setPhase] at hq
      split at hq
      next => simp [Phase.result] at hq
      next => exact ⟨y, f, hq, hi⟩
    | wild => exact hx
  · rintro x ⟨q, hq, h1, _⟩ hf
    rw [thread_setPhase, if_pos rfl] at hq
    cases Option.some.inj hq
    have h1 : mem + k z ≤ x := h1
    have h2 : x < mem + k z := hf.2.2
    omega
  · show Linked (store32 s.mem mem (s.zone z).freeElements) ((Zalloc.cramElement s z mem).zone y).freeElements _
    rw [hzone]
    have hl := (hpush y).1
    split
    next hyz => rwa [if_pos hyz] at hl
    next hyz => rwa [if_neg hyz] at hl
  · show ((Zalloc.cramElement s z mem).zone y).count = _
    rw [hzone]
    split
    next hyz => exact hyz ▸ h.count z
    next => exact h.count y
  · rw [thread_setPhase] at hu
    split at hu
    next => simp at hu
    next => exact h.space u y new hu

end MachVM.Kern.Zalloc

namespace MachVM.Kern.Zalloc

open Words Owns

variable {c : Config} {k : ZoneId → Nat} {free : ZoneId → List Nat} {s r : ZState} {t u : ThreadId} {z y : ZoneId}
  {a e x n new : Nat}

theorem ZInv.obtain {p : Phase} (h : ZInv c k free s) (hf : ∀ q ∈ s.got, n = 0 ∨ q.2 = 0 ∨ a + n ≤ q.1 ∨ q.1 + q.2 ≤ a)
    (hb : 0 < a ∧ a + n < 2 ^ 32) (hp : p.hand k = some (a, n)) (hr : p.result = none)
    (hs : ∀ z new, p = .haveSpace z new → new ≠ 0 ∧ new + spaceToAdd (k z) ≤ c.limit) :
    ZInv c k free ({ s with got := (a, n) :: s.got }.setPhase t p) := by
  refine ⟨h.size, h.sized, h.owns.split (a := .wild) (b := .hand t) ?_ ?_ ?_, h.linked, h.freeNodup, h.outNodup,
    h.count, h.window, fun q hq => ?_, fun u z new hu => ?_⟩
  · rintro x ⟨q, hq, h1, h2⟩ g hg ⟨h3, h4⟩
    rw [thread_setPhase, if_pos rfl, hp] at hq
    cases Option.some.inj hq
    have h1 : a ≤ x := h1
    have h2 : x < a + n := h2
    have := hf g hg
    omega
  · intro q x hne hx
    cases q with
    | out y f => exact hx
    | free y f => exact hx
    | window => exact hx
    | hand u =>
      obtain ⟨g, hg, hi⟩ := hx
      have hut : u ≠ t := fun hc => hne (by rw [hc])
      rw [thread_setPhase, if_neg hut] at hg
      exact ⟨g, hg, hi⟩
    | result u =>
      obtain ⟨y, f, hg, hi⟩ := hx
      rw [thread_setPhase] at hg
      split at hg
      next => simp [hr] at hg
      next => exact ⟨y, f, hg, hi⟩
    | wild => exact fun g hg => hx g (List.mem_cons_of_mem _ hg)
  · rintro x hx ⟨q, hq, hi⟩
    rw [thread_setPhase, if_pos rfl, hp] at hq
    cases Option.some.inj hq
    exact hx _ List.mem_cons_self hi
  · rcases List.mem_cons.mp hq with rfl | hq
    · exact hb
    · exact h.bounds q hq
  · rw [thread_setPhase] at hu
    split at hu
    next => exact hs z new hu
    next => exact h.space u z new hu

theorem ZInv.no_wrap (h : ZInv c k free s) (z : ZoneId) :
    (s.nextSpace + (s.zone z).elemSize) % 2 ^ 32 = s.nextSpace + k z := by
  have h1 := h.window
  have h2 := h.sized z
  rw [h.size z]
  omega

theorem ZInv.takeSpace (h : ZInv c k free s) (hn : noSpace s (s.zone z).elemSize = false)
    (hnew : ∀ q, (if new ≠ 0 then some (new, spaceToAdd (k z)) else none) = some q → (s.thread t).hand k = some q) :
    ZInv c k free (takeSpace s t z new) := by
  have hwrap := h.no_wrap z
  rw [noSpace, hwrap, decide_eq_false_iff_not] at hn
  unfold Zalloc.takeSpace
  dsimp only
  rw [hwrap]
  set p := if new ≠ 0 then Phase.giveBack z s.nextSpace new else .counting z s.nextSpace with hp
  have hhand : p.hand k = if new ≠ 0 then some (new, spaceToAdd (k z)) else none := by
    rw [hp]
    split <;> rfl
  have hres : p.result = some (z, s.nextSpace) := by
    rw [hp]
    split <;> rfl
  have hw := h.window
  refine ⟨h.size, h.sized, h.owns.split (a := .window) (b := .result t) ?_ ?_ ?_, h.linked, h.freeNodup, h.outNodup,
    h.count, ⟨by show s.nextSpace + k z ≤ s.endOfSpace; omega, h.window.2⟩, h.bounds, fun u z new hu => ?_⟩
  · rintro x ⟨y, f, hq, h1, h2⟩
    rw [thread_setPhase, if_pos rfl, hres] at hq
    cases Option.some.inj hq
    have h1 : s.nextSpace ≤ x := h1
    have h2 : x < s.nextSpace + k z := h2
    exact ⟨h1, by omega⟩
  · intro q x hne hx
    cases q with
    | out y f => exact hx
    | free y f => exact hx
    | window =>
      have h1 : s.nextSpace + k z ≤ x := hx.1
      exact ⟨by omega, hx.2⟩
    | hand u =>
      obtain ⟨g, hg, hi⟩ := hx
      rw [thread_setPhase] at hg
      split at hg
      next hut =>
        rw [hhand] at hg
        exact ⟨g, hut ▸ hnew g hg, hi⟩
      next => exact ⟨g, hg, hi⟩
    | result u =>
      obtain ⟨y, f, hg, hi⟩ := hx
      have hut : u ≠ t := fun hc => hne (by rw [hc])
      rw [thread_setPhase, if_neg hut] at hg
      exact ⟨y, f, hg, hi⟩
    | wild => exact hx
  · rintro x ⟨h1, _⟩ ⟨y, f, hq, _, h2⟩
    rw [thread_setPhase, if_pos rfl, hres] at hq
    cases Option.some.inj hq
    have h1 : s.nextSpace + k z ≤ x := h1
    have h2 : x < s.nextSpace + k z := h2
    omega
  · rw [thread_setPhase] at hu
    split at hu
    next =>
      rw [hp] at hu
      split at hu
      · simp at hu
      · simp at hu
    next => exact h.space u z new hu

theorem ZInv.addSpace {p : Phase} (h : ZInv c k free s) (hp : s.thread t = .haveSpace z new)
    (hq : p.hand k = none ∧ p.result = none) :
    ZInv c k free ((addSpace s new (spaceToAdd (k z))).setPhase t p) := by
  have hhand : (s.thread t).hand k = some (new, spaceToAdd (k z)) := by rw [hp]; rfl
  have hle := (h.space t z new hp).2
  have hw := h.window
  have hz := h.sized z
  have hend : (new + spaceToAdd (k z)) % 2 ^ 32 = new + spaceToAdd (k z) := Nat.mod_eq_of_lt (by omega)
  unfold Zalloc.addSpace
  rw [hend]
  refine ⟨h.size, h.sized, h.owns.merge (a := .hand t) (b := .window) ?_ ?_ ?_, h.linked, h.freeNodup, h.outNodup,
    h.count, ⟨?_, hle⟩, h.bounds, fun u z new hu => ?_⟩
  · rintro x ⟨h1, h2⟩
    have h2 : x < new + spaceToAdd (k z) := h2
    have h1 : (if new ≠ s.endOfSpace then new else s.nextSpace) ≤ x := h1
    by_cases hx : x < new
    · split at h1
      · omega
      · exact .inl ⟨h1, by omega⟩
    · exact .inr ⟨_, hhand, by show new ≤ x; omega, h2⟩
  · intro q x hne hx
    cases q with
    | out y f => exact hx
    | free y f => exact hx
    | window => exact absurd rfl hne
    | hand u =>
      obtain ⟨g, hg, hi⟩ := hx
      rw [thread_setPhase] at hg
      split at hg
      next => simp [hq.1] at hg
      next => exact ⟨g, hg, hi⟩
    | result u =>
      obtain ⟨y, f, hg, hi⟩ := hx
      rw [thread_setPhase] at hg
      split at hg
      next => simp [hq.2] at hg
      next => exact ⟨y, f, hg, hi⟩
    | wild => exact hx
  · rintro x ⟨g, hg, _⟩
    rw [thread_setPhase, if_pos rfl, hq.1] at hg
    simp at hg
  · show (if new ≠ s.endOfSpace then new else s.nextSpace) ≤ new + spaceToAdd (k z)
    split <;> omega
  · rw [thread_setPhase] at hu
    split at hu
    next => simp [hu, Phase.hand] at hq
    next => exact h.space u z new hu

theorem ZInv.giveBack (h : ZInv c k free s) (hp : s.thread t = .giveBack z e new) :
    ZInv c k free ({ s with got := s.got.erase (new, spaceToAdd (s.zone z).elemSize) }.setPhase t (.counting z e)) := by
  have hhand : (s.thread t).hand k = some (new, spaceToAdd (k z)) := by rw [hp]; rfl
  rw [h.size z]
  refine ⟨h.size, h.sized, h.owns.merge (a := .hand t) (b := .wild) ?_ ?_ ?_, h.linked, h.freeNodup, h.outNodup,
    h.count, h.window, fun q hq => h.bounds q (List.mem_of_mem_erase hq), fun u z new hu => ?_⟩
  · intro x hx
    by_cases hi : Inside x (new, spaceToAdd (k z))
    · exact .inr ⟨_, hhand, hi⟩
    · refine .inl fun q hq hc => ?_
      by_cases hqn : q = (new, spaceToAdd (k z))
      · exact hi (hqn ▸ hc)
      · exact hx q ((List.mem_erase_of_ne hqn).mpr hq) hc
  · intro q x hne hx
    cases q with
    | out y f => exact hx
    | free y f => exact hx
    | window => exact hx
    | hand u =>
      obtain ⟨g, hg, hi⟩ := hx
      rw [thread_setPhase] at hg
      split at hg
      next => simp [Phase.hand] at hg
      next => exact ⟨g, hg, hi⟩
    | result u =>
      obtain ⟨y, f, hg, hi⟩ := hx
      rw [thread_setPhase] at hg
      split at hg
      next hut =>
        cases Option.some.inj hg
        exact ⟨z, e, by rw [hut, hp]; rfl, hi⟩
      next => exact ⟨y, f, hg, hi⟩
    | wild => exact absurd rfl hne
  · rintro x ⟨g, hg, _⟩
    rw [thread_setPhase, if_pos rfl] at hg
    simp [Phase.hand] at hg
  · rw [thread_setPhase] at hu
    split at hu
    next => simp at hu
    next => exact h.space u z new hu

theorem ZInv.countElement (h : ZInv c k free s) (hp : s.thread t = .counting z e)
    (hr : countElement s t z e = some r) : ZInv c k free r := by
  unfold Zalloc.countElement at hr
  dsimp only at hr
  split at hr
  next => simp at hr
  next =>
    cases Option.some.inj hr
    have hk := h.sized z
    have hres : (s.thread t).result = some (z, e) := by rw [hp]; rfl
    have hbyte : Zalloc.owns k free s (.result t) e := ⟨z, e, hres, by show e ≤ e; omega, by show e < e + k z; omega⟩
    have hout : (z, e) ∉ s.out := by
      intro ho
      have := h.owns _ _ e (h.out_first ho) hbyte
      cases this
    have hzone := zone_update s z { s.zone z with
      count := (s.zone z).count + 1, curSize := ((s.zone z).curSize + (s.zone z).elemSize) % 2 ^ 32 }
    refine ⟨fun y => ?_, h.sized, h.owns.split (a := .result t) (b := .out z e) ?_ ?_ ?_, fun y => ?_, h.freeNodup,
      List.nodup_cons.mpr ⟨hout, h.outNodup⟩, fun y => ?_, h.window, h.bounds, fun u z new hu => ?_⟩
    · show (Function.update s.zone z _ y).elemSize = k y
      rw [(hzone y).2.1]
      split
      next hyz => exact hyz ▸ h.size z
      next => exact h.size y
    · intro x hx
      exact ⟨z, e, hres, hx.2⟩
    · intro q x hne hx
      cases q with
      | out y f =>
        refine ⟨(List.mem_cons.mp hx.1).resolve_left fun hc => hne ?_, hx.2⟩
        rw [(Prod.mk.inj hc).1, (Prod.mk.inj hc).2]
      | free y f => exact hx
      | window => exact hx
      | hand u =>
        obtain ⟨g, hg, hi⟩ := hx
        rw [thread_setPhase] at hg
        split at hg
        next => simp [Phase.hand] at hg
        next => exact ⟨g, hg, hi⟩
      | result u =>
        obtain ⟨y, f, hg, hi⟩ := hx
        rw [thread_setPhase] at hg
        split at hg
        next => simp [Phase.result] at hg
        next => exact ⟨y, f, hg, hi⟩
      | wild => exact hx
    · rintro x ⟨y, f, hg, _⟩
      rw [thread_setPhase, if_pos rfl] at hg
      simp [Phase.result] at hg
    · show Linked s.mem (Function.update s.zone z _ y).freeElements (free y)
      rw [(hzone y).1]
      split
      next hyz => exact hyz ▸ h.linked z
      next => exact h.linked y
    · show (Function.update s.zone z _ y).count = ((z, e) :: s.out).countP fun q => q.1 = y
      rw [(hzone y).2.2, List.countP_cons]
      have hc := h.count y
      split
      next hyz =>
        subst hyz
        simp only [decide_true, if_true]
        omega
      next hyz =>
        have hzy : z ≠ y := fun hc => hyz hc.symm
        simp only [decide_eq_true_eq, if_neg hzy]
        omega
    · rw [thread_setPhase] at hu
      split at hu
      next => simp at hu
      next => exact h.space u z new hu

end MachVM.Kern.Zalloc
