import MachVM.Resident

namespace MachVM

open Mirror

theorem vmPageInsert_table {s t : VmState} {mem : PageId} {o : ObjId} {off : VmOffset}
    (h : TableInv s) (hl : vmPageLookup s o off = none)
    (hi : vmPageInsert s mem o off = some t) : TableInv t := by
  unfold vmPageInsert at hi
  split at hi
  next => simp at hi
  next ht =>
    have hfresh := (vmPageLookup_eq_none h).mp hl
    cases Option.some.inj hi
    constructor
    · intro b
      by_cases hb : b = vmPageHash s.hashMask o off
      · subst b
        simp only [VmState.setObject, VmState.setBucket, setPage_page, Function.update_self, queueEnter]
        apply (h.bucket _).append
        · simp [ht]
        · intro p
          by_cases hp : p = mem
          · subst p; simp [VmState.setPage]
          · simp [VmState.setPage, hp]
      · have hbq : (Function.update s.bucket (vmPageHash s.hashMask o off)
            (queueEnter (s.bucket (vmPageHash s.hashMask o off)) mem)) b = s.bucket b := by
          simp [hb]
        simp only [VmState.setObject, VmState.setBucket, VmState.setPage, hbq]
        apply (h.bucket b).congr
        intro p
        by_cases hp : p = mem
        · subst p; simp [ht, hb]
        · simp [hp]
    · intro x
      by_cases hx : x = o
      · subst x
        simp only [setObject_object, Function.update_self, queueEnter]
        apply (h.memq o).append
        · simp [ht]
        · intro p
          by_cases hp : p = mem
          · subst p; simp [VmState.setPage, VmState.setObject, VmState.setBucket]
          · simp [VmState.setPage, VmState.setObject, VmState.setBucket, hp]
      · simp only [setObject_object, Function.update_of_ne hx]
        apply (h.memq x).congr
        intro p
        by_cases hp : p = mem
        · subst p; simp [VmState.setPage, VmState.setObject, VmState.setBucket, ht, Ne.symm hx]
        · simp [VmState.setPage, VmState.setObject, VmState.setBucket, hp]
    · intro x
      by_cases hx : x = o
      · subst x; simp [queueEnter, h.count o]
      · simp [VmState.setPage, VmState.setBucket, hx, h.count x]
    · intro p
      by_cases hp : p = mem
      · subst p; simp [VmState.setPage, VmState.setObject, VmState.setBucket]
      · simpa [VmState.setPage, VmState.setObject, VmState.setBucket, hp] using h.owned p
    · intro p q
      simp only [VmState.setPage, VmState.setObject, VmState.setBucket]
      by_cases hp : p = mem <;> by_cases hq : q = mem
      · intros; rw [hp, hq]
      · subst p
        simp only [Function.update_self, Function.update_of_ne hq]
        intro _ hqt hqo hqf
        exact absurd ⟨hqt, hqo.symm, hqf.symm⟩ (hfresh q)
      · subst q
        simp only [Function.update_self, Function.update_of_ne hp]
        intro hpt _ hpo hpf
        exact absurd ⟨hpt, hpo, hpf⟩ (hfresh p)
      · simp only [Function.update_of_ne hp, Function.update_of_ne hq]
        exact h.unique p q

theorem vmPageInsert_page {s t : VmState} {mem : PageId} {o : ObjId} {off : VmOffset}
    (hi : vmPageInsert s mem o off = some t) :
    (s.page mem).tabled = false ∧ t.page = Function.update s.page mem
      { s.page mem with object := some o, offset := off, tabled := true } := by
  unfold vmPageInsert at hi
  split at hi
  next => simp at hi
  next ht =>
    cases Option.some.inj hi
    exact ⟨by simpa using ht, rfl⟩

theorem vmPageInsert_queues {s t : VmState} {mem : PageId} {o : ObjId} {off : VmOffset}
    (h : QueueInv s) (hi : vmPageInsert s mem o off = some t) : QueueInv t := by
  have hp := (vmPageInsert_page hi).2
  unfold vmPageInsert at hi
  split at hi
  next => simp at hi
  next ht =>
    cases Option.some.inj hi
    refine QueueInv.congr h ?_ rfl rfl rfl rfl rfl rfl
    intro p
    rw [hp]
    by_cases he : p = mem
    · subst p; simp
    · simp [he]

theorem vmPageRemove_of_untabled {s : VmState} {mem : PageId} (h : (s.page mem).tabled = false) :
    vmPageRemove s mem = s := by
  unfold vmPageRemove
  simp [h]

theorem vmPageRemove_page {s : VmState} (h : TableInv s) (mem : PageId) :
    (vmPageRemove s mem).page = Function.update s.page mem { s.page mem with tabled := false } := by
  by_cases ht : (s.page mem).tabled = true
  · obtain ⟨o, ho⟩ := Option.ne_none_iff_exists'.mp (h.owned mem ht)
    unfold vmPageRemove
    simp [ht, ho, VmState.setPage, VmState.setObject, VmState.setBucket]
  · have ht : (s.page mem).tabled = false := by simpa using ht
    rw [vmPageRemove_of_untabled ht]
    funext p
    by_cases hp : p = mem
    · subst p; rw [Function.update_self, ← ht]
    · simp [hp]

theorem vmPageRemove_table {s : VmState} (h : TableInv s) (mem : PageId) :
    TableInv (vmPageRemove s mem) := by
  by_cases ht : (s.page mem).tabled = true
  swap
  · rw [vmPageRemove_of_untabled (by simpa using ht)]; exact h
  obtain ⟨o, ho⟩ := Option.ne_none_iff_exists'.mp (h.owned mem ht)
  have hpage := vmPageRemove_page h mem
  have htab : ∀ p, ((vmPageRemove s mem).page p).tabled = true ↔ (s.page p).tabled = true ∧ p ≠ mem := by
    intro p
    rw [hpage]
    by_cases hp : p = mem
    · subst p; simp
    · simp [hp]
  have hob : ∀ p, ((vmPageRemove s mem).page p).object = (s.page p).object ∧
      ((vmPageRemove s mem).page p).offset = (s.page p).offset := by
    intro p
    rw [hpage]
    by_cases hp : p = mem
    · subst p; simp
    · simp [hp]
  have hbucket : (vmPageRemove s mem).bucket = Function.update s.bucket
      (vmPageHash s.hashMask o (s.page mem).offset)
      ((s.bucket (vmPageHash s.hashMask o (s.page mem).offset)).erase mem) := by
    unfold vmPageRemove
    simp [ht, ho, VmState.setPage, VmState.setObject, queueRemove]
  have hobj : (vmPageRemove s mem).object = Function.update s.object o
      { s.object o with
        memq := (s.object o).memq.erase mem, residentPageCount := (s.object o).residentPageCount - 1 } := by
    unfold vmPageRemove
    simp [ht, ho, VmState.setPage, VmState.setBucket, queueRemove]
  have hmask : (vmPageRemove s mem).hashMask = s.hashMask := by
    unfold vmPageRemove
    simp [ht, ho, VmState.setPage, VmState.setBucket, VmState.setObject]
  constructor
  · intro b
    rw [hbucket, hmask]
    by_cases hb : b = vmPageHash s.hashMask o (s.page mem).offset
    · subst b
      simp only [Function.update_self]
      apply (h.bucket _).erase
      intro p
      rw [htab, (hob p).1, (hob p).2]
      tauto
    · simp only [Function.update_of_ne hb]
      apply (h.bucket b).congr
      intro p
      rw [htab, (hob p).1, (hob p).2]
      constructor
      · rintro ⟨hpt, x, hx, hxb⟩
        refine ⟨⟨hpt, ?_⟩, x, hx, hxb⟩
        rintro rfl
        rw [ho] at hx
        cases Option.some.inj hx
        exact hb hxb
      · rintro ⟨⟨hpt, _⟩, hx⟩
        exact ⟨hpt, hx⟩
  · intro x
    rw [hobj]
    by_cases hx : x = o
    · subst x
      simp only [Function.update_self]
      apply (h.memq o).erase
      intro p
      rw [htab, (hob p).1]
      tauto
    · simp only [Function.update_of_ne hx]
      apply (h.memq x).congr
      intro p
      rw [htab, (hob p).1]
      constructor
      · rintro ⟨hpt, hpo⟩
        refine ⟨⟨hpt, ?_⟩, hpo⟩
        rintro rfl
        rw [ho] at hpo
        exact hx (Option.some.inj hpo).symm
      · rintro ⟨⟨hpt, _⟩, hpo⟩
        exact ⟨hpt, hpo⟩
  · intro x
    rw [hobj]
    by_cases hx : x = o
    · subst x
      have hlen := (h.memq o).length_erase ⟨ht, ho⟩
      simp only [Function.update_self, h.count o]
      omega
    · simp only [Function.update_of_ne hx, h.count x]
  · intro p hp
    rw [(hob p).1]
    exact h.owned p ((htab p).mp hp).1
  · intro p q hp hq
    rw [(hob p).1, (hob p).2, (hob q).1, (hob q).2]
    exact h.unique p q ((htab p).mp hp).1 ((htab q).mp hq).1

theorem vmPageRemove_queues {s : VmState} (ht : TableInv s) (h : QueueInv s) (mem : PageId) :
    QueueInv (vmPageRemove s mem) := by
  have hpage := vmPageRemove_page ht mem
  have hframe : (vmPageRemove s mem).queueFree = s.queueFree ∧
      (vmPageRemove s mem).queueActive = s.queueActive ∧
      (vmPageRemove s mem).queueInactive = s.queueInactive ∧
      (vmPageRemove s mem).freeCount = s.freeCount ∧
      (vmPageRemove s mem).activeCount = s.activeCount ∧
      (vmPageRemove s mem).inactiveCount = s.inactiveCount := by
    simp only [vmPageRemove]
    split <;> exact ⟨rfl, rfl, rfl, rfl, rfl, rfl⟩
  obtain ⟨hf, ha, hi, hfc, hac, hic⟩ := hframe
  refine QueueInv.congr h ?_ hf ha hi hfc hac hic
  intro p
  rw [hpage]
  by_cases hp : p = mem
  · subst p; simp
  · simp [hp]

end MachVM

namespace MachVM

open Mirror

section OneQueue

variable {s t : VmState} {mem : PageId} {p : VmPage}

theorem QueueInv.replace (h : QueueInv s) (ht : t.page = Function.update s.page mem p)
    (hfree : Mirrors t.queueFree fun q => (t.page q).free = true)
    (hactive : Mirrors t.queueActive fun q => (t.page q).active = true)
    (hinactive : Mirrors t.queueInactive fun q => (t.page q).inactive = true)
    (hfc : t.freeCount = t.queueFree.length) (hac : t.activeCount = t.queueActive.length)
    (hic : t.inactiveCount = t.queueInactive.length)
    (hidle : p.free = true → p.active = false ∧ p.inactive = false)
    (halone : p.active = true → p.inactive = false)
    (hwired : p.wireCount ≠ 0 → p.active = false ∧ p.inactive = false) : QueueInv t where
  free := hfree
  active := hactive
  inactive := hinactive
  freeCount := hfc
  activeCount := hac
  inactiveCount := hic
  free_idle q := by
    rw [ht]
    by_cases hq : q = mem
    · subst q; simpa using hidle
    · simpa [hq] using h.free_idle q
  active_alone q := by
    rw [ht]
    by_cases hq : q = mem
    · subst q; simpa using halone
    · simpa [hq] using h.active_alone q
  wired q := by
    rw [ht]
    by_cases hq : q = mem
    · subst q; simpa using hwired
    · simpa [hq] using h.wired q

theorem leaveActive_queues (h : QueueInv s) (ha : (s.page mem).active = true) :
    QueueInv (leaveActive s mem) := by
  have hlen := h.active.length_erase ha
  have hcount := h.activeCount
  refine QueueInv.replace h rfl (h.free.keep rfl) (h.active.lower rfl) (h.inactive.keep rfl)
    h.freeCount ?_ h.inactiveCount (fun hf => ⟨rfl, (h.free_idle mem hf).2⟩) nofun
    (fun hw => ⟨rfl, (h.wired mem hw).2⟩)
  simp only [leaveActive, queueRemove]
  omega

theorem leaveInactive_queues (h : QueueInv s) (hi : (s.page mem).inactive = true) :
    QueueInv (leaveInactive s mem) := by
  have hlen := h.inactive.length_erase hi
  have hcount := h.inactiveCount
  refine QueueInv.replace h rfl (h.free.keep rfl) (h.active.keep rfl) (h.inactive.lower rfl)
    h.freeCount h.activeCount ?_ (fun hf => ⟨(h.free_idle mem hf).1, rfl⟩) (fun _ => rfl)
    (fun hw => ⟨(h.wired mem hw).1, rfl⟩)
  simp only [leaveInactive, queueRemove]
  omega

theorem enterActive_queues (h : QueueInv s) (hf : (s.page mem).free = false)
    (ha : (s.page mem).active = false) (hi : (s.page mem).inactive = false)
    (hw : (s.page mem).wireCount = 0) : QueueInv (enterActive s mem) := by
  refine QueueInv.replace h rfl (h.free.keep rfl) (h.active.raise rfl ha) (h.inactive.keep rfl)
    h.freeCount ?_ h.inactiveCount ?_ (fun _ => hi) (fun hn => absurd hw hn)
  · simp [enterActive, queueEnter, h.activeCount]
  · intro hft
    simp [hf] at hft

theorem enterInactive_queues (h : QueueInv s) (hf : (s.page mem).free = false)
    (ha : (s.page mem).active = false) (hi : (s.page mem).inactive = false)
    (hw : (s.page mem).wireCount = 0) : QueueInv (enterInactive s mem) := by
  refine QueueInv.replace h rfl (h.free.keep rfl) (h.active.keep rfl) (h.inactive.raise rfl hi)
    h.freeCount h.activeCount ?_ ?_ ?_ (fun hn => absurd hw hn)
  · simp [enterInactive, queueEnter, h.inactiveCount]
  · intro hft
    simp [hf] at hft
  · intro hat
    simp [ha] at hat

theorem enterFree_queues (h : QueueInv s) (hf : (s.page mem).free = false)
    (ha : (s.page mem).active = false) (hi : (s.page mem).inactive = false) :
    QueueInv (enterFree s mem) := by
  refine QueueInv.replace h rfl (h.free.raise rfl hf) (h.active.keep rfl) (h.inactive.keep rfl)
    ?_ h.activeCount h.inactiveCount (fun _ => ⟨ha, hi⟩) (fun _ => hi) (fun _ => ⟨ha, hi⟩)
  simp [enterFree, queueEnter, h.freeCount]

theorem QueueInv.takeFree (h : QueueInv s) (hf : (s.page mem).free = true)
    (hpf : p.free = false) (hpa : p.active = false) (hpi : p.inactive = false) :
    QueueInv { s.setPage mem p with
      queueFree := queueRemove s.queueFree mem, freeCount := s.freeCount - 1 } := by
  have hidle := h.free_idle mem hf
  have hlen := h.free.length_erase hf
  have hcount := h.freeCount
  refine QueueInv.replace h rfl (h.free.lower hpf) (h.active.keep (hpa.trans hidle.1.symm))
    (h.inactive.keep (hpi.trans hidle.2.symm)) ?_ h.activeCount h.inactiveCount
    (fun _ => ⟨hpa, hpi⟩) (fun _ => hpi) (fun _ => ⟨hpa, hpi⟩)
  simp only [queueRemove]
  omega

end OneQueue

theorem ResidentInv.retable {s t : VmState} (h : ResidentInv s) (hq : QueueInv t) {mem : PageId}
    {p : VmPage} (hp : t.page = Function.update s.page mem p) (hb : t.bucket = s.bucket)
    (hm : t.hashMask = s.hashMask)
    (ho : ∀ o, (t.object o).memq = (s.object o).memq ∧
      (t.object o).residentPageCount = (s.object o).residentPageCount)
    (ht : p.tabled = (s.page mem).tabled ∧ p.object = (s.page mem).object ∧
      p.offset = (s.page mem).offset)
    (hf : p.free = true → p.tabled = false) : ResidentInv t := by
  refine ⟨hq, TableInv.congr h.table ?_ hb hm ho, ?_⟩
  · intro q
    rw [hp]
    by_cases hqm : q = mem
    · subst q; simpa using ht
    · simp [hqm]
  · intro q
    rw [hp]
    by_cases hqm : q = mem
    · subst q; simpa using hf
    · simpa [hqm] using h.free_untabled q

section OneQueue

variable {s : VmState} {mem : PageId}

theorem leaveActive_resident (h : ResidentInv s) (ha : (s.page mem).active = true) :
    ResidentInv (leaveActive s mem) :=
  h.retable (leaveActive_queues h.queues ha) rfl rfl rfl (fun _ => ⟨rfl, rfl⟩) ⟨rfl, rfl, rfl⟩
    (h.free_untabled mem)

theorem leaveInactive_resident (h : ResidentInv s) (hi : (s.page mem).inactive = true) :
    ResidentInv (leaveInactive s mem) :=
  h.retable (leaveInactive_queues h.queues hi) rfl rfl rfl (fun _ => ⟨rfl, rfl⟩) ⟨rfl, rfl, rfl⟩
    (h.free_untabled mem)

theorem enterActive_resident (h : ResidentInv s) (hf : (s.page mem).free = false)
    (ha : (s.page mem).active = false) (hi : (s.page mem).inactive = false)
    (hw : (s.page mem).wireCount = 0) : ResidentInv (enterActive s mem) :=
  h.retable (enterActive_queues h.queues hf ha hi hw) rfl rfl rfl (fun _ => ⟨rfl, rfl⟩)
    ⟨rfl, rfl, rfl⟩ (h.free_untabled mem)

theorem enterInactive_resident (h : ResidentInv s) (hf : (s.page mem).free = false)
    (ha : (s.page mem).active = false) (hi : (s.page mem).inactive = false)
    (hw : (s.page mem).wireCount = 0) : ResidentInv (enterInactive s mem) :=
  h.retable (enterInactive_queues h.queues hf ha hi hw) rfl rfl rfl (fun _ => ⟨rfl, rfl⟩)
    ⟨rfl, rfl, rfl⟩ (h.free_untabled mem)

theorem enterFree_resident (h : ResidentInv s) (hf : (s.page mem).free = false)
    (ha : (s.page mem).active = false) (hi : (s.page mem).inactive = false)
    (ht : (s.page mem).tabled = false) : ResidentInv (enterFree s mem) :=
  h.retable (enterFree_queues h.queues hf ha hi) rfl rfl rfl (fun _ => ⟨rfl, rfl⟩)
    ⟨rfl, rfl, rfl⟩ (fun _ => ht)

end OneQueue

theorem vmPageQueuesRemove_page (s : VmState) (mem : PageId) :
    (vmPageQueuesRemove s mem).page =
      Function.update s.page mem { s.page mem with active := false, inactive := false } := by
  have hself : ∀ p : VmPage, p.active = false → p.inactive = false →
      { p with active := false, inactive := false } = p := by
    intro p ha hi
    cases p
    simp_all
  unfold vmPageQueuesRemove
  cases ha : (s.page mem).active with
  | false =>
    cases hi : (s.page mem).inactive with
    | false => simp [hi, hself _ ha hi]
    | true => simp [hi, leaveInactive, ha]
  | true =>
    cases hi : (s.page mem).inactive with
    | false => simp [hi, leaveActive]
    | true => simp [hi, leaveActive, leaveInactive]

theorem vmPageQueuesRemove_resident {s : VmState} (h : ResidentInv s) (mem : PageId) :
    ResidentInv (vmPageQueuesRemove s mem) := by
  unfold vmPageQueuesRemove
  cases ha : (s.page mem).active with
  | true =>
    have hi : ((leaveActive s mem).page mem).inactive = false := by
      simpa [leaveActive] using h.queues.active_alone mem ha
    simpa [hi] using leaveActive_resident h ha
  | false =>
    cases hi : (s.page mem).inactive with
    | true => simpa [hi] using leaveInactive_resident h hi
    | false => simpa [hi] using h

end MachVM
