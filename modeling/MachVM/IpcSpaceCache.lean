import MachVM.IpcSpaceActions
import MachVM.IpcSpaceMoves

namespace MachVM.Ipc.Space

/-- The translation that a cache line stands for. -/
def Translates (s : SState) (t : TaskId) (l : CacheLine) : Prop :=
  ∃ e x, s.entry e = some x ∧ x.task = some t ∧ x.name = l.name ∧ x.obj = l.object ∧ x.type ≠ .set

/-- A valid line is in its place, its task is active, and the task has the translation. `kernels`
says that the task may be one of the kernel. -/
structure LineOk (kernels : Prop) (s : SState) (t : TaskId) (i : UInt32) : Prop where
  index : objCacheIndex (s.cache t i).name = i
  active : (s.task t).active = true
  space : kernels ∨ (s.task t).kernelSpace = false
  entry : Translates s t (s.cache t i)

def CacheOk (kernels : Prop) (s : SState) : Prop :=
  ∀ t i, (s.cache t i).name ≠ 0 → LineOk kernels s t i

variable {orphans kernels : Prop} {s r : SState} {t u : TaskId} {o : KernObjId} {e : EntryId}
  {n : PortName} {x : Entry} {i : UInt32} {l : CacheLine}

theorem LineOk.keep (h : LineOk kernels s t i) (hl : r.cache t i = s.cache t i)
    (ht : r.task t = s.task t) (he : Translates s t (s.cache t i) → Translates r t (s.cache t i)) :
    LineOk kernels r t i where
  index := by rw [hl]; exact h.index
  active := by rw [ht]; exact h.active
  space := by rw [ht]; exact h.space
  entry := by rw [hl]; exact he h.entry

theorem Translates.update {w : Option Entry} (h : Translates s t l)
    (hne : ∀ x, s.entry e = some x → x.task = some t → x.name = l.name → x.obj = l.object → x.type ≠ .set →
      ∃ z, w = some z ∧ z.task = some t ∧ z.name = l.name ∧ z.obj = l.object ∧ z.type ≠ .set) :
    Translates (s.setEntry e w) t l := by
  obtain ⟨f, x, hx, ht, hn, ho, hp⟩ := h
  by_cases hf : f = e
  · subst hf
    obtain ⟨z, rfl, hz⟩ := hne x hx ht hn ho hp
    exact ⟨f, z, by simp [SState.setEntry], hz⟩
  · exact ⟨f, x, by simpa [SState.setEntry, hf] using hx, ht, hn, ho, hp⟩

theorem flush_line (s : SState) (t : TaskId) (n : PortName) (u : TaskId) (i : UInt32)
    (hv : ((objCacheFlush s t n).cache u i).name ≠ 0) :
    (objCacheFlush s t n).cache u i = s.cache u i ∧
      ((objCacheIndex (s.cache u i).name = i) → ¬(u = t ∧ (s.cache u i).name = n)) := by
  unfold objCacheFlush at hv ⊢
  split at hv
  next hhit =>
    rw [if_pos hhit]
    by_cases hu : u = t
    · subst hu
      by_cases hi : i = objCacheIndex n
      · subst hi
        simp [SState.setLine, noLine] at hv
      · refine ⟨by simp [SState.setLine, hi], ?_⟩
        rintro hidx ⟨_, rfl⟩
        exact hi hidx.symm
    · refine ⟨by simp [SState.setLine, hu], ?_⟩
      rintro _ ⟨ht, _⟩
      exact hu ht
  next hhit =>
    rw [if_neg hhit]
    refine ⟨rfl, ?_⟩
    rintro hidx ⟨rfl, rfl⟩
    exact hhit (by rw [hidx])

theorem CacheOk.flush {q : SState} (h : CacheOk kernels s) (hc : q.cache = s.cache)
    (ht : q.task = s.task) (hq : ∀ u l, ¬(u = t ∧ l.name = n) → Translates s u l → Translates q u l) :
    CacheOk kernels (objCacheFlush q t n) := by
  intro u i hv
  obtain ⟨hl, hne⟩ := flush_line q t n u i hv
  rw [hl, hc] at hv
  have hok := h u i hv
  rw [hc] at hne
  have htr := hq u _ (hne hok.index) hok.entry
  constructor
  · rw [hl, hc]; exact hok.index
  · rw [objCacheFlush_task, ht]; exact hok.active
  · rw [objCacheFlush_task, ht]; exact hok.space
  · rw [hl, hc]
    obtain ⟨f, x, hx, hrest⟩ := htr
    exact ⟨f, x, by rw [objCacheFlush_entry]; exact hx, hrest⟩

theorem CacheOk.congr (h : CacheOk kernels s) (hc : r.cache = s.cache)
    (ht : ∀ t, (r.task t).active = (s.task t).active ∧ (r.task t).kernelSpace = (s.task t).kernelSpace)
    (he : ∀ t l, Translates s t l → Translates r t l) : CacheOk kernels r := by
  intro t i hv
  rw [hc] at hv
  have hok := h t i hv
  constructor
  · rw [hc]; exact hok.index
  · rw [(ht t).1]; exact hok.active
  · rw [(ht t).2]; exact hok.space
  · rw [hc]; exact he t _ hok.entry

theorem CacheOk.frame (h : CacheOk kernels s) (hc : r.cache = s.cache) (ht : r.task = s.task)
    (he : r.entry = s.entry) : CacheOk kernels r := by
  apply h.congr hc (fun t => by rw [ht]; exact ⟨rfl, rfl⟩)
  intro t l htr
  simpa only [Translates, he] using htr

theorem CacheOk.remove (h : CacheOk kernels s) (hx : s.entry e = some x) (ht : x.task = some t) :
    CacheOk kernels (objEntryRemove s t e x) := by
  refine h.flush rfl rfl ?_
  intro u l hne htr
  apply htr.update
  intro y hy hyt hyn
  cases Option.some.inj (hx.symm.trans hy)
  exact absurd ⟨Option.some.inj (hyt.symm.trans ht), hyn.symm⟩ hne

theorem CacheOk.dealloc (h : CacheOk kernels s) (hx : s.entry e = some x) (ht : x.task = none) :
    CacheOk kernels (objEntryDealloc s e x.obj) := by
  refine h.congr rfl (fun _ => ⟨rfl, rfl⟩) ?_
  intro u l htr
  apply htr.update
  intro y hy hyt
  cases Option.some.inj (hx.symm.trans hy)
  rw [ht] at hyt
  cases hyt

theorem CacheOk.set (h : CacheOk kernels s) (hx : s.entry e = some x) (ht : x.task = some t)
    (hp : x.type ≠ .set) (ha : (s.task t).active = true)
    (hk : kernels ∨ (s.task t).kernelSpace = false) :
    CacheOk kernels (objCacheSet s t x.name x.obj) := by
  intro u i hv
  by_cases hi : u = t ∧ i = objCacheIndex x.name
  · obtain ⟨rfl, rfl⟩ := hi
    have hl : (objCacheSet s u x.name x.obj).cache u (objCacheIndex x.name) = ⟨x.name, x.obj⟩ := by
      simp [objCacheSet, SState.setLine]
    constructor
    · rw [hl]
    · exact ha
    · exact hk
    · rw [hl]
      exact ⟨e, x, hx, ht, rfl, rfl, hp⟩
  · have hl : (objCacheSet s t x.name x.obj).cache u i = s.cache u i := by
      by_cases hu : u = t
      · subst hu
        have hne : i ≠ objCacheIndex x.name := fun he => hi ⟨rfl, he⟩
        simp [objCacheSet, SState.setLine, hne]
      · simp [objCacheSet, SState.setLine, hu]
    rw [hl] at hv
    exact (h u i hv).keep hl rfl id

theorem CacheOk.move (h : CacheOk kernels s) (hm : Move orphans kernels s r) : CacheOk kernels r := by
  cases hm with
  | insert he =>
    refine h.congr rfl (fun _ => ⟨rfl, rfl⟩) ?_
    intro u l htr
    apply htr.update
    intro y hy
    rw [he] at hy
    cases hy
  | @detach e t x hx ht =>
    exact (h.remove hx ht).dealloc (x := { x with task := none }) (removed_entry s t e x) rfl
  | orphan _ hx ht => exact h.remove hx ht
  | reap hx ht => exact h.dealloc hx ht
  | retype hx _ hnew =>
    refine h.congr rfl (fun _ => ⟨rfl, rfl⟩) ?_
    intro u l htr
    apply htr.update
    intro y hy hyt hyn hyo _
    cases Option.some.inj (hx.symm.trans hy)
    exact ⟨_, rfl, hyt, hyn, hyo, hnew⟩
  | change hx ht =>
    refine h.flush rfl rfl ?_
    intro u l hne htr
    apply htr.update
    intro y hy hyt hyn
    cases Option.some.inj (hx.symm.trans hy)
    exact absurd ⟨Option.some.inj (hyt.symm.trans ht), hyn.symm⟩ hne
  | setObj | fresh | send | consume | serve => exact h.frame rfl rfl rfl
  | giveUp | shutDown =>
    unfold portDestroy
    split
    · exact h.frame rfl rfl rfl
    · exact h.frame rfl rfl rfl
  | cache hx ht hp ha hk => exact h.set hx ht hp ha hk
  | @nextName t =>
    refine h.congr rfl ?_ fun _ _ htr => htr
    intro u
    by_cases hu : u = t
    · subst hu; simp [SState.setTask]
    · simp [SState.setTask, hu]
  | @task t =>
    intro u i hv
    by_cases hu : u = t
    · subst hu
      simp [noLine] at hv
    · have hl : (Function.update s.cache t fun _ => noLine) u i = s.cache u i := by simp [hu]
      have hv : (s.cache u i).name ≠ 0 := by rw [← hl]; exact hv
      exact (h u i hv).keep hl (by simp [SState.setTask, hu]) id

theorem CacheOk.moves (h : CacheOk kernels s) (hm : Relation.ReflTransGen (Move orphans kernels) s r) :
    CacheOk kernels r := by
  induction hm with
  | refl => exact h
  | tail _ hm ih => exact ih.move hm

end MachVM.Ipc.Space

namespace MachVM.Ipc.Space

open Mirror

variable {orphans kernels : Prop} {s r : SState} {t : TaskId} {o : KernObjId} {e : EntryId}
  {n : PortName} {a : Action}

theorem line_port (h : SpaceInv s) (hc : CacheOk kernels s)
    (hhit : (s.cache t (objCacheIndex n)).name = n) :
    n = 0 ∨ (s.obj (s.cache t (objCacheIndex n)).object).isSet = false := by
  by_cases hn : n = 0
  · exact .inl hn
  · obtain ⟨e, x, hx, _, _, ho, hp⟩ := (hc t (objCacheIndex n) (by rw [hhit]; exact hn)).entry
    rw [← ho]
    exact .inr (kind_of_port h hx hp)

theorem step_moves (h : SpaceInv s) (hc : CacheOk kernels s) (ho : orphans ∨ Prompt s a)
    (hk : kernels ∨ UserReply s a) (hr : step s a = some r) : Moves orphans kernels s r := by
  cases a with
  | taskInit t k => exact task_moves (.inl hr)
  | taskTerminate t => exact task_moves (k := true) (.inr hr)
  | portAlloc t o e => exact objAlloc_moves h hr
  | setAlloc t o e => exact objAlloc_moves h hr
  | copyin t n rights d =>
    obtain ⟨e, x, hx, ht, _, hr⟩ := objectCopyin_cases h.tables hr
    exact copyinEntry_moves h hx ht hr
  | copyinFromKernel t o rights d =>
    obtain ⟨_, hp, rfl⟩ | ⟨e, x, hx, ht, _, hr⟩ := objectCopyinFromKernel_cases h.tables hr
    · exact .single (.send hp)
    · exact copyinEntry_moves h hx ht hr
  | headerCopyin t n =>
    obtain ⟨⟨o, r'⟩, hq, rfl⟩ := Option.map_eq_some_iff.mp hr
    exact objCacheCopyin_moves h (line_port h hc) hq
  | copyout i t e => exact objectCopyout_moves h hr
  | replyCopyout i t e => exact replyCopyout_moves h hk hr
  | destroy i => exact objectDestroy_moves hr
  | rename t old new => exact portRename_moves h.tables hr
  | insertSend t o n e => exact portInsertSend_moves hr
  | insertReceive i t n e => exact portInsertReceive_moves h hr
  | dealloc t o => exact portDealloc_moves h ho hr
  | setDestroy t e => exact setDestroy_moves hr
  | destroyRights o => exact objDestroyRights_moves h hr
  | receive t n =>
    obtain ⟨⟨o, r'⟩, hq, rfl⟩ := Option.map_eq_some_iff.mp hr
    exact msgReceiveTrap_moves h.tables hq
  | setBackup t n b => exact portSetBackup_moves hr
  | reference o => exact count_moves (.inl hr)
  | release o => exact count_moves (.inr (.inl hr))
  | joinSet o => exact count_moves (.inr (.inr (.inl hr)))
  | leaveSet o => exact count_moves (.inr (.inr (.inr hr)))

/-- The states of the runs whose every operation satisfies a condition. -/
inductive Reach (ok : SState → Action → Prop) : SState → Prop
  | start : Reach ok SState.empty
  | next {s r : SState} {a : Action} (h : Reach ok s) (ha : ok s a) (hr : step s a = some r) : Reach ok r

/-- Every operation is allowed. -/
def Any : SState → Action → Prop := fun _ _ => True

theorem Reach.any {ok : SState → Action → Prop} (h : Reach ok s) : Reach Any s := by
  induction h with
  | start => exact .start
  | next _ _ hr ih => exact .next ih trivial hr

theorem reach_run {ok : SState → Action → Prop} {as : List Action} (hok : ∀ a ∈ as, ∀ s, ok s a)
    (h : Reach ok s) (hr : run as s = some r) : Reach ok r := by
  induction as generalizing s with
  | nil =>
    cases Option.some.inj hr
    exact h
  | cons a as ih =>
    obtain ⟨u, hu, hr⟩ := Option.bind_eq_some_iff.mp hr
    exact ih (fun b hb => hok b (List.mem_cons_of_mem a hb)) (.next h (hok a List.mem_cons_self s) hu) hr

theorem spaceInv_empty : SpaceInv SState.empty where
  tables :=
    { task := fun _ => mirrors_nil.congr fun _ => by simp [SState.empty, onTask]
      obj := fun _ => mirrors_nil.congr fun _ => by simp [SState.empty, onObj]
      tp := fun _ => mirrors_nil.congr fun _ => by simp [SState.empty, tpKey, rightKey]
      tl := fun _ => mirrors_nil.congr fun _ => by simp [SState.empty, tlKey, nameKey]
      rights := fun _ _ _ h => by simp [SState.empty, rightKey] at h
      names := fun _ _ _ h => by simp [SState.empty, nameKey] at h
      named := fun _ _ h => by cases h }
  refs := fun _ => by simp [surplus, unheld, attached, inTransit, SState.empty]
  kinds := fun _ _ h => by cases h
  ports := fun _ h => by cases h

theorem cacheOk_empty : CacheOk kernels SState.empty := fun _ _ h => absurd rfl h

theorem reach_inv {ok : SState → Action → Prop} (hk : kernels ∨ ∀ s a, ok s a → UserReply s a)
    (h : Reach ok s) : SpaceInv s ∧ CacheOk kernels s := by
  induction h with
  | start => exact ⟨spaceInv_empty, cacheOk_empty⟩
  | next _ ha hr ih =>
    have hm : Moves True kernels _ _ :=
      step_moves ih.1 ih.2 (.inl trivial) (hk.imp_right fun hk => hk _ _ ha) hr
    exact ⟨ih.1.moves hm, ih.2.moves hm⟩

theorem reach_space {ok : SState → Action → Prop} (h : Reach ok s) : SpaceInv s ∧ CacheOk True s :=
  reach_inv (.inl trivial) h

end MachVM.Ipc.Space
