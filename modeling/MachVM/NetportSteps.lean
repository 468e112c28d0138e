import MachVM.Netport

namespace MachVM.Ipc.Netport

open Tally

variable {s : Net} {l k : List Section} {x : Section} {e f rp lp : EntryId} {y : Entry} {m : MsgId} {t : Trid}
  {c : Code} {n : NetworkPort} {p : KernPort}

theorem uses_of_table (he : e ∈ s.table) : 0 < s.uses l e := by
  have := List.count_pos_iff.mpr he
  unfold Net.uses
  omega

theorem uses_of_holds (hx : x ∈ l) (he : e ∈ x.holds) : 0 < s.uses l e := by
  have := List.count_pos_iff.mpr (List.mem_flatMap.mpr ⟨x, hx, he⟩)
  unfold Net.uses
  omega

attribute [local simp] Section.holds Section.marks Section.sends Section.trids Section.msgs Section.links
  Section.detaches Section.Stored

theorem links_subset_holds (he : e ∈ l.flatMap Section.links) : e ∈ l.flatMap Section.holds := by
  obtain ⟨x, hx, he⟩ := List.mem_flatMap.mp he
  refine List.mem_flatMap.mpr ⟨x, hx, ?_⟩
  cases x <;> simp_all

theorem detaches_subset_links (he : e ∈ l.flatMap Section.detaches) : e ∈ l.flatMap Section.links := by
  obtain ⟨x, hx, he⟩ := List.mem_flatMap.mp he
  refine List.mem_flatMap.mpr ⟨x, hx, ?_⟩
  cases x <;> simp_all

theorem uses_of_linked (he : s.Linked l e) : 0 < s.uses l e := by
  rcases he with he | he
  · exact uses_of_table he
  · obtain ⟨x, hx, he⟩ := List.mem_flatMap.mp (links_subset_holds he)
    exact uses_of_holds hx he

theorem Inv.uses_of_external (h : Inv s l) (he : s.external p = some e) : 0 < s.uses l e :=
  uses_of_linked ((h.external p e he).2.imp_right detaches_subset_links)

theorem lookup_mem (he : s.lookup n = some e) : e ∈ s.table := List.mem_of_find?_eq_some he

theorem Inv.lt_next (h : Inv s l) (he : 0 < s.uses l e) : e < s.next := ((h.live e).mp he).1

theorem uses_cons : s.uses (x :: l) e = s.uses l e + x.holds.count e := by
  simp only [Net.uses, List.flatMap_cons, List.count_append]
  omega

theorem count_singleton_eq : [e].count f = if e = f then 1 else 0 := by
  simp [List.count_singleton]

theorem Inv.recount {i : Int} {fs : List EntryId} (h : Inv s l)
    (hrefs : ∀ f, ((s.setEntry e { s.entry e with refCount := i }).entry f).refCount = s.uses k f)
    (hlive : ∀ f, 0 < s.uses k f ↔ f < s.next ∧ f ∉ fs) (hfreed : fs.Nodup ∧ ∀ f ∈ fs, f < s.next)
    (hk : k = .release e :: l ∨ l = .release e :: k) :
    Inv { s.setEntry e { s.entry e with refCount := i } with freed := fs } k := by
  have hfield : ∀ {α : Type} (g : Entry → α), g { s.entry e with refCount := i } = g (s.entry e) → ∀ f,
      g ((s.setEntry e { s.entry e with refCount := i }).entry f) = g (s.entry f) := fun g hg f => setEntry_field g hg
  have hserver : (s.setEntry e { s.entry e with refCount := i }).serverPort = s.serverPort := setEntry_serverPort rfl
  have hkmsg : (s.setEntry e { s.entry e with refCount := i }).reqKmsg = s.reqKmsg := setEntry_reqKmsg rfl
  have hpending : (s.setEntry e { s.entry e with refCount := i }).pending = s.pending := setEntry_pending rfl rfl
  have huses : (s.setEntry e { s.entry e with refCount := i }).uses k = s.uses k := by
    funext f
    rw [Net.uses, hserver]
    rfl
  have hflat : ∀ {α : Type} (g : Section → List α), g (.release e) = [] → k.flatMap g = l.flatMap g := by
    intro α g hg
    rcases hk with rfl | rfl
    · rw [List.flatMap_cons, hg, List.nil_append]
    · rw [List.flatMap_cons, hg, List.nil_append]
  refine ⟨fun f => (hrefs f).trans (congrArg Nat.cast (congrFun huses f).symm),
    fun f => (congrFun huses f) ▸ hlive f, h.table, hfreed, fun f => ?_, fun f => ?_, fun z hz => ?_, ?_, fun t => ?_,
    fun f hf => ?_, fun p f hf => ?_, fun m => ?_, fun f => ?_⟩
  · have := h.marks f
    rw [← hfield Entry.req rfl f] at this
    rw [hflat _ rfl]
    exact this
  · rw [hflat _ rfl]
    exact h.early f
  · have hz : z = .release e ∨ z ∈ l := by
      rcases hk with rfl | rfl
      · exact List.mem_cons.mp hz
      · exact .inr (List.mem_cons_of_mem _ hz)
    rcases hz with rfl | hz
    · trivial
    · exact setEntry_stored rfl rfl (h.sections z hz)
  · change ∀ f ∈ s.stored, ((s.setEntry e _).serverPort f).isSome ∧ ((s.setEntry e _).reqKmsg f).isSome
    rw [hserver, hkmsg]
    exact h.stored
  · have := h.trids t
    rw [← congrFun hpending t] at this
    rw [hflat _ rfl]
    exact this
  · have := h.linked f ((hfield Entry.res rfl f).symm.trans hf)
    rw [Net.Linked, hflat _ rfl]
    exact this
  · obtain ⟨hp, hd⟩ := h.external p f hf
    rw [hflat _ rfl]
    exact ⟨(hfield Entry.port rfl f).trans hp, hd⟩
  · have := h.msgs m
    rw [← hkmsg] at this
    rw [hflat _ rfl]
    exact this
  · have := h.sides f
    rw [← hfield Entry.req rfl f, ← hfield Entry.res rfl f, ← hfield Entry.isLocal rfl f] at this
    exact this

theorem Inv.reference (h : Inv s l) (he : 0 < s.uses l e) : Inv (s.reference e) (.release e :: l) := by
  have huses : ∀ f, s.uses (.release e :: l) f = s.uses l f + if e = f then 1 else 0 := fun f => by
    rw [uses_cons, Section.holds, count_singleton_eq]
  refine h.recount (fun f => ?_) (fun f => ?_) h.freed (.inl rfl)
  · rw [huses f]
    have := h.refs f
    by_cases hf : e = f
    · subst f
      rw [if_pos rfl, setEntry_self]
      dsimp only
      omega
    · rw [if_neg hf, setEntry_of_ne (Ne.symm hf), this]
      rfl
  · rw [huses f]
    have := h.live f
    by_cases hf : e = f
    · subst f
      rw [if_pos rfl]
      exact iff_of_true (by omega) (this.mp he)
    · rw [if_neg hf]
      exact this

theorem Inv.release (h : Inv s (.release e :: l)) : Inv (s.release e) l := by
  have huses : ∀ f, s.uses (.release e :: l) f = s.uses l f + if e = f then 1 else 0 := fun f => by
    rw [uses_cons, Section.holds, count_singleton_eq]
  have hself := h.refs e
  have hlive := (h.live e).mp (by rw [huses e, if_pos rfl]; omega)
  rw [huses e, if_pos rfl] at hself
  have hrefs : ∀ f, ((s.setEntry e { s.entry e with refCount := (s.entry e).refCount - 1 }).entry f).refCount =
      s.uses l f := by
    intro f
    by_cases hf : e = f
    · subst f
      rw [setEntry_self]
      dsimp only
      omega
    · have := h.refs f
      rw [huses f, if_neg hf] at this
      rw [setEntry_of_ne (Ne.symm hf), this]
      rfl
  unfold Net.release
  dsimp only
  split
  next hle =>
    have h0 : s.uses l e = 0 := by omega
    refine h.recount hrefs (fun f => ?_)
      ⟨List.nodup_cons.mpr ⟨hlive.2, h.freed.1⟩, List.forall_mem_cons.mpr ⟨hlive.1, h.freed.2⟩⟩ (.inr rfl)
    by_cases hf : e = f
    · subst f
      exact iff_of_false (by omega) (by simp)
    · have := h.live f
      rw [huses f, if_neg hf] at this
      rw [List.mem_cons, or_iff_right (Ne.symm hf)]
      exact this
  next hlt =>
    refine h.recount hrefs (fun f => ?_) h.freed (.inr rfl)
    by_cases hf : e = f
    · subst f
      exact iff_of_true (by omega) hlive
    · have := h.live f
      rw [huses f, if_neg hf] at this
      exact this

theorem setEntry_pending_change (he : e < s.next) (t : Trid) :
    (s.setEntry e y).pending t + ((s.entry e).res && decide ((s.entry e).trid = t)).toNat =
      s.pending t + (y.res && decide (y.trid = t)).toNat := by
  have h := tally_change (p := fun f => (s.entry f).res && decide ((s.entry f).trid = t))
    (q := fun f => ((s.setEntry e y).entry f).res && decide (((s.setEntry e y).entry f).trid = t)) he
    fun f _ hf => by rw [setEntry_of_ne hf]
  simp only [setEntry_self] at h
  exact h

theorem Inv.setRes {b : Bool} {i : Nat} (h : Inv s l) (he : 0 < s.uses l e)
    (hk : k = .reply (s.entry e).trid c :: l ∧ b = false ∧ (s.entry e).res = true ∨
      l = .reply t c :: k ∧ b = true ∧ (s.entry e).res = false ∧ s.Linked l e ∧ (s.entry e).isLocal = false) :
    Inv (s.setEntry e { s.entry e with res := b, trid := if b then t else (s.entry e).trid, pendingSeqNo := i }) k := by
  generalize hy : { s.entry e with res := b, trid := if b then t else (s.entry e).trid, pendingSeqNo := i } = y
  have hfield : ∀ {α : Type} (g : Entry → α), g y = g (s.entry e) → ∀ f,
      g ((s.setEntry e y).entry f) = g (s.entry f) := fun g hg f => setEntry_field g hg
  have hserver : (s.setEntry e y).serverPort = s.serverPort := setEntry_serverPort (by rw [← hy])
  have hkmsg : (s.setEntry e y).reqKmsg = s.reqKmsg := setEntry_reqKmsg (by rw [← hy])
  have hflat : ∀ {α : Type} (g : Section → List α), (∀ t c, g (.reply t c) = []) → k.flatMap g = l.flatMap g := by
    intro α g hg
    rcases hk with ⟨rfl, -⟩ | ⟨rfl, -⟩
    · rw [List.flatMap_cons, hg, List.nil_append]
    · rw [List.flatMap_cons, hg, List.nil_append]
  have huses : (s.setEntry e y).uses k = s.uses l := by
    funext f
    rw [Net.uses, hserver, hflat _ fun _ _ => rfl]
    rfl
  refine ⟨fun f => ?_, fun f => ?_, h.table, h.freed, fun f => ?_, fun f => ?_, fun z hz => ?_, ?_, fun u => ?_,
    fun f hf => ?_, fun p f hf => ?_, fun m => ?_, fun f => ?_⟩
  · exact ((hfield Entry.refCount (by rw [← hy]) f).trans (h.refs f)).trans (congrArg Nat.cast (congrFun huses f).symm)
  · rw [huses]
    exact h.live f
  · have := h.marks f
    rw [← hfield Entry.req (by rw [← hy]) f] at this
    rw [hflat _ fun _ _ => rfl]
    exact this
  · rw [hflat _ fun _ _ => rfl]
    exact h.early f
  · have hz : z.Stored s := by
      rcases hk with ⟨rfl, -⟩ | ⟨rfl, -⟩
      · rcases List.mem_cons.mp hz with rfl | hz
        · trivial
        · exact h.sections z hz
      · exact h.sections z (List.mem_cons_of_mem _ hz)
    exact setEntry_stored (by rw [← hy]) (by rw [← hy]) hz
  · rw [hserver, hkmsg]
    exact h.stored
  · have hbal : (k.flatMap Section.trids).count u + (y.res && decide (y.trid = u)).toNat =
        (l.flatMap Section.trids).count u + ((s.entry e).res && decide ((s.entry e).trid = u)).toNat := by
      rcases hk with ⟨rfl, rfl, hres⟩ | ⟨rfl, rfl, hres, -⟩
      · rw [← hy, hres, List.flatMap_cons, Section.trids, List.singleton_append, List.count_cons]
        by_cases hu : (s.entry e).trid = u <;> simp [hu]
      · rw [← hy, hres, List.flatMap_cons, Section.trids, List.singleton_append, List.count_cons]
        by_cases hu : t = u <;> simp [hu]
    have ht := h.trids u
    have hp := setEntry_pending_change (y := y) (h.lt_next he) u
    change s.arrived.count u = (s.replied.map Prod.fst).count u + _ + _
    omega
  · have hl : s.Linked l f → s.Linked k f := fun hl => by
      rw [Net.Linked, hflat _ fun _ _ => rfl]
      exact hl
    by_cases hfe : f = e
    · subst f
      rcases hk with ⟨-, rfl, -⟩ | ⟨-, -, -, hlink, -⟩
      · rw [setEntry_self, ← hy] at hf
        simp at hf
      · exact hl hlink
    · rw [setEntry_of_ne hfe] at hf
      exact hl (h.linked f hf)
  · obtain ⟨hp, hd⟩ := h.external p f hf
    rw [hflat _ fun _ _ => rfl]
    exact ⟨(hfield Entry.port (by rw [← hy]) f).trans hp, hd⟩
  · have := h.msgs m
    rw [← hkmsg] at this
    rw [hflat _ fun _ _ => rfl]
    exact this
  · have hsides := h.sides f
    by_cases hfe : f = e
    · subst f
      rw [setEntry_self, ← hy]
      refine ⟨hsides.1, fun hb => ?_⟩
      rcases hk with ⟨-, rfl, -⟩ | ⟨-, -, -, -, hloc⟩
      · simp at hb
      · exact hloc
    · rw [setEntry_of_ne hfe]
      exact hsides

theorem Inv.clearRes (h : Inv s l) (hr : (s.entry e).res = true) :
    Inv (s.setEntry e { s.entry e with res := false }) (.reply (s.entry e).trid c :: l) := by
  have := h.setRes (b := false) (t := 0) (i := (s.entry e).pendingSeqNo) (c := c) (uses_of_linked (h.linked e hr))
    (.inl ⟨rfl, rfl, hr⟩)
  exact this

theorem Inv.accepted {i : Nat} (h : Inv s (.reply t c :: l)) (hloc : (s.entry e).isLocal = false)
    (hres : (s.entry e).res = false) (hl : s.Linked (.reply t c :: l) e) :
    Inv (s.setEntry e { s.entry e with req := false, res := true, trid := t, pendingSeqNo := i }) l := by
  have hreq : (s.entry e).req = false := by
    by_contra hr
    have := (h.sides e).1 (by simpa using hr)
    simp [hloc] at this
  have := h.setRes (b := true) (i := i) (uses_of_linked hl) (.inr ⟨rfl, rfl, hres, hl, hloc⟩)
  rw [← hreq]
  exact this

theorem Inv.sendReply (h : Inv s (.reply t c :: l)) : Inv (s.sendReply t c) l := by
  refine ⟨h.refs, h.live, h.table, h.freed, h.marks, h.early, fun x hx => h.sections x (List.mem_cons_of_mem _ hx),
    h.stored, fun u => ?_, h.linked, h.external, h.msgs, h.sides⟩
  have ht := h.trids u
  rw [List.flatMap_cons, Section.trids, List.singleton_append, List.count_cons] at ht
  have hr : ((s.sendReply t c).replied.map Prod.fst).count u =
      (s.replied.map Prod.fst).count u + if (t == u) = true then 1 else 0 := List.count_cons
  change s.arrived.count u = _ + _ + s.pending u
  omega

theorem Inv.arrive (h : Inv s l) : Inv { s with arrived := t :: s.arrived } (.reply t c :: l) := by
  refine ⟨h.refs, h.live, h.table, h.freed, h.marks, h.early, fun x hx => ?_, h.stored, fun u => ?_, h.linked,
    h.external, h.msgs, h.sides⟩
  · rcases List.mem_cons.mp hx with rfl | hx
    · trivial
    · exact h.sections x hx
  · have ht := h.trids u
    rw [List.flatMap_cons, Section.trids, List.singleton_append, List.count_cons, List.count_cons]
    change _ = (s.replied.map Prod.fst).count u + _ + s.pending u
    omega

theorem Inv.resolve {o : Outcome} (h : Inv s (.destroy m :: l)) :
    Inv { s with resolved := (m, o) :: s.resolved } l := by
  refine ⟨h.refs, h.live, h.table, h.freed, h.marks, h.early, fun x hx => h.sections x (List.mem_cons_of_mem _ hx),
    h.stored, h.trids, h.linked, h.external, fun u => ?_, h.sides⟩
  have hm := h.msgs u
  rw [List.flatMap_cons, Section.msgs, List.singleton_append, List.count_cons] at hm
  have hr : (((m, o) :: s.resolved).map Prod.fst).count u =
      (s.resolved.map Prod.fst).count u + if (m == u) = true then 1 else 0 := List.count_cons
  change s.sent.count u = (((m, o) :: s.resolved).map Prod.fst).count u + _ +
    ((s.early ++ s.stored).map s.reqKmsg).count (some u)
  omega

theorem Inv.unlink (h : Inv s l) (he : e ∈ s.table) : Inv { s with table := s.table.erase e } (.detach e :: l) := by
  have hcount : ∀ f, (s.table.erase e).count f + (if e = f then 1 else 0) = s.table.count f := by
    intro f
    have := List.count_erase (a := f) (b := e) (l := s.table)
    by_cases hf : e = f
    · subst f
      have hpos := List.count_pos_iff.mpr he
      simp at this ⊢
      omega
    · simp only [beq_iff_eq, hf, if_false] at this
      simp [hf, this]
  have huses : Net.uses { s with table := s.table.erase e } (.detach e :: l) = s.uses l := by
    funext f
    have := hcount f
    rw [uses_cons, Section.holds, count_singleton_eq, Net.uses, Net.uses]
    change (s.table.erase e).count f + _ + s.stored.count f + (s.stored.map s.serverPort).count (some f) + _ = _
    omega
  refine ⟨fun f => huses ▸ h.refs f, fun f => huses ▸ h.live f, h.table.erase e, h.freed, h.marks, h.early,
    fun x hx => ?_, h.stored, h.trids, fun f hf => ?_, fun p f hf => ?_, h.msgs, h.sides⟩
  · rcases List.mem_cons.mp hx with rfl | hx
    · trivial
    · exact h.sections x hx
  · rcases h.linked f hf with hl | hl
    · by_cases hfe : f = e
      · exact .inr (by simp [hfe, Section.links])
      · exact .inl ((List.mem_erase_of_ne hfe).mpr hl)
    · exact .inr (by simp [hl])
  · obtain ⟨hp, hd⟩ := h.external p f hf
    refine ⟨hp, ?_⟩
    rcases hd with hd | hd
    · by_cases hfe : f = e
      · exact .inr (by simp [hfe, Section.detaches])
      · exact .inl ((List.mem_erase_of_ne hfe).mpr hd)
    · exact .inr (by simp [hd])

theorem Inv.detach (h : Inv s (.detach e :: l)) :
    Inv { s with external := Function.update s.external (s.entry e).port none } (.removed e :: l) := by
  refine ⟨h.refs, h.live, h.table, h.freed, h.marks, h.early, fun x hx => ?_, h.stored, h.trids, h.linked,
    fun p f hf => ?_, h.msgs, h.sides⟩
  · rcases List.mem_cons.mp hx with rfl | hx
    · trivial
    · exact h.sections x (List.mem_cons_of_mem _ hx)
  · have hne : p ≠ (s.entry e).port := by
      rintro rfl
      simp at hf
    have hf : s.external p = some f := (Function.update_of_ne hne _ _).symm.trans hf
    obtain ⟨hp, hd⟩ := h.external p f hf
    refine ⟨hp, hd.imp_right fun hd => ?_⟩
    rw [List.flatMap_cons] at hd ⊢
    rcases List.mem_append.mp hd with hd | hd
    · have := List.mem_singleton.mp hd
      subst f
      exact absurd hp.symm hne
    · exact List.mem_append_right _ hd

theorem marks_subset_holds (he : e ∈ x.marks) : e ∈ x.holds := by
  cases x <;> simp_all

theorem sends_subset_holds (he : e ∈ x.sends) : e ∈ x.holds := by
  cases x <;> simp_all

/-- A reply port that no call and no answer to come is about. -/
structure Idle (s : Net) (l : List Section) (e : EntryId) : Prop where
  early : e ∉ s.early
  stored : e ∉ s.stored
  marks : ∀ x ∈ l, e ∉ x.marks
  sends : ∀ x ∈ l, e ∉ x.sends

theorem not_mem_of_count {α : Type} {g : Section → List α} [DecidableEq α] {a : α} (h : (l.flatMap g).count a = 0) :
    ∀ x ∈ l, a ∉ g x := fun x hx ha => List.count_eq_zero.mp h (List.mem_flatMap.mpr ⟨x, hx, ha⟩)

theorem Inv.idle (h : Inv s l) (hreq : (s.entry e).req = false) : Idle s l e := by
  have hm := h.marks e
  have he := h.early e
  rw [hreq, Bool.toNat_false] at hm
  exact ⟨List.count_eq_zero.mp (by omega), List.count_eq_zero.mp (by omega), not_mem_of_count (by omega),
    not_mem_of_count (by omega)⟩

theorem Idle.stored_of_ne (h : Idle s l e) (hx : x ∈ l) (hs : x.Stored s) : x.Stored (s.setEntry e y) := by
  have hm := h.marks x hx
  have hn := h.sends x hx
  cases x with
  | send m rp lp =>
    have hne : lp ≠ e := fun he => hm (by simp [Section.marks, he])
    simp only [Section.Stored, setEntry_of_ne hne]
    exact hs
  | referLocal rp lp =>
    have hne : lp ≠ e := fun he => hn (by simp [Section.sends, he])
    simp only [Section.Stored, setEntry_of_ne hne]
    exact hs
  | referRemote rp lp =>
    have hne : lp ≠ e := fun he => hn (by simp [Section.sends, he])
    simp only [Section.Stored, setEntry_of_ne hne]
    exact hs
  | _ => trivial

theorem Idle.map_stored {α : Type} {g : Entry → α} (h : Idle s l e) :
    (s.stored.map fun f => g ((s.setEntry e y).entry f)) = s.stored.map fun f => g (s.entry f) := by
  refine List.map_congr_left fun f hf => ?_
  rw [setEntry_of_ne]
  rintro rfl
  exact h.stored hf

theorem Idle.map_all {α : Type} {g : Entry → α} (h : Idle s l e) :
    ((s.early ++ s.stored).map fun f => g ((s.setEntry e y).entry f)) =
      (s.early ++ s.stored).map fun f => g (s.entry f) := by
  refine List.map_congr_left fun f hf => ?_
  rw [setEntry_of_ne]
  rintro rfl
  rcases List.mem_append.mp hf with hf | hf
  · exact h.early hf
  · exact h.stored hf

theorem Inv.marked {q : Kmsg} {i : Nat} {d : NetAddr} (h : Inv s (.mark q rp lp :: l))
    (hreq : (s.entry lp).req = false) (hloc : (s.entry lp).isLocal = true) :
    Inv (s.setEntry lp { s.entry lp with
        req := true, dest := d, serverPort := some rp, reqKmsg := some q.id, currentSeqNo := i })
      (.send q.id rp lp :: l) := by
  have hi := h.idle hreq
  generalize hy : { s.entry lp with
    req := true, dest := d, serverPort := some rp, reqKmsg := some q.id, currentSeqNo := i } = y
  have hfield : ∀ {α : Type} (g : Entry → α), g y = g (s.entry lp) → ∀ f,
      g ((s.setEntry lp y).entry f) = g (s.entry f) := fun g hg f => setEntry_field g hg
  have hserver : (s.stored.map (s.setEntry lp y).serverPort) = s.stored.map s.serverPort :=
    hi.map_stored (g := Entry.serverPort)
  have hkmsg : ((s.early ++ s.stored).map (s.setEntry lp y).reqKmsg) = (s.early ++ s.stored).map s.reqKmsg :=
    hi.map_all (g := Entry.reqKmsg)
  have huses : (s.setEntry lp y).uses (.send q.id rp lp :: l) = s.uses (.mark q rp lp :: l) := by
    funext f
    simp only [Net.uses]
    change s.table.count f + _ + s.stored.count f + (s.stored.map (s.setEntry lp y).serverPort).count (some f) = _
    rw [hserver]
    rfl
  refine ⟨fun f => ?_, fun f => huses ▸ h.live f, h.table, h.freed, fun f => ?_, h.early, fun z hz => ?_, fun f hf => ?_,
    fun u => ?_, fun f hf => ?_, fun p f hf => ?_, fun u => ?_, fun f => ?_⟩
  · rw [huses]
    exact (hfield Entry.refCount (by rw [← hy]) f).trans (h.refs f)
  · have hm : (l.flatMap Section.marks).count f + s.early.count f + s.stored.count f = (s.entry f).req.toNat :=
      h.marks f
    rw [List.flatMap_cons, Section.marks, List.singleton_append, List.count_cons]
    change _ + s.early.count f + s.stored.count f = _
    by_cases hf : lp = f
    · subst f
      rw [hreq, Bool.toNat_false] at hm
      simp only [setEntry_self, ← hy, beq_self_eq_true, if_true, Bool.toNat_true]
      omega
    · rw [setEntry_of_ne (Ne.symm hf)]
      simp only [beq_iff_eq, hf, if_false]
      omega
  · rcases List.mem_cons.mp hz with rfl | hz
    · simp only [Section.Stored, setEntry_self, ← hy, and_self]
    · exact hi.stored_of_ne (List.mem_cons_of_mem _ hz) (h.sections z (List.mem_cons_of_mem _ hz))
  · have hne : f ≠ lp := by
      rintro rfl
      exact hi.stored hf
    rw [Net.serverPort, Net.reqKmsg, setEntry_of_ne hne]
    exact h.stored f hf
  · have hp : (s.setEntry lp y).pending = s.pending := setEntry_pending (by rw [← hy]) (by rw [← hy])
    rw [hp]
    exact h.trids u
  · exact h.linked f ((hfield Entry.res (by rw [← hy]) f).symm.trans hf)
  · obtain ⟨hp, hd⟩ := h.external p f hf
    exact ⟨(hfield Entry.port (by rw [← hy]) f).trans hp, hd⟩
  · have hm := h.msgs u
    change _ = _ + _ + ((s.early ++ s.stored).map (s.setEntry lp y).reqKmsg).count (some u)
    rw [hkmsg]
    exact hm
  · have hsides := h.sides f
    by_cases hf : f = lp
    · subst f
      rw [setEntry_self, ← hy]
      exact ⟨fun _ => hloc, hsides.2⟩
    · rw [setEntry_of_ne hf]
      exact hsides

theorem Inv.sendTaken (h : Inv s (.send m rp lp :: l)) :
    Inv { s with early := lp :: s.early, sent := m :: s.sent } (.referLocal rp lp :: l) := by
  have hs : (s.entry lp).serverPort = some rp ∧ (s.entry lp).reqKmsg = some m := h.sections _ List.mem_cons_self
  refine ⟨h.refs, h.live, h.table, h.freed, fun f => ?_, fun f => ?_, fun z hz => ?_, h.stored, h.trids, h.linked,
    h.external, fun u => ?_, h.sides⟩
  · have hm := h.marks f
    rw [List.flatMap_cons, Section.marks, List.singleton_append, List.count_cons] at hm
    change (l.flatMap Section.marks).count f + (lp :: s.early).count f + s.stored.count f = (s.entry f).req.toNat
    rw [List.count_cons]
    omega
  · have he : s.early.count f = (l.flatMap Section.sends).count f := h.early f
    rw [List.flatMap_cons, Section.sends, List.singleton_append, List.count_cons, List.count_cons, he]
  · rcases List.mem_cons.mp hz with rfl | hz
    · exact ⟨hs.1, by rw [hs.2]; rfl⟩
    · exact h.sections z (List.mem_cons_of_mem _ hz)
  · have hm := h.msgs u
    have hk : ((lp :: (s.early ++ s.stored)).map s.reqKmsg).count (some u) =
        ((s.early ++ s.stored).map s.reqKmsg).count (some u) + if (some m == some u) = true then 1 else 0 := by
      rw [List.map_cons, List.count_cons, Net.reqKmsg, hs.2]
    have hsent : (m :: s.sent).count u = s.sent.count u + if (m == u) = true then 1 else 0 := List.count_cons
    change (m :: s.sent).count u = (s.resolved.map Prod.fst).count u + (l.flatMap Section.msgs).count u +
      ((lp :: (s.early ++ s.stored)).map s.reqKmsg).count (some u)
    change s.sent.count u = (s.resolved.map Prod.fst).count u + (l.flatMap Section.msgs).count u + _ at hm
    simp only [beq_iff_eq, Option.some.injEq] at hk hsent
    omega

theorem Inv.unmarked (h : Inv s (.unmark rp lp :: l)) :
    Inv (s.setEntry lp { s.entry lp with req := false }) (.release rp :: .release lp :: l) := by
  have hmark := h.marks lp
  rw [List.flatMap_cons, Section.marks, List.singleton_append, List.count_cons] at hmark
  simp only [beq_self_eq_true, if_true] at hmark
  have hle := Bool.toNat_le (s.entry lp).req
  have hserver : (s.setEntry lp { s.entry lp with req := false }).serverPort = s.serverPort := setEntry_serverPort rfl
  have hkmsg : (s.setEntry lp { s.entry lp with req := false }).reqKmsg = s.reqKmsg := setEntry_reqKmsg rfl
  have hpending : (s.setEntry lp { s.entry lp with req := false }).pending = s.pending := setEntry_pending rfl rfl
  have hfield : ∀ {α : Type} (g : Entry → α), g { s.entry lp with req := false } = g (s.entry lp) → ∀ f,
      g ((s.setEntry lp { s.entry lp with req := false }).entry f) = g (s.entry f) := fun g hg f => setEntry_field g hg
  have huses : (s.setEntry lp { s.entry lp with req := false }).uses (.release rp :: .release lp :: l) =
      s.uses (.unmark rp lp :: l) := by
    funext f
    simp only [Net.uses, hserver]
    rfl
  refine ⟨fun f => ?_, fun f => huses ▸ h.live f, h.table, h.freed, fun f => ?_, h.early, fun z hz => ?_, ?_,
    fun u => ?_, fun f hf => ?_, fun p f hf => ?_, fun u => ?_, fun f => ?_⟩
  · rw [huses]
    exact (hfield Entry.refCount rfl f).trans (h.refs f)
  · have hm := h.marks f
    rw [List.flatMap_cons, Section.marks, List.singleton_append, List.count_cons] at hm
    change (l.flatMap Section.marks).count f + s.early.count f + s.stored.count f = _
    by_cases hf : lp = f
    · subst f
      simp only [setEntry_self, Bool.toNat_false]
      omega
    · rw [setEntry_of_ne (Ne.symm hf)]
      simp only [beq_iff_eq, hf, if_false] at hm
      omega
  · rcases List.mem_cons.mp hz with rfl | hz
    · trivial
    · rcases List.mem_cons.mp hz with rfl | hz
      · trivial
      · exact setEntry_stored rfl rfl (h.sections z (List.mem_cons_of_mem _ hz))
  · rw [hserver, hkmsg]
    exact h.stored
  · rw [hpending]
    exact h.trids u
  · exact h.linked f ((hfield Entry.res rfl f).symm.trans hf)
  · obtain ⟨hp, hd⟩ := h.external p f hf
    exact ⟨(hfield Entry.port rfl f).trans hp, hd⟩
  · rw [hkmsg]
    exact h.msgs u
  · have hsides := h.sides f
    by_cases hf : f = lp
    · subst f
      rw [setEntry_self]
      exact ⟨by simp, hsides.2⟩
    · rw [setEntry_of_ne hf]
      exact hsides

theorem count_erase_add {α : Type} [DecidableEq α] {a b : α} {xs : List α} (hb : b ∈ xs) :
    (xs.erase b).count a + (if b = a then 1 else 0) = xs.count a := by
  by_cases hab : b = a
  · subst a
    have := List.count_pos_iff.mpr hb
    rw [List.count_erase_self, if_pos rfl]
    omega
  · rw [List.count_erase_of_ne (Ne.symm hab), if_neg hab, Nat.add_zero]

theorem count_map_erase {α β : Type} [DecidableEq α] [BEq β] [LawfulBEq β] {g : α → β} {a : α} {b : β} {xs : List α}
    (ha : a ∈ xs) : ((xs.erase a).map g).count b + (if (g a == b) = true then 1 else 0) = (xs.map g).count b := by
  rw [((List.perm_cons_erase ha).map g).count_eq, List.map_cons, List.count_cons]

theorem Inv.store (h : Inv s (.release rp :: .referRemote rp lp :: l)) :
    lp ∈ s.early ∧ Inv { s with early := s.early.erase lp, stored := lp :: s.stored }
      (.release rp :: .release lp :: l) := by
  have hs : (s.entry lp).serverPort = some rp ∧ (s.entry lp).reqKmsg.isSome :=
    h.sections (.referRemote rp lp) (by simp)
  have hin : lp ∈ s.early := by
    refine List.count_pos_iff.mp ?_
    rw [h.early lp]
    exact List.count_pos_iff.mpr (List.mem_flatMap.mpr ⟨.referRemote rp lp, by simp, by simp⟩)
  have huses : Net.uses { s with early := s.early.erase lp, stored := lp :: s.stored } (.release rp :: .release lp :: l) =
      s.uses (.release rp :: .referRemote rp lp :: l) := by
    funext f
    have hserver : ((lp :: s.stored).map s.serverPort).count (some f) =
        (s.stored.map s.serverPort).count (some f) + if rp = f then 1 else 0 := by
      rw [List.map_cons, List.count_cons, Net.serverPort, hs.1]
      simp only [beq_iff_eq, Option.some.injEq]
    have hstored : (lp :: s.stored).count f = s.stored.count f + if lp = f then 1 else 0 := by
      rw [List.count_cons]
      simp only [beq_iff_eq]
    have hthree : [rp, lp, lp].count f = (if rp = f then 1 else 0) + (if lp = f then 1 else 0) +
        if lp = f then 1 else 0 := by
      simp only [List.count_cons, List.count_nil, beq_iff_eq]
      omega
    rw [uses_cons, uses_cons, uses_cons, uses_cons]
    simp only [Section.holds, count_singleton_eq, hthree, Net.uses]
    change s.table.count f + _ + (lp :: s.stored).count f + ((lp :: s.stored).map s.serverPort).count (some f) + _ + _ = _
    omega
  refine ⟨hin, fun f => huses ▸ h.refs f, fun f => huses ▸ h.live f, h.table, h.freed, fun f => ?_, fun f => ?_,
    fun z hz => ?_, fun f hf => ?_, h.trids, h.linked, h.external, fun u => ?_, h.sides⟩
  · have hm := h.marks f
    have he := count_erase_add (a := f) hin
    have hstored : (lp :: s.stored).count f = s.stored.count f + if lp = f then 1 else 0 := by
      rw [List.count_cons]
      simp only [beq_iff_eq]
    change (l.flatMap Section.marks).count f + (s.early.erase lp).count f + (lp :: s.stored).count f =
      (s.entry f).req.toNat
    change (l.flatMap Section.marks).count f + _ + _ = _ at hm
    omega
  · have he := count_erase_add (a := f) hin
    have hl := h.early f
    have hc : ((lp :: l.flatMap Section.sends)).count f = (l.flatMap Section.sends).count f + if lp = f then 1 else 0 := by
      rw [List.count_cons]
      simp only [beq_iff_eq]
    change s.early.count f = (lp :: l.flatMap Section.sends).count f at hl
    change (s.early.erase lp).count f = (l.flatMap Section.sends).count f
    omega
  · rcases List.mem_cons.mp hz with rfl | hz
    · trivial
    · rcases List.mem_cons.mp hz with rfl | hz
      · trivial
      · exact h.sections z (List.mem_cons_of_mem _ (List.mem_cons_of_mem _ hz))
  · rcases List.mem_cons.mp hf with rfl | hf
    · exact ⟨by rw [Net.serverPort]; exact Option.isSome_of_eq_some hs.1, hs.2⟩
    · exact h.stored f hf
  · have hm := h.msgs u
    have hp : (s.early.erase lp ++ lp :: s.stored).Perm (s.early ++ s.stored) :=
      List.perm_middle.trans ((List.perm_cons_erase hin).symm.append_right s.stored)
    change _ = _ + _ + ((s.early.erase lp ++ lp :: s.stored).map s.reqKmsg).count (some u)
    rw [(hp.map _).count_eq]
    exact hm

theorem Inv.answered (h : Inv s l) (he : e ∈ s.stored) : ∃ lp m, (s.entry e).req = true ∧
    (s.entry e).serverPort = some lp ∧ (s.entry e).reqKmsg = some m ∧
    Inv ({ s with stored := s.stored.erase e }.setEntry e
      { s.entry e with req := false, serverPort := none, reqKmsg := none }) (.destroy m :: .release e :: .release lp :: l) := by
  obtain ⟨hlp, hm⟩ := h.stored e he
  obtain ⟨lp, hlp⟩ := Option.isSome_iff_exists.mp hlp
  obtain ⟨m, hm⟩ := Option.isSome_iff_exists.mp hm
  have hmarks := h.marks e
  have hpos := List.count_pos_iff.mpr he
  have hle := Bool.toNat_le (s.entry e).req
  have hreq : (s.entry e).req = true := by
    cases hr : (s.entry e).req with
    | true => rfl
    | false =>
      rw [hr, Bool.toNat_false] at hmarks
      omega
  rw [hreq, Bool.toNat_true] at hmarks
  refine ⟨lp, m, hreq, hlp, hm, ?_⟩
  have hearly := h.early e
  have hstored := count_erase_add (a := e) he
  rw [if_pos rfl] at hstored
  generalize hy : { s.entry e with req := false, serverPort := none, reqKmsg := none } = y
  have hi : Idle { s with stored := s.stored.erase e } l e :=
    ⟨List.count_eq_zero.mp (by change s.early.count e = 0; omega),
      List.count_eq_zero.mp (by change (s.stored.erase e).count e = 0; omega), not_mem_of_count (by omega), not_mem_of_count (by omega)⟩
  have hfield : ∀ {α : Type} (g : Entry → α), g y = g (s.entry e) → ∀ f,
      g (({ s with stored := s.stored.erase e }.setEntry e y).entry f) = g (s.entry f) :=
    fun g hg f => setEntry_field g hg
  have hserver : (s.stored.erase e).map ({ s with stored := s.stored.erase e }.setEntry e y).serverPort =
      (s.stored.erase e).map s.serverPort := hi.map_stored (g := Entry.serverPort)
  have hkmsg : (s.early ++ s.stored.erase e).map ({ s with stored := s.stored.erase e }.setEntry e y).reqKmsg =
      (s.early ++ s.stored.erase e).map s.reqKmsg := hi.map_all (g := Entry.reqKmsg)
  have huses : ({ s with stored := s.stored.erase e }.setEntry e y).uses (.destroy m :: .release e :: .release lp :: l) =
      s.uses l := by
    funext f
    have h1 := count_erase_add (a := f) he
    have h2 := count_map_erase (g := s.serverPort) (b := some f) he
    rw [hlp] at h2
    simp only [beq_iff_eq, Option.some.injEq] at h2
    rw [uses_cons, uses_cons, uses_cons]
    simp only [Section.holds, count_singleton_eq, List.count_nil, Net.uses]
    change s.table.count f + _ + (s.stored.erase e).count f + ((s.stored.erase e).map
      ({ s with stored := s.stored.erase e }.setEntry e y).serverPort).count (some f) + _ + _ + _ = _
    rw [hserver]
    omega
  refine ⟨fun f => ?_, fun f => huses ▸ h.live f, h.table, h.freed, fun f => ?_, h.early, fun z hz => ?_, fun f hf => ?_,
    fun u => ?_, fun f hf => ?_, fun p f hf => ?_, fun u => ?_, fun f => ?_⟩
  · rw [huses]
    exact (hfield Entry.refCount (by rw [← hy]) f).trans (h.refs f)
  · have hm := h.marks f
    have h1 := count_erase_add (a := f) he
    change (l.flatMap Section.marks).count f + s.early.count f + (s.stored.erase e).count f = _
    by_cases hf : e = f
    · subst f
      simp only [setEntry_self, ← hy, Bool.toNat_false]
      omega
    · rw [setEntry_of_ne (Ne.symm hf)]
      rw [if_neg hf] at h1
      change _ = (s.entry f).req.toNat
      omega
  · simp only [List.mem_cons] at hz
    rcases hz with rfl | rfl | rfl | hz
    · trivial
    · trivial
    · trivial
    · exact hi.stored_of_ne hz (h.sections z hz)
  · have hne : f ≠ e := by
      rintro rfl
      exact hi.stored hf
    rw [Net.serverPort, Net.reqKmsg, setEntry_of_ne hne]
    exact h.stored f (List.mem_of_mem_erase hf)
  · have hp : ({ s with stored := s.stored.erase e }.setEntry e y).pending = s.pending :=
      setEntry_pending (s := { s with stored := s.stored.erase e }) (by rw [← hy]) (by rw [← hy])
    rw [hp]
    exact h.trids u
  · exact h.linked f ((hfield Entry.res (by rw [← hy]) f).symm.trans hf)
  · obtain ⟨hp, hd⟩ := h.external p f hf
    exact ⟨(hfield Entry.port (by rw [← hy]) f).trans hp, hd⟩
  · have hm' := h.msgs u
    have hp : (s.early ++ s.stored).Perm (e :: (s.early ++ s.stored.erase e)) :=
      ((List.perm_cons_erase he).append_left s.early).trans List.perm_middle
    rw [(hp.map _).count_eq, List.map_cons, List.count_cons, hm] at hm'
    have hc : (m :: l.flatMap Section.msgs).count u = (l.flatMap Section.msgs).count u + if (m == u) = true then 1 else 0 :=
      List.count_cons
    change _ = (s.resolved.map Prod.fst).count u + (m :: l.flatMap Section.msgs).count u + ((s.early ++ s.stored.erase e).map
      ({ s with stored := s.stored.erase e }.setEntry e y).reqKmsg).count (some u)
    rw [hkmsg]
    simp only [beq_iff_eq, Option.some.injEq] at hm' hc
    change s.sent.count u = _ at hm'
    change s.sent.count u = _
    omega
  · have hsides := h.sides f
    by_cases hf : f = e
    · subst f
      rw [setEntry_self, ← hy]
      exact ⟨by simp, hsides.2⟩
    · rw [setEntry_of_ne hf]
      exact hsides

theorem Inv.uses_next (h : Inv s l) : s.uses l s.next = 0 := by
  by_contra hne
  exact Nat.lt_irrefl _ ((h.live s.next).mp (Nat.pos_of_ne_zero hne)).1

theorem Inv.idle_next (h : Inv s l) : Idle s l s.next := by
  have h0 := h.uses_next
  have hholds : ∀ x ∈ l, s.next ∉ x.holds := fun x hx he => by
    have := uses_of_holds (s := s) hx he
    omega
  have hsends : ∀ x ∈ l, s.next ∉ x.sends := fun x hx he => hholds x hx (sends_subset_holds he)
  refine ⟨fun he => ?_, fun he => ?_, fun x hx he => hholds x hx (marks_subset_holds he), hsends⟩
  · have hpos := List.count_pos_iff.mpr he
    rw [h.early] at hpos
    obtain ⟨x, hx, hs⟩ := List.mem_flatMap.mp (List.count_pos_iff.mp hpos)
    exact hsends x hx hs
  · have hpos := List.count_pos_iff.mpr he
    unfold Net.uses at h0
    omega

theorem Inv.req_next (h : Inv s l) : (s.entry s.next).req = false := by
  have hi := h.idle_next
  have hm := h.marks s.next
  have h1 : (l.flatMap Section.marks).count s.next = 0 := by
    refine List.count_eq_zero.mpr fun he => ?_
    obtain ⟨x, hx, he⟩ := List.mem_flatMap.mp he
    exact hi.marks x hx he
  rw [h1, List.count_eq_zero.mpr hi.early, List.count_eq_zero.mpr hi.stored] at hm
  cases hr : (s.entry s.next).req with
  | false => rfl
  | true => simp [hr] at hm

theorem Inv.created (h : Inv s l) (hy : y.port = p ∧ y.refCount = 1 ∧ y.req = false ∧ y.res = false) :
    Inv { s.setEntry s.next y with
        next := s.next + 1, table := s.next :: s.table, external := Function.update s.external p (some s.next) } l := by
  obtain ⟨hport, href, hreq, hres⟩ := hy
  have hi := h.idle_next
  have h0 := h.uses_next
  have hnew : ∀ f, 0 < s.uses l f → f ≠ s.next := by
    rintro f hf rfl
    omega
  have hserver : s.stored.map (s.setEntry s.next y).serverPort = s.stored.map s.serverPort :=
    hi.map_stored (g := Entry.serverPort)
  have hkmsg : (s.early ++ s.stored).map (s.setEntry s.next y).reqKmsg = (s.early ++ s.stored).map s.reqKmsg :=
    hi.map_all (g := Entry.reqKmsg)
  have huses : ∀ f, Net.uses { s.setEntry s.next y with
      next := s.next + 1, table := s.next :: s.table, external := Function.update s.external p (some s.next) } l f =
      s.uses l f + if s.next = f then 1 else 0 := by
    intro f
    have hc : (s.next :: s.table).count f = s.table.count f + if s.next = f then 1 else 0 := by
      rw [List.count_cons]
      simp only [beq_iff_eq]
    change (s.next :: s.table).count f + _ + s.stored.count f + (s.stored.map (s.setEntry s.next y).serverPort).count
      (some f) = _
    rw [hserver, hc, Net.uses]
    omega
  refine ⟨fun f => ?_, fun f => ?_, ?_, ?_, fun f => ?_, h.early, fun z hz => ?_, fun f hf => ?_, fun u => ?_,
    fun f hf => ?_, fun q f hf => ?_, fun u => ?_, fun f => ?_⟩
  · rw [huses f]
    by_cases hf : s.next = f
    · subst f
      simp only [setEntry_self, href, h0, if_true]
      rfl
    · rw [if_neg hf, setEntry_of_ne (Ne.symm hf)]
      exact h.refs f
  · rw [huses f]
    change _ ↔ f < s.next + 1 ∧ f ∉ s.freed
    by_cases hf : s.next = f
    · subst f
      rw [if_pos rfl]
      exact iff_of_true (Nat.succ_pos _) ⟨Nat.lt_succ_self _, fun hin => Nat.lt_irrefl _ (h.freed.2 _ hin)⟩
    · rw [if_neg hf, Nat.add_zero, h.live f]
      have : f < s.next ↔ f < s.next + 1 :=
        ⟨Nat.lt_succ_of_lt, fun hlt => Nat.lt_of_le_of_ne (Nat.le_of_lt_succ hlt) (Ne.symm hf)⟩
      rw [this]
  · refine List.nodup_cons.mpr ⟨fun hin => ?_, h.table⟩
    have := uses_of_table (l := l) hin
    omega
  · exact ⟨h.freed.1, fun f hf => Nat.lt_succ_of_lt (h.freed.2 f hf)⟩
  · have hm := h.marks f
    by_cases hf : f = s.next
    · subst f
      rw [h.req_next] at hm
      simp only [setEntry_self, hreq]
      exact hm
    · rw [setEntry_of_ne hf]
      exact hm
  · exact hi.stored_of_ne hz (h.sections z hz)
  · have hne : f ≠ s.next := by
      rintro rfl
      exact hi.stored hf
    change ((s.setEntry s.next y).serverPort f).isSome ∧ ((s.setEntry s.next y).reqKmsg f).isSome
    rw [Net.serverPort, Net.reqKmsg, setEntry_of_ne hne]
    exact h.stored f hf
  · have ht := h.trids u
    have hp : tally (s.next + 1) (fun f => ((s.setEntry s.next y).entry f).res &&
        decide (((s.setEntry s.next y).entry f).trid = u)) = s.pending u := by
      rw [tally_succ]
      simp only [setEntry_self, hres, Bool.false_and, Bool.toNat_false, Nat.add_zero]
      exact tally_congr fun f hf => by rw [setEntry_of_ne (Nat.ne_of_lt hf)]
    rw [← hp] at ht
    exact ht
  · by_cases hfe : f = s.next
    · subst f
      simp [hres] at hf
    · rw [setEntry_of_ne hfe] at hf
      exact (h.linked f hf).imp_left (List.mem_cons_of_mem _)
  · by_cases hq : q = p
    · subst q
      have hf : some s.next = some f := (Function.update_self p (some s.next) s.external).symm.trans hf
      cases Option.some.inj hf
      exact ⟨by simpa using hport, .inl List.mem_cons_self⟩
    · have hf : s.external q = some f := (Function.update_of_ne hq _ _).symm.trans hf
      obtain ⟨hp, hd⟩ := h.external q f hf
      refine ⟨?_, hd.imp_left (List.mem_cons_of_mem _)⟩
      change ((s.setEntry s.next y).entry f).port = q
      rw [setEntry_of_ne (hnew f (h.uses_of_external hf))]
      exact hp
  · change _ = _ + _ + ((s.early ++ s.stored).map (s.setEntry s.next y).reqKmsg).count (some u)
    rw [hkmsg]
    exact h.msgs u
  · by_cases hf : f = s.next
    · subst f
      simp [hreq, hres]
    · rw [setEntry_of_ne hf]
      exact h.sides f

end MachVM.Ipc.Netport
