import MachVM.Lib.Ring
import MachVM.MapRange

namespace MachVM

open Ring

/-- The entries of a map, in address order, represented by its links and cached pointers. An
entry may be empty. -/
structure MapOrder (m : VmMap) (l : List EntryId) : Prop where
  ring : Linked m.next m.prev header l
  count : m.nentries = l.length
  fresh : ∀ e ∈ header :: l, e < m.freshEntry
  span : ∀ e ∈ l, (m.entry e).start ≤ (m.entry e).endAddr
  sorted : l.Pairwise fun a b => (m.entry a).endAddr ≤ (m.entry b).start
  low : ∀ e ∈ l, m.minOffset ≤ (m.entry e).start
  high : ∀ e ∈ l, (m.entry e).endAddr ≤ m.maxOffset
  hint_mem : m.hint ∈ header :: l
  free_mem : m.firstFree ∈ header :: l

variable {m n : VmMap} {l l₁ l₂ : List EntryId} {e x : EntryId} {a : VmOffset} {y : VmMapEntry}

theorem MapOrder.header_not_mem (h : MapOrder m l) : header ∉ l :=
  (List.nodup_cons.mp h.ring.nodup).1

theorem MapOrder.nodup (h : MapOrder m l) : l.Nodup :=
  (List.nodup_cons.mp h.ring.nodup).2

theorem MapOrder.fresh_not_mem (h : MapOrder m l) : m.freshEntry ∉ header :: l :=
  fun hm => Nat.lt_irrefl _ (h.fresh _ hm)

theorem MapOrder.congr (h : MapOrder m l) (hn : n.next = m.next) (hp : n.prev = m.prev)
    (he : ∀ e ∈ header :: l, (n.entry e).start = (m.entry e).start ∧
      (n.entry e).endAddr = (m.entry e).endAddr)
    (hc : n.nentries = m.nentries) (hf : m.freshEntry ≤ n.freshEntry)
    (hh : n.hint ∈ header :: l) (hr : n.firstFree ∈ header :: l) : MapOrder n l := by
  have hmin : n.minOffset = m.minOffset := (he header (by simp)).1
  have hmax : n.maxOffset = m.maxOffset := (he header (by simp)).2
  have hl : ∀ e ∈ l, (n.entry e).start = (m.entry e).start ∧
      (n.entry e).endAddr = (m.entry e).endAddr := fun e hm => he e (List.mem_cons_of_mem _ hm)
  refine ⟨by rw [hn, hp]; exact h.ring, hc.trans h.count, ?_, ?_, ?_, ?_, ?_, hh, hr⟩
  · intro e hm
    exact Nat.lt_of_lt_of_le (h.fresh e hm) hf
  · intro e hm
    rw [(hl e hm).1, (hl e hm).2]
    exact h.span e hm
  · refine h.sorted.imp_of_mem ?_
    intro a b ha hb hab
    rw [(hl a ha).2, (hl b hb).1]
    exact hab
  · intro e hm
    rw [hmin, (hl e hm).1]
    exact h.low e hm
  · intro e hm
    rw [hmax, (hl e hm).2]
    exact h.high e hm

theorem MapOrder.saveHint (h : MapOrder m l) (he : e ∈ header :: l) : MapOrder (m.saveHint e) l :=
  h.congr rfl rfl (fun _ _ => ⟨rfl, rfl⟩) rfl (Nat.le_refl _) he h.free_mem

theorem MapOrder.lock (h : MapOrder m l) : MapOrder (vmMapLock m) l :=
  h.congr rfl rfl (fun _ _ => ⟨rfl, rfl⟩) rfl (Nat.le_refl _) h.hint_mem h.free_mem

theorem MapOrder.setBody {y : VmMapEntry} (h : MapOrder m l) (hs : y.start = (m.entry e).start)
    (he : y.endAddr = (m.entry e).endAddr) : MapOrder (m.setEntry e y) l := by
  refine h.congr rfl rfl ?_ rfl (Nat.le_refl _) h.hint_mem h.free_mem
  intro z _
  by_cases hz : z = e
  · subst hz
    simp [VmMap.setEntry, hs, he]
  · simp [VmMap.setEntry, hz]

theorem MapOrder.cut (h : MapOrder m (l₁ ++ l₂)) :
    m.next (before header l₁) = after l₂ header ∧ m.prev (after l₂ header) = before header l₁ :=
  h.ring.cut

theorem MapOrder.next_header (h : MapOrder m l) : m.next header = after l header :=
  h.ring.seg.cut_nil.1

theorem MapOrder.next_mem (h : MapOrder m l) (he : e ∈ header :: l) : m.next e ∈ header :: l := by
  rcases List.mem_cons.mp he with rfl | hm
  · rw [h.next_header]
    simpa [or_comm] using after_mem l header
  · obtain ⟨p, q, rfl⟩ := List.append_of_mem hm
    have hc : MapOrder m ((p ++ [e]) ++ q) := by simpa using h
    have := hc.cut.1
    rw [before_append_cons, before_nil] at this
    rw [this]
    have := after_mem q header
    simp only [List.mem_append, List.mem_cons] at this ⊢
    tauto

theorem MapOrder.prev_mem (h : MapOrder m l) (he : e ∈ header :: l) : m.prev e ∈ header :: l := by
  rcases List.mem_cons.mp he with rfl | hm
  · have hc : MapOrder m (l ++ []) := by simpa using h
    have := hc.cut.2
    rw [after_nil] at this
    rw [this]
    exact before_mem header l
  · obtain ⟨p, q, rfl⟩ := List.append_of_mem hm
    have := h.cut.2
    rw [after_cons] at this
    rw [this]
    have := before_mem header p
    simp only [List.mem_append, List.mem_cons] at this ⊢
    tauto

theorem MapOrder.after_inj {p q p' q' : List EntryId} (h : MapOrder m l) (hl : l = p ++ q)
    (hl' : l = p' ++ q') (ha : after q header = after q' header) : q = q' := by
  have hh := h.header_not_mem
  have hn := h.nodup
  cases q with
  | nil =>
    cases q' with
    | nil => rfl
    | cons y q' => exact absurd (by rw [hl', show header = y from ha]; simp) hh
  | cons y q =>
    cases q' with
    | nil => exact absurd (by rw [hl, ← show y = header from ha]; simp) hh
    | cons z q' =>
      have hyz : y = z := ha
      subst hyz
      rw [hl] at hn
      have hm := List.nodup_middle.mp hn
      have hno := (List.nodup_cons.mp hm).1
      rw [List.mem_append, not_or] at hno
      have := (List.append_cons_inj_of_notMem hno.1 hno.2).mp (hl ▸ hl')
      rw [this.2.2]

theorem MapOrder.span_le (h : MapOrder m l) (he : e ∈ l) :
    (m.entry e).start.toNat ≤ (m.entry e).endAddr.toNat := BitVec.le_def.mp (h.span e he)

theorem MapOrder.sorted_before (h : MapOrder m (l₁ ++ e :: l₂)) (hx : x ∈ l₁) :
    (m.entry x).endAddr.toNat ≤ (m.entry e).start.toNat :=
  BitVec.le_def.mp ((List.pairwise_append.mp h.sorted).2.2 x hx e (by simp))

theorem MapOrder.sorted_after (h : MapOrder m (l₁ ++ e :: l₂)) (hx : x ∈ l₂) :
    (m.entry e).endAddr.toNat ≤ (m.entry x).start.toNat :=
  BitVec.le_def.mp
    ((List.pairwise_cons.mp (List.pairwise_append.mp h.sorted).2.1).1 x hx)

/-- What a lookup found. -/
structure LookupSpec (m : VmMap) (l : List EntryId) (a : VmOffset) (n : VmMap) (found : Bool)
    (e : EntryId) : Prop where
  map_eq : n = m.saveHint n.hint
  hint_mem : n.hint ∈ header :: l
  hit : found = true → e ∈ l ∧ (m.entry e).start ≤ a ∧ a < (m.entry e).endAddr
  miss : found = false → n.hint = e ∧ ∃ l₁ l₂, l = l₁ ++ l₂ ∧ e = before header l₁ ∧
    (∀ x ∈ l₁, (m.entry x).endAddr ≤ a) ∧ ∀ x ∈ l₂, a < (m.entry x).start

theorem searchEntry_order {last cur : EntryId} {fuel : Nat} {found : Bool} (h : MapOrder m l)
    (hl : l = l₁ ++ l₂) (hcur : cur = after l₂ header) (hlt : ∀ x ∈ l₁, (m.entry x).endAddr ≤ a)
    (hlast : ∀ p q, l = p ++ q → after q header = last → ∀ x ∈ q, a < (m.entry x).start)
    (hend : (∀ x ∈ l, (m.entry x).endAddr ≤ a) → last = header)
    (hs : searchEntry m a last fuel cur = some (n, found, e)) : LookupSpec m l a n found e := by
  induction fuel generalizing l₁ l₂ cur with
  | zero => simp [searchEntry] at hs
  | succ fuel ih =>
    have hmiss : (∀ x ∈ l₂, a < (m.entry x).start) →
        LookupSpec m l a (m.saveHint (m.prev cur)) false (m.prev cur) := by
      intro hgt
      subst hl hcur
      refine ⟨rfl, h.prev_mem ?_, by simp, fun _ => ⟨rfl, l₁, l₂, rfl, h.cut.2, hlt, hgt⟩⟩
      have := after_mem l₂ header
      simp only [List.mem_append, List.mem_cons] at this ⊢
      tauto
    rw [searchEntry] at hs
    split at hs
    next hc =>
      cases Option.some.inj hs
      exact hmiss (hlast l₁ l₂ hl (hcur ▸ hc))
    next hc =>
      cases l₂ with
      | nil =>
        rw [List.append_nil] at hl
        subst hl
        exact absurd (hcur.trans (hend hlt).symm) hc
      | cons y q =>
        cases hcur
        rw [after_cons] at hs hc hmiss
        subst hl
        split at hs
        next hgt =>
          split at hs
          next hst =>
            have hy : y ∈ l₁ ++ y :: q := by simp
            cases Option.some.inj hs
            exact ⟨rfl, List.mem_cons_of_mem _ hy, fun _ => ⟨hy, hst, hgt⟩, by simp⟩
          next hst =>
            cases Option.some.inj hs
            refine hmiss ?_
            intro x hx
            have hys : a.toNat < (m.entry y).start.toNat := by
              simpa [BitVec.le_def] using hst
            rw [BitVec.lt_def]
            rcases List.mem_cons.mp hx with hxy | hx
            · rw [hxy]
              exact hys
            · have := h.sorted_after hx
              have := h.span_le (e := y) (by simp)
              omega
        next hgt =>
          have hc' : MapOrder m ((l₁ ++ [y]) ++ q) := by simpa using h
          have hn : m.next y = after q header := by simpa using hc'.cut.1
          refine ih (show l₁ ++ y :: q = (l₁ ++ [y]) ++ q by simp) hn ?_ hs
          intro x hx
          rcases List.mem_append.mp hx with hx | hx
          · exact hlt x hx
          · cases List.mem_singleton.mp hx
            exact BitVec.not_lt.mp hgt

theorem MapOrder.first_cases (h : MapOrder m l) :
    (if m.hint = header then m.next m.hint else m.hint) ∈ l ∨
      (if m.hint = header then m.next m.hint else m.hint) = header ∧ l = [] := by
  split
  next hh =>
    rw [hh, h.next_header]
    cases l with
    | nil => exact .inr ⟨rfl, rfl⟩
    | cons y l => exact .inl (by simp)
  next hh => exact .inl ((List.mem_cons.mp h.hint_mem).resolve_left hh)

theorem vmMapLookupEntry_order {fuel : Nat} {found : Bool} (h : MapOrder m l)
    (hs : vmMapLookupEntry fuel m a = some (n, found, e)) : LookupSpec m l a n found e := by
  have hfirst := h.next_header
  have hstop : ∀ p q, l = p ++ q → after q header = header → ∀ x ∈ q, a < (m.entry x).start := by
    intro p q hl hq
    have : q = [] := h.after_inj hl (List.append_nil l).symm hq
    simp [this]
  have hcur := h.first_cases
  simp only [vmMapLookupEntry] at hs
  generalize (if m.hint = header then m.next m.hint else m.hint) = cur at hs hcur
  rcases hcur with hm | ⟨rfl, rfl⟩
  · obtain ⟨p, q, hl⟩ := List.append_of_mem hm
    subst hl
    have hne : cur ≠ header := fun he => h.header_not_mem (he ▸ hm)
    split at hs
    next hst =>
      split at hs
      next hq =>
        cases Option.some.inj hs
        exact ⟨rfl, h.hint_mem, fun _ => ⟨hm, hst, hq.2⟩, by simp⟩
      next =>
        refine searchEntry_order h rfl rfl ?_ hstop (fun _ => rfl) hs
        intro x hx
        exact BitVec.le_trans (BitVec.le_def.mpr (h.sorted_before hx)) hst
    next hst =>
      have hgt : a.toNat < (m.entry cur).start.toNat := by simpa [BitVec.le_def] using hst
      have hc : MapOrder m ((p ++ [cur]) ++ q) := by simpa using h
      have hn : m.next cur = after q header := by simpa using hc.cut.1
      have hspan := h.span_le hm
      refine searchEntry_order h (List.nil_append _).symm hfirst (by simp) ?_ ?_ hs
      · intro p' q' hl' hq x hx
        have : q' = q := h.after_inj hl' (show p ++ cur :: q = (p ++ [cur]) ++ q by simp) (hq.trans hn)
        subst this
        have := h.sorted_after hx
        exact BitVec.lt_def.mpr (by omega)
      · intro hall
        have := BitVec.le_def.mp (hall cur hm)
        omega
  · have hgo : ∀ last, last = header → searchEntry m a last fuel header = some (n, found, e) →
        LookupSpec m [] a n found e := fun last hl hs =>
      searchEntry_order h (List.nil_append _).symm rfl (by simp) (hl ▸ hstop) (fun _ => hl) hs
    split at hs
    next =>
      rw [if_neg (by simp)] at hs
      exact hgo header rfl hs
    next =>
      rw [hfirst] at hs
      exact hgo header rfl hs

@[simp] theorem setEntry_entry_self (m : VmMap) (e : EntryId) (y : VmMapEntry) :
    (m.setEntry e y).entry e = y := by simp [VmMap.setEntry]

theorem setEntry_entry_of_ne (m : VmMap) (y : VmMapEntry) (h : x ≠ e) :
    (m.setEntry e y).entry x = m.entry x := by simp [VmMap.setEntry, h]

theorem MapOrder.ne_header (h : MapOrder m l) (he : e ∈ l) : e ≠ header :=
  fun hc => h.header_not_mem (hc ▸ he)

theorem MapOrder.setEntry_bounds (h : MapOrder m l) (he : e ∈ l) :
    (m.setEntry e y).minOffset = m.minOffset ∧ (m.setEntry e y).maxOffset = m.maxOffset := by
  have : header ≠ e := (h.ne_header he).symm
  simp [VmMap.minOffset, VmMap.maxOffset, setEntry_entry_of_ne m y this]

theorem MapOrder.ne_before (h : MapOrder m (l₁ ++ e :: l₂)) (hx : x ∈ l₁) : x ≠ e := by
  rintro rfl
  exact (List.nodup_cons.mp (List.nodup_middle.mp h.nodup)).1 (List.mem_append_left _ hx)

theorem MapOrder.ne_after (h : MapOrder m (l₁ ++ e :: l₂)) (hx : x ∈ l₂) : x ≠ e := by
  rintro rfl
  exact (List.nodup_cons.mp (List.nodup_middle.mp h.nodup)).1 (List.mem_append_right _ hx)

theorem MapOrder.resize (h : MapOrder m (l₁ ++ e :: l₂)) (hs : y.start ≤ y.endAddr)
    (hmin : m.minOffset ≤ y.start) (hmax : y.endAddr ≤ m.maxOffset)
    (hl : ∀ x ∈ l₁, (m.entry x).endAddr ≤ y.start)
    (hr : ∀ x ∈ l₂, y.endAddr ≤ (m.entry x).start) : MapOrder (m.setEntry e y) (l₁ ++ e :: l₂) := by
  have hm : e ∈ l₁ ++ e :: l₂ := by simp
  have hb := h.setEntry_bounds (y := y) hm
  obtain ⟨hs₁, hs₂, hs₃⟩ := List.pairwise_append.mp h.sorted
  obtain ⟨hs₄, hs₅⟩ := List.pairwise_cons.mp hs₂
  have hn₁ : ∀ x ∈ l₁, x ≠ e := fun x hx => h.ne_before hx
  have hn₂ : ∀ x ∈ l₂, x ≠ e := fun x hx => h.ne_after hx
  refine ⟨h.ring, h.count, h.fresh, ?_, ?_, ?_, ?_, h.hint_mem, h.free_mem⟩
  · intro z hz
    by_cases hze : z = e
    · simpa [hze] using hs
    · rw [setEntry_entry_of_ne m y hze]
      exact h.span z hz
  · rw [List.pairwise_append, List.pairwise_cons]
    refine ⟨?_, ⟨?_, ?_⟩, ?_⟩
    · refine hs₁.imp_of_mem ?_
      intro a b ha hb hab
      rwa [setEntry_entry_of_ne m y (hn₁ a ha), setEntry_entry_of_ne m y (hn₁ b hb)]
    · intro z hz
      rw [setEntry_entry_self, setEntry_entry_of_ne m y (hn₂ z hz)]
      exact hr z hz
    · refine hs₅.imp_of_mem ?_
      intro a b ha hb hab
      rwa [setEntry_entry_of_ne m y (hn₂ a ha), setEntry_entry_of_ne m y (hn₂ b hb)]
    · intro a ha b hb
      rw [setEntry_entry_of_ne m y (hn₁ a ha)]
      rcases List.mem_cons.mp hb with rfl | hb
      · rw [setEntry_entry_self]
        exact hl a ha
      · rw [setEntry_entry_of_ne m y (hn₂ b hb)]
        exact hs₃ a ha b (List.mem_cons_of_mem _ hb)
  · intro z hz
    rw [hb.1]
    by_cases hze : z = e
    · simpa [hze] using hmin
    · rw [setEntry_entry_of_ne m y hze]
      exact h.low z hz
  · intro z hz
    rw [hb.2]
    by_cases hze : z = e
    · simpa [hze] using hmax
    · rw [setEntry_entry_of_ne m y hze]
      exact h.high z hz

theorem MapOrder.narrow (h : MapOrder m (l₁ ++ e :: l₂)) (hs : y.start ≤ y.endAddr)
    (hlo : (m.entry e).start ≤ y.start) (hhi : y.endAddr ≤ (m.entry e).endAddr) :
    MapOrder (m.setEntry e y) (l₁ ++ e :: l₂) := by
  have hm : e ∈ l₁ ++ e :: l₂ := by simp
  refine h.resize hs ?_ ?_ ?_ ?_
  · exact BitVec.le_trans (h.low e hm) hlo
  · exact BitVec.le_trans hhi (h.high e hm)
  · intro x hx
    exact BitVec.le_trans (BitVec.le_def.mpr (h.sorted_before hx)) hlo
  · intro x hx
    exact BitVec.le_trans hhi (BitVec.le_def.mpr (h.sorted_after hx))

theorem MapOrder.link (h : MapOrder m (l₁ ++ l₂)) (hs : y.start ≤ y.endAddr)
    (hmin : m.minOffset ≤ y.start) (hmax : y.endAddr ≤ m.maxOffset)
    (hl : ∀ x ∈ l₁, (m.entry x).endAddr ≤ y.start)
    (hr : ∀ x ∈ l₂, y.endAddr ≤ (m.entry x).start) :
    MapOrder (vmMapEntryLink ((vmMapEntryCreate m).1.setEntry m.freshEntry y) (before header l₁)
      m.freshEntry) (l₁ ++ m.freshEntry :: l₂) := by
  have hnew := h.fresh_not_mem
  have hmem : ∀ x, x ∈ l₁ ++ m.freshEntry :: l₂ ↔ x = m.freshEntry ∨ x ∈ l₁ ++ l₂ := by
    intro x
    simp only [List.mem_append, List.mem_cons]
    tauto
  have hold : ∀ x ∈ header :: (l₁ ++ l₂),
      ((vmMapEntryCreate m).1.setEntry m.freshEntry y).entry x = m.entry x := fun x hx =>
    setEntry_entry_of_ne _ y fun hc => hnew (hc ▸ hx)
  have hold₁ : ∀ x ∈ l₁, ((vmMapEntryCreate m).1.setEntry m.freshEntry y).entry x = m.entry x :=
    fun x hx => hold x (by simp [hx])
  have hold₂ : ∀ x ∈ l₂, ((vmMapEntryCreate m).1.setEntry m.freshEntry y).entry x = m.entry x :=
    fun x hx => hold x (by simp [hx])
  obtain ⟨hs₁, hs₂, hs₃⟩ := List.pairwise_append.mp h.sorted
  have hbounds : ∀ x ∈ l₁ ++ m.freshEntry :: l₂,
      (((vmMapEntryCreate m).1.setEntry m.freshEntry y).entry x).start ≤
          (((vmMapEntryCreate m).1.setEntry m.freshEntry y).entry x).endAddr ∧
        m.minOffset ≤ (((vmMapEntryCreate m).1.setEntry m.freshEntry y).entry x).start ∧
        (((vmMapEntryCreate m).1.setEntry m.freshEntry y).entry x).endAddr ≤ m.maxOffset := by
    intro x hx
    rcases (hmem x).mp hx with rfl | hx
    · rw [setEntry_entry_self]
      exact ⟨hs, hmin, hmax⟩
    · rw [hold x (List.mem_cons_of_mem _ hx)]
      exact ⟨h.span x hx, h.low x hx, h.high x hx⟩
  have hhead := hold header (by simp)
  have hring := h.ring.insert hnew
  rw [← h.cut.1] at hring
  have hcons : ∀ x ∈ header :: (l₁ ++ l₂), x ∈ header :: (l₁ ++ m.freshEntry :: l₂) := by
    intro x hx
    rcases List.mem_cons.mp hx with rfl | hx
    · simp
    · exact List.mem_cons_of_mem _ ((hmem x).mpr (.inr hx))
  refine ⟨hring, ?_, ?_, fun x hx => (hbounds x hx).1, ?_, ?_, ?_, hcons _ h.hint_mem,
    hcons _ h.free_mem⟩
  · have := h.count
    simp only [vmMapEntryLink, VmMap.setEntry, vmMapEntryCreate, List.length_append,
      List.length_cons] at this ⊢
    omega
  · intro x hx
    refine Nat.lt_succ_of_le ?_
    rcases List.mem_cons.mp hx with rfl | hx
    · exact Nat.le_of_lt (h.fresh _ (by simp))
    · rcases (hmem x).mp hx with rfl | hx
      · exact Nat.le_refl _
      · exact Nat.le_of_lt (h.fresh x (List.mem_cons_of_mem _ hx))
  · change (l₁ ++ m.freshEntry :: l₂).Pairwise fun a b =>
      (((vmMapEntryCreate m).1.setEntry m.freshEntry y).entry a).endAddr ≤
        (((vmMapEntryCreate m).1.setEntry m.freshEntry y).entry b).start
    rw [List.pairwise_append, List.pairwise_cons]
    refine ⟨?_, ⟨?_, ?_⟩, ?_⟩
    · refine hs₁.imp_of_mem ?_
      intro a b ha hb hab
      rwa [hold₁ a ha, hold₁ b hb]
    · intro z hz
      rw [setEntry_entry_self, hold₂ z hz]
      exact hr z hz
    · refine hs₂.imp_of_mem ?_
      intro a b ha hb hab
      rwa [hold₂ a ha, hold₂ b hb]
    · intro a ha b hb
      rw [hold₁ a ha]
      rcases List.mem_cons.mp hb with rfl | hb
      · rw [setEntry_entry_self]
        exact hl a ha
      · rw [hold₂ b hb]
        exact hs₃ a ha b hb
  · intro x hx
    have := (hbounds x hx).2.1
    rwa [VmMap.minOffset, ← hhead] at this
  · intro x hx
    have := (hbounds x hx).2.2
    rwa [VmMap.maxOffset, ← hhead] at this

theorem MapOrder.unlink (h : MapOrder m (l₁ ++ e :: l₂)) (hh : m.hint ≠ e) (hf : m.firstFree ≠ e) :
    MapOrder (vmMapEntryUnlink m e) (l₁ ++ l₂) := by
  have hsub : (l₁ ++ l₂).Sublist (l₁ ++ e :: l₂) := (List.sublist_cons_self e l₂).append_left l₁
  have hmem : ∀ x ∈ l₁ ++ l₂, x ∈ l₁ ++ e :: l₂ := fun x hx => hsub.subset hx
  have hdrop : ∀ x ∈ header :: (l₁ ++ e :: l₂), x ≠ e → x ∈ header :: (l₁ ++ l₂) := by
    intro x hx hne
    simp only [List.mem_cons, List.mem_append] at hx ⊢
    tauto
  have hp : m.prev e = before header l₁ := by simpa using h.cut.2
  have hc : MapOrder m ((l₁ ++ [e]) ++ l₂) := by simpa using h
  have hn : m.next e = after l₂ header := by simpa using hc.cut.1
  have hring := h.ring.remove
  rw [← hp, ← hn] at hring
  refine ⟨hring, ?_, ?_, fun x hx => h.span x (hmem x hx), h.sorted.sublist hsub,
    fun x hx => h.low x (hmem x hx), fun x hx => h.high x (hmem x hx), hdrop _ h.hint_mem hh,
    hdrop _ h.free_mem hf⟩
  · have := h.count
    simp only [vmMapEntryUnlink, List.length_append, List.length_cons] at this ⊢
    omega
  · intro x hx
    refine h.fresh x ?_
    rcases List.mem_cons.mp hx with rfl | hx
    · simp
    · exact List.mem_cons_of_mem _ (hmem x hx)

theorem clipFront_eq (h : MapOrder m (l₁ ++ e :: l₂)) :
    clipFront m e a =
      let x := m.entry e
      let n := m.setEntry e { x with offset := x.offset + (a - x.start), start := a }
      vmMapEntryLink ((vmMapEntryCreate n).1.setEntry n.freshEntry { x with endAddr := a })
        (before header l₁) n.freshEntry := by
  have hne : m.freshEntry ≠ e := fun hc => h.fresh_not_mem (hc ▸ by simp)
  have hp : m.prev e = before header l₁ := by simpa using h.cut.2
  simp only [clipFront, vmMapEntryCreate, VmMap.setEntry, hp]
  rw [Function.update_comm hne]

theorem clipBack_eq (h : MapOrder m (l₁ ++ e :: l₂)) :
    clipBack m e a =
      let x := m.entry e
      let n := m.setEntry e { x with endAddr := a }
      vmMapEntryLink ((vmMapEntryCreate n).1.setEntry n.freshEntry
        { x with start := a, offset := x.offset + (a - x.start) })
        (before header (l₁ ++ [e])) n.freshEntry := by
  have hne : m.freshEntry ≠ e := fun hc => h.fresh_not_mem (hc ▸ by simp)
  simp only [clipBack, vmMapEntryCreate, VmMap.setEntry, before_append_cons, before_nil]
  rw [Function.update_comm hne]

theorem clipFront_entry_self (m : VmMap) (e : EntryId) (a : VmOffset) :
    ((clipFront m e a).entry e) = { m.entry e with
      offset := (m.entry e).offset + (a - (m.entry e).start), start := a } := by
  simp [clipFront, vmMapEntryLink, vmMapEntryCreate, VmMap.setEntry]

theorem clipBack_entry_self (m : VmMap) (e : EntryId) (a : VmOffset) :
    ((clipBack m e a).entry e) = { m.entry e with endAddr := a } := by
  simp [clipBack, vmMapEntryLink, vmMapEntryCreate, VmMap.setEntry]

end MachVM
