import MachVM.MapView

namespace MachVM

open Ring

variable {σ : Type} {S : Services σ} {k k' : Kernel σ} {i j : MapId} {m n : VmMap}
  {l l₁ l₂ : List EntryId} {e x first : EntryId} {a b start endAddr : VmOffset} {fuel : Nat}
  {newProt oldProt mask : VmProt} {setMax : Bool} {y : VmMapEntry} {kr : KernReturn}

/-- A call of `pmap_protect`. -/
structure PmapProtectCall where
  pmap : Option PmapId
  start : VmOffset
  endAddr : VmOffset
  prot : VmProt
  deriving DecidableEq, Repr

/-- A machine that remembers its calls of `pmap_protect`, and calls nothing of the kind when it
takes a reference. -/
structure Remembers (S : Services σ) (calls : σ → List PmapProtectCall) : Prop where
  protect {s t : σ} {pmap : Option PmapId} {lo hi : VmOffset} {prot : VmProt} :
    S.pmapProtect s pmap lo hi prot = some t → calls t = calls s ++ [⟨pmap, lo, hi, prot⟩]
  reference {s t : σ} {o : Option ObjId} : S.objectReference s o = some t → calls t = calls s

/-- The second pass changes an address that lies below the end of the range. -/
def protectBelow (endAddr : VmOffset) (newProt : VmProt) (setMax : Bool) (x : VmMapEntry) : VmMapEntry :=
  if x.start < endAddr then protectEntry x newProt setMax else x

theorem protectEntry_locate (x : VmMapEntry) (b : VmOffset) :
    (protectEntry x newProt setMax).locate b = protectEntry (x.locate b) newProt setMax := by
  cases setMax <;> rfl

/-- Every address of an entry behind a sharing map is mapped there. -/
def SharesBacked (k : Kernel σ) (i : MapId) : Prop :=
  ∀ a x, pageAt (k.map i) a = some x → x.isAMap = true →
    ∃ j, x.object = .map j ∧ (pageAt (k.map j) x.offset).isSome

/-- A call made for part of an entry, behind which map `n` shares it. -/
structure ShareCall (pmap : Option PmapId) (n : VmMap) (x : VmMapEntry) (c : PmapProtectCall) : Prop where
  pmap_eq : c.pmap = pmap
  low : x.start ≤ c.start
  order : c.start < c.endAddr
  high : c.endAddr ≤ x.endAddr
  share : ∃ f, entryAt n ((c.start - x.start) + x.offset) = some f ∧
    (c.endAddr - x.start) + x.offset ≤ (n.entry f).endAddr ∧
    c.prot = x.protection &&& protectMask (n.entry f)

/-- A call made for an entry of map `i`; a direct one is masked as given. -/
def CallOf (k : Kernel σ) (i : MapId) (mask : VmProt) (e : EntryId) (c : PmapProtectCall) : Prop :=
  let x := (k.map i).entry e
  if x.isAMap then ∃ j, x.object = .map j ∧ j < k.freshMap ∧ j ≠ i ∧ ShareCall (k.map i).pmap (k.map j) x c
  else c = ⟨(k.map i).pmap, x.start, x.endAddr, x.protection &&& mask⟩

theorem protectShare_calls {calls : σ → List PmapProtectCall} {pmap : Option PmapId} {s t : σ}
    {f : EntryId} (hS : Remembers S calls) (h : MapInv n (l₁ ++ l₂)) (hf : f = after l₂ header)
    (hspan : y.start < y.endAddr)
    (hwrap : y.offset.toNat + (y.endAddr.toNat - y.start.toNat) < 2 ^ 32)
    (habove : ∀ z ∈ l₂, y.offset < (n.entry z).endAddr)
    (hs : protectShare S pmap n y (y.offset + (y.endAddr - y.start)) fuel s f = some t) :
    ∃ new, calls t = calls s ++ new ∧ ∀ c ∈ new, ShareCall pmap n y c := by
  induction fuel generalizing s f l₁ l₂ with
  | zero => simp [protectShare] at hs
  | succ fuel ih =>
    rw [protectShare] at hs
    simp only at hs
    split at hs
    next hc =>
      obtain ⟨q, rfl⟩ := h.at_cons hf hc.1
      have hmem : f ∈ l₁ ++ f :: q := by simp
      obtain ⟨s₁, hp, hs⟩ := Option.bind_eq_some_iff.mp hs
      have h' : MapInv n ((l₁ ++ [f]) ++ q) := by simpa using h
      obtain ⟨new, hnew, hall⟩ := ih h' h.next_at (fun z hz => habove z (List.mem_cons_of_mem f hz)) hs
      have hspanf := BitVec.lt_def.mp (h.span f hmem)
      have hab := BitVec.lt_def.mp (habove f List.mem_cons_self)
      have hlt := BitVec.lt_def.mp hc.2
      have hy := BitVec.lt_def.mp hspan
      have hend : (y.offset + (y.endAddr - y.start)).toNat =
          y.offset.toNat + (y.endAddr.toNat - y.start.toNat) := by bv_omega
      -- the two ends of the part of this entry that lies behind `y`
      obtain ⟨lo, hlo⟩ : ∃ lo, lo = if y.offset < (n.entry f).start then (n.entry f).start else y.offset :=
        ⟨_, rfl⟩
      obtain ⟨hi, hhi⟩ : ∃ hi, hi = if (n.entry f).endAddr < y.offset + (y.endAddr - y.start)
        then (n.entry f).endAddr else y.offset + (y.endAddr - y.start) := ⟨_, rfl⟩
      rw [← hlo, ← hhi] at hp
      have hlo' : y.offset.toNat ≤ lo.toNat ∧ (n.entry f).start.toNat ≤ lo.toNat ∧
          lo.toNat < (n.entry f).endAddr.toNat ∧ lo.toNat < (y.offset + (y.endAddr - y.start)).toNat := by
        rw [hlo]
        split
        next hh =>
          have := BitVec.lt_def.mp hh
          omega
        next hh =>
          have := BitVec.le_def.mp (BitVec.not_lt.mp hh)
          omega
      have hhi' : hi.toNat ≤ (n.entry f).endAddr.toNat ∧
          hi.toNat ≤ (y.offset + (y.endAddr - y.start)).toNat ∧ lo.toNat < hi.toNat := by
        rw [hhi]
        split
        next hh =>
          have := BitVec.lt_def.mp hh
          omega
        next hh =>
          have := BitVec.le_def.mp (BitVec.not_lt.mp hh)
          omega
      refine ⟨⟨pmap, lo - y.offset + y.start, hi - y.offset + y.start,
        y.protection &&& protectMask (n.entry f)⟩ :: new, ?_, ?_⟩
      · rw [hnew, hS.protect hp, List.append_assoc, List.singleton_append]
      · intro c hcm
        rcases List.mem_cons.mp hcm with rfl | hcm
        · have hlow : lo - y.offset + y.start - y.start + y.offset = lo := by bv_omega
          have hhigh : hi - y.offset + y.start - y.start + y.offset = hi := by bv_omega
          refine ⟨rfl, ?_, ?_, ?_, f, ?_, ?_, rfl⟩
          · simp only [BitVec.le_def]
            bv_omega
          · simp only [BitVec.lt_def]
            bv_omega
          · simp only [BitVec.le_def]
            bv_omega
          · simp only [hlow]
            exact h.entryAt hmem (BitVec.le_def.mpr hlo'.2.1) (BitVec.lt_def.mpr hlo'.2.2.1)
          · simp only [hhigh]
            exact BitVec.le_def.mpr hhi'.1
        · exact hall c hcm
    next =>
      cases Option.some.inj hs
      exact ⟨[], (List.append_nil _).symm, by simp⟩

theorem SharesBacked.entry (hb : SharesBacked k i) (h : LiveMap k.freshMap i (k.map i) l) (he : e ∈ l)
    (hm : ((k.map i).entry e).isAMap = true) :
    ∃ j, ((k.map i).entry e).object = .map j ∧ j < k.freshMap ∧ j ≠ i ∧
      (∃ f, entryAt (k.map j) ((k.map i).entry e).offset = some f) ∧
      (∀ lj, MapInv (k.map j) lj → ((k.map i).entry e).offset.toNat +
        (((k.map i).entry e).endAddr.toNat - ((k.map i).entry e).start.toNat) < 2 ^ 32) := by
  have hspan := BitVec.lt_def.mp (h.1.span e he)
  have hat : ∀ a, ((k.map i).entry e).start ≤ a → a < ((k.map i).entry e).endAddr →
      ∃ j, ((k.map i).entry e).object = .map j ∧
        (pageAt (k.map j) (((k.map i).entry e).offset + (a - ((k.map i).entry e).start))).isSome := by
    intro a hlo hhi
    refine hb a (((k.map i).entry e).locate a) ?_ hm
    rw [h.1.pageAt_eq]
    exact h.1.view_mem he hlo hhi
  obtain ⟨j, hj, hsome⟩ := hat _ (BitVec.le_refl _) (h.1.span e he)
  have hshare := h.2 e he j (by simp [hj, MapObject.shareMap])
  refine ⟨j, hj, hshare.1, hshare.2, ?_, ?_⟩
  · obtain ⟨z, hz⟩ := Option.isSome_iff_exists.mp hsome
    obtain ⟨f, hf, -⟩ := Option.map_eq_some_iff.mp hz
    refine ⟨f, ?_⟩
    rwa [show ((k.map i).entry e).offset + (((k.map i).entry e).start - ((k.map i).entry e).start) =
      ((k.map i).entry e).offset by bv_omega] at hf
  · intro lj hlj
    by_contra hw
    -- the address at which the offset would be the last one of the address space
    obtain ⟨j', hj', hsome'⟩ := hat
      (((k.map i).entry e).start + (0xFFFFFFFF#32 - ((k.map i).entry e).offset))
      (by simp only [BitVec.le_def]; bv_omega) (by simp only [BitVec.lt_def]; bv_omega)
    rw [hj] at hj'
    cases hj'
    obtain ⟨z, hz⟩ := Option.isSome_iff_exists.mp hsome'
    obtain ⟨f, hf, -⟩ := Option.map_eq_some_iff.mp hz
    have hhi := BitVec.lt_def.mp (hlj.entryAt_iff.mp hf).2.2
    have hlast : ((k.map i).entry e).offset + (((k.map i).entry e).start +
        (0xFFFFFFFF#32 - ((k.map i).entry e).offset) - ((k.map i).entry e).start) = 0xFFFFFFFF#32 := by
      bv_omega
    rw [hlast] at hhi
    have := ((k.map j).entry f).endAddr.isLt
    have hval : (0xFFFFFFFF#32).toNat = 0xFFFFFFFF := rfl
    omega

theorem Others.entryAt (ho : Others i k k') (hk : MapsInOrder k) (hj : j < k.freshMap) (hji : j ≠ i)
    (a : VmOffset) : MachVM.entryAt (k'.map j) a = MachVM.entryAt (k.map j) a := by
  obtain ⟨lj, hlj⟩ := hk j hj
  have hlj' := ho.live j hji _ lj hlj
  apply Option.ext
  intro f
  rw [hlj.1.entryAt_iff, hlj'.1.entryAt_iff, ho.entry j hji]

theorem CallOf.others {c : PmapProtectCall} (hc : CallOf k i mask e c) (hk : MapsInOrder k)
    (ho : Others i k k') (he : (k'.map i).entry e = (k.map i).entry e)
    (hp : (k'.map i).pmap = (k.map i).pmap) : CallOf k' i mask e c := by
  unfold CallOf at hc ⊢
  rw [he, hp]
  dsimp only at hc ⊢
  split
  next hm =>
    rw [if_pos hm] at hc
    obtain ⟨j, hobj, hj, hji, hs⟩ := hc
    obtain ⟨f, hf, hhi, hprot⟩ := hs.share
    refine ⟨j, hobj, ho.fresh ▸ hj, hji, hs.pmap_eq, hs.low, hs.order, hs.high, f, ?_, ?_, ?_⟩
    · rw [ho.entryAt hk hj hji]
      exact hf
    · rw [ho.entry j hji]
      exact hhi
    · rw [ho.entry j hji]
      exact hprot
  next hm =>
    rwa [if_neg hm] at hc

theorem protectPhysical_calls (hk : MapsInOrder k) (h : LiveMap k.freshMap i (k.map i) l) (he : e ∈ l)
    (hs : protectPhysical S fuel k i oldProt first e = some k') :
    k'.map i = k.map i ∧ Others i k k' ∧
      ∀ calls : σ → List PmapProtectCall, Remembers S calls → SharesBacked k i →
        ∃ new, calls k'.machine = calls k.machine ++ new ∧
          (∀ c ∈ new, CallOf k i (protectMask ((k.map i).entry first)) e c ∧
            ((k.map i).entry e).protection ≠ oldProt) ∧
          (((k.map i).entry e).isAMap = false → ((k.map i).entry e).protection ≠ oldProt →
            ⟨(k.map i).pmap, ((k.map i).entry e).start, ((k.map i).entry e).endAddr,
              ((k.map i).entry e).protection &&& protectMask ((k.map i).entry first)⟩ ∈ new) := by
  simp only [protectPhysical] at hs
  split at hs
  next hp =>
    cases Option.some.inj hs
    exact ⟨rfl, .refl i k, fun _ _ _ => ⟨[], (List.append_nil _).symm, by simp, fun _ hne => absurd hp hne⟩⟩
  next hp =>
    split at hs
    next hm =>
      obtain ⟨j, hj, hs⟩ := Option.bind_eq_some_iff.mp hs
      obtain ⟨⟨n, found, f⟩, hl, hs⟩ := Option.bind_eq_some_iff.mp hs
      obtain ⟨t, ht, rfl⟩ := Option.map_eq_some_iff.mp hs
      obtain ⟨hjf, hji⟩ := h.2 e he j hj
      have hmap : (((lockMap k j).setMap j n).setMachine t).map i = k.map i := by
        rw [setMachine_map, setMap_map, if_neg hji.symm, lockMap, setMap_map, if_neg hji.symm]
      have hlock : Others i k (lockMap k j) := by
        refine ⟨rfl, ?_, ?_⟩
        · intro z _
          rw [lockMap, setMap_map]
          split
          next hz => rw [hz]; rfl
          next => rfl
        · intro z _ b lz hlz
          rw [lockMap, setMap_map]
          split
          next hz => exact hz ▸ hlz.lock
          next => exact hlz
      have ho : Others i k (((lockMap k j).setMap j n).setMachine t) :=
        (hlock.trans (lookup_others hl)).trans (others_setMachine i _ t)
      refine ⟨hmap, ho, ?_⟩
      intro calls hS hb
      obtain ⟨j', hobj, -, -, ⟨f', hf'⟩, hwrap⟩ := hb.entry h he hm
      rw [hobj] at hj
      cases Option.some.inj hj
      obtain ⟨lj, hlj⟩ := hk j hjf
      have hlj' : MapInv ((lockMap k j).map j) lj := by
        rw [lockMap, setMap_map_self]
        exact hlj.1.lock
      have hsp := vmMapLookupEntry_spec hlj' hl
      have hentry : n.entry = (k.map j).entry := by
        rw [hsp.entry_eq, lockMap, setMap_map_self]
        rfl
      have hnj : MapInv n lj := by
        rw [hsp.map_eq]
        exact hlj'.saveHint hsp.hint_mem
      have hanswer := hsp.answer hlj'
      have hsame : entryAt ((lockMap k j).map j) ((k.map i).entry e).offset =
          entryAt (k.map j) ((k.map i).entry e).offset := by
        rw [lockMap, setMap_map_self]
        apply entryAt_congr <;> rfl
      rw [hsame, hf'] at hanswer
      obtain ⟨-, hff⟩ := hanswer
      have hff' : f = f' := hff
      subst hff'
      obtain ⟨hfm, hflo, hfhi⟩ := hlj.1.entryAt_iff.mp hf'
      obtain ⟨p, q, rfl⟩ := List.append_of_mem hfm
      have habove : ∀ z ∈ f :: q, ((k.map i).entry e).offset < (n.entry z).endAddr := by
        intro z hz
        rw [hentry]
        rcases List.mem_cons.mp hz with rfl | hz
        · exact hfhi
        · have := hlj.1.sorted_after hz
          have := hlj.1.span_le (e := z) (by simp [hz])
          have := BitVec.lt_def.mp hfhi
          rw [BitVec.lt_def]
          omega
      have hspan := h.1.span e he
      rw [setMap_map, if_neg hji.symm, lockMap, setMap_map, if_neg hji.symm] at ht
      obtain ⟨new, hnew, hall⟩ := protectShare_calls hS hnj rfl hspan (hwrap _ hlj.1) habove ht
      refine ⟨new, hnew, ?_, fun hno => absurd hm (by simp [hno])⟩
      intro c hc
      have hsc := hall c hc
      refine ⟨?_, hp⟩
      simp only [CallOf, if_pos hm]
      refine ⟨j, hobj, hjf, hji, hsc.pmap_eq, hsc.low, hsc.order, hsc.high, ?_⟩
      obtain ⟨g, hg, hghi, hgprot⟩ := hsc.share
      rw [hentry] at hghi hgprot
      refine ⟨g, ?_, hghi, hgprot⟩
      rw [hlj.1.entryAt_iff]
      have hgm := hnj.entryAt_iff.mp hg
      rwa [hentry] at hgm
    next hm =>
      obtain ⟨t, ht, rfl⟩ := Option.map_eq_some_iff.mp hs
      refine ⟨rfl, others_setMachine i k t, ?_⟩
      intro calls hS _
      refine ⟨[⟨(k.map i).pmap, ((k.map i).entry e).start, ((k.map i).entry e).endAddr,
        ((k.map i).entry e).protection &&& protectMask ((k.map i).entry first)⟩], hS.protect ht, ?_, ?_⟩
      · intro c hc
        refine ⟨?_, hp⟩
        simp only [CallOf, if_neg hm]
        exact List.mem_singleton.mp hc
      · exact fun _ _ => List.mem_singleton_self _

theorem entryReference_calls {calls : σ → List PmapProtectCall} (hS : Remembers S calls)
    (hs : entryReference S k y = some k') : calls k'.machine = calls k.machine := by
  rw [entryReference] at hs
  split at hs
  next =>
    cases Option.some.inj hs
    cases y.object.shareMap <;> rfl
  next =>
    obtain ⟨t, ht, rfl⟩ := Option.map_eq_some_iff.mp hs
    exact hS.reference ht

theorem vmMapClipEnd_calls {calls : σ → List PmapProtectCall} (hS : Remembers S calls)
    (hs : vmMapClipEnd S k i e a = some k') : calls k'.machine = calls k.machine := by
  simp only [vmMapClipEnd] at hs
  split at hs
  next =>
    have := entryReference_calls hS hs
    exact this
  next =>
    cases Option.some.inj hs
    rfl

theorem firstInRange_calls {calls : σ → List PmapProtectCall} (hS : Remembers S calls)
    (hs : firstInRange S fuel k i a = some (k', e)) : calls k'.machine = calls k.machine := by
  obtain ⟨⟨m, found, x⟩, -, hs⟩ := Option.bind_eq_some_iff.mp hs
  cases found with
  | true =>
    obtain ⟨k₁, hk, hs⟩ := Option.bind_eq_some_iff.mp hs
    cases Option.some.inj hs
    simp only [vmMapClipStart] at hk
    split at hk
    next =>
      have := entryReference_calls hS hk
      exact this
    next =>
      cases Option.some.inj hk
      rfl
  | false =>
    cases Option.some.inj hs
    rfl

theorem SharesBacked.congr (hb : SharesBacked k i) (hk : MapsInOrder k)
    (hl : ∀ a x, pageAt (k.map i) a = some x → ∀ j, x.object = .map j → j < k.freshMap ∧ j ≠ i)
    (ho : Others i k k')
    (hv : ∀ a x', pageAt (k'.map i) a = some x' → ∃ x, pageAt (k.map i) a = some x ∧
      x.isAMap = x'.isAMap ∧ x.object = x'.object ∧ x.offset = x'.offset) : SharesBacked k' i := by
  intro a x' hx' hm
  obtain ⟨x, hx, hxm, hobj, hoff⟩ := hv a x' hx'
  obtain ⟨j, hj, hsome⟩ := hb a x hx (hxm.trans hm)
  obtain ⟨hjf, hji⟩ := hl a x hx j hj
  refine ⟨j, hobj.symm.trans hj, ?_⟩
  rw [← hoff, ho.pageAt hk hjf hji]
  exact hsome

theorem LiveMap.object_lt {bound : MapId} (h : LiveMap bound i m l) (hx : pageAt m a = some y) (j : MapId)
    (hj : y.object = .map j) : j < bound ∧ j ≠ i := by
  rw [h.1.pageAt_eq] at hx
  obtain ⟨e, he, -, -, rfl⟩ := view_eq_some hx
  have hobj : (m.entry e).object = .map j := hj
  exact h.2 e he j (by simp [hobj, MapObject.shareMap])

theorem protectEntry_fields (newProt : VmProt) (setMax : Bool) (x : VmMapEntry) :
    (protectEntry x newProt setMax).start = x.start ∧
      (protectEntry x newProt setMax).endAddr = x.endAddr ∧
      (protectEntry x newProt setMax).object = x.object ∧
      (protectEntry x newProt setMax).offset = x.offset ∧
      (protectEntry x newProt setMax).isAMap = x.isAMap ∧
      (protectEntry x newProt setMax).isSubMap = x.isSubMap ∧
      (protectEntry x newProt setMax).copyOnWrite = x.copyOnWrite := by
  cases setMax <;> exact ⟨rfl, rfl, rfl, rfl, rfl, rfl, rfl⟩

theorem protectTurn_view (h : LiveMap k.freshMap i (k.map i) (l₁ ++ e :: l₂)) (hk : MapsInOrder k)
    (hlt : ((k.map i).entry e).start < endAddr) {k₁ : Kernel σ}
    (hc : vmMapClipEnd S k i e endAddr = some k₁)
    (hs : protectPhysical S fuel
      (k₁.setEntry i e (protectEntry ((k₁.map i).entry e) newProt setMax)) i
      ((k₁.map i).entry e).protection first e = some k') :
    ∃ q, LiveMap k'.freshMap i (k'.map i) (l₁ ++ e :: q) ∧ Others i k k' ∧
      (∀ x ∈ l₁, (k'.map i).entry x = (k.map i).entry x) ∧
      ((k'.map i).entry e).start = ((k.map i).entry e).start ∧
      ((k'.map i).entry e).endAddr ≤ endAddr ∧
      ((k'.map i).entry e).endAddr ≤ ((k.map i).entry e).endAddr ∧
      ((k'.map i).entry e).isAMap = ((k.map i).entry e).isAMap ∧
      ((k'.map i).entry e).copyOnWrite = ((k.map i).entry e).copyOnWrite ∧
      ((k'.map i).entry e).protection =
        (protectEntry ((k.map i).entry e) newProt setMax).protection ∧
      (k'.map i).pmap = (k.map i).pmap ∧
      (∀ b, view (k'.map i) (e :: q) b = if b < ((k'.map i).entry e).endAddr
        then (view (k.map i) (e :: l₂) b).map fun x => protectEntry x newProt setMax
        else view (k.map i) (e :: l₂) b) ∧
      ∀ calls : σ → List PmapProtectCall, Remembers S calls → SharesBacked k i →
        ∃ new, calls k'.machine = calls k.machine ++ new ∧
          (∀ c ∈ new, CallOf k' i (protectMask ((k'.map i).entry first)) e c ∧
            ((k'.map i).entry e).protection ≠ ((k.map i).entry e).protection) ∧
          (((k'.map i).entry e).isAMap = false →
            ((k'.map i).entry e).protection ≠ ((k.map i).entry e).protection →
            ⟨(k'.map i).pmap, ((k'.map i).entry e).start, ((k'.map i).entry e).endAddr,
              ((k'.map i).entry e).protection &&& protectMask ((k'.map i).entry first)⟩ ∈ new) := by
  obtain ⟨q, hq, ho₁, hkeep, ⟨c, hcut, hle, hsmall⟩, hpmap, hview⟩ := vmMapClipEnd_view h hlt hc
  obtain ⟨fs, fe, fo, foff, fm, fsub, fc⟩ := protectEntry_fields newProt setMax
    ((k₁.map i).entry e)
  have hk₁ : MapsInOrder k₁ := hk.others ho₁ hq
  -- the kernel between the new protection and the physical map
  obtain ⟨k₂, hk₂⟩ : ∃ k₂, k₂ = k₁.setEntry i e (protectEntry ((k₁.map i).entry e) newProt setMax) :=
    ⟨_, rfl⟩
  have hmap₂ : k₂.map i = (k₁.map i).setEntry e (protectEntry ((k₁.map i).entry e) newProt setMax) := by
    rw [hk₂, setEntry_map_self]
  rw [← hk₂] at hs
  have ho₂ : Others i k₁ k₂ := hk₂ ▸ others_setEntry i k₁ e _
  have hself : (k₂.map i).entry e = protectEntry ((k₁.map i).entry e) newProt setMax := by
    rw [hmap₂, setEntry_entry_self]
  have hne : ∀ x ≠ e, (k₂.map i).entry x = (k₁.map i).entry x := by
    intro x hx
    rw [hmap₂, setEntry_entry_of_ne _ _ hx]
  have hlive₂ : LiveMap k₂.freshMap i (k₂.map i) (l₁ ++ e :: q) := by
    refine ⟨?_, ?_⟩
    · rw [hmap₂]
      exact hq.1.setBody fs fe
    · intro x hx j hj
      rw [ho₂.fresh]
      by_cases hxe : x = e
      · rw [hxe, hself, fo] at hj
        exact hq.2 e (by simp) j hj
      · rw [hne x hxe] at hj
        exact hq.2 x hx j hj
  have hk₂o : MapsInOrder k₂ := hk₁.others ho₂ hlive₂
  obtain ⟨hmap, ho₃, hcalls⟩ := protectPhysical_calls hk₂o hlive₂ (by simp) hs
  have hfe : ((k'.map i).entry e) = protectEntry ((k₁.map i).entry e) newProt setMax := by rw [hmap, hself]
  have hview₂ : ∀ b, view (k₂.map i) (e :: q) b = if b < ((k'.map i).entry e).endAddr
      then (view (k.map i) (e :: l₂) b).map fun x => protectEntry x newProt setMax
      else view (k.map i) (e :: l₂) b := by
    intro b
    have hrest : view (k₂.map i) q b = view (k₁.map i) q b := by
      apply view_congr
      intro x hx
      exact hne x (hq.1.ne_after hx)
    rw [hfe, fe, ← hview b, view_cons, view_cons, hself, fs, fe, hrest, protectEntry_locate]
    have hbehind : b < ((k₁.map i).entry e).endAddr → view (k₁.map i) q b = none := by
      intro hb
      rw [Option.eq_none_iff_forall_ne_some]
      intro z hz
      obtain ⟨x, hx, hlo, -, -⟩ := view_eq_some hz
      have h₁ := hq.1.sorted_after hx
      have h₂ := BitVec.lt_def.mp hb
      have h₃ := BitVec.le_def.mp hlo
      omega
    split
    next hh => rw [if_pos hh.2, Option.map_some]
    next hh =>
      split
      next hb => rw [hbehind hb, Option.map_none]
      next => rfl
  refine ⟨q, ?_, (ho₁.trans ho₂).trans ho₃, ?_, ?_, ?_, ?_, ?_, ?_, ?_, ?_, ?_, ?_⟩
  · rw [ho₃.fresh, hmap]
    exact hlive₂
  · intro x hx
    rw [hmap, hne x (hq.1.ne_before hx), hkeep x hx]
  · rw [hfe, fs, hcut]
  · rw [hfe, fe, hcut]
    exact hle
  · rw [hfe, fe, hcut]
    exact hsmall
  · rw [hfe, fm, hcut]
  · rw [hfe, fc, hcut]
  · rw [hfe, hcut]
    cases setMax <;> rfl
  · rw [hmap, hmap₂]
    exact hpmap
  · intro b
    rw [← hview₂ b, hmap]
  · intro calls hS hb
    have hb₁ : SharesBacked k₂ i := by
      refine hb.congr hk (fun a x hx => h.object_lt hx) (ho₁.trans ho₂) ?_
      intro a x' hx'
      rw [hlive₂.1.pageAt_eq, view_append] at hx'
      rw [h.1.pageAt_eq, view_append]
      have hfront : view (k₂.map i) l₁ a = view (k.map i) l₁ a := by
        apply view_congr
        intro x hx
        rw [hne x (hq.1.ne_before hx), hkeep x hx]
      rw [hfront, hview₂ a] at hx'
      cases hv : view (k.map i) l₁ a with
      | some x =>
        rw [hv, Option.some_or] at hx'
        cases Option.some.inj hx'
        exact ⟨_, by rw [Option.some_or], rfl, rfl, rfl⟩
      | none =>
        rw [hv, Option.none_or] at hx'
        rw [Option.none_or]
        split at hx'
        next =>
          obtain ⟨x, hx, rfl⟩ := Option.map_eq_some_iff.mp hx'
          obtain ⟨-, -, hxo, hxoff, hxm, -, -⟩ :=
            protectEntry_fields newProt setMax x
          exact ⟨x, hx, hxm.symm, hxo.symm, hxoff.symm⟩
        next => exact ⟨x', hx', rfl, rfl, rfl⟩
    obtain ⟨new, hnew, hall, hdirect⟩ := hcalls calls hS hb₁
    refine ⟨new, ?_, ?_, ?_⟩
    · have hsame : calls k₁.machine = calls k.machine := vmMapClipEnd_calls hS hc
      rw [hnew, hk₂, ← hsame]
      rfl
    · intro c hcm
      obtain ⟨hcall, hp⟩ := hall c hcm
      rw [hcut] at hp
      rw [hmap]
      exact ⟨hcall.others hk₂o ho₃ (by rw [hmap]) (by rw [hmap]), hp⟩
    · rw [hmap]
      intro hm hp
      refine hdirect hm ?_
      rwa [hcut]

theorem MapInv.view_tail_self (h : MapInv m (l₁ ++ e :: l₂)) :
    view m (e :: l₂) (m.entry e).start = some ((m.entry e).locate (m.entry e).start) := by
  rw [view_cons, if_pos ⟨BitVec.le_refl _, h.span e (by simp)⟩]

theorem MapInv.behind_end (h : MapInv m (l₁ ++ l₂)) (he : e = after l₂ header)
    (hc : ¬ (e ≠ header ∧ (m.entry e).start < endAddr)) (hx : x ∈ l₂) :
    endAddr ≤ (m.entry x).start := by
  cases l₂ with
  | nil => simp at hx
  | cons z q =>
    cases he
    have hz : z ≠ header := h.ne_header (by simp)
    rw [after_cons] at hc
    have hle : endAddr ≤ (m.entry z).start := BitVec.not_lt.mp fun hlt => hc ⟨hz, hlt⟩
    rcases List.mem_cons.mp hx with rfl | hx
    · exact hle
    · have := h.sorted_after hx
      have := h.span_le (e := z) (by simp)
      rw [BitVec.le_def] at hle ⊢
      omega

/-- The calls of the second pass: each is made for an entry of the range with a new protection, and
each such entry that is direct has one. -/
structure RangeCalls (k k' : Kernel σ) (i : MapId) (l₂ l₂' : List EntryId) (endAddr : VmOffset)
    (mask : VmProt) (new : List PmapProtectCall) : Prop where
  sound : ∀ c ∈ new, ∃ x ∈ l₂', ((k'.map i).entry x).start < endAddr ∧ CallOf k' i mask x c ∧
    ∀ y, view (k.map i) l₂ ((k'.map i).entry x).start = some y → ((k'.map i).entry x).protection ≠ y.protection
  direct : ∀ x ∈ l₂', ((k'.map i).entry x).isAMap = false → ((k'.map i).entry x).start < endAddr →
    ∀ b y, ((k'.map i).entry x).start ≤ b → b < ((k'.map i).entry x).endAddr →
      view (k.map i) l₂ b = some y → ((k'.map i).entry x).protection ≠ y.protection →
      ⟨(k'.map i).pmap, ((k'.map i).entry x).start, ((k'.map i).entry x).endAddr,
        ((k'.map i).entry x).protection &&& mask⟩ ∈ new

theorem protectRange_view (h : LiveMap k.freshMap i (k.map i) (l₁ ++ l₂)) (hk : MapsInOrder k)
    (he : e = after l₂ header) (hfirst : first ∈ l₁ ∨ first = e)
    (hs : protectRange S newProt setMax first fuel k i endAddr e = some k') :
    ∃ l₂', LiveMap k'.freshMap i (k'.map i) (l₁ ++ l₂') ∧ Others i k k' ∧
      (∀ x ∈ l₁, (k'.map i).entry x = (k.map i).entry x) ∧
      (k'.map i).pmap = (k.map i).pmap ∧
      (∀ b, view (k'.map i) l₂' b = (view (k.map i) l₂ b).map (protectBelow endAddr newProt setMax)) ∧
      (l₂ ≠ [] → ∃ q, l₂' = e :: q ∧ ((k'.map i).entry e).start = ((k.map i).entry e).start ∧
        ((k'.map i).entry e).copyOnWrite = ((k.map i).entry e).copyOnWrite) ∧
      ∀ calls : σ → List PmapProtectCall, Remembers S calls → SharesBacked k i →
        ∃ new, calls k'.machine = calls k.machine ++ new ∧
          RangeCalls k k' i l₂ l₂' endAddr (protectMask ((k'.map i).entry first)) new := by
  induction fuel generalizing k e l₁ l₂ with
  | zero => simp [protectRange] at hs
  | succ fuel ih =>
    rw [protectRange] at hs
    split at hs
    next hc =>
      obtain ⟨q, rfl⟩ := h.1.at_cons he hc.1
      obtain ⟨k₁, hclip, hs⟩ := Option.bind_eq_some_iff.mp hs
      obtain ⟨k₂, hphys, hs⟩ := Option.bind_eq_some_iff.mp hs
      obtain ⟨q₁, hlive, ho, hkeep, hstart, hend, hsmall, hmap, hcow, hprot, hpmap, hview, hcalls⟩ :=
        protectTurn_view h hk hc.2 hclip hphys
      have hk₂ : MapsInOrder k₂ := hk.others ho hlive
      have hlive' : LiveMap k₂.freshMap i (k₂.map i) ((l₁ ++ [e]) ++ q₁) := by simpa using hlive
      have hfirst' : first ∈ l₁ ++ [e] := by
        rcases hfirst with hf | hf
        · exact List.mem_append_left _ hf
        · simp [hf]
      obtain ⟨q₂, hq₂, ho₂, hkeep₂, hpmap₂, hview₂, -, hcalls₂⟩ :=
        ih hlive' hk₂ hlive.1.next_at (.inl hfirst') hs
      have hee : (k'.map i).entry e = (k₂.map i).entry e := hkeep₂ e (by simp)
      have hout : LiveMap k'.freshMap i (k'.map i) (l₁ ++ e :: q₂) := by simpa using hq₂
      -- nothing behind the entry holds an address below its end
      have hbehind : ∀ b, b < ((k₂.map i).entry e).endAddr → view (k₂.map i) q₁ b = none := by
        intro b hb
        rw [Option.eq_none_iff_forall_ne_some]
        intro z hz
        obtain ⟨x, hx, hlo, -, -⟩ := view_eq_some hz
        have h₁ := hlive.1.sorted_after hx
        have h₂ := BitVec.lt_def.mp hb
        have h₃ := BitVec.le_def.mp hlo
        omega
      -- an address behind the entry is seen as before
      have hlater : ∀ x ∈ q₂, ∀ b, ((k'.map i).entry x).start ≤ b →
          view (k₂.map i) q₁ b = view (k.map i) (e :: q) b := by
        intro x hx b hlo
        have hle : ((k'.map i).entry e).endAddr.toNat ≤ ((k'.map i).entry x).start.toNat :=
          hout.1.sorted_after hx
        have hge : ¬ b < ((k₂.map i).entry e).endAddr := by
          rw [← hee]
          exact BitVec.not_lt.mpr (BitVec.le_trans (BitVec.le_def.mpr hle) hlo)
        have hv := hview b
        rwa [if_neg hge, view_cons, if_neg (fun hh => hge hh.2)] at hv
      refine ⟨e :: q₂, hout, ho.trans ho₂, ?_, hpmap₂.trans hpmap, ?_, ?_, ?_⟩
      · intro x hx
        rw [hkeep₂ x (List.mem_append_left _ hx), hkeep x hx]
      · intro b
        have hv := hview b
        rw [view_cons] at hv
        rw [view_cons, hee, hview₂ b]
        split
        next hh =>
          rw [if_pos hh, if_pos hh.2] at hv
          obtain ⟨y, hy, hye⟩ := Option.map_eq_some_iff.mp hv.symm
          have hb : y.start < endAddr := by
            have h₁ := BitVec.lt_def.mp hh.2
            have h₂ := BitVec.le_def.mp hend
            rw [view_start hy, BitVec.lt_def]
            omega
          rw [hy, Option.map_some, protectBelow, if_pos hb, hye]
        next hh =>
          rw [if_neg hh] at hv
          by_cases hb : b < ((k₂.map i).entry e).endAddr
          · rw [if_pos hb, hbehind b hb] at hv
            rw [hbehind b hb, Option.map_eq_none_iff.mp hv.symm, Option.map_none]
          · rw [if_neg hb] at hv
            rw [hv]
      · intro _
        exact ⟨q₂, rfl, by rw [hee, hstart], by rw [hee, hcow]⟩
      · intro calls hS hb
        obtain ⟨new₁, hnew₁, hall₁, hdirect₁⟩ := hcalls calls hS hb
        have hb₂ : SharesBacked k₂ i := by
          refine hb.congr hk (fun a x hx => h.object_lt hx) ho ?_
          intro a x' hx'
          rw [hlive.1.pageAt_eq, view_append] at hx'
          rw [h.1.pageAt_eq, view_append]
          rw [view_congr hkeep, hview a] at hx'
          cases hv : view (k.map i) l₁ a with
          | some x =>
            rw [hv, Option.some_or] at hx'
            cases Option.some.inj hx'
            exact ⟨_, by rw [Option.some_or], rfl, rfl, rfl⟩
          | none =>
            rw [hv, Option.none_or] at hx'
            rw [Option.none_or]
            split at hx'
            next =>
              obtain ⟨x, hx, rfl⟩ := Option.map_eq_some_iff.mp hx'
              obtain ⟨-, -, hxo, hxoff, hxm, -, -⟩ :=
                protectEntry_fields newProt setMax x
              exact ⟨x, hx, hxm.symm, hxo.symm, hxoff.symm⟩
            next => exact ⟨x', hx', rfl, rfl, rfl⟩
        obtain ⟨new₂, hnew₂, hcalls₂⟩ := hcalls₂ calls hS hb₂
        have hmask : protectMask ((k₂.map i).entry first) = protectMask ((k'.map i).entry first) := by
          rw [hkeep₂ first hfirst']
        rw [hmask] at hall₁ hdirect₁
        refine ⟨new₁ ++ new₂, by rw [hnew₂, hnew₁, List.append_assoc], ?_, ?_⟩
        · intro c hcm
          rcases List.mem_append.mp hcm with hcm | hcm
          · obtain ⟨hcall, hp⟩ := hall₁ c hcm
            refine ⟨e, List.mem_cons_self, ?_, hcall.others hk₂ ho₂ hee hpmap₂, ?_⟩
            · rw [hee, hstart]
              exact hc.2
            · intro y hy
              rw [hee, hstart, h.1.view_tail_self] at hy
              cases Option.some.inj hy
              rwa [hee]
          · obtain ⟨x, hx, hxs, hxc, hxp⟩ := hcalls₂.sound c hcm
            refine ⟨x, List.mem_cons_of_mem e hx, hxs, hxc, ?_⟩
            intro y hy
            exact hxp y (hlater x hx _ (BitVec.le_refl _) ▸ hy)
        · intro x hx hxm hxs b y hlo hhi hy hyp
          rcases List.mem_cons.mp hx with rfl | hxq
          · rw [hee] at hlo hhi
            have hin : ((k.map i).entry x).start ≤ b ∧ b < ((k.map i).entry x).endAddr := by
              have h₁ := BitVec.lt_def.mp hhi
              have h₂ := BitVec.le_def.mp hsmall
              refine ⟨hstart ▸ hlo, ?_⟩
              rw [BitVec.lt_def]
              omega
            rw [view_cons, if_pos hin] at hy
            cases Option.some.inj hy
            refine List.mem_append_left _ ?_
            have := hdirect₁ (by rwa [← hee]) (by rwa [← hee])
            rwa [← hee, ← hpmap₂] at this
          · rw [← hlater x hxq b hlo] at hy
            exact List.mem_append_right _ (hcalls₂.direct x hxq hxm hxs b y hlo hhi hy hyp)
    next hc =>
      cases Option.some.inj hs
      have hbeyond : ∀ x ∈ l₂, endAddr ≤ ((k'.map i).entry x).start := fun x hx => h.1.behind_end he hc hx
      refine ⟨l₂, h, .refl i k', fun _ _ => rfl, rfl, ?_, ?_, ?_⟩
      · intro b
        cases hv : view (k'.map i) l₂ b with
        | none => rfl
        | some y =>
          obtain ⟨x, hx, hlo, -, -⟩ := view_eq_some hv
          have hb : ¬ y.start < endAddr := by
            rw [view_start hv]
            exact BitVec.not_lt.mpr (BitVec.le_trans (hbeyond x hx) hlo)
          rw [Option.map_some, protectBelow, if_neg hb]
      · intro hne
        obtain ⟨y, q, rfl⟩ := List.exists_cons_of_ne_nil hne
        cases he
        exact ⟨q, rfl, rfl, rfl⟩
      · intro calls _ _
        refine ⟨[], (List.append_nil _).symm, by simp, ?_⟩
        intro x hx _ hxs
        exact absurd hxs (BitVec.not_lt.mpr (hbeyond x hx))

end MachVM
