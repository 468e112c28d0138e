import MachVM.CalloutReach

namespace MachVM.Bsd.KernClock

open Machine Deltas

/-- A `struct timeval` with valid fields. -/
@[ext] structure Timeval where
  tvSec : Int
  tvUsec : Int
  sec_ge : -2 ^ 31 ≤ tvSec
  sec_lt : tvSec < 2 ^ 31
  usec_ge : 0 ≤ tvUsec
  usec_lt : tvUsec < 1000000

instance : LE Timeval := ⟨fun a b => a.tvSec < b.tvSec ∨ a.tvSec = b.tvSec ∧ a.tvUsec ≤ b.tvUsec⟩

instance (a b : Timeval) : Decidable (a ≤ b) := inferInstanceAs (Decidable (_ ∨ _ ∧ _))

def hz : Int := 100
def tick : Int := 10000

/-- A value in 32 bits, two's complement. -/
def wrap (x : Int) : Int := (x + 2 ^ 31) % 2 ^ 32 - 2 ^ 31

/-- `hzto`, at a time of day. -/
def hzto (time tv : Timeval) : Int :=
  let sec := wrap (tv.tvSec - time.tvSec)
  if sec ≤ 0x7fffffff / 1000 - 1000 then
    (wrap (wrap (wrap (tv.tvSec - time.tvSec) * 1000) + (tv.tvUsec - time.tvUsec).tdiv 1000)).tdiv (tick / 1000)
  else if sec ≤ 0x7fffffff / hz then wrap (sec * hz)
  else 0x7fffffff

/-- The distance to a target in microseconds. -/
def distance (time tv : Timeval) : Int := (tv.tvSec - time.tvSec) * 1000000 + (tv.tvUsec - time.tvUsec)

/-- The distance to a target in milliseconds, the microseconds rounded toward zero. -/
def millis (time tv : Timeval) : Int := (tv.tvSec - time.tvSec) * 1000 + (tv.tvUsec - time.tvUsec).tdiv 1000

variable {time a b lo hi : Timeval} {x : Int}

theorem wrap_eq (h1 : -2 ^ 31 ≤ x) (h2 : x < 2 ^ 31) : wrap x = x := by
  unfold wrap
  omega

theorem tdiv_bounds (x : Int) {n : Int} (hn : 0 < n) :
    (0 ≤ x → n * x.tdiv n ≤ x ∧ x < n * x.tdiv n + n) ∧ (x ≤ 0 → x ≤ n * x.tdiv n ∧ n * x.tdiv n < x + n) := by
  have hdiv := Int.mul_tdiv_add_tmod x n
  refine ⟨fun hx => ?_, fun hx => ?_⟩
  · have h1 := Int.tmod_nonneg n hx
    have h2 := Int.tmod_lt_of_pos x hn
    omega
  · have h1 := Int.tmod_nonneg n (show 0 ≤ -x by omega)
    have h2 := Int.tmod_lt_of_pos (-x) hn
    rw [Int.neg_tmod] at h1 h2
    omega

theorem usecs_bounds (time tv : Timeval) : -999 ≤ (tv.tvUsec - time.tvUsec).tdiv 1000 ∧
    (tv.tvUsec - time.tvUsec).tdiv 1000 ≤ 999 := by
  have h := tdiv_bounds (tv.tvUsec - time.tvUsec) (n := 1000) (by omega)
  have h1 := time.usec_ge
  have h2 := time.usec_lt
  have h3 := tv.usec_ge
  have h4 := tv.usec_lt
  omega

theorem wrap_wrap_add (x y : Int) : wrap (wrap x + y) = wrap (x + y) := by
  unfold wrap
  omega

theorem hzto_millis (h1 : -2 ^ 31 ≤ a.tvSec - time.tvSec) (h2 : a.tvSec - time.tvSec ≤ 2146483) :
    hzto time a = (wrap (millis time a)).tdiv 10 := by
  have hsec : wrap (a.tvSec - time.tvSec) = a.tvSec - time.tvSec := wrap_eq h1 (by omega)
  have hlim : a.tvSec - time.tvSec ≤ 0x7fffffff / 1000 - 1000 := by omega
  simp only [hzto, hsec, wrap_wrap_add]
  rw [if_pos hlim]
  rfl

theorem hzto_near (h1 : -2 ^ 31 ≤ millis time a) (h2 : a.tvSec - time.tvSec ≤ 2146483) :
    hzto time a = (millis time a).tdiv 10 := by
  have hu := usecs_bounds time a
  rw [hzto_millis (by unfold millis at h1; omega) h2, wrap_eq h1 (by unfold millis; omega)]

theorem hzto_far (h1 : 2146483 < a.tvSec - time.tvSec) (h2 : a.tvSec - time.tvSec ≤ 21474836) :
    hzto time a = (a.tvSec - time.tvSec) * 100 := by
  have hsec : wrap (a.tvSec - time.tvSec) = a.tvSec - time.tvSec := wrap_eq (by omega) (by omega)
  simp only [hzto, hsec, hz]
  rw [if_neg (by omega), if_pos (by omega), wrap_eq (by omega) (by omega)]

theorem hzto_max (h1 : 21474836 < a.tvSec - time.tvSec) (h2 : a.tvSec - time.tvSec < 2 ^ 31) :
    hzto time a = 0x7fffffff := by
  have hsec : wrap (a.tvSec - time.tvSec) = a.tvSec - time.tvSec := wrap_eq (by omega) h2
  simp only [hzto, hsec, hz]
  rw [if_neg (by omega), if_neg (by omega)]

/-- The targets whose distance in milliseconds does not fall below the 32-bit numbers, and whose distance in
seconds does not rise above them. -/
def Timeval.Fits (time tv : Timeval) : Prop := -2 ^ 31 ≤ millis time tv ∧ tv.tvSec - time.tvSec < 2 ^ 31

theorem Timeval.Fits.hzto_eq (h : time.Fits a) :
    (a.tvSec - time.tvSec ≤ 2146483 ∧ hzto time a = (millis time a).tdiv 10) ∨
    (2146483 < a.tvSec - time.tvSec ∧ a.tvSec - time.tvSec ≤ 21474836 ∧
      hzto time a = (a.tvSec - time.tvSec) * 100) ∨
    (21474836 < a.tvSec - time.tvSec ∧ hzto time a = 0x7fffffff) := by
  by_cases h1 : a.tvSec - time.tvSec ≤ 2146483
  · exact .inl ⟨h1, hzto_near h.1 h1⟩
  · by_cases h2 : a.tvSec - time.tvSec ≤ 21474836
    · exact .inr (.inl ⟨by omega, h2, hzto_far (by omega) h2⟩)
    · exact .inr (.inr ⟨by omega, hzto_max (by omega) h.2⟩)

theorem millis_mono (time : Timeval) (h : a ≤ b) : millis time a ≤ millis time b := by
  have ha := tdiv_bounds (a.tvUsec - time.tvUsec) (n := 1000) (by omega)
  have hb := tdiv_bounds (b.tvUsec - time.tvUsec) (n := 1000) (by omega)
  have h1 := a.usec_ge
  have h2 := a.usec_lt
  have h3 := b.usec_ge
  have h4 := b.usec_lt
  unfold millis
  rcases h with h | ⟨h, hu⟩ <;> omega

theorem hzto_mono (ha : time.Fits a) (hb : time.Fits b) (h : a ≤ b) : hzto time a ≤ hzto time b := by
  have hm := millis_mono time h
  have hsec : a.tvSec ≤ b.tvSec := by
    rcases h with h | h <;> omega
  have hta := tdiv_bounds (millis time a) (n := 10) (by omega)
  have htb := tdiv_bounds (millis time b) (n := 10) (by omega)
  have hua := usecs_bounds time a
  have hub := usecs_bounds time b
  have hma : millis time a = (a.tvSec - time.tvSec) * 1000 + (a.tvUsec - time.tvUsec).tdiv 1000 := rfl
  have hmb : millis time b = (b.tvSec - time.tvSec) * 1000 + (b.tvUsec - time.tvUsec).tdiv 1000 := rfl
  rcases ha.hzto_eq with ⟨h1, e1⟩ | ⟨h1, h2, e1⟩ | ⟨h1, e1⟩ <;>
    rcases hb.hzto_eq with ⟨h3, e3⟩ | ⟨h3, h4, e3⟩ | ⟨h3, e3⟩ <;> omega

theorem hzto_past (ha : time.Fits a) (h : a ≤ time) : hzto time a ≤ 0 := by
  have hm := millis_mono time h
  have hta := tdiv_bounds (millis time a) (n := 10) (by omega)
  have hzero : millis time time = 0 := by simp [millis]
  have hsec : a.tvSec ≤ time.tvSec := by
    rcases h with h | h <;> omega
  rw [hzto_near ha.1 (by omega)]
  omega

theorem hzto_exact (hlater : 0 < distance time a) (hfit : distance time a < 2 ^ 31 * tick) :
    -1000000 ≤ max (hzto time a) 1 * tick - distance time a ∧
      max (hzto time a) 1 * tick - distance time a ≤ 1000000 := by
  have h1 := time.usec_ge
  have h2 := time.usec_lt
  have h3 := a.usec_ge
  have h4 := a.usec_lt
  have hu := tdiv_bounds (a.tvUsec - time.tvUsec) (n := 1000) (by omega)
  have ht := tdiv_bounds (millis time a) (n := 10) (by omega)
  unfold distance tick at *
  have hfits : time.Fits a := by
    constructor
    · unfold millis
      omega
    · omega
  rcases hfits.hzto_eq with ⟨h5, e⟩ | ⟨h5, h6, e⟩ | ⟨h5, e⟩
  · rw [e]
    unfold millis at *
    omega
  · rw [e]
    omega
  · rw [e]
    omega

/-! ### Timers for an absolute time -/

variable {F A : Type} {s r q : State F A} {ids : List CalloutId} {f g : F} {u v : A} {t : Int} {p : CalloutId}

/-- The callout that a call of `timeout` has put into the list. -/
def State.Armed (s r : State F A) (p : CalloutId) : Prop := p ∈ r.calltodo ∧ r.call p = s.calls.length

theorem Inv.armed_left (h : Inv ids s) (hids : ids.Nodup) (hr : timeout s f u t = some r) (hp : s.Armed r p) :
    r.left p = max t 1 := by
  obtain ⟨pnew, ha⟩ := h.timeout_adds hids hr
  rw [(h.of_timeout hids hr).left_eq hp.1, State.due, hp.2, ha.due_new, ha.now]
  omega

theorem Inv.armed_exists (h : Inv ids s) (hids : ids.Nodup) (hr : timeout s f u t = some r) : ∃ p, s.Armed r p := by
  obtain ⟨pnew, ha⟩ := h.timeout_adds hids hr
  exact ⟨pnew, ha.todo.mem_iff.mpr List.mem_cons_self, ha.call_new⟩

/-- What holds of the callouts that are armed at the same moment for two targets, the first of them not later. -/
structure OnTime (time : Timeval) (s : State F A) (a b : Timeval) : Prop where
  order : ∀ f g u v r q p p', timeout s f u (hzto time a) = some r → timeout s g v (hzto time b) = some q →
    s.Armed r p → s.Armed q p' → r.left p ≤ q.left p'
  past : a ≤ time → ∀ f u r p, timeout s f u (hzto time a) = some r → s.Armed r p → r.left p = 1
  near : 0 < distance time a → distance time a < 2 ^ 31 * tick → ∀ f u r p,
    timeout s f u (hzto time a) = some r → s.Armed r p →
      -100 * tick ≤ r.left p * tick - distance time a ∧ r.left p * tick - distance time a ≤ 100 * tick

theorem Inv.onTime (h : Inv ids s) (hids : ids.Nodup) (ha : time.Fits a) (hb : time.Fits b) (hab : a ≤ b) :
    OnTime time s a b := by
  constructor
  · intro f g u v r q p p' hr hq hp hp'
    rw [h.armed_left hids hr hp, h.armed_left hids hq hp']
    have := hzto_mono ha hb hab
    omega
  · intro hpast f u r p hr hp
    rw [h.armed_left hids hr hp]
    have := hzto_past ha hpast
    omega
  · intro hlater hfit f u r p hr hp
    rw [h.armed_left hids hr hp]
    have := hzto_exact hlater hfit
    unfold tick at *
    omega

theorem timeout_some (hfree : s.callfree ≠ []) (f : F) (u : A) (t : Int) : ∃ r, timeout s f u t = some r := by
  unfold KernClock.timeout
  dsimp only
  split
  next hnil => exact absurd hnil hfree
  next => exact ⟨_, rfl⟩

theorem hzto_late (h1 : -2147484 ≤ a.tvSec - time.tvSec) (h2 : millis time a < -2 ^ 31) : 1 < hzto time a := by
  have hu := usecs_bounds time a
  have hm : millis time a = (a.tvSec - time.tvSec) * 1000 + (a.tvUsec - time.tvUsec).tdiv 1000 := rfl
  have hwrap : wrap (millis time a) = millis time a + 2 ^ 32 := by
    unfold wrap
    omega
  have ht := tdiv_bounds (millis time a + 2 ^ 32) (n := 10) (by omega)
  rw [hzto_millis (by omega) (by omega), hwrap]
  omega

theorem exists_late (hlo : lo ≤ time) (hout : millis time lo < -2 ^ 31) :
    ∃ a : Timeval, lo ≤ a ∧ a ≤ time ∧ 1 < hzto time a := by
  by_cases hnear : -2147484 ≤ lo.tvSec - time.tvSec
  · exact ⟨lo, .inr ⟨rfl, Int.le_refl _⟩, hlo, hzto_late hnear hout⟩
  · have h1 := lo.sec_ge
    have h2 := time.sec_lt
    refine ⟨⟨time.tvSec - 2147484, time.tvUsec, by omega, by omega, time.usec_ge, time.usec_lt⟩, .inl ?_, .inl ?_,
      hzto_late ?_ ?_⟩
    · simp only
      omega
    · simp only
      omega
    · simp only
      omega
    · simp only [millis, Int.sub_self, Int.zero_tdiv]
      omega

theorem exists_disordered (hout : 2 ^ 31 ≤ hi.tvSec - time.tvSec) :
    ∃ a b : Timeval, time ≤ a ∧ a ≤ b ∧ b ≤ hi ∧ hzto time b ≤ 0 ∧ hzto time a = 10000 := by
  have h1 := time.sec_ge
  have h2 := hi.sec_lt
  have h3 := hi.usec_ge
  refine ⟨⟨time.tvSec + 100, time.tvUsec, by omega, by omega, time.usec_ge, time.usec_lt⟩,
    ⟨time.tvSec + 2 ^ 31, 0, by omega, by omega, by omega, by omega⟩, .inl ?_, .inl ?_, ?_, ?_, ?_⟩
  · simp only
    omega
  · simp only
    omega
  · by_cases he : time.tvSec + 2 ^ 31 = hi.tvSec
    · exact .inr ⟨he, h3⟩
    · exact .inl (by simp only; omega)
  · have hu := tdiv_bounds (0 - time.tvUsec) (n := 1000) (by omega)
    have h4 := time.usec_ge
    have h5 := time.usec_lt
    have hsec : wrap (time.tvSec + 2 ^ 31 - time.tvSec) = -2 ^ 31 := by
      unfold wrap
      omega
    simp only [hzto, hsec, wrap_wrap_add]
    rw [if_pos (by omega)]
    have hwrap : wrap (-2 ^ 31 * 1000 + (0 - time.tvUsec).tdiv 1000) = (0 - time.tvUsec).tdiv 1000 := by
      unfold wrap
      omega
    have ht := tdiv_bounds ((0 - time.tvUsec).tdiv 1000) (n := 10) (by omega)
    rw [hwrap]
    change ((0 - time.tvUsec).tdiv 1000).tdiv 10 ≤ 0
    omega
  · have hm : millis time ⟨time.tvSec + 100, time.tvUsec, by omega, by omega, time.usec_ge, time.usec_lt⟩ = 100000 := by
      simp only [millis, Int.sub_self, Int.zero_tdiv]
      omega
    rw [hzto_near (by rw [hm]; omega) (by simp only; omega), hm]
    rfl

variable [DecidableEq F] [DecidableEq A]

/-- For a range of targets around the current time: the timers of all of them fire on time, whatever callouts are
pending, exactly if the ends of the range fit. -/
theorem timers_onTime_iff (h : Reachable ids s) (hfree : s.callfree ≠ []) (f : F) (u : A) (hlo : lo ≤ time)
    (hhi : time ≤ hi) : (∀ a b, lo ≤ a → a ≤ b → b ≤ hi → OnTime time s a b) ↔
      -2 ^ 31 ≤ millis time lo ∧ hi.tvSec - time.tvSec < 2 ^ 31 := by
  obtain ⟨hids, hi'⟩ := reachable_inv h
  constructor
  · intro hall
    constructor
    · by_contra hout
      obtain ⟨a, ha, hpast, hlate⟩ := exists_late hlo (Int.not_le.mp hout)
      obtain ⟨r, hr⟩ := timeout_some hfree f u (hzto time a)
      obtain ⟨p, hp⟩ := hi'.armed_exists hids hr
      have hle : a ≤ hi := by
        rcases hpast with h1 | h1 <;> rcases hhi with h2 | h2
        · exact .inl (by omega)
        · exact .inl (by omega)
        · exact .inl (by omega)
        · exact .inr (by omega)
      have h1 := (hall a a ha (.inr ⟨rfl, Int.le_refl _⟩) hle).past hpast f u r p hr hp
      rw [hi'.armed_left hids hr hp] at h1
      omega
    · by_contra hout
      obtain ⟨a, b, ha, hab, hb, hearly, hlate⟩ := exists_disordered (Int.not_lt.mp hout)
      obtain ⟨r, hr⟩ := timeout_some hfree f u (hzto time a)
      obtain ⟨q, hq⟩ := timeout_some hfree f u (hzto time b)
      obtain ⟨p, hp⟩ := hi'.armed_exists hids hr
      obtain ⟨p', hp'⟩ := hi'.armed_exists hids hq
      have hle : lo ≤ a := by
        rcases hlo with h1 | h1 <;> rcases ha with h2 | h2
        · exact .inl (by omega)
        · exact .inl (by omega)
        · exact .inl (by omega)
        · exact .inr (by omega)
      have h1 := (hall a b hle hab hb).order f f u u r q p p' hr hq hp hp'
      rw [hi'.armed_left hids hr hp, hi'.armed_left hids hq hp'] at h1
      omega
  · rintro ⟨hfirst, hlast⟩ a b ha hab hb
    have hsec : ∀ x y : Timeval, x ≤ y → x.tvSec ≤ y.tvSec := by
      rintro x y (hxy | hxy) <;> omega
    have h1 := millis_mono time ha
    have h2 := millis_mono time hab
    have h3 := hsec a b hab
    have h4 := hsec b hi hb
    exact hi'.onTime hids ⟨by omega, by omega⟩ ⟨by omega, by omega⟩ hab

def noon : Timeval := ⟨3000000, 0, by decide, by decide, by decide, by decide⟩
def hourLater : Timeval := ⟨3003600, 500000, by decide, by decide, by decide, by decide⟩
def epoch : Timeval := ⟨0, 0, by decide, by decide, by decide, by decide⟩

/-- A target within the hour is met on time. -/
theorem withinHour_onTime : OnTime noon firedState noon hourLater := by
  have h : ∀ a b, noon ≤ a → a ≤ b → b ≤ hourLater → OnTime noon firedState a b :=
    (timers_onTime_iff firedState_reachable (by decide) 7 0 (by decide) (by decide)).mpr ⟨by decide, by decide⟩
  exact h noon hourLater (by decide) (by decide) (by decide)

/-- A target of 3000000 seconds ago is armed for 129496729 ticks from now. -/
theorem longAgo_late : epoch ≤ noon ∧ hzto noon epoch = 129496729 ∧
    ∃ r p, timeout firedState 7 0 (hzto noon epoch) = some r ∧ firedState.Armed r p ∧ r.left p = 129496729 ∧
      ¬OnTime noon firedState epoch epoch := by
  obtain ⟨hids, hi⟩ := reachable_inv firedState_reachable
  have hticks : hzto noon epoch = 129496729 := by decide
  obtain ⟨r, hr⟩ := timeout_some (s := firedState) (by decide) 7 0 (hzto noon epoch)
  obtain ⟨p, hp⟩ := hi.armed_exists hids hr
  have hleft := hi.armed_left hids hr hp
  rw [hticks] at hleft
  refine ⟨by decide, hticks, r, p, hr, hp, hleft, fun h => ?_⟩
  have h1 := h.past (by decide) 7 0 r p hr hp
  rw [hleft] at h1
  cases h1

end MachVM.Bsd.KernClock
