import QnxStartup.LongDivision
import QnxStartup.Machine

/-! `invert_timer_freq.c`, `timer_tick2ns.c` and `timer_ns2tick.c`: the period of the
timer as a decimal floating point number, and ticks converted to nanoseconds and
back. -/

namespace QnxStartup

structure QtimeEntry where
  timerPeriod : Nat
  timerScale : Int
  deriving DecidableEq

def uintMax : Nat := 2 ^ 32 - 1

structure InvertState where
  quot : Nat
  period : Nat
  scale : Int

def invertTurn (freq : Nat) (s : InvertState) : QtimeEntry ⊕ InvertState :=
  let div := s.quot / freq
  let period := u32 (u32 (s.period * 10) + div)
  let rem := s.quot % freq
  if period ≥ uintMax / 10 - 10 ∨ rem = 0 then .inl ⟨period, s.scale⟩
    else .inr ⟨u32 (rem * 10), period, s.scale - 1⟩

def invertLoop (freq : Nat) : Nat → InvertState → Startup QtimeEntry
  | 0, _ => .error .noReturn
  | fuel + 1, s =>
    match invertTurn freq s with
    | .inl qtime => .ok qtime
    | .inr s => invertLoop freq fuel s

/-- What `freq` is in the loop. -/
def divisor (freq : Nat) : Nat := if freq > uintMax / 10 then freq / 10 else freq

def invertStart (freq : Nat) : InvertState where
  quot := 1
  period := 0
  scale := if freq > uintMax / 10 then -1 else 0

def invertTimerFreq (freq fuel : Nat) : Startup QtimeEntry :=
  if freq = 0 then crash "Timer frequency is zero\n"
    else invertLoop (divisor freq) fuel (invertStart freq)

inductive InvertReached (freq : Nat) : InvertState → Prop
  | start : InvertReached freq (invertStart freq)
  | turn {s s' : InvertState} (h : InvertReached freq s)
      (hturn : invertTurn (divisor freq) s = .inr s') : InvertReached freq s'

structure NoOverflow (freq : Nat) (s : InvertState) : Prop where
  shifted : s.period * 10 < 2 ^ 32
  period : s.period * 10 + s.quot / freq < 2 ^ 32
  rem : s.quot % freq * 10 < 2 ^ 32

/-- The frequency whose reciprocal is computed. -/
def effectiveFreq (freq : Nat) : Nat := if freq > uintMax / 10 then 10 * (freq / 10) else freq

section
variable {d freq fuel n : Nat} {s s' : InvertState} {qtime : QtimeEntry}

open LongDivision

/-- The state before digit `n`: the digits before it and the remainder they leave. -/
structure DigitsDone (d : Nat) (scale : Int) (n : Nat) (s : InvertState) : Prop where
  quot : s.quot / d + s.period * 10 = 10 ^ n / d
  rem : s.quot % d = 10 ^ n % d
  quot_lt : s.quot < 10 * d
  period_lt : s.period < uintMax / 10 - 10
  scale_eq : s.scale = scale - n

theorem DigitsDone.start (hd : 0 < d) (scale : Int) : DigitsDone d scale 0 ⟨1, 0, scale⟩ :=
  ⟨rfl, rfl, by dsimp only; omega, (by decide : 0 < uintMax / 10 - 10), (Int.sub_zero scale).symm⟩

theorem DigitsDone.noOverflow {scale : Int} (hd : 0 < d) (hd' : d ≤ uintMax / 10)
    (h : DigitsDone d scale n s) : NoOverflow d s := by
  have hperiod := h.period_lt
  have hdigit : s.quot / d < 10 := Nat.div_lt_of_lt_mul ((Nat.mul_comm 10 d) ▸ h.quot_lt)
  have hrem := Nat.mod_lt s.quot hd
  unfold uintMax at *
  exact ⟨by omega, by omega, by omega⟩

theorem DigitsDone.turn {scale : Int} (hd : 0 < d) (hd' : d ≤ uintMax / 10)
    (h : DigitsDone d scale n s) :
    invertTurn d s =
      if 10 ^ n / d ≥ uintMax / 10 - 10 ∨ 10 ^ n % d = 0 then .inl ⟨10 ^ n / d, scale - n⟩
      else .inr ⟨10 ^ n % d * 10, 10 ^ n / d, scale - n - 1⟩ := by
  have hfits := h.noOverflow hd hd'
  unfold invertTurn
  dsimp only
  rw [u32_of_lt hfits.shifted, u32_of_lt hfits.period, u32_of_lt hfits.rem,
    Nat.add_comm (s.period * 10), h.quot, h.rem, h.scale_eq]

theorem DigitsDone.period_fits {scale : Int} (hd : 0 < d) (hd' : d ≤ uintMax / 10)
    (h : DigitsDone d scale n s) : 10 ^ n / d < 2 ^ 32 := by
  have hfits := (h.noOverflow hd hd').period
  rwa [Nat.add_comm, h.quot] at hfits

theorem DigitsDone.next {scale : Int} (hd : 0 < d) (hd' : d ≤ uintMax / 10)
    (h : DigitsDone d scale n s) (hturn : invertTurn d s = .inr s') :
    DigitsDone d scale (n + 1) s' := by
  rw [h.turn hd hd'] at hturn
  split at hturn
  · exact nomatch hturn
  · rename_i hgoes
    push Not at hgoes
    obtain rfl := Sum.inr.inj hturn
    have hrem := Nat.mod_lt (10 ^ n) hd
    refine ⟨?_, ?_, by dsimp only; omega, hgoes.1, by dsimp only; omega⟩
    · rw [pow_succ_div hd, Nat.mul_comm 10 (10 ^ n % d), Nat.mul_comm 10 (10 ^ n / d), Nat.add_comm]
    · rw [pow_succ_mod, Nat.mul_comm 10]

theorem invertLoop_mono {fuel' : Nat} (h : invertLoop d fuel s = .ok qtime) (hle : fuel ≤ fuel') :
    invertLoop d fuel' s = .ok qtime := by
  induction fuel generalizing s fuel' with
  | zero => exact nomatch h
  | succ fuel ih =>
    obtain ⟨fuel', rfl⟩ := Nat.exists_eq_add_of_le' (show 1 ≤ fuel' by omega)
    rw [invertLoop] at h ⊢
    cases hturn : invertTurn d s with
    | inl q =>
      rw [hturn] at h
      exact h
    | inr s' =>
      rw [hturn] at h
      exact ih h (by omega)

theorem divisor_pos (h : 1 ≤ freq) : 0 < divisor freq := by
  unfold divisor uintMax
  split
  all_goals omega

theorem divisor_le (h : freq < 2 ^ 32) : divisor freq ≤ uintMax / 10 := by
  unfold divisor uintMax
  split
  all_goals omega

theorem InvertReached.digitsDone (h : 1 ≤ freq) (h' : freq < 2 ^ 32) (hs : InvertReached freq s) :
    ∃ n, DigitsDone (divisor freq) (invertStart freq).scale n s := by
  induction hs with
  | start => exact ⟨0, .start (divisor_pos h) _⟩
  | turn _ hturn ih =>
    obtain ⟨n, hn⟩ := ih
    exact ⟨n + 1, hn.next (divisor_pos h) (divisor_le h') hturn⟩

/-- The loop ends: at the digit 10^-18 the period has reached its bound for every divisor. -/
theorem DigitsDone.loop_ok {scale : Int} (hd : 0 < d) (hd' : d ≤ uintMax / 10) (k : Nat) :
    ∀ {n s}, n + k = 18 → DigitsDone d scale n s →
      ∃ N : Nat, (0 < 10 ^ N / d ∧ 10 ^ N / d < 2 ^ 32) ∧ ∀ fuel, 19 ≤ fuel + n →
        invertLoop d fuel s = .ok ⟨10 ^ N / d, scale - N⟩ := by
  induction k with
  | zero =>
    intro n s hn h
    obtain rfl : n = 18 := hn
    have hlast : 10 ^ 18 / d ≥ uintMax / 10 - 10 := by
      unfold uintMax at *
      rw [ge_iff_le, Nat.le_div_iff_mul_le hd]
      omega
    refine ⟨18, ⟨lt_of_lt_of_le (by decide) hlast, h.period_fits hd hd'⟩, fun fuel hfuel => ?_⟩
    obtain ⟨fuel, rfl⟩ := Nat.exists_eq_add_of_le' (show 1 ≤ fuel by omega)
    rw [invertLoop, h.turn hd hd', if_pos (.inl hlast)]
  | succ k ih =>
    intro n s hn h
    have hturn := h.turn hd hd'
    by_cases hstop : 10 ^ n / d ≥ uintMax / 10 - 10 ∨ 10 ^ n % d = 0
    · rw [if_pos hstop] at hturn
      refine ⟨n, ⟨?_, h.period_fits hd hd'⟩, fun fuel hfuel => ?_⟩
      · rcases hstop with hfull | hexact
        · exact lt_of_lt_of_le (by decide) hfull
        · exact Nat.div_pos (Nat.le_of_dvd (Nat.pow_pos (by decide))
            (Nat.dvd_of_mod_eq_zero hexact)) hd
      · obtain ⟨fuel, rfl⟩ := Nat.exists_eq_add_of_le' (show 1 ≤ fuel by omega)
        rw [invertLoop, hturn]
    · rw [if_neg hstop] at hturn
      obtain ⟨N, hpos, hrun⟩ := ih (by omega) (h.next hd hd' hturn)
      refine ⟨N, hpos, fun fuel hfuel => ?_⟩
      obtain ⟨fuel, rfl⟩ := Nat.exists_eq_add_of_le' (show 1 ≤ fuel by omega)
      rw [invertLoop, hturn]
      exact hrun fuel (by omega)

theorem effectiveFreq_pos (h : 1 ≤ freq) : 0 < effectiveFreq freq := by
  unfold effectiveFreq uintMax
  split
  all_goals omega

theorem invertTimerFreq_ok (h : 1 ≤ freq) (h' : freq < 2 ^ 32) :
    ∃ N : Nat, (0 < 10 ^ N / effectiveFreq freq ∧ 10 ^ N / effectiveFreq freq < 2 ^ 32) ∧
      ∀ fuel ≥ 19, invertTimerFreq freq fuel = .ok ⟨10 ^ N / effectiveFreq freq, -N⟩ := by
  obtain ⟨N, hpos, hrun⟩ := (DigitsDone.start (divisor_pos h) (invertStart freq).scale).loop_ok
    (divisor_pos h) (divisor_le h') 18 rfl
  have hloop : ∀ fuel, invertTimerFreq freq fuel = invertLoop (divisor freq) fuel
      (invertStart freq) := fun _ => if_neg (Nat.ne_of_gt h)
  by_cases hlarge : freq > uintMax / 10
  · have hperiod : 10 ^ N / divisor freq = 10 ^ (N + 1) / effectiveFreq freq := by
      rw [divisor, effectiveFreq, if_pos hlarge, if_pos hlarge, pow_succ, Nat.mul_comm,
        Nat.mul_div_mul_left _ _ (by decide)]
    have hscale : (invertStart freq).scale - N = -((N + 1 : Nat) : Int) := by
      rw [invertStart, if_pos hlarge]
      dsimp only
      omega
    rw [hperiod, hscale] at hrun
    exact ⟨N + 1, hperiod ▸ hpos, fun fuel hfuel => (hloop fuel).trans (hrun fuel hfuel)⟩
  · have hfreq : divisor freq = effectiveFreq freq := by
      rw [divisor, effectiveFreq, if_neg hlarge, if_neg hlarge]
    have hscale : (invertStart freq).scale - N = -(N : Int) := by
      rw [invertStart, if_neg hlarge, zero_sub]
    rw [hscale] at hrun
    rw [← hfreq]
    exact ⟨N, hpos, fun fuel hfuel => (hloop fuel).trans (hrun fuel hfuel)⟩

theorem invert_timer_freq_accurate (h : 1 ≤ freq) (h' : freq < 2 ^ 32) :
    ∃ qtime, (∀ fuel ≥ 19, invertTimerFreq freq fuel = .ok qtime) ∧
      (∀ s, InvertReached freq s → NoOverflow (divisor freq) s) ∧
      (qtime.timerPeriod : ℚ) * 10 ^ qtime.timerScale ≤ 1 / effectiveFreq freq ∧
        (1 / effectiveFreq freq : ℚ) < (qtime.timerPeriod + 1) * 10 ^ qtime.timerScale := by
  obtain ⟨N, -, hrun⟩ := invertTimerFreq_ok h h'
  refine ⟨_, hrun, fun s hs => ?_, ?_⟩
  · obtain ⟨n, hn⟩ := hs.digitsDone h h'
    exact hn.noOverflow (divisor_pos h) (divisor_le h')
  · have hbounds := @reciprocal_bounds 10 (effectiveFreq freq) N (by decide) (effectiveFreq_pos h)
    exact_mod_cast hbounds

theorem invert_timer_freq_accurate_example :
    (1 ≤ 19200000 ∧ 19200000 < 2 ^ 32) ∧
      ∃ qtime, ∀ fuel ≥ 19, invertTimerFreq 19200000 fuel = .ok qtime := by
  have hrange : 1 ≤ 19200000 ∧ 19200000 < 2 ^ 32 := by decide
  obtain ⟨qtime, hrun, -⟩ := invert_timer_freq_accurate hrange.1 hrange.2
  exact ⟨hrange, qtime, hrun⟩

end

/-- The product, or 0 where it overflows; a product that is not 0 is kept. -/
def tickProduct (ticks ns period : Nat) : Startup Nat :=
  if ns = 0 then
    let ns := u64 (period * ticks)
    if period = 0 then .error .fault else .ok (if ns / period ≠ ticks then 0 else ns)
  else .ok ns

def tickLoop (ticks : Nat) : Nat → Nat → Nat → Startup Nat
  | 0, ns, period => tickProduct ticks ns period
  | power + 1, ns, period => (tickProduct ticks ns period).bind fun ns =>
    tickLoop ticks power (ns / 10) (period / 10)

def timerTick2ns (qtime : QtimeEntry) (ticks : Nat) : Startup Nat :=
  let power := -9 - qtime.timerScale
  (tickLoop ticks power.toNat 0 qtime.timerPeriod).bind fun ns =>
    .ok ((fun ns => u64 (ns * 10))^[(-power).toNat] ns)

def timerNs2tick (qtime : QtimeEntry) (ns : Nat) : Startup Nat :=
  (timerTick2ns qtime 1).bind fun ticks2ns =>
    .ok (if ticks2ns ≠ 0 then ns / ticks2ns else 0xFFFFFFFF)

section
variable {freq fuel ticks ns period k : Nat} {qtime : QtimeEntry}

open LongDivision

/-- A quotient that has fallen to 0 is computed again, with a period that has fallen to
0 before it. -/
theorem tickLoop_quotient (h : period ≤ ns) (k : Nat) :
    tickLoop ticks k ns period = if ns / 10 ^ k = 0 then .error .fault else .ok (ns / 10 ^ k) := by
  induction k generalizing ns period with
  | zero =>
    rw [pow_zero, Nat.div_one, tickLoop, tickProduct]
    split
    · rw [if_pos (by omega)]
    · rfl
  | succ k ih =>
    rw [tickLoop, tickProduct]
    split
    · rename_i hzero
      rw [if_pos (by omega), hzero, Nat.zero_div, if_pos rfl]
      rfl
    · rw [ok_bind, ih (Nat.div_le_div_right h), Nat.div_div_eq_div_mul, ← pow_succ']

theorem tickProduct_zero (period : Nat) :
    tickProduct 0 0 period = if period = 0 then .error .fault else .ok 0 := by
  rw [tickProduct, if_pos rfl, Nat.mul_zero]
  split
  · rfl
  · exact congrArg Except.ok (ite_self 0)

theorem tickLoop_zero (period k : Nat) :
    tickLoop 0 k 0 period = if period / 10 ^ k = 0 then .error .fault else .ok 0 := by
  induction k generalizing period with
  | zero => rw [pow_zero, Nat.div_one, tickLoop, tickProduct_zero]
  | succ k ih =>
    rw [tickLoop, tickProduct_zero]
    split
    · rename_i hzero
      subst hzero
      rw [Nat.zero_div (10 ^ (k + 1)), if_pos rfl]
      rfl
    · rw [ok_bind, Nat.zero_div, ih, Nat.div_div_eq_div_mul, ← pow_succ']

/-- The quotient of the product, unless it is 0; no ticks count as one there. -/
theorem tickLoop_eq (hperiod : 0 < period) (hfit : period * ticks < 2 ^ 64) (k : Nat) :
    tickLoop ticks k 0 period = if period * max ticks 1 / 10 ^ k = 0 then .error .fault
      else .ok (period * ticks / 10 ^ k) := by
  rcases Nat.eq_zero_or_pos ticks with rfl | hticks
  · rw [tickLoop_zero, Nat.mul_zero, Nat.zero_div, max_eq_right (Nat.zero_le 1), Nat.mul_one]
  · have hproduct : tickProduct ticks 0 period = .ok (period * ticks) := by
      rw [tickProduct, if_pos rfl, if_neg (by omega), u64_of_lt hfit,
        Nat.mul_div_cancel_left _ hperiod, if_neg (not_not.mpr rfl)]
    have hle : period ≤ period * ticks := Nat.le_mul_of_pos_right period hticks
    have hsame : ∀ k, tickLoop ticks k 0 period = tickLoop ticks k (period * ticks) period := by
      have hkept : tickProduct ticks (period * ticks) period = .ok (period * ticks) :=
        if_neg (by omega)
      intro k
      cases k with
      | zero => rw [tickLoop, tickLoop, hproduct, hkept]
      | succ k => rw [tickLoop, tickLoop, hproduct, hkept]
    rw [hsame, tickLoop_quotient hle, max_eq_left hticks]

theorem scaleUp_eq (m : Nat) {x : Nat} (hfit : x * 10 ^ m < 2 ^ 64) :
    (fun ns => u64 (ns * 10))^[m] x = x * 10 ^ m := by
  induction m generalizing x with
  | zero => rw [Function.iterate_zero_apply, pow_zero, Nat.mul_one]
  | succ m ih =>
    have hnext : x * 10 * 10 ^ m = x * 10 ^ (m + 1) := by rw [pow_succ', Nat.mul_assoc]
    have hlow : x * 10 ≤ x * 10 * 10 ^ m := Nat.le_mul_of_pos_right _ (Nat.pow_pos (by decide))
    rw [Function.iterate_succ_apply, u64_of_lt (by omega), ih (by omega), hnext]

def nanoseconds (qtime : QtimeEntry) (ticks : Nat) : Nat :=
  ⌊(ticks * qtime.timerPeriod : ℚ) * 10 ^ (qtime.timerScale + 9)⌋₊

theorem nanoseconds_eq (period N ticks : Nat) :
    nanoseconds ⟨period, -N⟩ ticks = period * ticks / 10 ^ (N - 9) * 10 ^ (9 - N) := by
  unfold nanoseconds
  rcases Nat.le_total 9 N with hlarge | hsmall
  · have hexp : -(N : Int) + 9 = -((N - 9 : Nat) : Int) := by omega
    have hfloor := floor_mul_zpow_neg 10 (ticks * period) (N - 9)
    rw [Nat.sub_eq_zero_of_le hlarge, pow_zero, Nat.mul_one, Nat.mul_comm period, ← hfloor, hexp]
    push_cast
    rfl
  · have hexp : -(N : Int) + 9 = ((9 - N : Nat) : Int) := by omega
    have hfloor := floor_mul_zpow 10 (ticks * period) (9 - N)
    rw [Nat.sub_eq_zero_of_le hsmall, pow_zero, Nat.div_one, Nat.mul_comm period, ← hfloor, hexp]
    push_cast
    rfl

theorem timerTick2ns_eq {N : Nat} (hperiod : 0 < period) (hproduct : period * ticks < 2 ^ 64) :
    timerTick2ns ⟨period, -N⟩ ticks =
      if period * max ticks 1 / 10 ^ (N - 9) = 0 then .error .fault
      else .ok ((fun ns => u64 (ns * 10))^[9 - N] (period * ticks / 10 ^ (N - 9))) := by
  have hdown : (-9 - -(N : Int)).toNat = N - 9 := by omega
  have hup : (-(-9 - -(N : Int))).toNat = 9 - N := by omega
  unfold timerTick2ns
  dsimp only
  rw [hdown, hup, tickLoop_eq hperiod hproduct]
  split
  all_goals rfl

/-- The period of a tick has nanoseconds in it exactly up to 1 GHz. -/
theorem period_digits_iff {N f : Nat} (hf : 0 < f) (hperiod : 0 < 10 ^ N / f) :
    10 ^ N / f / 10 ^ (N - 9) = 0 ↔ 10 ^ 9 < f := by
  have hle : f ≤ 10 ^ N := (Nat.div_pos_iff.mp hperiod).2
  rcases Nat.le_total 9 N with hlarge | hsmall
  · obtain ⟨k, rfl⟩ := Nat.exists_eq_add_of_le hlarge
    rw [Nat.add_sub_cancel_left, Nat.div_div_eq_div_mul, pow_add,
      Nat.mul_div_mul_right _ _ (Nat.pow_pos (by decide)), Nat.div_eq_zero_iff]
    omega
  · rw [Nat.sub_eq_zero_of_le hsmall, pow_zero, Nat.div_one]
    have hpow : 10 ^ N ≤ 10 ^ 9 := Nat.pow_le_pow_right (by decide) hsmall
    omega

theorem effectiveFreq_gt_iff (freq : Nat) : 10 ^ 9 < effectiveFreq freq ↔ 10 ^ 9 + 10 ≤ freq := by
  unfold effectiveFreq uintMax
  split
  all_goals omega

/-- Ticks are converted to their nanoseconds, and no conversion of nanoseconds to ticks
divides by zero. -/
def Converts (qtime : QtimeEntry) (ticks : Nat) : Prop :=
  timerTick2ns qtime ticks = .ok (nanoseconds qtime ticks) ∧
    ∀ ns, timerNs2tick qtime ns ≠ .error .fault

theorem tick_conversion_iff (h : 1 ≤ freq) (h' : freq < 2 ^ 32)
    (hqtime : invertTimerFreq freq fuel = .ok qtime) (hproduct : ticks * qtime.timerPeriod < 2 ^ 64)
    (hresult : nanoseconds qtime ticks < 2 ^ 64) :
    Converts qtime ticks ↔ freq < 10 ^ 9 + 10 := by
  obtain ⟨N, ⟨hpos, hlt⟩, hrun⟩ := invertTimerFreq_ok h h'
  obtain rfl : qtime = ⟨10 ^ N / effectiveFreq freq, -N⟩ := by
    have hlonger := hrun (max fuel 19) (Nat.le_max_right _ _)
    rw [invertTimerFreq, if_neg (Nat.ne_of_gt h)] at hqtime hlonger
    exact Except.ok.inj ((invertLoop_mono hqtime (Nat.le_max_left _ _)).symm.trans hlonger)
  have hdigits := period_digits_iff (effectiveFreq_pos h) hpos
  rw [effectiveFreq_gt_iff] at hdigits
  dsimp only at hproduct
  rw [Nat.mul_comm] at hproduct
  rw [nanoseconds_eq] at hresult
  have hone := @timerTick2ns_eq 1 _ N hpos (by omega)
  rw [Nat.max_self, Nat.mul_one] at hone
  unfold Converts timerNs2tick
  rw [hone, nanoseconds_eq]
  constructor
  · rintro ⟨-, hdivides⟩
    by_contra hlarge
    rw [if_pos (hdigits.mpr (by omega))] at hdivides
    exact hdivides 0 rfl
  · intro hsmall
    have hsome := mt hdigits.mp (by omega)
    have hmore : 10 ^ N / effectiveFreq freq / 10 ^ (N - 9) ≤ 10 ^ N / effectiveFreq freq *
        max ticks 1 / 10 ^ (N - 9) :=
      Nat.div_le_div_right (Nat.le_mul_of_pos_right _ (by omega))
    rw [timerTick2ns_eq hpos hproduct, if_neg hsome,
      if_neg (Nat.ne_of_gt (lt_of_lt_of_le (Nat.pos_of_ne_zero hsome) hmore)), scaleUp_eq _ hresult]
    exact ⟨rfl, fun ns hfault => nomatch hfault⟩

theorem tick_conversion_iff_example :
    invertTimerFreq 19200000 19 = .ok ⟨520833333, -16⟩ ∧ Converts ⟨520833333, -16⟩ 19200000 := by
  have hrun : invertTimerFreq 19200000 19 = .ok ⟨520833333, -16⟩ := by decide
  exact ⟨hrun, (tick_conversion_iff (by decide) (by decide) hrun (by decide)
    (by decide +kernel)).mpr (by decide)⟩

/-- At 2 GHz a tick has no nanosecond. -/
theorem tick_conversion_2ghz :
    ¬ ∀ (freq fuel ticks : Nat) (qtime : QtimeEntry), 1 ≤ freq → freq < 2 ^ 32 →
      invertTimerFreq freq fuel = .ok qtime →
      ticks * qtime.timerPeriod < 2 ^ 64 → nanoseconds qtime ticks < 2 ^ 64 →
        Converts qtime ticks := by
  intro hall
  have hconverts := hall 2000000000 19 1 ⟨5, -10⟩ (by decide) (by decide) (by decide) (by decide)
    (by decide +kernel)
  exact hconverts.2 0 (by decide)

end

end QnxStartup
