import QnxStartup.Calendar
import QnxStartup.Machine

/-! `calc_time_t.c` and `gmtime.c`: seconds from the fields of a `struct tm` and back. -/

namespace QnxStartup

/-- `struct tm`. -/
structure Tm where
  sec : Int
  min : Int
  hour : Int
  mday : Int
  mon : Int
  year : Int
  wday : Int := 0
  yday : Int := 0
  deriving DecidableEq

def secPerMin : Nat := 60

def secPerHour : Nat := 60 * secPerMin

def secPerDay : Nat := 24 * secPerHour

def monthSec : List Nat :=
  [0, 2678400, 5097600, 7776000, 10368000, 13046400, 15638400, 18316800, 20995200, 23587200,
    26265600, 28857600]

def calcTimeT (tm : Tm) : Startup Nat :=
  let year := uint32 (tm.year - 70)
  let sec := u64 (u64 (u64 (year * 365) + u32 (year + 1) / 4) * secPerDay)
  if 0 ≤ tm.mon ∧ tm.mon < 12 then
    let sec := u64 (sec + monthSec.getD tm.mon.toNat 0)
    -- modulo 2^32, also where the sum no longer fits an `int`
    let year := uint32 (tm.year + 1900)
    let sec := if 2 ≤ tm.mon ∧ year % 4 = 0 ∧ (year % 100 ≠ 0 ∨ year % 400 = 0) then
      u64 (sec + secPerDay) else sec
    let sec := u64 (sec + u64 (uint64 (tm.mday - 1) * secPerDay))
    let sec := u64 (sec + u64 (uint64 tm.hour * secPerHour))
    let sec := u64 (sec + u64 (uint64 tm.min * secPerMin))
    .ok (u64 (sec + uint64 tm.sec))
  else crash "%s: Month returned by RTC is out of bounds\n"

/-- `((year + 2) % 4) == 0`, with the year counted from 1970. -/
def isFourthYear (year : Nat) : Bool := (year + 2) % 4 = 0

def mdays (leap : Bool) : List Nat :=
  if leap then [31, 29, 31, 30, 31, 30, 31, 31, 30, 31, 30, 31]
    else [31, 28, 31, 30, 31, 30, 31, 31, 30, 31, 30, 31]

/-- The loop over the years, with `fuel` rounds to its end. -/
def yearScan : Nat → Nat → Nat → Startup (Nat × Nat)
  | 0, _, _ => .error .noReturn
  | fuel + 1, year, days =>
    let t := 365 + if isFourthYear year then 1 else 0
    if t > days then .ok (year, days) else yearScan fuel (year + 1) (days - t)

def monthScan : List Nat → Nat → Nat → Nat × Nat
  | [], mon, days => (mon, days)
  | t :: ts, mon, days => if t > days then (mon, days) else monthScan ts (mon + 1) (days - t)

def gmtime (timer : Int) : Startup Tm :=
  let days := uint64 (timer.tdiv (60 * 60 * 24))
  let secs := uint64 (timer.tmod (60 * 60 * 24))
  let wday := (days + 4) % 7
  (yearScan (days + 1) 0 days).bind fun (year, yday) =>
    let (mon, days) := monthScan (mdays (isFourthYear year)) 0 yday
    .ok {
      sec := int32 (u32 (secs % 60))
      min := int32 (u32 (secs / 60 % 60))
      hour := int32 (u32 (secs / 60 / 60))
      mday := int32 (u32 (days + 1))
      mon := int32 (u32 mon)
      year := int32 (u32 (year + 70))
      wday := int32 (u32 wday)
      yday := int32 (u32 yday) }

/-- The day on which a year begins when every fourth one is a leap year, counted from
1970 like the year. -/
def startOfYear (k : Nat) : Nat := 365 * k + (k + 1) / 4

section
variable {k mon mday hour min sec : Nat}

open Calendar

theorem monthSec_eq (k : Nat) (hmon : mon < 12) :
    monthSec.getD mon 0 + (if 2 ≤ mon ∧ IsLeapYear k then 86400 else 0) =
      86400 * daysBeforeMonth k (mon + 1) := by
  have htable : ∀ mon < 12,
      monthSec.getD mon 0 = 86400 * monthStarts.getD mon 0 := by decide
  rw [daysBeforeMonth_eq k hmon, htable mon hmon, Nat.mul_add, mul_ite, Nat.mul_one, Nat.mul_zero]

theorem monthStarts_march (hmon : mon < 12) :
    let table := monthStarts.getD mon 0
    (mon = 0 → table = 0) ∧ (mon = 1 → table = 31) ∧ (2 ≤ mon → 59 ≤ table) ∧ table ≤ 334 := by
  decide +revert

theorem daysBeforeMonth_le (y : Nat) (hmon : mon < 12) : daysBeforeMonth y (mon + 1) ≤ 335 := by
  have := (monthStarts_march hmon).2.2.2
  rw [daysBeforeMonth_eq y hmon]
  split
  all_goals omega

/-- `calc_time_t` counts every fourth year before the year itself as a leap year, and
that one by the calendar. -/
theorem calcTimeT_fields (hmon : mon < 12) (hmday : 1 ≤ mday) {year wday yday : Int} {start : Nat}
    (hstart : uint32 (year - 70) * 365 + u32 (uint32 (year - 70) + 1) / 4 = start)
    (hfit : 86400 * (start + daysBeforeMonth (uint32 (year + 1900)) (mon + 1) + (mday - 1)) + 3600 *
      hour + 60 * min + sec < 2 ^ 64) :
    calcTimeT ⟨sec, min, hour, mday, mon, year, wday, yday⟩ =
      .ok (86400 * (start + daysBeforeMonth (uint32 (year + 1900)) (mon + 1) + (mday - 1)) + 3600 *
        hour + 60 * min + sec) := by
  subst hstart
  have hmonth := monthSec_eq (uint32 (year + 1900)) hmon
  have hday : uint64 ((mday : Int) - 1) = mday - 1 := by
    unfold uint64
    omega
  unfold calcTimeT
  simp only [hday]
  rw [if_pos (by omega), uint64_natCast (by omega), uint64_natCast (by omega),
    uint64_natCast (by omega), Int.toNat_natCast]
  generalize uint32 (year + 1900) = y at hmonth hfit ⊢
  generalize uint32 (year - 70) = start at hfit ⊢
  refine congrArg Except.ok ?_
  have hleap : (2 ≤ (mon : Int) ∧ y % 4 = 0 ∧ (y % 100 ≠ 0 ∨ y % 400 = 0)) ↔
      2 ≤ mon ∧ IsLeapYear y := by
    rw [IsLeapYear]
    omega
  rw [if_congr hleap rfl rfl]
  simp only [u64_add_left, u64_add_right, u64_mul_left, secPerDay, secPerHour, secPerMin]
  by_cases hl : 2 ≤ mon ∧ IsLeapYear y
  · rw [if_pos hl] at hmonth ⊢
    simp only [Nat.add_assoc, u64_add_left]
    rw [u64_of_lt (by omega)]
    omega
  · rw [if_neg hl] at hmonth ⊢
    simp only [Nat.add_assoc, u64_add_left]
    rw [u64_of_lt (by omega)]
    omega

theorem calcTimeT_eq (hmon : mon < 12) (hmday : 1 ≤ mday) {wday yday : Int} (hk : k + 1970 < 2 ^ 32)
    (hfit : 86400 * (startOfYear k + daysBeforeMonth (1970 + k) (mon + 1) + (mday - 1)) + 3600 *
      hour + 60 * min + sec < 2 ^ 64) :
    calcTimeT ⟨sec, min, hour, mday, mon, (k + 70 : Nat), wday, yday⟩ =
      .ok (86400 * (startOfYear k + daysBeforeMonth (1970 + k) (mon + 1) + (mday - 1)) + 3600 *
        hour + 60 * min + sec) := by
  have hyear : uint32 (((k + 70 : Nat) : Int) - 70) = k := by
    unfold uint32
    omega
  have hyear' : uint32 (((k + 70 : Nat) : Int) + 1900) = 1970 + k := by
    unfold uint32
    omega
  have hstart : k * 365 + u32 (k + 1) / 4 = startOfYear k := by
    rw [u32_of_lt (by omega), startOfYear, Nat.mul_comm]
  rw [← hyear'] at hfit ⊢
  exact calcTimeT_fields hmon hmday (by rw [hyear, hstart]) hfit

theorem daysBeforeYear_1970 {y : Nat} (h : 1970 ≤ y) (h' : y ≤ 2100) :
    daysBeforeYear 1970 y = startOfYear (y - 1970) := by
  have hleap : ∀ k, 1970 ≤ k → k < y → (IsLeapYear k ↔ k % 4 = 0) := by
    intro k hlow hhigh
    unfold IsLeapYear
    omega
  have := daysBeforeYear_eq h hleap
  unfold startOfYear
  omega

theorem seconds_1970 (i : Instant) (h : 1970 ≤ i.year) (h' : i.year ≤ 2100) :
    i.seconds 1970 =
      86400 * (startOfYear (i.year - 1970) + daysBeforeMonth i.year i.month + (i.day - 1)) + 3600 *
        i.hour + 60 * i.minute + i.second := by
  rw [Instant.seconds, Instant.days, daysBeforeYear_1970 h h']

theorem calcTimeT_instant (i : Instant) (h : 1970 ≤ i.year) (h' : i.year ≤ 2100) (hmon : mon < 12)
    (hhour : hour < 48) {year : Int} (hyear : year = (i.year : Int) - 1900) {wday yday : Int} :
    calcTimeT ⟨i.second, i.minute, hour, i.day, mon, year, wday, yday⟩ =
      .ok (86400 * (startOfYear (i.year - 1970) + daysBeforeMonth i.year (mon + 1) + (i.day - 1)) +
        3600 * hour + 60 * i.minute + i.second) := by
  have hsame : 1970 + (i.year - 1970) = i.year := by omega
  have hcast : ((i.year - 1970 + 70 : Nat) : Int) = year := by omega
  obtain ⟨hsecond, hminute, -, hday, -⟩ := i.fields_lt
  have hbefore := daysBeforeMonth_le i.year hmon
  have hfields := @calcTimeT_eq (i.year - 1970) mon i.day hour i.minute i.second hmon i.day_mem.1
    wday yday (by omega)
  rw [hsame, hcast] at hfields
  exact hfields (by unfold startOfYear; omega)

theorem calcTimeT_seconds (i : Instant) (h : 1970 ≤ i.year) (h' : i.year ≤ 2100) {mon year : Int}
    (hmon : mon = (i.month : Int) - 1) (hyear : year = (i.year : Int) - 1900) {wday yday : Int} :
    calcTimeT ⟨i.second, i.minute, i.hour, i.day, mon, year, wday, yday⟩ =
      .ok (i.seconds 1970) := by
  obtain ⟨hlow, hhigh⟩ := i.month_mem
  have hhour := i.hour_lt
  have hfields := @calcTimeT_instant (i.month - 1) i.hour i h h' (by omega)
    (by omega) year hyear wday yday
  rw [seconds_1970 i h h']
  rwa [Nat.sub_add_cancel hlow, Int.natCast_sub hlow, Nat.cast_one, ← hmon] at hfields

/-- A year that is read two years late or more cannot be made good by the other fields. -/
theorem calcTimeT_ne (i : Instant) (h : 1970 ≤ i.year) (h' : i.year ≤ 2069) (hhour : hour < 48)
    {mon year : Int} (hmon : mon = (i.month : Int) - 1)
    (hlate : i.year - 1970 + 2 ≤ uint32 (year - 70)) {wday yday : Int} :
    calcTimeT ⟨i.second, i.minute, hour, i.day, mon, year, wday, yday⟩ ≠ .ok (i.seconds 1970) := by
  obtain ⟨hlow, hhigh⟩ := i.month_mem
  obtain rfl : mon = (i.month - 1 : Nat) := by omega
  have hbelow : uint32 (year - 70) < 2 ^ 32 := by
    unfold uint32
    omega
  have hcarry := u32_lt (uint32 (year - 70) + 1)
  obtain ⟨hsecond, hminute, hinstant, hday, -⟩ := i.fields_lt
  have hbefore := daysBeforeMonth_le (uint32 (year + 1900)) (show i.month - 1 < 12 by omega)
  have hbefore' := daysBeforeMonth_le i.year (show i.month - 1 < 12 by omega)
  rw [Nat.sub_add_cancel hlow] at hbefore hbefore'
  rw [calcTimeT_fields (by omega) i.day_mem.1 rfl (by rw [Nat.sub_add_cancel hlow]; omega),
    Nat.sub_add_cancel hlow, seconds_1970 i h (by omega)]
  intro hsame
  have hseconds := Except.ok.inj hsame
  unfold startOfYear at hseconds
  omega

theorem startOfYear_succ (k : Nat) :
    startOfYear (k + 1) = startOfYear k + (365 + if isFourthYear k then 1 else 0) := by
  unfold startOfYear
  cases hfourth : isFourthYear k with
  | false =>
    have hk := of_decide_eq_false hfourth
    rw [if_neg Bool.false_ne_true]
    omega
  | true =>
    have hk := of_decide_eq_true hfourth
    rw [if_pos rfl]
    omega

theorem startOfYear_inj {k k' x : Nat} (h : startOfYear k ≤ x) (h' : x < startOfYear (k + 1))
    (hk : startOfYear k' ≤ x) (hk' : x < startOfYear (k' + 1)) : k = k' := by
  unfold startOfYear at h h' hk hk'
  omega

theorem yearScan_ok {fuel year days : Nat} (hfuel : days < fuel) :
    ∃ k d, yearScan fuel year days = .ok (k, d) ∧ startOfYear k + d = startOfYear year + days ∧
      startOfYear k + d < startOfYear (k + 1) := by
  induction fuel generalizing year days with
  | zero => omega
  | succ fuel ih =>
    have hsucc := startOfYear_succ year
    have hpos : 0 < 365 + if isFourthYear year = true then 1 else 0 := by omega
    rw [yearScan]
    generalize (365 + if isFourthYear year = true then 1 else 0) = t at hsucc hpos ⊢
    by_cases hstop : t > days
    · exact ⟨year, days, if_pos hstop, rfl, by omega⟩
    · have hless : days - t < fuel := by omega
      obtain ⟨k, d, hrun, heq, hlt⟩ := @ih (year + 1) (days - t) hless
      exact ⟨k, d, by rw [if_neg hstop, hrun], by omega, hlt⟩

theorem monthScan_eq {ts : List Nat} {days : Nat} (h : days < ts.sum) (mon : Nat) :
    ∃ i < ts.length, monthScan ts mon days = (mon + i, days - (ts.take i).sum) ∧
      (ts.take i).sum ≤ days ∧
      days < (ts.take i).sum + ts.getD i 0 := by
  induction ts generalizing mon days with
  | nil => simp at h
  | cons t ts ih =>
    rw [monthScan]
    by_cases hstop : t > days
    · exact ⟨0, by simp, by rw [if_pos hstop]; simp, by simp, by simpa using hstop⟩
    · rw [List.sum_cons] at h
      have hrest : days - t < ts.sum := by omega
      obtain ⟨i, hi, hrun, hle, hlt⟩ := ih hrest (mon + 1)
      refine ⟨i + 1, by simpa using hi, ?_, ?_, ?_⟩
      · rw [if_neg hstop, hrun, List.take_succ_cons, List.sum_cons, Nat.add_right_comm,
          Nat.add_assoc, Nat.sub_sub]
      · rw [List.take_succ_cons, List.sum_cons]
        omega
      · rw [List.take_succ_cons, List.sum_cons, List.getD_cons_succ]
        omega

theorem mdays_sum (leap : Bool) : (mdays leap).sum = 365 + if leap = true then 1 else 0 := by
  cases leap <;> rfl

theorem mdays_length (leap : Bool) : (mdays leap).length = 12 := by
  cases leap <;> rfl

/-- What the month loop has subtracted before a month. -/
theorem mdays_take_sum (leap : Bool) (hmon : mon < 12) :
    ((mdays leap).take mon).sum =
      monthStarts.getD mon 0 + if 2 ≤ mon ∧ leap = true then 1 else 0 := by
  have htable : ∀ leap : Bool, ∀ mon < 12,
      ((mdays leap).take mon).sum =
        monthStarts.getD mon 0 + if 2 ≤ mon ∧ leap = true then 1 else 0 := by
    decide
  exact htable leap mon hmon

theorem mdays_getD (leap : Bool) (hmon : mon < 12) (hleap : IsLeapYear k → leap = true) :
    (mdays leap).getD mon 0 = monthLength k (mon + 1) + if mon = 1 ∧ leap = true ∧
      ¬ IsLeapYear k then 1 else 0 := by
  have htable : ∀ leap feb : Bool, (feb = true → leap = true) →
      ∀ mon < 12, (mdays leap).getD mon 0 =
        (if mon + 1 = 2 then if feb = true then 29 else 28
          else if mon + 1 = 4 ∨ mon + 1 = 6 ∨ mon + 1 = 9 ∨ mon + 1 = 11 then 30 else 31) +
        if mon = 1 ∧ leap = true ∧ ¬ feb = true then 1 else 0 := by
    decide
  have h := htable leap (decide (IsLeapYear k)) (by simpa using hleap) mon hmon
  simp only [decide_eq_true_eq] at h
  exact h

/-- A year that `gmtime` gives 366 days and the calendar 365, counted from 1970. -/
def MissedCentury (k : Nat) : Prop := (1970 + k) % 100 = 0 ∧ (1970 + k) % 400 ≠ 0

theorem isFourthYear_iff (k : Nat) :
    isFourthYear k = true ↔ IsLeapYear (1970 + k) ∨ MissedCentury k := by
  unfold isFourthYear IsLeapYear MissedCentury
  rw [decide_eq_true_eq]
  omega

theorem not_isLeapYear_of_missedCentury (h : MissedCentury k) : ¬ IsLeapYear (1970 + k) := by
  unfold MissedCentury at h
  unfold IsLeapYear
  omega

/-- A whole run: the two loops split the days into a year, a month of it and a day of the month. -/
theorem gmtime_eq {t : Nat} (ht : t < 86400 * startOfYear (2 ^ 31 - 70)) :
    ∃ k d mon, k < 2 ^ 31 - 70 ∧ mon < 12 ∧ startOfYear k + d = t / 86400 ∧
      startOfYear k + d < startOfYear (k + 1) ∧
      ((mdays (isFourthYear k)).take mon).sum ≤ d ∧
      d < ((mdays (isFourthYear k)).take mon).sum + (mdays (isFourthYear k)).getD mon 0 ∧
      gmtime t = .ok ⟨(t % 86400 % 60 : Nat), (t % 86400 / 60 % 60 : Nat),
        (t % 86400 / 60 / 60 : Nat),
        (d - ((mdays (isFourthYear k)).take mon).sum + 1 : Nat), mon, (k + 70 : Nat),
          ((t / 86400 + 4) % 7 : Nat), d⟩ := by
  obtain ⟨k, d, hscan, heq, hlt⟩ := @yearScan_ok (t / 86400 + 1) 0 (t / 86400) (Nat.lt_succ_self _)
  have hzero : startOfYear 0 = 0 := rfl
  have hk : k < 2 ^ 31 - 70 := by
    unfold startOfYear at *
    omega
  have hd : d < (mdays (isFourthYear k)).sum := by
    have := startOfYear_succ k
    rw [mdays_sum]
    omega
  obtain ⟨mon, hmon, hmonths, hle, hin⟩ := monthScan_eq hd 0
  rw [mdays_length] at hmon
  refine ⟨k, d, mon, hk, hmon, by omega, hlt, hle, hin, ?_⟩
  have hfits : t / 86400 < 2 ^ 63 := by
    unfold startOfYear at ht
    omega
  have hyday : d ≤ 365 := by
    have := startOfYear_succ k
    split at this
    all_goals omega
  have hdays : uint64 ((t : Int).tdiv (60 * 60 * 24)) = t / 86400 := by
    rw [show (60 * 60 * 24 : Int) = (86400 : Nat) from rfl, ← Int.ofNat_tdiv,
      uint64_natCast (by omega)]
  have hsecs : uint64 ((t : Int).tmod (60 * 60 * 24)) = t % 86400 := by
    rw [show (60 * 60 * 24 : Int) = (86400 : Nat) from rfl, ← Int.ofNat_tmod,
      uint64_natCast (by omega)]
  unfold gmtime
  simp only [hdays, hsecs, hscan, Except.bind, hmonths, Nat.zero_add]
  have hfield : ∀ n : Nat, n < 2 ^ 31 → int32 (u32 n) = n := fun n hn => by
    rw [u32_of_lt (by omega), int32_of_lt hn]
  rw [hfield (t % 86400 % 60) (by omega), hfield (t % 86400 / 60 % 60) (by omega),
    hfield (t % 86400 / 60 / 60) (by omega),
    hfield (d - _ + 1) (by omega), hfield mon (by omega), hfield (k + 70) (by omega),
    hfield ((t / 86400 + 4) % 7) (by omega), hfield d (by omega)]

structure Tm.InRange (tm : Tm) : Prop where
  sec : 0 ≤ tm.sec ∧ tm.sec < 60
  min : 0 ≤ tm.min ∧ tm.min < 60
  hour : 0 ≤ tm.hour ∧ tm.hour < 24
  mon : 0 ≤ tm.mon ∧ tm.mon < 12
  mday : 1 ≤ tm.mday ∧ tm.mday ≤ monthLength (tm.year + 1900).toNat (tm.mon + 1).toNat
  wday : 0 ≤ tm.wday ∧ tm.wday < 7
  yday : 0 ≤ tm.yday ∧ tm.yday < 366

def RoundTrips (t : Nat) : Prop := ∃ tm, gmtime t = .ok tm ∧ tm.InRange ∧ calcTimeT tm = .ok t

/-- The days from 1 March of a missed century on, up to the next year as `gmtime` counts the days:
`gmtime` has its leap day behind it there, `calc_time_t` has none before it. -/
def AfterMissedLeapDay (t : Nat) : Prop := ∃ k, MissedCentury k ∧ startOfYear k + 59 ≤ t / 86400 ∧
    t / 86400 < startOfYear (k + 1)

/-- Both conversions are right for a day unless it lies behind the leap day of a missed century. -/
theorem dayOfYear_split_iff {d : Nat} (hmon : mon < 12)
    (hle : ((mdays (isFourthYear k)).take mon).sum ≤ d)
    (hin : d < ((mdays (isFourthYear k)).take mon).sum + (mdays (isFourthYear k)).getD mon 0) :
    d - ((mdays (isFourthYear k)).take mon).sum + 1 ≤ monthLength (1970 + k) (mon + 1) ∧
        daysBeforeMonth (1970 + k) (mon + 1) = ((mdays (isFourthYear k)).take mon).sum ↔
      ¬ (MissedCentury k ∧ 59 ≤ d) := by
  have hfourth := isFourthYear_iff k
  have hnot := @not_isLeapYear_of_missedCentury k
  obtain ⟨hjan, hfeb, hmar, -⟩ := monthStarts_march hmon
  rw [mdays_take_sum _ hmon] at hle hin ⊢
  rw [mdays_getD (isFourthYear k) hmon fun h => hfourth.mpr (.inl h)] at hin
  rw [daysBeforeMonth_eq _ hmon]
  generalize monthStarts.getD mon 0 = table at *
  by_cases hcentury : MissedCentury k
  · have hleap : isFourthYear k = true := hfourth.mpr (.inr hcentury)
    have hcommon := hnot hcentury
    simp only [hleap, hcommon, hcentury, not_false_eq_true, and_true, and_false, if_false,
      true_and] at hle hin ⊢
    rcases Nat.lt_or_ge mon 2 with hlow | hhigh
    · rw [if_neg (by omega)] at hle hin ⊢
      obtain rfl | rfl : mon = 0 ∨ mon = 1 := by omega
      · have hlength : monthLength (1970 + k) (0 + 1) = 31 := rfl
        rw [if_neg (by decide)] at hin
        omega
      · have hlength : monthLength (1970 + k) (1 + 1) = 28 := if_neg hcommon
        rw [if_pos rfl] at hin
        omega
    · rw [if_pos hhigh] at hle hin ⊢
      omega
  · have hsame : isFourthYear k = true ↔ IsLeapYear (1970 + k) := by
      rw [hfourth, or_iff_left hcentury]
    simp only [hsame, hcentury, and_not_self, and_false, if_false, false_and, not_false_eq_true,
      iff_true] at hle hin ⊢
    exact ⟨by omega, trivial⟩

theorem afterMissedLeapDay_iff {t d : Nat} (heq : startOfYear k + d = t / 86400)
    (hlt : startOfYear k + d < startOfYear (k + 1)) :
    AfterMissedLeapDay t ↔ MissedCentury k ∧ 59 ≤ d := by
  constructor
  · rintro ⟨k', hcentury, hfrom, hto⟩
    obtain rfl := startOfYear_inj (by omega) (heq ▸ hlt) (by omega) hto
    exact ⟨hcentury, by omega⟩
  · rintro ⟨hcentury, hfrom⟩
    exact ⟨k, hcentury, by omega, by omega⟩

theorem Tm.inRange_iff {wday yday : Nat} (hmon : mon < 12) (hmday : 1 ≤ mday) (hhour : hour < 24)
    (hmin : min < 60) (hsec : sec < 60) (hwday : wday < 7) (hyday : yday < 366) :
    Tm.InRange ⟨sec, min, hour, mday, mon, (k + 70 : Nat), wday, yday⟩ ↔
      mday ≤ monthLength (1970 + k) (mon + 1) := by
  have hyear : (((k + 70 : Nat) : Int) + 1900).toNat = 1970 + k := by omega
  constructor
  · intro h
    have hday := h.mday.2
    rw [hyear] at hday
    exact Int.ofNat_le.mp hday
  · intro h
    constructor
    case mday =>
      rw [hyear]
      exact ⟨Int.ofNat_le.mpr hmday, Int.ofNat_le.mpr h⟩
    all_goals
      dsimp only
      omega

theorem gmtime_round_trip_iff {t : Nat} (ht : t < 86400 * startOfYear (2 ^ 31 - 70)) :
    RoundTrips t ↔ ¬ AfterMissedLeapDay t := by
  obtain ⟨k, d, mon, hk, hmon, heq, hlt, hle, hin, hrun⟩ := gmtime_eq ht
  have hyday : d ≤ 365 := by
    have := startOfYear_succ k
    split at this
    all_goals omega
  have hbefore := daysBeforeMonth_le (1970 + k) hmon
  rw [afterMissedLeapDay_iff heq hlt, ← dayOfYear_split_iff hmon hle hin]
  generalize ((mdays (isFourthYear k)).take mon).sum = before at *
  have hback := @calcTimeT_eq k mon (d - before + 1) (t % 86400 / 60 / 60) (t % 86400 / 60 % 60)
    (t % 86400 % 60) hmon
    (by omega) ((t / 86400 + 4) % 7 : Nat) d (by omega) (by unfold startOfYear; omega)
  have hrange := @Tm.inRange_iff k mon (d - before + 1) (t % 86400 / 60 / 60) (t % 86400 / 60 % 60)
    (t % 86400 % 60)
    ((t / 86400 + 4) % 7) d hmon (by omega) (by omega) (by omega) (by omega) (by omega) (by omega)
  unfold RoundTrips
  rw [hrun]
  constructor
  · rintro ⟨tm, htm, hfields, ht'⟩
    obtain rfl := Except.ok.inj htm
    refine ⟨hrange.mp hfields, ?_⟩
    rw [hback] at ht'
    have hsame := Except.ok.inj ht'
    omega
  · rintro ⟨hmday, hsame⟩
    refine ⟨_, rfl, hrange.mpr hmday, ?_⟩
    rw [hback]
    refine congrArg Except.ok ?_
    omega

theorem gmtime_round_trip_iff_example :
    4107542399 < 86400 * startOfYear (2 ^ 31 - 70) ∧ RoundTrips 4107542399 := by
  have hfits : 4107542399 < 86400 * startOfYear (2 ^ 31 - 70) := by decide
  refine ⟨hfits, (gmtime_round_trip_iff hfits).mpr ?_⟩
  rintro ⟨k, hcentury, hfrom, hto⟩
  unfold MissedCentury at hcentury
  unfold startOfYear at hfrom hto
  omega

/-- The day after 28 February 2100 is the 29th for `gmtime`, and the next one comes back
a day early. -/
theorem gmtime_march_2100 : ¬ ∀ t < 86400 * startOfYear (2 ^ 31 - 70), RoundTrips t := by
  intro h
  obtain ⟨tm, htm, -, hback⟩ := h 4107628800 (by decide)
  have hrun : gmtime 4107628800 = .ok ⟨0, 0, 0, 1, 2, 200, 2, 60⟩ := by decide +kernel
  obtain rfl := Except.ok.inj (hrun.symm.trans htm)
  exact absurd hback (by decide)

end

end QnxStartup
