import QnxStartup.CalcTime

/-! The readers of four clock chips with BCD registers: `hw_rtc_ds1386.c`, `hw_rtc_m48t37.c`,
`hw_rtc_m48t5x.c` and `hw_rtc_rtc72423.c`. -/

namespace QnxStartup

open Calendar

def bcd2bin (a : Nat) : Nat :=
  ((a &&& 0xf000) >>> 12) * 1000 + ((a &&& 0xf00) >>> 8) * 100 + ((a &&& 0xf0) >>> 4) *
    10 + (a &&& 0xf)

/-- The byte that the n-th access finds in a register. -/
abbrev Chip := Nat → Nat → UInt8

/-- `do round while (again)`: a round makes a number of accesses, and the condition one more. -/
def doWhile {α : Type} (accesses : Nat) (round : Nat → α)
    (again : α → Nat → Bool) : Nat → Nat → Startup (α × Nat)
  | 0, _ => .error .noReturn
  | fuel + 1, n =>
    let r := round n
    if again r (n + accesses) then doWhile accesses round again fuel (n + accesses + 1)
      else .ok (r, n + accesses + 1)

/-- The registers as the readers put them into a `struct tm` before they convert them. -/
structure TmBytes where
  sec : UInt8
  min : UInt8
  hour : UInt8
  mday : UInt8
  mon : UInt8
  year : UInt8

/-- The year without a century register. -/
def pivotYear (year : Int) : Int := if year < 70 then year + 100 else year

namespace Ds1386

def round (chip : Chip) (n : Nat) : Tm where
  sec := bcd2bin (chip n 1).toNat
  min := bcd2bin (chip (n + 1) 2).toNat
  hour := bcd2bin (chip (n + 2) 4 &&& 0x3f).toNat
  mday := bcd2bin (chip (n + 3) 8).toNat
  mon := (bcd2bin (chip (n + 4) 9 &&& 0x3f).toNat : Int) - 1
  year := bcd2bin (chip (n + 5) 10).toNat

end Ds1386

def rtcTimeDs1386 (chip : Chip) (centReg : Int) (fuel : Nat) : Startup Nat :=
  (doWhile 6 (Ds1386.round chip) (fun tm n => tm.sec ≠ bcd2bin (chip n 1).toNat) fuel 0).bind
    fun (tm, n) =>
    let cent := bcd2bin (chip n centReg.toNat).toNat
    calcTimeT { tm with
      year := if 0 ≤ centReg then if cent = 20 then tm.year + 100 else tm.year
        else pivotYear tm.year }

/-- The M48T37 and the M48T5x give a stop bit in the seconds and count the months from 1. -/
def TmBytes.ofM48 (b : TmBytes) : Tm where
  sec := bcd2bin (b.sec &&& ~~~0x80).toNat
  min := bcd2bin b.min.toNat
  hour := bcd2bin b.hour.toNat
  mday := bcd2bin b.mday.toNat
  mon := (bcd2bin b.mon.toNat : Int) - 1
  year := bcd2bin b.year.toNat

namespace M48t37

def timeRegs : Nat := 0x7ff0

def rdcmos (chip : Chip) (n i : Nat) : UInt8 := chip n i

def round (chip : Chip) (centReg : Int) (n : Nat) : TmBytes × Nat :=
  ({
    sec := rdcmos chip n (timeRegs + 0x9)
    min := rdcmos chip (n + 1) (timeRegs + 0xa)
    hour := rdcmos chip (n + 2) (timeRegs + 0xb)
    mday := rdcmos chip (n + 3) (timeRegs + 0xd)
    mon := rdcmos chip (n + 4) (timeRegs + 0xe)
    year := rdcmos chip (n + 5) (timeRegs + 0xf) },
    if 0 ≤ centReg then (rdcmos chip (n + 6) (timeRegs + centReg.toNat)).toNat else 0)

end M48t37

def rtcTimeM48t37 (chip : Chip) (centReg : Int) (fuel : Nat) : Startup Nat :=
  let accesses := if 0 ≤ centReg then 7 else 6
  (doWhile accesses (M48t37.round chip centReg)
    (fun r n => r.1.sec ≠ M48t37.rdcmos chip n (M48t37.timeRegs + 0x9)) fuel 0).bind
    fun ((b, cent), _) =>
    let tm := b.ofM48
    -- `(bcd2bin(cent) - 19) * 100` is unsigned
    let later := if cent > 19 then
      int32 (u32 (uint32 tm.year + u32 (sub32 (bcd2bin cent) 19 * 100))) else tm.year
    calcTimeT { tm with year := if 0 ≤ centReg then later else pivotYear tm.year }

namespace M48t5x

def timeRegs : Nat := 0x1ff0

/-- The two writes set the low and the high byte of the address. -/
def rdcmos (chip : Chip) (n i : Nat) : UInt8 := chip n (i % 256 + 256 * (i / 256 % 256))

def round (chip : Chip) (n : Nat) : TmBytes where
  sec := rdcmos chip n (timeRegs + 0x9)
  min := rdcmos chip (n + 1) (timeRegs + 0xa)
  hour := rdcmos chip (n + 2) (timeRegs + 0xb)
  mday := rdcmos chip (n + 3) (timeRegs + 0xd)
  mon := rdcmos chip (n + 4) (timeRegs + 0xe)
  year := rdcmos chip (n + 5) (timeRegs + 0xf)

end M48t5x

def rtcTimeM48t5x (chip : Chip) (_centReg : Int) (fuel : Nat) : Startup Nat :=
  (doWhile 6 (M48t5x.round chip) (fun b n => b.sec ≠ M48t5x.rdcmos chip n (M48t5x.timeRegs + 0x9))
    fuel 0).bind fun (b, _) =>
    let tm := b.ofM48
    calcTimeT { tm with year := pivotYear tm.year }

namespace Rtc72423

/-- C leaves open which of two registers is read first; here it is the one of the higher digit. -/
def round (chip : Chip) (n : Nat) : Tm × UInt8 :=
  let bottom := chip n 0
  ({
    sec := bcd2bin ((chip (n + 1) 1).toNat <<< 4 ||| bottom.toNat)
    min := bcd2bin ((chip (n + 2) 3).toNat <<< 4 ||| (chip (n + 3) 2).toNat)
    hour := bcd2bin ((chip (n + 4) 5 &&& 3).toNat <<< 4 ||| (chip (n + 5) 4).toNat)
    mday := bcd2bin ((chip (n + 6) 7).toNat <<< 4 ||| (chip (n + 7) 6).toNat)
    mon := bcd2bin ((chip (n + 8) 9).toNat <<< 4 ||| (chip (n + 9) 8).toNat)
    year := bcd2bin ((chip (n + 10) 11).toNat <<< 4 ||| (chip (n + 11) 10).toNat) },
    bottom)

end Rtc72423

def rtcTimeRtc72423 (chip : Chip) (_centReg : Int) (fuel : Nat) : Startup Nat :=
  (doWhile 12 (Rtc72423.round chip) (fun r n => r.2 ≠ chip n 0) fuel 0).bind fun ((tm, _), _) =>
    calcTimeT { tm with year := pivotYear tm.year }

def bcd (x : Nat) : UInt8 := UInt8.ofNat (x / 10 * 16 + x % 10)

def digit (x : Nat) : UInt8 := UInt8.ofNat (x % 10)

/-- The layout that `hw_rtc_ds1386.c` documents. -/
structure Ds1386.Holds (regs : Nat → UInt8) (i : Instant) : Prop where
  second : regs 1 = bcd i.second
  minute : regs 2 = bcd i.minute
  hour : regs 4 = bcd i.hour
  day : regs 8 = bcd i.day
  month : regs 9 = bcd i.month
  year : regs 10 = bcd (i.year % 100)

structure TimeRegsHold (timeRegs : Nat) (regs : Nat → UInt8) (i : Instant) : Prop where
  second : regs (timeRegs + 0x9) = bcd i.second
  minute : regs (timeRegs + 0xa) = bcd i.minute
  hour : regs (timeRegs + 0xb) = bcd i.hour
  day : regs (timeRegs + 0xd) = bcd i.day
  month : regs (timeRegs + 0xe) = bcd i.month
  year : regs (timeRegs + 0xf) = bcd (i.year % 100)

/-- The layout that `hw_rtc_rtc72423.c` documents, a digit in each register. -/
structure Rtc72423.Holds (regs : Nat → UInt8) (i : Instant) : Prop where
  second : regs 0 = digit i.second ∧ regs 1 = digit (i.second / 10)
  minute : regs 2 = digit i.minute ∧ regs 3 = digit (i.minute / 10)
  hour : regs 4 = digit i.hour ∧ regs 5 = digit (i.hour / 10)
  day : regs 6 = digit i.day ∧ regs 7 = digit (i.day / 10)
  month : regs 8 = digit i.month ∧ regs 9 = digit (i.month / 10)
  year : regs 10 = digit i.year ∧ regs 11 = digit (i.year / 10)

section
variable {x fuel : Nat} {chip : Chip} {i : Instant}

theorem bcd2bin_bcd (h : x < 100) : bcd2bin (bcd x).toNat = x := by
  have htable : ∀ x < 100, bcd2bin (bcd x).toNat = x := by decide +kernel
  exact htable x h

theorem bcd2bin_bcd_and_3f (h : x < 40) : bcd2bin (bcd x &&& 0x3f).toNat = x := by
  have htable : ∀ x < 40, bcd2bin (bcd x &&& 0x3f).toNat = x := by decide +kernel
  exact htable x h

theorem bcd2bin_bcd_and_7f (h : x < 80) : bcd2bin (bcd x &&& ~~~0x80).toNat = x := by
  have htable : ∀ x < 80, bcd2bin (bcd x &&& ~~~0x80).toNat = x := by decide +kernel
  exact htable x h

theorem bcd2bin_digits (h : x < 100) :
    bcd2bin ((digit (x / 10)).toNat <<< 4 ||| (digit x).toNat) = x := by
  have htable : ∀ x < 100, bcd2bin ((digit (x / 10)).toNat <<< 4 ||| (digit x).toNat) = x := by
    decide +kernel
  exact htable x h

theorem bcd2bin_digits_and_3 (h : x < 40) :
    bcd2bin ((digit (x / 10) &&& 3).toNat <<< 4 ||| (digit x).toNat) = x := by
  have htable : ∀ x < 40, bcd2bin ((digit (x / 10) &&& 3).toNat <<< 4 ||| (digit x).toNat) = x := by
    decide +kernel
  exact htable x h

/-- The two digits of the year stand for one year from 1970 to 2069. -/
theorem pivotYear_eq {y : Nat} (h : 1970 ≤ y) (h' : y ≤ 2069) :
    pivotYear (y % 100 : Nat) = (y : Int) - 1900 := by
  unfold pivotYear
  omega

theorem doWhile_once {α : Type} {accesses n : Nat} {round : Nat → α} {again : α → Nat → Bool}
    (h : again (round n) (n + accesses) = false) :
    doWhile accesses round again (fuel + 1) n = .ok (round n, n + accesses + 1) := by
  rw [doWhile, h]
  rfl

theorem Ds1386.round_eq (hchip : ∀ n, Ds1386.Holds (chip n) i) (n : Nat) :
    Ds1386.round chip n = ⟨i.second, i.minute, i.hour, i.day, (i.month : Int) - 1,
      (i.year % 100 : Nat), 0, 0⟩ := by
  obtain ⟨hsecond, hminute, hhour, hday, hmonth⟩ := i.fields_lt
  simp only [Ds1386.round, (hchip _).second, (hchip _).minute, (hchip _).hour, (hchip _).day,
    (hchip _).month, (hchip _).year]
  rw [bcd2bin_bcd (by omega), bcd2bin_bcd (by omega), bcd2bin_bcd_and_3f (by omega),
    bcd2bin_bcd (by omega), bcd2bin_bcd_and_3f (by omega), bcd2bin_bcd (by omega)]

theorem rtcTimeDs1386_eq (hchip : ∀ n, Ds1386.Holds (chip n) i) (h : 1970 ≤ i.year)
    (h' : i.year ≤ 2069) :
    rtcTimeDs1386 chip (-1) (fuel + 1) = .ok (i.seconds 1970) := by
  have hround := Ds1386.round_eq hchip 0
  have hsecond : (Ds1386.round chip 0).sec = bcd2bin (chip 6 1).toNat := by
    rw [hround, (hchip 6).second, bcd2bin_bcd (by have := i.second_lt; omega)]
  unfold rtcTimeDs1386
  rw [doWhile_once (by rw [hsecond]; simp), hround]
  exact calcTimeT_seconds i h (by omega) rfl (pivotYear_eq h h')

theorem TmBytes.ofM48_eq (i : Instant) :
    TmBytes.ofM48 ⟨bcd i.second, bcd i.minute, bcd i.hour, bcd i.day, bcd i.month,
      bcd (i.year % 100)⟩ =
      ⟨i.second, i.minute, i.hour, i.day, (i.month : Int) - 1, (i.year % 100 : Nat), 0, 0⟩ := by
  obtain ⟨hsecond, hminute, hhour, hday, hmonth⟩ := i.fields_lt
  unfold TmBytes.ofM48
  dsimp only
  rw [bcd2bin_bcd_and_7f (by omega), bcd2bin_bcd (by omega), bcd2bin_bcd (by omega),
    bcd2bin_bcd (by omega), bcd2bin_bcd (by omega), bcd2bin_bcd (by omega)]

theorem rtcTimeM48t37_eq (hchip : ∀ n, TimeRegsHold M48t37.timeRegs (chip n) i) (h : 1970 ≤ i.year)
    (h' : i.year ≤ 2069) :
    rtcTimeM48t37 chip (-1) (fuel + 1) = .ok (i.seconds 1970) := by
  have hround : M48t37.round chip (-1) 0 =
      (⟨bcd i.second, bcd i.minute, bcd i.hour, bcd i.day, bcd i.month, bcd (i.year % 100)⟩,
        0) := by
    simp only [M48t37.round, M48t37.rdcmos, (hchip _).second, (hchip _).minute, (hchip _).hour,
      (hchip _).day, (hchip _).month, (hchip _).year]
    rfl
  unfold rtcTimeM48t37
  dsimp only
  rw [doWhile_once (by rw [hround, M48t37.rdcmos, (hchip _).second]; simp), hround]
  dsimp only [Except.bind]
  rw [TmBytes.ofM48_eq]
  exact calcTimeT_seconds i h (by omega) rfl (pivotYear_eq h h')

theorem M48t5x.rdcmos_eq {n r : Nat} (h : r < 65536) : M48t5x.rdcmos chip n r = chip n r := by
  rw [M48t5x.rdcmos]
  congr 1
  omega

theorem rtcTimeM48t5x_eq (hchip : ∀ n, TimeRegsHold M48t5x.timeRegs (chip n) i) (h : 1970 ≤ i.year)
    (h' : i.year ≤ 2069) {centReg : Int} :
    rtcTimeM48t5x chip centReg (fuel + 1) = .ok (i.seconds 1970) := by
  have hread : ∀ r < 16, ∀ n, M48t5x.rdcmos chip n (M48t5x.timeRegs + r) =
      chip n (M48t5x.timeRegs + r) := by
    intro r hr n
    exact M48t5x.rdcmos_eq (by unfold M48t5x.timeRegs; omega)
  have hround : M48t5x.round chip 0 = ⟨bcd i.second, bcd i.minute, bcd i.hour, bcd i.day,
      bcd i.month, bcd (i.year % 100)⟩ := by
    unfold M48t5x.round
    rw [hread _ (by decide), hread _ (by decide), hread _ (by decide), hread _ (by decide),
      hread _ (by decide), hread _ (by decide)]
    rw [(hchip _).second, (hchip _).minute, (hchip _).hour, (hchip _).day,
      (hchip _).month, (hchip _).year]
  unfold rtcTimeM48t5x
  rw [doWhile_once (by rw [hround, hread _ (by decide), (hchip _).second]; simp), hround]
  dsimp only [Except.bind]
  rw [TmBytes.ofM48_eq]
  exact calcTimeT_seconds i h (by omega) rfl (pivotYear_eq h h')

theorem bcd2bin_year_digits (y : Nat) :
    bcd2bin ((digit (y / 10)).toNat <<< 4 ||| (digit y).toNat) = y % 100 := by
  have hlow : digit y = digit (y % 100) := by
    unfold digit
    congr 1
    omega
  have hhigh : digit (y / 10) = digit (y % 100 / 10) := by
    unfold digit
    congr 1
    omega
  rw [hlow, hhigh, bcd2bin_digits (by omega)]

/-- `tm_mon` is the month counted from 1 here. -/
theorem Rtc72423.round_eq (hchip : ∀ n, Rtc72423.Holds (chip n) i) (n : Nat) :
    Rtc72423.round chip n = (⟨i.second, i.minute, i.hour, i.day, i.month, (i.year % 100 : Nat), 0,
      0⟩, digit i.second) := by
  obtain ⟨hsecond, hminute, hhour, hday, hmonth⟩ := i.fields_lt
  simp only [Rtc72423.round, (hchip _).second, (hchip _).minute, (hchip _).hour, (hchip _).day,
    (hchip _).month, (hchip _).year]
  rw [bcd2bin_digits (by omega), bcd2bin_digits (by omega), bcd2bin_digits_and_3 (by omega),
    bcd2bin_digits (by omega), bcd2bin_digits (by omega), bcd2bin_year_digits]

theorem rtcTimeRtc72423_eq (hchip : ∀ n, Rtc72423.Holds (chip n) i) (h : 1970 ≤ i.year)
    (h' : i.year ≤ 2069) {centReg : Int} :
    rtcTimeRtc72423 chip centReg (fuel + 1) =
      if i.month = 12 then crash "%s: Month returned by RTC is out of bounds\n"
      else .ok (i.seconds 1970 + 86400 * monthLength i.year i.month) := by
  have hround := Rtc72423.round_eq hchip 0
  have hmonth := i.month_mem
  unfold rtcTimeRtc72423
  rw [doWhile_once (by rw [hround, (hchip _).second.1]; simp), hround]
  dsimp only [Except.bind]
  split
  · rename_i hdecember
    unfold calcTimeT
    dsimp only
    rw [if_neg (by omega)]
  · rename_i hother
    rw [calcTimeT_instant i h (by omega) (by omega) (by have := i.hour_lt; omega)
      (pivotYear_eq h h'), daysBeforeMonth_succ hmonth.1, seconds_1970 i h (by omega)]
    refine congrArg Except.ok ?_
    omega

def ReadersAgree (ds1386 m48t37 m48t5x rtc72423 : Chip) (i : Instant) : Prop :=
  ∃ rounds, ∀ fuel ≥ rounds,
    rtcTimeDs1386 ds1386 (-1) fuel = .ok (i.seconds 1970) ∧ rtcTimeM48t37 m48t37 (-1) fuel =
    .ok (i.seconds 1970) ∧
      rtcTimeM48t5x m48t5x (-1) fuel = .ok (i.seconds 1970) ∧ rtcTimeRtc72423 rtc72423 (-1) fuel =
      .ok (i.seconds 1970)

/-- Whatever the month, `rtc_time_rtc72423` is late by its length. -/
theorem rtcTimeRtc72423_ne (hchip : ∀ n, Rtc72423.Holds (chip n) i) (h : 1970 ≤ i.year)
    (h' : i.year ≤ 2069) {centReg : Int} :
    rtcTimeRtc72423 chip centReg (fuel + 1) ≠ .ok (i.seconds 1970) := by
  rw [rtcTimeRtc72423_eq hchip h h']
  split
  · exact fun hcrash => nomatch hcrash
  · intro hsame
    have hlate := Except.ok.inj hsame
    have hday := i.day_mem
    omega

theorem bcd_clock_readers {ds1386 m48t37 m48t5x rtc72423 : Chip} (h : 1970 ≤ i.year)
    (h' : i.year ≤ 2069) (hds1386 : ∀ n, Ds1386.Holds (ds1386 n) i)
    (hm48t37 : ∀ n, TimeRegsHold M48t37.timeRegs (m48t37 n) i)
    (hm48t5x : ∀ n, TimeRegsHold M48t5x.timeRegs (m48t5x n) i)
    (hrtc72423 : ∀ n, Rtc72423.Holds (rtc72423 n) i) :
    ¬ ReadersAgree ds1386 m48t37 m48t5x rtc72423 i ∧
      ∀ fuel ≥ 1, rtcTimeDs1386 ds1386 (-1) fuel = .ok (i.seconds 1970) ∧
        rtcTimeM48t37 m48t37 (-1) fuel = .ok (i.seconds 1970) ∧
        rtcTimeM48t5x m48t5x (-1) fuel = .ok (i.seconds 1970) ∧
        rtcTimeRtc72423 rtc72423 (-1) fuel =
          if i.month = 12 then crash "%s: Month returned by RTC is out of bounds\n"
          else .ok (i.seconds 1970 + 86400 * monthLength i.year i.month) := by
  constructor
  · rintro ⟨rounds, hagree⟩
    have hsame := (hagree (rounds + 1) (Nat.le_succ rounds)).2.2.2
    exact rtcTimeRtc72423_ne hrtc72423 h h' hsame
  · intro fuel hfuel
    obtain ⟨fuel, rfl⟩ := Nat.exists_eq_add_of_le' hfuel
    exact ⟨rtcTimeDs1386_eq hds1386 h h', rtcTimeM48t37_eq hm48t37 h h',
      rtcTimeM48t5x_eq hm48t5x h h', rtcTimeRtc72423_eq hrtc72423 h h'⟩

def Ds1386.showing (i : Instant) : Chip := fun _ r =>
  [0, bcd i.second, bcd i.minute, 0, bcd i.hour, 0, 0, 0, bcd i.day, bcd i.month,
    bcd (i.year % 100)].getD r 0

def timeRegsShowing (timeRegs : Nat) (i : Instant) : Chip := fun _ r =>
  [bcd i.second, bcd i.minute, bcd i.hour, 0, bcd i.day, bcd i.month, bcd (i.year % 100)].getD
    (r - (timeRegs + 9)) 0

def Rtc72423.showing (i : Instant) : Chip := fun _ r =>
  [digit i.second, digit (i.second / 10), digit i.minute, digit (i.minute / 10), digit i.hour,
    digit (i.hour / 10), digit i.day,
    digit (i.day / 10), digit i.month, digit (i.month / 10), digit i.year,
    digit (i.year / 10)].getD r 0

def noon2024 : Instant :=
  ⟨2024, 2, 29, 12, 0, 0, by decide, by decide, by decide, by decide, by decide⟩

def newYearsEve : Instant :=
  ⟨1999, 12, 31, 23, 59, 59, by decide, by decide, by decide, by decide, by decide⟩

theorem Ds1386.showing_holds (i : Instant) (n : Nat) : Ds1386.Holds (Ds1386.showing i n) i :=
  ⟨rfl, rfl, rfl, rfl, rfl, rfl⟩

theorem Rtc72423.showing_holds (i : Instant) (n : Nat) : Rtc72423.Holds (Rtc72423.showing i n) i :=
  ⟨⟨rfl, rfl⟩, ⟨rfl, rfl⟩, ⟨rfl, rfl⟩, ⟨rfl, rfl⟩, ⟨rfl, rfl⟩, ⟨rfl, rfl⟩⟩

theorem timeRegsShowing_hold (timeRegs : Nat) (i : Instant) (n : Nat) :
    TimeRegsHold timeRegs (timeRegsShowing timeRegs i n) i := by
  constructor
  all_goals
    unfold timeRegsShowing
    rw [Nat.add_sub_add_left]
    rfl

theorem bcd_clock_readers_example :
    (1970 ≤ noon2024.year ∧ noon2024.year ≤ 2069) ∧
      ¬ ReadersAgree (Ds1386.showing noon2024) (timeRegsShowing M48t37.timeRegs noon2024)
        (timeRegsShowing M48t5x.timeRegs noon2024)
        (Rtc72423.showing noon2024) noon2024 := by
  have hyear : 1970 ≤ noon2024.year ∧ noon2024.year ≤ 2069 := by decide
  exact ⟨hyear, (bcd_clock_readers hyear.1 hyear.2 (Ds1386.showing_holds noon2024)
    (timeRegsShowing_hold _ noon2024)
    (timeRegsShowing_hold _ noon2024) (Rtc72423.showing_holds noon2024)).1⟩

theorem bcd_clock_readers_december :
    ¬ ∀ (ds1386 m48t37 m48t5x rtc72423 : Chip) (i : Instant), 1970 ≤ i.year → i.year ≤ 2069 →
      (∀ n, Ds1386.Holds (ds1386 n) i) →
      (∀ n, TimeRegsHold M48t37.timeRegs (m48t37 n) i) →
        (∀ n, TimeRegsHold M48t5x.timeRegs (m48t5x n) i) →
      (∀ n, Rtc72423.Holds (rtc72423 n) i) → ReadersAgree ds1386 m48t37 m48t5x rtc72423 i := by
  intro hall
  obtain ⟨rounds, hagree⟩ := hall (Ds1386.showing newYearsEve)
    (timeRegsShowing M48t37.timeRegs newYearsEve)
    (timeRegsShowing M48t5x.timeRegs newYearsEve) (Rtc72423.showing newYearsEve) newYearsEve
      (by decide) (by decide)
    (Ds1386.showing_holds _) (timeRegsShowing_hold _ _) (timeRegsShowing_hold _ _)
      (Rtc72423.showing_holds _)
  have hcrash := (hagree (rounds + 1) (Nat.le_succ rounds)).2.2.2
  rw [rtcTimeRtc72423_eq (Rtc72423.showing_holds _) (by decide) (by decide)] at hcrash
  exact nomatch hcrash

end

end QnxStartup
