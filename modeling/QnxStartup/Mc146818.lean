import QnxStartup.BcdClocks

/-! `hw_rtc_mc146818.c`: the clock of the IBM AT, with its number formats, hour formats
and century registers. -/

namespace QnxStartup

open Calendar

namespace Mc146818

def sra : Nat := 0x0a

def sraUip : UInt8 := 0x80

def srb : Nat := 0x0b

def srb2412 : UInt8 := 0x02

def srbDm : UInt8 := 0x04

/-- The register is selected by a byte. -/
def rdcmos (chip : Chip) (n i : Nat) : UInt8 := chip n (i % 256)

def checkUipClr (chip : Chip) (n : Nat) : Bool := rdcmos chip n sra &&& sraUip = 0

def readClock (chip : Chip) : Nat → Nat → Startup (TmBytes × Nat)
  | 0, _ => .error .noReturn
  | fuel + 1, n =>
    if checkUipClr chip n then
      let b : TmBytes := {
        sec := rdcmos chip (n + 1) 0
        min := rdcmos chip (n + 2) 2
        hour := rdcmos chip (n + 3) 4
        mday := rdcmos chip (n + 4) 7
        mon := rdcmos chip (n + 5) 8
        year := rdcmos chip (n + 6) 9 }
      if checkUipClr chip (n + 7) then .ok (b, n + 8) else readClock chip fuel (n + 8)
    else readClock chip fuel (n + 1)

def value (regB x : UInt8) : Nat := if regB &&& srbDm = 0 then bcd2bin x.toNat else x.toNat

/-- Bit 7 says "past 12pm" in the 12-hour format. -/
def hourValue (regB x : UInt8) : Nat := value regB (x &&& ~~~0x80) + if regB &&& srb2412 = 0 ∧
    x &&& 0x80 ≠ 0 then 12 else 0

def decode (regB : UInt8) (b : TmBytes) : Tm where
  sec := value regB b.sec
  min := value regB b.min
  hour := hourValue regB b.hour
  mday := value regB b.mday
  mon := (value regB b.mon : Int) - 1
  year := value regB b.year

end Mc146818

/-- The writes to register A show in what the later accesses find there. -/
def rtcTimeMc146818 (chip : Chip) (centReg : Int) (fuel : Nat) : Startup Nat :=
  let running := Mc146818.rdcmos chip 0 Mc146818.sra &&& 0x60 = 0x20
  if ¬ running ∧ Mc146818.rdcmos chip 1 Mc146818.sra &&& 0x60 ≠ 0 then .ok 0
  else
    let n := if running then 1 else 2
    let regB := Mc146818.rdcmos chip n Mc146818.srb
    (Mc146818.readClock chip fuel (n + 1)).bind fun (b, n) =>
      let tm := Mc146818.decode regB b
      -- the number of the century register is converted here, and not what is in it
      let cent := if regB &&& Mc146818.srbDm = 0 then bcd2bin centReg.toNat
        else (Mc146818.rdcmos chip n centReg.toNat).toNat
      calcTimeT { tm with
        year := if 0 ≤ centReg then if cent = 20 then tm.year + 100 else tm.year
          else pivotYear tm.year }

namespace Mc146818

def encode (regB : UInt8) (x : Nat) : UInt8 := if regB &&& srbDm = 0 then bcd x else UInt8.ofNat x

def hour12 (hour : Nat) : Nat := if hour % 12 = 0 then 12 else hour % 12

def encodeHour (regB : UInt8) (hour : Nat) : UInt8 :=
  if regB &&& srb2412 = 0 then encode regB (hour12 hour) ||| if 12 ≤ hour then 0x80 else 0
  else encode regB hour

structure Holds (regB : UInt8) (regs : Nat → UInt8) (i : Instant) : Prop where
  mode : regs srb = regB
  second : regs 0 = encode regB i.second
  minute : regs 2 = encode regB i.minute
  hour : regs 4 = encodeHour regB i.hour
  day : regs 7 = encode regB i.day
  month : regs 8 = encode regB i.month
  year : regs 9 = encode regB (i.year % 100)

/-- Some 15 accesses in a row lie between two updates: a pass makes 8. -/
def LeavesTime (chip : Chip) : Prop := ∃ n, ∀ m < 15, chip (n + m) sra &&& sraUip = 0

def CenturyHolds (regB : UInt8) (chip : Chip) (centReg : Int) (i : Instant) : Prop :=
  centReg < 0 ∨ 10 ≤ centReg ∧ ∀ n, chip n (centReg.toNat % 256) = encode regB (i.year / 100)

def RightTime (chip : Chip) (centReg : Int) (i : Instant) : Prop :=
  ∃ rounds, ∀ fuel ≥ rounds, rtcTimeMc146818 chip centReg fuel = .ok (i.seconds 1970)

section
variable {regB : UInt8} {chip : Chip} {i : Instant} {x hour n : Nat} {centReg : Int}

theorem value_encode (h : x < 100) : value regB (encode regB x) = x := by
  unfold value encode
  split
  · exact bcd2bin_bcd h
  · rw [UInt8.toNat_ofNat']
    omega

/-- Midnight and noon come out 12 hours late in the 12-hour format. -/
theorem hourValue_encodeHour (h : hour < 24) :
    hourValue regB (encodeHour regB hour) = hour + if regB &&& srb2412 = 0 ∧
      hour % 12 = 0 then 12 else 0 := by
  have hbcd24 : ∀ hour < 24, bcd2bin (bcd hour &&& ~~~0x80).toNat = hour := by decide +kernel
  have hbinary24 : ∀ hour < 24, (UInt8.ofNat hour &&& ~~~0x80).toNat = hour := by decide +kernel
  have hbcd12 : ∀ hour < 24,
      (bcd2bin ((bcd (hour12 hour) ||| if 12 ≤ hour then 0x80 else 0) &&& ~~~0x80).toNat +
        if (bcd (hour12 hour) ||| if 12 ≤ hour then 0x80 else 0) &&& 0x80 ≠ 0 then 12 else 0) =
          hour + if hour % 12 = 0 then 12 else 0 := by
    decide +kernel
  have hbinary12 : ∀ hour < 24,
      (((UInt8.ofNat (hour12 hour) ||| if 12 ≤ hour then 0x80 else 0) &&& ~~~0x80).toNat +
        if (UInt8.ofNat (hour12 hour) ||| if 12 ≤ hour then 0x80 else 0) &&& 0x80 ≠ 0 then 12
          else 0) = hour + if hour % 12 = 0 then 12 else 0 := by
    decide +kernel
  unfold hourValue value encodeHour encode
  by_cases hbcd : regB &&& srbDm = 0 <;> by_cases hhalf : regB &&& srb2412 = 0
  · simpa only [if_pos hbcd, hhalf, if_true, true_and] using hbcd12 hour h
  · simpa only [if_pos hbcd, hhalf, if_false, false_and, Nat.add_zero] using hbcd24 hour h
  · simpa only [if_neg hbcd, hhalf, if_true, true_and] using hbinary12 hour h
  · simpa only [if_neg hbcd, hhalf, if_false, false_and, Nat.add_zero] using hbinary24 hour h

/-- The loop ends in the window at the latest: a pass that begins earlier is at most 8
accesses long. -/
theorem readClock_ok (hchip : ∀ n, Holds regB (chip n) i) {free : Nat}
    (hfree : ∀ m < 15, chip (free + m) sra &&& sraUip = 0) {fuel : Nat} (hn : n < free + 8)
    (hfuel : free + 8 ≤ fuel + n) :
    ∃ n', readClock chip fuel n = .ok (⟨encode regB i.second, encode regB i.minute,
      encodeHour regB i.hour, encode regB i.day,
      encode regB i.month, encode regB (i.year % 100)⟩, n') := by
  have hread : ∀ r < 256, ∀ n, rdcmos chip n r = chip n r := fun r hr n =>
    congrArg (chip n) (Nat.mod_eq_of_lt hr)
  have hclear : ∀ n, free ≤ n → n < free + 15 → checkUipClr chip n = true := by
    intro n hfrom hto
    have hbit := hfree (n - free) (by omega)
    rw [Nat.add_sub_cancel' hfrom] at hbit
    exact decide_eq_true hbit
  induction fuel generalizing n with
  | zero => omega
  | succ fuel ih =>
    rw [readClock]
    dsimp only
    rw [hread 0 (by decide), hread 2 (by decide), hread 4 (by decide), hread 7 (by decide),
      hread 8 (by decide), hread 9 (by decide),
      (hchip _).second, (hchip _).minute, (hchip _).hour, (hchip _).day,
      (hchip _).month, (hchip _).year]
    by_cases hinside : free ≤ n
    · rw [if_pos (hclear n hinside (by omega)), if_pos (hclear (n + 7) (by omega) (by omega))]
      exact ⟨n + 8, rfl⟩
    · split
      · split
        · exact ⟨n + 8, rfl⟩
        · exact ih (by omega) (by omega)
      · exact ih (by omega) (by omega)

theorem decode_eq (i : Instant) :
    decode regB ⟨encode regB i.second, encode regB i.minute, encodeHour regB i.hour,
      encode regB i.day, encode regB i.month,
        encode regB (i.year % 100)⟩ =
      ⟨i.second, i.minute, (i.hour + if regB &&& srb2412 = 0 ∧ i.hour % 12 = 0 then 12 else 0 :
        Nat), i.day, (i.month : Int) - 1,
        (i.year % 100 : Nat), 0, 0⟩ := by
  obtain ⟨hsecond, hminute, -, hday, hmonth⟩ := i.fields_lt
  unfold decode
  dsimp only
  rw [hourValue_encodeHour i.hour_lt, value_encode (by omega), value_encode (by omega),
    value_encode (by omega), value_encode (by omega), value_encode (by omega)]

/-- The year that comes out: in BCD mode the century is that of the register's number. -/
def yearRead (regB : UInt8) (centReg : Int) (i : Instant) : Int :=
  if 0 ≤ centReg then
    if (if regB &&& srbDm = 0 then bcd2bin centReg.toNat else i.year / 100) = 20 then
      ((i.year % 100 : Nat) : Int) + 100 else (i.year % 100 : Nat)
  else pivotYear (i.year % 100 : Nat)

theorem rtcTimeMc146818_eq (hrunning : chip 0 sra &&& 0x60 = 0x20)
    (hchip : ∀ n, Holds regB (chip n) i) (htime : LeavesTime chip)
    (hcentury : CenturyHolds regB chip centReg i) (hyear : i.year < 10000) :
    ∃ rounds, ∀ fuel ≥ rounds, rtcTimeMc146818 chip centReg fuel =
      calcTimeT ⟨i.second, i.minute,
        (i.hour + if regB &&& srb2412 = 0 ∧ i.hour % 12 = 0 then 12 else 0 : Nat), i.day,
        (i.month : Int) - 1,
        yearRead regB centReg i, 0, 0⟩ := by
  obtain ⟨free, hfree⟩ := htime
  refine ⟨free + 8, fun fuel hfuel => ?_⟩
  obtain ⟨n, hrun⟩ := readClock_ok hchip hfree (show 2 < free + 8 by omega)
    (show free + 8 ≤ fuel + 2 by omega)
  have hmode : rdcmos chip 1 srb = regB := (hchip 1).mode
  have hstart : rdcmos chip 0 sra &&& 0x60 = 0x20 := hrunning
  unfold rtcTimeMc146818
  dsimp only
  rw [if_neg fun h => h.1 hstart, if_pos hstart, hmode, hrun]
  dsimp only [Except.bind]
  rw [decode_eq]
  have hcent : 0 ≤ centReg →
      (if regB &&& srbDm = 0 then bcd2bin centReg.toNat else (rdcmos chip n centReg.toNat).toNat) =
        if regB &&& srbDm = 0 then bcd2bin centReg.toNat else i.year / 100 := by
    intro hreg
    rcases hcentury with hnone | ⟨-, hheld⟩
    · omega
    · split
      · rfl
      · rename_i hbinary
        rw [rdcmos, hheld n, encode, if_neg hbinary, UInt8.toNat_ofNat',
          Nat.mod_eq_of_lt (by omega)]
  unfold yearRead
  by_cases hreg : 0 ≤ centReg
  · rw [if_pos hreg, if_pos hreg, hcent hreg]
  · rw [if_neg hreg, if_neg hreg]

def CenturyRead (regB : UInt8) (centReg : Int) (i : Instant) : Prop :=
  regB &&& srbDm = 0 → 0 ≤ centReg → (bcd2bin centReg.toNat = 20 ↔ 2000 ≤ i.year)

theorem yearRead_eq (h : 1970 ≤ i.year) (h' : i.year ≤ 2069) (hread : CenturyRead regB centReg i) :
    yearRead regB centReg i = (i.year : Int) - 1900 := by
  unfold yearRead
  split
  · rename_i hreg
    have hcentury : (if regB &&& srbDm = 0 then bcd2bin centReg.toNat else i.year / 100) = 20 ↔
        2000 ≤ i.year := by
      split
      · exact hread ‹_› hreg
      · omega
    rw [if_congr hcentury rfl rfl]
    omega
  · exact pivotYear_eq h h'

/-- The wrong century is a later one, and 19xx for 20xx gives a year before 1970, which wraps. -/
theorem yearRead_late (h : 1970 ≤ i.year) (h' : i.year ≤ 2069)
    (hread : ¬ CenturyRead regB centReg i) :
    i.year - 1970 + 2 ≤ uint32 (yearRead regB centReg i - 70) := by
  unfold CenturyRead at hread
  push Not at hread
  obtain ⟨hbcd, hreg, hwrong⟩ := hread
  unfold yearRead uint32
  rw [if_pos hreg, if_pos hbcd]
  split
  all_goals omega

theorem rtc_time_mc146818_iff (h : 1970 ≤ i.year) (h' : i.year ≤ 2069)
    (hrunning : chip 0 sra &&& 0x60 = 0x20) (hchip : ∀ n, Holds regB (chip n) i)
    (htime : LeavesTime chip) (hcentury : CenturyHolds regB chip centReg i) :
    RightTime chip centReg i ↔ (regB &&& srb2412 = 0 → i.hour ≠ 0 ∧ i.hour ≠ 12) ∧
      CenturyRead regB centReg i := by
  obtain ⟨rounds, hrun⟩ := rtcTimeMc146818_eq hrunning hchip htime hcentury (by omega)
  have hright : RightTime chip centReg i ↔
      rtcTimeMc146818 chip centReg rounds = .ok (i.seconds 1970) := by
    constructor
    · rintro ⟨rounds', hall⟩
      rw [hrun rounds (Nat.le_refl rounds), ← hrun (max rounds rounds') (Nat.le_max_left _ _)]
      exact hall _ (Nat.le_max_right _ _)
    · intro hvalue
      exact ⟨rounds, fun fuel hfuel => by
        rw [hrun fuel hfuel, ← hrun rounds (Nat.le_refl rounds), hvalue]⟩
  rw [hright, hrun rounds (Nat.le_refl rounds)]
  have hhour := i.hour_lt
  have hmonth := i.month_mem
  have hmon : (i.month : Int) - 1 = (i.month - 1 : Nat) := by omega
  have hlate : (i.hour + if regB &&& srb2412 = 0 ∧ i.hour % 12 = 0 then 12 else 0) < 48 := by
    split
    all_goals omega
  by_cases hread : CenturyRead regB centReg i
  · rw [hmon, calcTimeT_instant i h (by omega) (by omega) hlate (yearRead_eq h h' hread),
      seconds_1970 i h (by omega), Nat.sub_add_cancel hmonth.1, and_iff_left hread]
    constructor
    · intro hsame hhalf
      have hseconds := Except.ok.inj hsame
      rw [if_congr (and_iff_right hhalf) rfl rfl] at hseconds
      split at hseconds
      all_goals omega
    · intro hhours
      rw [if_neg (by rintro ⟨hhalf, htwelve⟩; have := hhours hhalf; omega), Nat.add_zero]
  · refine iff_of_false ?_ fun hboth => hread hboth.2
    exact calcTimeT_ne i h h' hlate rfl (yearRead_late h h' hread)

/-- A chip whose clock stands still, with the century in every register above B. -/
def showing (regB : UInt8) (i : Instant) : Chip := fun _ r =>
  [encode regB i.second, 0, encode regB i.minute, 0, encodeHour regB i.hour, 0, 0,
    encode regB i.day, encode regB i.month,
    encode regB (i.year % 100), 0x26, regB].getD r (encode regB (i.year / 100))

theorem showing_holds (regB : UInt8) (i : Instant) (n : Nat) : Holds regB (showing regB i n) i :=
  ⟨rfl, rfl, rfl, rfl, rfl, rfl, rfl⟩

theorem showing_leavesTime (regB : UInt8) (i : Instant) : LeavesTime (showing regB i) :=
  ⟨0, fun _ _ => (by decide : (0x26 : UInt8) &&& 0x80 = 0)⟩

theorem rtc_time_mc146818_iff_example :
    CenturyHolds 0x04 (showing 0x04 newYearsEve) 0x32 newYearsEve ∧
      RightTime (showing 0x04 newYearsEve) 0x32 newYearsEve := by
  have hcentury : CenturyHolds 0x04 (showing 0x04 newYearsEve) 0x32 newYearsEve :=
    .inr ⟨by decide, fun _ => rfl⟩
  refine ⟨hcentury, (rtc_time_mc146818_iff (by decide) (by decide) (by decide)
    (showing_holds 0x04 newYearsEve)
    (showing_leavesTime 0x04 newYearsEve) hcentury).mpr ?_⟩
  exact ⟨fun _ => by decide, fun h => absurd h (by decide)⟩

/-- Noon of 29 February 2024 in BCD, with the century in register 0x32: the number 0x32
stands for 32. -/
theorem rtc_time_mc146818_century :
    ¬ ∀ (regB : UInt8) (chip : Chip) (i : Instant) (centReg : Int), 1970 ≤ i.year → i.year ≤ 2069 →
      chip 0 sra &&& 0x60 = 0x20 →
      (∀ n, Holds regB (chip n) i) → LeavesTime chip → CenturyHolds regB chip centReg i →
        RightTime chip centReg i := by
  intro hall
  obtain ⟨rounds, hright⟩ := hall 0x02 (showing 0x02 noon2024) noon2024 0x32 (by decide) (by decide)
    (by decide) (showing_holds 0x02 noon2024)
    (showing_leavesTime 0x02 noon2024) (.inr ⟨by decide, fun _ => rfl⟩)
  obtain ⟨rounds', hrun⟩ := @rtcTimeMc146818_eq 0x02 _ noon2024 0x32 (by decide)
    (showing_holds 0x02 noon2024)
    (showing_leavesTime 0x02 noon2024) (.inr ⟨by decide, fun _ => rfl⟩) (by decide)
  have hvalue := (hrun (max rounds rounds') (Nat.le_max_right _ _)).symm.trans
    (hright _ (Nat.le_max_left _ _))
  exact absurd hvalue (by decide)

end

end Mc146818

end QnxStartup
