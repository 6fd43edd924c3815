import QnxStartup.FindRam

/-! `find_ram_in_range` with a colour and a range: where the start of a candidate goes. -/

namespace QnxStartup

theorem testBit_two_pow_sub_two_pow {lo hi : Nat} (h : lo ≤ hi) (i : Nat) :
    (2 ^ hi - 2 ^ lo).testBit i = (decide (lo ≤ i) && decide (i < hi)) := by
  have hm : 2 ^ hi - 2 ^ lo = (2 ^ (hi - lo) - 1) * 2 ^ lo := by
    rw [Nat.sub_mul, one_mul, ← pow_add, Nat.sub_add_cancel h]
  rw [hm, Nat.testBit_mul_two_pow, Nat.testBit_two_pow_sub_one]
  by_cases hi' : lo ≤ i
  · simp only [hi', decide_true, Bool.true_and, decide_eq_decide]
    omega
  · simp [hi']

theorem and_mask {lo hi : Nat} (h : lo ≤ hi) (x : Nat) :
    x &&& (2 ^ hi - 2 ^ lo) = x % 2 ^ hi / 2 ^ lo * 2 ^ lo := by
  apply Nat.eq_of_testBit_eq
  intro i
  rw [Nat.testBit_and, testBit_two_pow_sub_two_pow h, Nat.testBit_mul_two_pow]
  by_cases hi' : lo ≤ i
  · rw [Nat.testBit_div_two_pow, Nat.sub_add_cancel hi', Nat.testBit_mod_two_pow]
    simp [hi', Bool.and_comm]
  · simp [hi']

/-- The colour bits replaced, and everything above 32 bits lost. -/
theorem recolour_eq {lo hi c : Nat} (h : lo ≤ hi) (h32 : hi ≤ 32) (hc : c < 2 ^ hi)
    (hd : 2 ^ lo ∣ c) (x : Nat) :
    (x &&& compl32 (2 ^ hi - 2 ^ lo)) ||| c = 2 ^ hi * (x % 2 ^ 32 / 2 ^ hi) +
      (c + x % 2 ^ lo) := by
  obtain ⟨q, rfl⟩ := hd
  have hpos := Nat.two_pow_pos lo
  have hle := Nat.pow_le_pow_right (n := 2) (by decide) h
  have hle32 := Nat.pow_le_pow_right (n := 2) (by decide) h32
  have hcompl : compl32 (2 ^ hi - 2 ^ lo) = 2 ^ 32 - (2 ^ hi - 2 ^ lo + 1) := by
    rw [compl32, u32_of_lt (by omega)]
    omega
  have hlow : 2 ^ lo * q + x % 2 ^ lo < 2 ^ hi := by
    have hmod := Nat.mod_lt x hpos
    have hq : q < 2 ^ (hi - lo) :=
      Nat.lt_of_mul_lt_mul_left (a := 2 ^ lo) (by rwa [← pow_add, Nat.add_sub_cancel' h])
    have hnext : 2 ^ lo * (q + 1) ≤ 2 ^ hi := by
      rw [← Nat.add_sub_cancel' h, pow_add]
      exact Nat.mul_le_mul_left _ hq
    rw [Nat.mul_succ] at hnext
    omega
  apply Nat.eq_of_testBit_eq
  intro i
  rw [Nat.testBit_or, Nat.testBit_and, hcompl, Nat.testBit_two_pow_sub_succ (by omega),
    testBit_two_pow_sub_two_pow h,
    Nat.testBit_two_pow_mul_add _ hlow, Nat.testBit_two_pow_mul_add _ (Nat.mod_lt x hpos),
    Nat.testBit_two_pow_mul]
  by_cases hi' : i < hi
  · by_cases hlo : i < lo
    · have h32' : i < 32 := by omega
      simp [hi', hlo, h32', not_le.mpr hlo, Nat.testBit_mod_two_pow]
    · simp [hi', hlo, not_lt.mp hlo]
  · have hlo : ¬ i < lo := by omega
    have hz : q.testBit (i - lo) = false := Nat.testBit_lt_two_pow (by
      refine Nat.lt_of_mul_lt_mul_left (a := 2 ^ lo) ?_
      rw [← pow_add, Nat.add_sub_cancel' (by omega)]
      exact hc.trans_le (Nat.pow_le_pow_right (by decide) (by omega)))
    rw [if_neg hi', Nat.testBit_div_two_pow, Nat.sub_add_cancel (by omega), Nat.testBit_mod_two_pow]
    simp [hi', hz, Bool.and_comm]

theorem add_le_of_dvd {a x y : Nat} (hx : a ∣ x) (hy : a ∣ y) (h : x < y) : x + a ≤ y := by
  have hle := Nat.le_of_dvd (Nat.sub_pos_of_lt h) (Nat.dvd_sub hy hx)
  omega

/-- How far `find_ram_in_range` advances an address of the wrong colour. -/
def colourStep (mask : Nat) : Nat := u32 ((sub32 mask 1 ||| mask) + 1)

theorem colourStep_eq {lo hi : Nat} (h : lo < hi) (h32 : hi ≤ 32) :
    colourStep (2 ^ hi - 2 ^ lo) = u32 (2 ^ hi) := by
  have hpos := Nat.two_pow_pos lo
  have hlt := Nat.pow_lt_pow_right (a := 2) (by decide) h
  have hle32 := Nat.pow_le_pow_right (n := 2) (by decide) h32
  have hor : (2 ^ hi - (2 ^ lo + 1)) ||| (2 ^ hi - 2 ^ lo) = 2 ^ hi - 1 := by
    apply Nat.eq_of_testBit_eq
    intro i
    rw [Nat.testBit_or, Nat.testBit_two_pow_sub_succ hlt, testBit_two_pow_sub_two_pow h.le,
      Nat.testBit_two_pow_sub_one, Nat.testBit_two_pow]
    by_cases hi' : i < hi
    · simp only [hi', decide_true, Bool.true_and, Bool.and_true, Bool.or_eq_true, Bool.not_eq_true',
        decide_eq_false_iff_not, decide_eq_true_eq]
      omega
    · simp [hi']
  rw [colourStep, sub32_of_le (by omega) (by omega), Nat.sub_sub, hor,
    Nat.sub_add_cancel (by omega)]

/-- No colours, or those of a run of address bits that an alignment of `2 ^ k` leaves alone. -/
def ColourMask (k mask : Nat) : Prop :=
  mask = 0 ∨ ∃ lo hi, k ≤ lo ∧ lo < hi ∧ hi ≤ 32 ∧ mask = 2 ^ hi - 2 ^ lo

theorem adjustStart_eq_max (rangeStart align colour mask s : Nat) :
    adjustStart rangeStart align colour mask s =
      max (adjustStart 0 align colour mask s) rangeStart := by
  simp only [adjustStart]
  split_ifs <;> omega

theorem adjustStart_right {align colour mask s : Nat} (h : round s align &&& mask = colour) :
    adjustStart 0 align colour mask s = round s align := by
  simp [adjustStart, h]

theorem adjustStart_wrong {align colour mask s : Nat} (h : round s align &&& mask ≠ colour) :
    adjustStart 0 align colour mask s = (u64 (round s align + colourStep mask) &&& compl32 mask) |||
      colour := by
  simp [adjustStart, h, colourStep]

section
variable {k lo hi colour s : Nat}

theorem colour_bits (h : lo ≤ hi) (hcol : colour &&& (2 ^ hi - 2 ^ lo) = colour) :
    colour < 2 ^ hi ∧ 2 ^ lo ∣ colour := by
  rw [and_mask h] at hcol
  rw [← hcol]
  exact ⟨(Nat.div_mul_le_self _ _).trans_lt (Nat.mod_lt _ (Nat.two_pow_pos hi)),
    Dvd.intro_left _ rfl⟩

theorem adjustStart_parts (h : lo < hi) (h32 : hi ≤ 32) (hc : colour < 2 ^ hi)
    (hd : 2 ^ lo ∣ colour) (hw : round s (2 ^ k) &&& (2 ^ hi - 2 ^ lo) ≠ colour) :
    adjustStart 0 (2 ^ k) colour (2 ^ hi - 2 ^ lo) s =
      2 ^ hi * ((round s (2 ^ k) + u32 (2 ^ hi)) % 2 ^ 32 / 2 ^ hi) +
        (colour + round s (2 ^ k) % 2 ^ lo) := by
  have hstep : 2 ^ lo ∣ u32 (2 ^ hi) := by
    rw [u32, Nat.dvd_mod_iff (pow_dvd_pow 2 (by omega))]
    exact pow_dvd_pow 2 h.le
  have h64 : u64 (round s (2 ^ k) + u32 (2 ^ hi)) % 2 ^ 32 =
      (round s (2 ^ k) + u32 (2 ^ hi)) % 2 ^ 32 := by
    unfold u64
    omega
  have hlow : u64 (round s (2 ^ k) + u32 (2 ^ hi)) % 2 ^ lo = round s (2 ^ k) % 2 ^ lo := by
    obtain ⟨q, hq⟩ := hstep
    rw [u64, Nat.mod_mod_of_dvd _ (pow_dvd_pow 2 (by omega)), hq, Nat.add_mul_mod_self_left]
  rw [adjustStart_wrong hw, colourStep_eq h h32, recolour_eq h.le h32 hc hd, h64, hlow]

theorem adjustStart_placed (hk : k < 32) {mask : Nat} (hm : ColourMask k mask)
    (hcol : colour &&& mask = colour) :
    2 ^ k ∣ adjustStart 0 (2 ^ k) colour mask s ∧
      adjustStart 0 (2 ^ k) colour mask s &&& mask = colour := by
  have hround := two_pow_dvd_round (show k ≤ 63 by omega) s
  by_cases hw : round s (2 ^ k) &&& mask = colour
  · rw [adjustStart_right hw]
    exact ⟨hround, hw⟩
  · obtain rfl | ⟨lo, hi, hklo, h, h32, rfl⟩ := hm
    · rw [Nat.and_zero] at hcol hw
      exact absurd hcol hw
    · obtain ⟨hc, hd⟩ := colour_bits h.le hcol
      have hkl : 2 ^ k ∣ 2 ^ lo := pow_dvd_pow 2 hklo
      have hmod := Nat.mod_lt (round s (2 ^ k)) (Nat.two_pow_pos lo)
      have hlt : colour + round s (2 ^ k) % 2 ^ lo < 2 ^ hi := by
        have := add_le_of_dvd hd (pow_dvd_pow 2 h.le) hc
        omega
      rw [adjustStart_parts h h32 hc hd hw]
      constructor
      · refine Nat.dvd_add (Dvd.dvd.mul_right (pow_dvd_pow 2 (by omega)) _)
          (Nat.dvd_add (hkl.trans hd) ?_)
        exact (Nat.dvd_mod_iff hkl).mpr hround
      · obtain ⟨q, rfl⟩ := hd
        rw [and_mask h.le, Nat.mul_add_mod, Nat.mod_eq_of_lt hlt,
          Nat.mul_add_div (Nat.two_pow_pos lo), Nat.div_eq_of_lt hmod, Nat.add_zero, Nat.mul_comm]

/-- Rounding and colouring do not leave the upper part of the address space by wrapping or by the
32-bit mask, and a mask up to bit 31 moves the address forward. -/
def StartKept (align colour mask s : Nat) : Prop :=
  s + align ≤ 2 ^ 64 ∧ (round s align &&& mask = colour ∨
    round s align + colourStep mask < 2 ^ 32 ∧
    (colourStep mask = 0 → round s align &&& mask < colour))

theorem le_recoloured_top {r : Nat} (hklo : k ≤ lo) (h : lo < 32) (hc : colour < 2 ^ 32)
    (hd : 2 ^ lo ∣ colour) (hr : 2 ^ k ∣ r) (hle : s ≤ r) (hlt : r < s + 2 ^ k)
    (hw : r &&& (2 ^ 32 - 2 ^ lo) ≠ colour) :
    s ≤ colour + r % 2 ^ lo ↔ r < 2 ^ 32 ∧ r &&& (2 ^ 32 - 2 ^ lo) < colour := by
  have hkl : 2 ^ k ∣ 2 ^ lo := pow_dvd_pow 2 hklo
  have hmod := Nat.mod_lt r (Nat.two_pow_pos lo)
  have htop := add_le_of_dvd hd (pow_dvd_pow 2 h.le) hc
  have hcd : 2 ^ k ∣ colour + r % 2 ^ lo :=
    Nat.dvd_add (hkl.trans hd) ((Nat.dvd_mod_iff hkl).mpr hr)
  have hc32 := add_le_of_dvd hcd (pow_dvd_pow 2 (by omega : k ≤ 32)) (by omega)
  rw [and_mask h.le] at hw ⊢
  by_cases hr32 : r < 2 ^ 32
  · rw [Nat.mod_eq_of_lt hr32] at hw ⊢
    have hsplit := Nat.div_add_mod' r (2 ^ lo)
    constructor
    · intro hs
      refine ⟨hr32, lt_of_le_of_ne (not_lt.mp fun hgt => ?_) hw⟩
      have hgap := add_le_of_dvd hd (Dvd.intro_left _ rfl) hgt
      have hkle := Nat.le_of_dvd (Nat.two_pow_pos lo) hkl
      omega
    · rintro ⟨-, hgt⟩
      omega
  · refine iff_of_false (fun hs => ?_) fun hc => hr32 hc.1
    omega

theorem le_recoloured_low {r : Nat} (hklo : k ≤ lo) (h : lo < hi) (h32 : hi < 32)
    (hc : colour < 2 ^ hi) (hd : 2 ^ lo ∣ colour) (hr : 2 ^ k ∣ r) (hle : s ≤ r)
    (hlt : r < s + 2 ^ k) :
    s ≤ 2 ^ hi * ((r + 2 ^ hi) % 2 ^ 32 / 2 ^ hi) + (colour + r % 2 ^ lo) ↔
      r + 2 ^ hi < 2 ^ 32 := by
  have hkl : 2 ^ k ∣ 2 ^ lo := pow_dvd_pow 2 hklo
  have hkh : 2 ^ k ∣ 2 ^ hi := pow_dvd_pow 2 (by omega)
  have hmod := Nat.mod_lt r (Nat.two_pow_pos lo)
  have htop := add_le_of_dvd hd (pow_dvd_pow 2 h.le) hc
  have hcd : 2 ^ k ∣ colour + r % 2 ^ lo :=
    Nat.dvd_add (hkl.trans hd) ((Nat.dvd_mod_iff hkl).mpr hr)
  have hch := add_le_of_dvd hcd hkh (by omega)
  have hhalf : 2 ^ hi ≤ 2 ^ 31 := Nat.pow_le_pow_right (by decide) (by omega)
  have hsplit := Nat.div_add_mod ((r + 2 ^ hi) % 2 ^ 32) (2 ^ hi)
  have hrest := Nat.mod_lt ((r + 2 ^ hi) % 2 ^ 32) (Nat.two_pow_pos hi)
  constructor
  · intro hs
    by_contra hbig
    by_cases hr32 : r < 2 ^ 32
    · have hz : (r + 2 ^ hi) % 2 ^ 32 / 2 ^ hi = 0 := Nat.div_eq_of_lt (by omega)
      rw [hz] at hs
      omega
    · have hup :=
        add_le_of_dvd (Nat.dvd_add (Dvd.dvd.mul_right hkh ((r + 2 ^ hi) % 2 ^ 32 / 2 ^ hi)) hcd)
        (pow_dvd_pow 2 (by omega : k ≤ 32)) (?_ : _ < 2 ^ 32)
      · omega
      · have hd32 : 2 ^ hi ∣ 2 ^ 32 := pow_dvd_pow 2 h32.le
        have hwrap := Nat.mod_lt (r + 2 ^ hi) (by decide : 0 < 2 ^ 32)
        have hx := add_le_of_dvd (Dvd.intro _ rfl :
          2 ^ hi ∣ 2 ^ hi * ((r + 2 ^ hi) % 2 ^ 32 / 2 ^ hi)) hd32 (by omega)
        omega
  · intro hs
    rw [Nat.mod_eq_of_lt hs] at hsplit hrest ⊢
    omega

theorem le_adjustStart_iff (hk : k < 32) {mask : Nat} (hm : ColourMask k mask)
    (hcol : colour &&& mask = colour) (hs : s < 2 ^ 64) :
    s ≤ adjustStart 0 (2 ^ k) colour mask s ↔ StartKept (2 ^ k) colour mask s := by
  have hk31 : 2 ^ k ≤ 2 ^ 31 := Nat.pow_le_pow_right (by decide) (by omega)
  by_cases hn : s + 2 ^ k ≤ 2 ^ 64
  · obtain ⟨hle, hr, hlt⟩ := round_two_pow (show k ≤ 63 by omega) hn
    by_cases hw : round s (2 ^ k) &&& mask = colour
    · rw [adjustStart_right hw]
      exact iff_of_true hle ⟨hn, .inl hw⟩
    · obtain rfl | ⟨lo, hi, hklo, h, h32, rfl⟩ := hm
      · rw [Nat.and_zero] at hcol hw
        exact absurd hcol hw
      · obtain ⟨hc, hd⟩ := colour_bits h.le hcol
        rw [adjustStart_parts h h32 hc hd hw]
        simp only [StartKept, hn, hw, true_and, false_or, colourStep_eq h h32]
        rcases h32.lt_or_eq with h32 | rfl
        · have hstep : u32 (2 ^ hi) = 2 ^ hi := u32_of_lt (Nat.pow_lt_pow_right (by decide) h32)
          have hpos := Nat.two_pow_pos hi
          rw [hstep, le_recoloured_low hklo h h32 hc hd hr hle hlt]
          exact ⟨fun h => ⟨h, fun h0 => absurd h0 hpos.ne'⟩, fun h => h.1⟩
        · have hstep : u32 (2 ^ 32) = 0 := by decide
          have hz : (round s (2 ^ k) + 0) % 2 ^ 32 / 2 ^ 32 = 0 :=
            Nat.div_eq_of_lt (Nat.mod_lt _ (by decide))
          rw [hstep, hz, Nat.mul_zero, Nat.zero_add, Nat.add_zero,
            le_recoloured_top hklo h hc hd hr hle hlt hw]
          exact and_congr_right fun _ => ⟨fun h _ => h, fun h => h rfl⟩
  · refine iff_of_false (fun hc => ?_) fun hc => hn hc.1
    have hr := round_wraps (show k ≤ 63 by omega) hs (not_le.mp hn)
    have h32 : adjustStart 0 (2 ^ k) colour mask s < 2 ^ 32 := by
      by_cases hw : round s (2 ^ k) &&& mask = colour
      · rw [adjustStart_right hw, hr]
        decide
      · rw [adjustStart_wrong hw]
        refine Nat.or_lt_two_pow (Nat.and_lt_two_pow _ ?_) ?_
        · unfold compl32
          omega
        · obtain rfl | ⟨lo, hi, -, h, h32, rfl⟩ := hm
          · rw [← hcol, Nat.and_zero]
            decide
          · rw [← hcol]
            have hle32 := Nat.pow_le_pow_right (n := 2) (by decide) h32
            have hpos := Nat.two_pow_pos lo
            exact Nat.and_lt_two_pow _ (by omega)
    omega

end

/-- Where the first candidate that `find_ram_in_range` takes starts, behind the ranges to avoid. -/
def takenStart (rangeStart rangeEnd size align colour mask : Nat) (avoid : List AvoidEntry)
    (es : List RamEntry) : Option Nat :=
  es.findSome? fun r => (findInBlock rangeStart rangeEnd size align colour mask avoid r).bind
    fun _ =>
    (fixSizes avoid (r.addr, u64 (r.addr + r.size))).map (·.1)

/-- `[a, a + size)` is free and not to be avoided. -/
structure FreeAt (es : List RamEntry) (avoid : List AvoidEntry) (size a : Nat) : Prop where
  inside : ∃ r ∈ es, r.addr ≤ a ∧ a + size ≤ r.addr + r.size
  avoids : ∀ x ∈ bytes a size, x ∉ avoided avoid

structure RangeSound (es : List RamEntry) (avoid : List AvoidEntry)
    (rangeStart rangeEnd size align colour mask a : Nat) :
    Prop where
  aligned : align ∣ a
  coloured : a &&& mask = colour
  lower : rangeStart ≤ a
  upper : rangeEnd ≠ 0 → a + size ≤ rangeEnd
  free : FreeAt es avoid size a

/-- A lower bound that cuts the candidate is aligned and has the colour; and the candidate is not
left below its start. -/
def RangePlaced (rangeStart align colour mask start : Nat) : Prop :=
  (rangeStart ≤ adjustStart 0 align colour mask start ∨ align ∣ rangeStart ∧
    rangeStart &&& mask = colour) ∧ (StartKept align colour mask start ∨ start ≤ rangeStart)

section
variable {rangeStart rangeEnd size align colour mask : Nat} {avoid : List AvoidEntry}

theorem findInBlock_ends {r : RamEntry} {a : Nat} (hpos : 0 < r.size)
    (hb : r.addr + r.size < 2 ^ 64)
    (h : findInBlock rangeStart rangeEnd size align colour mask avoid r = some a) :
    ∃ start e, fixSizes avoid (r.addr, r.addr + r.size) = some (start, e) ∧
      a = adjustStart rangeStart align colour mask start ∧
      a + size ≤ e ∧ (rangeEnd ≠ 0 → a + size ≤ rangeEnd) := by
  unfold findInBlock at h
  rw [u64_of_lt hb] at h
  cases hf : fixSizes avoid (r.addr, r.addr + r.size) with
  | none => simp [hf] at h
  | some c =>
    obtain ⟨start, e⟩ := c
    have hle := fixSizes_le hf (by omega) hb
    have hee := adjustEnd_le rangeEnd e
    simp only [hf, ge_iff_le, Option.ite_none_left_eq_some, Option.ite_none_right_eq_some, not_le,
      Option.some.injEq] at h
    obtain ⟨hlt, hsz, rfl⟩ := h
    rw [sub64_of_le (by omega) (by omega)] at hsz
    refine ⟨start, e, rfl, rfl, by omega, fun h0 => ?_⟩
    have hend : adjustEnd rangeEnd e ≤ rangeEnd := by
      rw [adjustEnd, if_pos h0]
      split <;> omega
    omega

theorem takenStart_cases (es : List RamEntry) :
    takenStart rangeStart rangeEnd size align colour mask avoid es = none ∧
      es.findSome? (findInBlock rangeStart rangeEnd size align colour mask avoid) = none ∨
    ∃ r ∈ es, ∃ a start e, findInBlock rangeStart rangeEnd size align colour mask avoid r = some a ∧
      fixSizes avoid (r.addr, u64 (r.addr + r.size)) = some (start, e) ∧
      takenStart rangeStart rangeEnd size align colour mask avoid es = some start ∧
      es.findSome? (findInBlock rangeStart rangeEnd size align colour mask avoid) = some a := by
  induction es with
  | nil => exact .inl ⟨rfl, rfl⟩
  | cons r rest ih =>
    simp only [takenStart, List.findSome?_cons] at ih ⊢
    cases hr : findInBlock rangeStart rangeEnd size align colour mask avoid r with
    | none =>
      simp only [Option.bind_none]
      obtain h | ⟨r', hr', h⟩ := ih
      · exact .inl h
      · exact .inr ⟨r', List.mem_cons_of_mem _ hr', h⟩
    | some a =>
      cases hf : fixSizes avoid (r.addr, u64 (r.addr + r.size)) with
      | none => simp [findInBlock, hf] at hr
      | some c => exact .inr ⟨r, List.mem_cons_self, a, c.1, c.2, hr, hf, by simp, rfl⟩

/-- A ranged, coloured request is met in the first candidate, or refused, exactly when that
candidate is placed well. -/
theorem find_ram_in_range_sound {s : RamState} {f : FreeList} {k : Nat} (hf : s.ramList.Holds f)
    (havoid : ∀ a ∈ s.avoidList, a.start < a.stop) (hsize : 0 < size) (hk : k < 32)
    (hm : ColourMask k mask) (hcol : colour &&& mask = colour) :
    (findRamInRange rangeStart rangeEnd size (2 ^ k) colour mask s = nullPaddr ∨
      RangeSound f.entries s.avoidList rangeStart rangeEnd size (2 ^ k) colour mask
          (findRamInRange rangeStart rangeEnd size (2 ^ k) colour mask s) ∧
        ∀ start, takenStart rangeStart rangeEnd size (2 ^ k) colour mask s.avoidList f.entries =
          some start →
          start ≤ findRamInRange rangeStart rangeEnd size (2 ^ k) colour mask s) ↔
      ∀ start, takenStart rangeStart rangeEnd size (2 ^ k) colour mask s.avoidList f.entries =
        some start →
        RangePlaced rangeStart (2 ^ k) colour mask start := by
  rw [findRamInRange, takeWhile_holds hf]
  obtain ⟨hnone, hres⟩ | ⟨r, hr, a, start, e, hblock, hfix, hstart, hres⟩ := 
    @takenStart_cases rangeStart rangeEnd size (2 ^ k) colour mask s.avoidList f.entries
  · rw [hres, hnone]
    exact iff_of_true (.inl rfl) fun _ h => by cases h
  rw [hres, hstart, Option.getD_some]
  have hpos := f.pos hr
  have hb := f.bound r hr
  rw [u64_of_lt hb] at hfix
  obtain ⟨start', e', hfix', ha, hend, hupper⟩ := findInBlock_ends hpos hb hblock
  obtain ⟨rfl, rfl⟩ := Prod.mk.inj (Option.some.inj (hfix'.symm.trans hfix))
  obtain ⟨hlo, hmid, hhi⟩ := fixSizes_le hfix (by omega) hb
  rw [adjustStart_eq_max] at ha
  obtain ⟨haligned, hcoloured⟩ := adjustStart_placed (s := start') hk hm hcol
  have hkept := le_adjustStart_iff hk hm hcol (show start' < 2 ^ 64 by omega)
  have hnull : a ≠ nullPaddr := by
    unfold nullPaddr
    omega
  have hfree : start' ≤ a → FreeAt f.entries s.avoidList size a := fun hs =>
    ⟨⟨r, hr, by omega, by omega⟩, fun x hx => by
      rw [mem_bytes] at hx
      exact fixSizes_sound hfix (fun a ha => (Nat.zero_lt_of_lt (havoid a ha)).ne') (by omega) hb x
        (by omega) (by omega)⟩
  simp only [hnull, false_or, Option.some.injEq, forall_eq', RangePlaced, ← hkept]
  generalize adjustStart 0 (2 ^ k) colour mask start' = addr at *
  constructor
  · rintro ⟨h, hinside⟩
    refine ⟨?_, by omega⟩
    by_cases hcut : rangeStart ≤ addr
    · exact .inl hcut
    · obtain rfl : a = rangeStart := by omega
      exact .inr ⟨h.aligned, h.coloured⟩
  · rintro ⟨hcut, hplace⟩
    have hplaced : 2 ^ k ∣ a ∧ a &&& mask = colour := by
      by_cases hle : rangeStart ≤ addr
      · rw [ha, max_eq_left hle]
        exact ⟨haligned, hcoloured⟩
      · rw [ha, max_eq_right (by omega)]
        exact hcut.resolve_left hle
    have hinside : start' ≤ a := by omega
    exact ⟨⟨hplaced.1, hplaced.2, by omega, hupper, hfree hinside⟩, hinside⟩

end

def ramAt (start : Nat) : RamState :=
  { RamState.atBoot false fun _ => 0 with ramList := .ofEntries [⟨start, 0x1000000⟩, ⟨0, 0⟩] }

theorem ramAt_holds {start : Nat} (h : start + 0x1000000 < 2 ^ 64) :
    ∃ f, (ramAt start).ramList.Holds f ∧ f.entries = [⟨start, 0x1000000⟩] :=
  ⟨⟨[⟨start, 0x1000000⟩], by simpa using h, by simp [Ranges.Separated, RamEntry.span]⟩,
    ⟨⟨0, 0⟩, rfl, rfl⟩, rfl⟩

theorem find_ram_in_range_sound_example :
    ∃ f, (ramAt 0x80000000).ramList.Holds f ∧
      RangeSound f.entries [] 0x80001000 0x80100000 0x2000 0x1000 0x2000 0x3000 0x80006000 := by
  obtain ⟨f, hf, hes⟩ := ramAt_holds (show 0x80000000 + 0x1000000 < 2 ^ 64 by decide)
  have hres : findRamInRange 0x80001000 0x80100000 0x2000 (2 ^ 12) 0x2000 0x3000
      (ramAt 0x80000000) = 0x80006000 := by decide
  have hstart : takenStart 0x80001000 0x80100000 0x2000 (2 ^ 12) 0x2000 0x3000 []
      [⟨0x80000000, 0x1000000⟩] = some 0x80000000 := by
    decide
  have hsound := (@find_ram_in_range_sound 0x80001000 0x80100000 0x2000 0x2000 0x3000
    (ramAt 0x80000000) f 12 hf (by decide) (by decide) (by decide) (.inr ⟨12, 14, by decide⟩)
    (by decide)).mpr
    fun start h => by
      rw [hes] at h
      obtain rfl := Option.some.inj (hstart.symm.trans h)
      exact ⟨.inl (by decide), .inl ⟨by decide, .inr ⟨by decide, fun h0 => absurd h0 (by decide)⟩⟩⟩
  rw [hres] at hsound
  exact ⟨f, hf, (hsound.resolve_left (by decide)).1⟩

/-- Above 4 GiB a start of the wrong colour loses its upper half, and a lower bound inside a
candidate is returned whatever its alignment. -/
theorem find_ram_in_range_misplaces :
    ∃ f g, (ramAt 0x100000000).ramList.Holds f ∧
      findRamInRange 0 0 0x2000 0x1000 0x1000 0x3000 (ramAt 0x100000000) = 0x5000 ∧
      ¬ RangeSound f.entries [] 0 0 0x2000 0x1000 0x1000 0x3000 0x5000 ∧
      (ramAt 0x80000000).ramList.Holds g ∧
        findRamInRange 0x80000800 0x81000000 0x2000 0x1000 0 0 (ramAt 0x80000000) = 0x80000800 ∧
        ¬ RangeSound g.entries [] 0x80000800 0x81000000 0x2000 0x1000 0 0 0x80000800 := by
  obtain ⟨f, hf, hes⟩ := ramAt_holds (show 0x100000000 + 0x1000000 < 2 ^ 64 by decide)
  obtain ⟨g, hg, -⟩ := ramAt_holds (show 0x80000000 + 0x1000000 < 2 ^ 64 by decide)
  refine ⟨f, g, hf, by decide, fun h => ?_, hg, by decide, fun h => absurd h.aligned (by decide)⟩
  obtain ⟨r, hr, hlo, -⟩ := h.free.inside
  rw [hes] at hr
  obtain rfl := List.mem_singleton.mp hr
  exact absurd hlo (by decide)

end QnxStartup
