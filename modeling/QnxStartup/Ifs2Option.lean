import QnxStartup.Getopt
import QnxStartup.Ifs2
import QnxStartup.Strtoul

/-! The option `i` of `common_options.c`: where the secondary image lies and where it goes. -/

namespace QnxStartup

def comma : UInt8 := 0x2c

def letterR : UInt8 := 0x52

def letterK : UInt8 := 0x4b

/-- A character of a string that is not the NUL. -/
def strchr (c : UInt8) : List UInt8 → Option (List UInt8)
  | [] => none
  | d :: s => if d = c then some (d :: s) else strchr c s

/-- A flag that may stand behind `cp`. -/
def readIfs2Flag (letter : UInt8) (bits : Nat) (s : Ifs2) (cp : List UInt8) : Ifs2 × List UInt8 :=
  if cp.tail.head? = some letter then ({ s with rifsFlag := s.rifsFlag ||| bits }, cp.tail)
    else (s, cp)

/-- The flags behind the comma at `cp`, which is at the last of them afterwards. -/
def readIfs2Flags (s : Ifs2) (cp : List UInt8) : Ifs2 × List UInt8 :=
  let (s, cp) := readIfs2Flag letterR rifsFlagIfs2Restore s cp
  readIfs2Flag letterK (rifsFlagIfs2Restore ||| rifsFlagIfs2Cksum) s cp

def readIfs2Dst (s : Ifs2) (cp : List UInt8) : Ifs2 :=
  match strchr comma cp with
  | none => s
  | some cp =>
    { s with rifsFlag := s.rifsFlag ||| rifsFlagIfs2Dst,
             ifs2PaddrDst := 0xFFFFF000 &&& (strtoul cp.tail 0).1 }

def readIfs2Src (s : Ifs2) (cp : List UInt8) : Ifs2 :=
  match strchr comma cp with
  | none => s
  | some cp =>
    let (src, cp) := strtoul cp.tail 0
    readIfs2Dst { s with rifsFlag := s.rifsFlag ||| rifsFlagIfs2Src, ifs2PaddrSrc := src } cp

/-- What follows the size. -/
def readIfs2Fields (s : Ifs2) (p : List UInt8) : Ifs2 :=
  match strchr comma p with
  | none => s
  | some cp =>
    let (s, cp) := readIfs2Flags s cp
    readIfs2Src s cp

/-- `handle_common_option` for the option `i`; the second component is the new `optarg`. -/
def handleIfs2Option (optarg : List UInt8) (s : Ifs2) : Ifs2 × List UInt8 :=
  let (size, optarg) := strtoul optarg 0
  (readIfs2Fields { s with rifsFlag := s.rifsFlag ||| rifsFlagIfs2, ifs2Size := u32 size } optarg,
    optarg)

/-! ### The arguments -/

/-- A number below a bound, as it is written. -/
structure Numeral (bound : Nat) where
  text : List UInt8
  value : Nat
  denotes : Denotes text value
  lt : value < bound

inductive Ifs2Flags where
  | none
  | r
  | rk
  | k
  deriving DecidableEq

def Ifs2Flags.text : Ifs2Flags → List UInt8
  | none => []
  | r => [comma, letterR]
  | rk => [comma, letterR, letterK]
  | k => [comma, letterK]

def Ifs2Flags.cksum : Ifs2Flags → Bool
  | none | r => false
  | rk | k => true

/-- `size[,flags][,src[,dst]]`. -/
structure Ifs2Arg where
  size : Numeral (2 ^ 32)
  flags : Ifs2Flags
  place : Option (Numeral (2 ^ 64) × Option (Numeral (2 ^ 64)))

def Ifs2Arg.src (a : Ifs2Arg) : Option Nat := a.place.map (·.1.value)

def Ifs2Arg.dst (a : Ifs2Arg) : Option Nat := (a.place.bind (·.2)).map (·.value)

def dstText : Option (Numeral (2 ^ 64)) → List UInt8
  | none => []
  | some dst => comma :: dst.text

def placeText : Option (Numeral (2 ^ 64) × Option (Numeral (2 ^ 64))) → List UInt8
  | none => []
  | some (src, dst) => comma :: (src.text ++ dstText dst)

def Ifs2Arg.text (a : Ifs2Arg) : List UInt8 := a.size.text ++ (a.flags.text ++ placeText a.place)

structure Ifs2Arg.SetBy (a : Ifs2Arg) (s s' : Ifs2) : Prop where
  size : s'.ifs2Size = a.size.value
  ifs2 : s'.rifsFlag &&& rifsFlagIfs2 ≠ 0
  restore : s'.rifsFlag &&& rifsFlagIfs2Restore ≠ 0 ↔ s.rifsFlag &&& rifsFlagIfs2Restore ≠ 0 ∨
    a.flags ≠ .none
  cksum : s'.rifsFlag &&& rifsFlagIfs2Cksum ≠ 0 ↔ s.rifsFlag &&& rifsFlagIfs2Cksum ≠ 0 ∨
    a.flags.cksum
  src : s'.rifsFlag &&& rifsFlagIfs2Src ≠ 0 ↔ s.rifsFlag &&& rifsFlagIfs2Src ≠ 0 ∨ a.src ≠ none
  dst : s'.rifsFlag &&& rifsFlagIfs2Dst ≠ 0 ↔ s.rifsFlag &&& rifsFlagIfs2Dst ≠ 0 ∨ a.dst ≠ none
  paddr_src : s'.ifs2PaddrSrc = a.src.getD s.ifs2PaddrSrc
  paddr_dst : s'.ifs2PaddrDst = (a.dst.map (· / 4096 * 4096)).getD s.ifs2PaddrDst

def Ifs2Flags.bits : Ifs2Flags → Nat
  | none => 0
  | r => rifsFlagIfs2Restore
  | rk | k => rifsFlagIfs2Restore ||| rifsFlagIfs2Cksum

def placeBits : Option (Numeral (2 ^ 64) × Option (Numeral (2 ^ 64))) → Nat
  | none => 0
  | some (_, none) => rifsFlagIfs2Src
  | some (_, some _) => rifsFlagIfs2Src ||| rifsFlagIfs2Dst

def Ifs2Arg.bits (a : Ifs2Arg) : Nat := rifsFlagIfs2 ||| (a.flags.bits ||| placeBits a.place)

structure Ifs2Arg.Asks (a : Ifs2Arg) (bits : Nat) : Prop where
  ifs2 : bits &&& rifsFlagIfs2 ≠ 0
  restore : bits &&& rifsFlagIfs2Restore ≠ 0 ↔ a.flags ≠ .none
  cksum : bits &&& rifsFlagIfs2Cksum ≠ 0 ↔ a.flags.cksum
  src : bits &&& rifsFlagIfs2Src ≠ 0 ↔ a.src ≠ none
  dst : bits &&& rifsFlagIfs2Dst ≠ 0 ↔ a.dst ≠ none

theorem Ifs2Arg.asks_bits (a : Ifs2Arg) : a.Asks a.bits := by
  obtain ⟨size, flags, place⟩ := a
  rcases place with - | ⟨src, - | dst⟩ <;> cases flags <;> constructor <;>
    simp [bits, Ifs2Flags.bits, placeBits, Ifs2Flags.cksum, Ifs2Arg.src, Ifs2Arg.dst, rifsFlagIfs2,
      rifsFlagIfs2Restore, rifsFlagIfs2Cksum, rifsFlagIfs2Src, rifsFlagIfs2Dst]

section
variable {text rest : List UInt8} {v : Nat} {s : Ifs2} {flags : Ifs2Flags}
  {place : Option (Numeral (2 ^ 64) × Option (Numeral (2 ^ 64)))}

theorem terminated_comma : Terminated (comma :: rest) := .cons rfl (by decide)

theorem terminated_dstText (dst : Option (Numeral (2 ^ 64))) : Terminated (dstText dst) := by
  cases dst with
  | none => exact .nil
  | some dst => exact terminated_comma

theorem terminated_fields (flags : Ifs2Flags)
    (place : Option (Numeral (2 ^ 64) × Option (Numeral (2 ^ 64)))) :
    Terminated (flags.text ++ placeText place) := by
  cases flags with
  | none =>
    rcases place with - | ⟨src, dst⟩
    · exact .nil
    · exact terminated_comma
  | r | rk | k => exact terminated_comma

theorem Denotes.head (h : Denotes text v) : ∃ c d, text.head? = some c ∧ IsDigit 10 c d := by
  cases h with
  | hex => exact ⟨0x30, 0, rfl, by decide, .inl ⟨by decide, rfl⟩⟩
  | octal => exact ⟨0x30, 0, rfl, by decide, .inl ⟨by decide, rfl⟩⟩
  | decimal _ hds =>
    cases hds with
    | cons hd _ => exact ⟨_, _, rfl, hd⟩

theorem Denotes.no_flag (h : Denotes text v) {c : UInt8} (hc : c = letterR ∨ c = letterK) :
    (text ++ rest).head? ≠ some c := by
  obtain ⟨d, n, hhead, hd⟩ := h.head
  have hchar := hd.char
  have hlt := hd.lt
  rw [List.head?_append, hhead]
  rintro ⟨⟩
  rcases hc with rfl | rfl <;> simp only [letterR, letterK, UInt8.toNat_ofNat] at hchar <;> omega

theorem strtoul_num {bound : Nat} (n : Numeral bound) (hbound : bound ≤ 2 ^ 64)
    (hrest : Terminated rest) :
    strtoul (n.text ++ rest) 0 = (n.value, rest) :=
  strtoul_numeral n.denotes (n.lt.trans_le hbound) hrest

theorem readIfs2Src_placeText : readIfs2Src s (placeText place) =
    { s with
      rifsFlag := s.rifsFlag ||| placeBits place
      ifs2PaddrSrc := (place.map (·.1.value)).getD s.ifs2PaddrSrc
      ifs2PaddrDst := ((place.bind (·.2)).map (0xFFFFF000 &&& ·.value)).getD s.ifs2PaddrDst } := by
  rcases place with - | ⟨src, - | dst⟩
  · simp [readIfs2Src, placeText, placeBits, strchr]
  · have hsrc : strtoul (src.text ++ dstText none) 0 = (src.value, []) :=
      strtoul_num src le_rfl (terminated_dstText none)
    simp only [readIfs2Src, placeText, strchr, if_true, List.tail_cons, hsrc]
    rfl
  · have hsrc : strtoul (src.text ++ dstText (some dst)) 0 = (src.value, comma :: dst.text) :=
      strtoul_num src le_rfl terminated_comma
    have hdst : strtoul dst.text 0 = (dst.value, []) := by
      have h := strtoul_num dst le_rfl .nil
      rwa [List.append_nil] at h
    simp only [readIfs2Src, placeText, strchr, if_true, List.tail_cons, hsrc, readIfs2Dst, hdst,
      placeBits, Nat.or_assoc]
    rfl

theorem readIfs2Src_letter {c : UInt8} (hc : c ≠ comma) :
    readIfs2Src s (c :: rest) = readIfs2Src s rest := by
  rw [readIfs2Src, strchr, if_neg hc, readIfs2Src]

theorem placeText_no_flag {c : UInt8} (hc : c ≠ comma) : (placeText place).head? ≠ some c := by
  rcases place with - | ⟨src, dst⟩
  · exact nofun
  · exact fun h => hc (Option.some.inj h).symm

theorem readIfs2Flag_absent {letter c : UInt8} {bits : Nat} (h : rest.head? ≠ some letter) :
    readIfs2Flag letter bits s (c :: rest) = (s, c :: rest) := if_neg h

theorem readIfs2Flag_present {letter c : UInt8} {bits : Nat} :
    readIfs2Flag letter bits s (c :: letter :: rest) =
    ({ s with rifsFlag := s.rifsFlag ||| bits }, letter :: rest) := if_pos rfl

theorem readIfs2Fields_comma : readIfs2Fields s (comma :: rest) =
    readIfs2Src (readIfs2Flags s (comma :: rest)).1 (readIfs2Flags s (comma :: rest)).2 := rfl

theorem readIfs2Fields_eq : readIfs2Fields s (flags.text ++ placeText place) =
    readIfs2Src { s with rifsFlag := s.rifsFlag ||| flags.bits } (placeText place) := by
  cases flags with
  | none =>
    rcases place with - | ⟨src, dst⟩
    · simp [readIfs2Fields, readIfs2Src, Ifs2Flags.text, Ifs2Flags.bits, placeText, strchr]
    · have hr : (src.text ++ dstText dst).head? ≠ some letterR := src.denotes.no_flag (.inl rfl)
      have hk : (src.text ++ dstText dst).head? ≠ some letterK := src.denotes.no_flag (.inr rfl)
      rw [Ifs2Flags.text, List.nil_append, placeText, readIfs2Fields_comma, readIfs2Flags,
        readIfs2Flag_absent hr]
      dsimp only
      rw [readIfs2Flag_absent hk, Ifs2Flags.bits, Nat.or_zero]
  | r =>
    have hk : (placeText place).head? ≠ some letterK := placeText_no_flag (by decide)
    rw [Ifs2Flags.text, List.cons_append, readIfs2Fields_comma, List.cons_append, readIfs2Flags,
      readIfs2Flag_present]
    dsimp only
    rw [List.nil_append, readIfs2Flag_absent hk, readIfs2Src_letter (by decide)]
    rfl
  | rk =>
    rw [Ifs2Flags.text, List.cons_append, readIfs2Fields_comma, List.cons_append,
      List.cons_append, readIfs2Flags, readIfs2Flag_present]
    dsimp only
    rw [readIfs2Flag_present, List.nil_append, readIfs2Src_letter (by decide), Nat.or_assoc]
    rfl
  | k =>
    have hr : ∀ l : List UInt8, (letterK :: l).head? ≠ some letterR :=
      fun l => (by decide : some letterK ≠ some letterR)
    rw [Ifs2Flags.text, List.cons_append, readIfs2Fields_comma, List.cons_append, readIfs2Flags,
      readIfs2Flag_absent (hr _)]
    dsimp only
    rw [readIfs2Flag_present, List.nil_append, readIfs2Src_letter (by decide)]
    rfl

theorem handleIfs2Option_text (a : Ifs2Arg) : (handleIfs2Option a.text s).1 =
    { s with
      rifsFlag := s.rifsFlag ||| a.bits
      ifs2Size := a.size.value
      ifs2PaddrSrc := a.src.getD s.ifs2PaddrSrc
      ifs2PaddrDst := (a.dst.map (0xFFFFF000 &&& ·)).getD s.ifs2PaddrDst } := by
  rw [handleIfs2Option, Ifs2Arg.text,
    strtoul_num a.size (by decide) (terminated_fields a.flags a.place)]
  dsimp only
  rw [readIfs2Fields_eq, readIfs2Src_placeText, u32_of_lt a.size.lt, Ifs2Arg.dst,
    Option.map_map, Ifs2Arg.bits]
  simp only [Nat.or_assoc]
  rfl

theorem or_and_ne_zero (a b m : Nat) : (a ||| b) &&& m ≠ 0 ↔ a &&& m ≠ 0 ∨ b &&& m ≠ 0 := by
  rw [Nat.and_or_distrib_right]
  have : (a &&& m) ||| (b &&& m) = 0 ↔ a &&& m = 0 ∧ b &&& m = 0 := Nat.or_eq_zero_iff
  rw [Ne, this, not_and_or]

theorem and_mask_eq (d : Nat) : 0xFFFFF000 &&& d = d % 2 ^ 32 / 4096 * 4096 := by
  have h1 : 0xFFFFF000 &&& d = d % 2 ^ 32 &&& (2 ^ 64 - 2 ^ 12) := by
    rw [← Nat.and_two_pow_sub_one_eq_mod, Nat.and_assoc, Nat.and_comm]
    rfl
  have h2 := @and_compl64_two_pow 12 (by decide) (d % 2 ^ 32)
  rw [u64_of_lt (by omega)] at h2
  rw [h1, h2]
  rfl

theorem and_mask_eq_iff (d : Nat) : 0xFFFFF000 &&& d = d / 4096 * 4096 ↔ d < 2 ^ 32 := by
  rw [and_mask_eq]
  omega

/-- The option sets what it says exactly when no destination is given from 4 GiB on: the
mask that is to round it has 32 bits. -/
theorem ifs2_option_iff (a : Ifs2Arg) (s : Ifs2) :
    a.SetBy s (handleIfs2Option a.text s).1 ↔ ∀ dst ∈ a.dst, dst < 2 ^ 32 := by
  rw [handleIfs2Option_text]
  constructor
  · intro h dst hdst
    have hpaddr := h.paddr_dst
    rw [Option.mem_def.mp hdst] at hpaddr
    exact (and_mask_eq_iff dst).mp hpaddr
  · intro h
    have hbits := a.asks_bits
    refine ⟨rfl, (or_and_ne_zero ..).mpr (.inr hbits.ifs2), ?_, ?_, ?_, ?_, rfl, ?_⟩
    · exact (or_and_ne_zero ..).trans (or_congr_right hbits.restore)
    · exact (or_and_ne_zero ..).trans (or_congr_right hbits.cksum)
    · exact (or_and_ne_zero ..).trans (or_congr_right hbits.src)
    · exact (or_and_ne_zero ..).trans (or_congr_right hbits.dst)
    · cases hdst : a.dst with
      | none => rfl
      | some dst => exact (and_mask_eq_iff dst).mpr (h dst hdst)

theorem digits_replicate_zero (n : Nat) :
    List.Forall₂ (IsDigit 16) (List.replicate n 0x30) (List.replicate n 0) := by
  induction n with
  | zero => exact .nil
  | succ n ih => exact .cons ⟨by decide, .inl ⟨by decide, rfl⟩⟩ ih

/-- `0x1` and `n` zeros. -/
def powerOfSixteen (n : Nat) (bound : Nat)
    (h : placeValue 16 (1 :: List.replicate n 0) < bound) : Numeral bound where
  text := 0x30 :: 0x78 :: 0x31 :: List.replicate n 0x30
  value := placeValue 16 (1 :: List.replicate n 0)
  denotes := .hex (.inl rfl) (by simp) (.cons ⟨by decide, .inl ⟨by decide, rfl⟩⟩
    (digits_replicate_zero n))
  lt := h

def ifs2AboveFourGib : Ifs2Arg where
  size := powerOfSixteen 4 _ (by decide)
  flags := .none
  place := some (powerOfSixteen 7 _ (by decide), some (powerOfSixteen 8 _ (by decide)))

theorem ifs2_option_dst_above :
    ifs2AboveFourGib.dst = some 0x100000000 ∧
    (handleIfs2Option ifs2AboveFourGib.text
      (.given (.atBoot false fun _ => 0) 0 0 0 0)).1.ifs2PaddrDst = 0 ∧
    ¬ ifs2AboveFourGib.SetBy (.given (.atBoot false fun _ => 0) 0 0 0 0)
        (handleIfs2Option ifs2AboveFourGib.text (.given (.atBoot false fun _ => 0) 0 0 0 0)).1 := by
  have hdst :
      (handleIfs2Option ifs2AboveFourGib.text
        (.given (.atBoot false fun _ => 0) 0 0 0 0)).1.ifs2PaddrDst = 0 := by decide
  refine ⟨rfl, hdst, fun h => ?_⟩
  have hpaddr := h.paddr_dst
  rw [hdst] at hpaddr
  exact absurd hpaddr (by decide)

end

end QnxStartup
