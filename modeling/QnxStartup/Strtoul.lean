import Mathlib.Data.Nat.Digits.Defs
import QnxStartup.Machine

/-! `strtoul.c`: numbers in a string. A string is the list of the characters from a
pointer on, without the NUL. -/

namespace QnxStartup

def radixValue (c : UInt8) : Nat :=
  if 0x30 ≤ c.toNat ∧ c.toNat ≤ 0x39 then c.toNat - 0x30
  else if 0x61 ≤ c.toNat ∧ c.toNat ≤ 0x66 then c.toNat - 0x61 + 10
  else if 0x41 ≤ c.toNat ∧ c.toNat ≤ 0x46 then c.toNat - 0x41 + 10
  else 37

def isHexstr : List UInt8 → Bool
  | c :: d :: _ => c == 0x30 && (d == 0x78 || d == 0x58)
  | _ => false

/-- The loop of `strtopaddr`; the NUL is no digit in any base up to 37. -/
def convertDigits (base : Nat) : List UInt8 → Nat → Nat × List UInt8
  | [], value => (value, [])
  | c :: p, value =>
    if radixValue c ≥ base then (value, c :: p)
      else convertDigits base p (u64 (u64 (value * base) + radixValue c))

/-- The base that `strtopaddr` converts in. -/
def selectBase (nptr : List UInt8) (base : Nat) : Nat :=
  if base = 0 then if isHexstr nptr then 16 else if nptr.head? = some 0x30 then 8 else 10 else base

def skipHexstr (nptr : List UInt8) (base : Nat) : List UInt8 :=
  if base = 16 ∧ isHexstr nptr then nptr.drop 2 else nptr

def strtopaddr (nptr : List UInt8) (base : Nat) : Nat × List UInt8 :=
  let base := selectBase nptr base
  let startp := skipHexstr nptr base
  let (value, p) := convertDigits base startp 0
  (value, if p = startp then nptr else p)

def strtoul (nptr : List UInt8) (base : Nat) : Nat × List UInt8 := strtopaddr nptr base

/-! ### Numerals -/

structure IsDigit (base : Nat) (c : UInt8) (d : Nat) : Prop where
  lt : d < base
  char : (d < 10 ∧ c.toNat = 0x30 + d) ∨
    (10 ≤ d ∧ d < 16 ∧ (c.toNat = 0x61 + (d - 10) ∨ c.toNat = 0x41 + (d - 10)))

/-- The number that a row of digits denotes, the highest first. -/
def placeValue (base : Nat) (ds : List Nat) : Nat := Nat.ofDigits base ds.reverse

/-- The texts of a number, as base 0 takes them. -/
inductive Denotes : List UInt8 → Nat → Prop
  | hex {x : UInt8} {text : List UInt8} {ds : List Nat} : x = 0x78 ∨ x = 0x58 → text ≠ [] →
      List.Forall₂ (IsDigit 16) text ds → Denotes (0x30 :: x :: text) (placeValue 16 ds)
  | octal {text : List UInt8} {ds : List Nat} : List.Forall₂ (IsDigit 8) text ds →
      Denotes (0x30 :: text) (placeValue 8 ds)
  | decimal {c : UInt8} {text : List UInt8} {ds : List Nat} : c ≠ 0x30 →
      List.Forall₂ (IsDigit 10) (c :: text) ds → Denotes (c :: text) (placeValue 10 ds)

def Ends (base : Nat) (rest : List UInt8) : Prop := ∀ c ∈ rest.head?, base ≤ radixValue c

section
variable {base d : Nat} {c : UInt8} {text rest : List UInt8} {ds : List Nat}

theorem IsDigit.radixValue (h : IsDigit base c d) : radixValue c = d := by
  have hc := h.char
  unfold QnxStartup.radixValue
  by_cases h1 : 0x30 ≤ c.toNat ∧ c.toNat ≤ 0x39
  · rw [if_pos h1]
    omega
  rw [if_neg h1]
  by_cases h2 : 0x61 ≤ c.toNat ∧ c.toNat ≤ 0x66
  · rw [if_pos h2]
    omega
  rw [if_neg h2]
  by_cases h3 : 0x41 ≤ c.toNat ∧ c.toNat ≤ 0x46
  · rw [if_pos h3]
    omega
  omega

theorem placeValue_cons (d : Nat) (ds : List Nat) :
    placeValue base (d :: ds) = base ^ ds.length * d + placeValue base ds := by
  rw [placeValue, placeValue, List.reverse_cons, Nat.ofDigits_append, Nat.ofDigits_singleton,
    List.length_reverse, Nat.add_comm]

theorem convertDigits_of_ends (h : Ends base rest) (value : Nat) :
    convertDigits base rest value = (value, rest) := by
  cases rest with
  | nil => rfl
  | cons c rest =>
    rw [convertDigits]
    exact if_pos (h c rfl)

theorem convertDigits_digits (hds : List.Forall₂ (IsDigit base) text ds) (hend : Ends base rest)
    (value : Nat) :
    convertDigits base (text ++ rest) (u64 value) =
      (u64 (base ^ ds.length * value + placeValue base ds), rest) := by
  induction hds generalizing value with
  | nil =>
    rw [List.nil_append, convertDigits_of_ends hend]
    simp [placeValue]
  | @cons c d text ds hd hds ih =>
    have hlt : ¬ radixValue c ≥ base := not_le.mpr (hd.radixValue ▸ hd.lt)
    have hstep : u64 (u64 (u64 value * base) + d) = u64 (value * base + d) := by
      rw [u64, u64, u64, u64, Nat.mod_add_mod, Nat.add_mod, Nat.mod_mul_mod, ← Nat.add_mod]
    rw [List.cons_append, convertDigits, if_neg hlt, hd.radixValue, hstep, ih, placeValue_cons,
      List.length_cons, pow_succ]
    congr 2
    ring

/-- Nothing that could be taken for a part of the numeral follows: no digit, and no `x`. -/
structure Terminated (rest : List UInt8) : Prop where
  no_digit : ∀ c ∈ rest.head?, radixValue c = 37
  no_x : ∀ c ∈ rest.head?, c ≠ 0x78 ∧ c ≠ 0x58

theorem Terminated.nil : Terminated [] := ⟨nofun, nofun⟩

theorem Terminated.cons (hd : radixValue c = 37) (hx : c ≠ 0x78 ∧ c ≠ 0x58) :
    Terminated (c :: rest) := by
  constructor
  · rintro _ ⟨⟩
    exact hd
  · rintro _ ⟨⟩
    exact hx

theorem Terminated.ends (h : Terminated rest) (hbase : base ≤ 37) : Ends base rest :=
  fun c hc => (h.no_digit c hc).symm ▸ hbase

theorem strtopaddr_eq {nptr startp p : List UInt8} {base' value : Nat}
    (hbase : selectBase nptr base = base') (hstart : skipHexstr nptr base' = startp)
    (hconv : convertDigits base' startp 0 = (value, p)) (hne : p ≠ startp) :
    strtopaddr nptr base = (value, p) := by
  subst hbase
  subst hstart
  rw [strtopaddr]
  dsimp only
  rw [hconv]
  exact congrArg (Prod.mk value) (if_neg hne)

theorem ne_append (h : text ≠ []) : rest ≠ text ++ rest :=
  fun heq => h (List.self_eq_append_left.mp heq)

theorem convertDigits_zero (hds : List.Forall₂ (IsDigit base) text ds) (hend : Ends base rest)
    (hv : placeValue base ds < 2 ^ 64) :
    convertDigits base (text ++ rest) 0 = (placeValue base ds, rest) := by
  have h := convertDigits_digits hds hend 0
  rwa [Nat.mul_zero, Nat.zero_add, u64_of_lt hv] at h

theorem isHexstr_octal (hds : List.Forall₂ (IsDigit 8) text ds) (hrest : Terminated rest) :
    isHexstr (0x30 :: (text ++ rest)) = false := by
  have hx : ∀ c ∈ (text ++ rest).head?, c ≠ 0x78 ∧ c ≠ 0x58 := by
    cases hds with
    | nil => exact hrest.no_x
    | cons hd _ =>
      rintro c ⟨⟩
      have h := hd.radixValue
      have hlt := hd.lt
      constructor <;> rintro rfl <;> change 37 = _ at h <;> omega
  cases hl : text ++ rest with
  | nil => rfl
  | cons c l =>
    rw [hl] at hx
    simpa [isHexstr] using hx c rfl

theorem strtoul_numeral {v : Nat} (h : Denotes text v) (hv : v < 2 ^ 64) (hrest : Terminated rest) :
    strtoul (text ++ rest) 0 = (v, rest) := by
  cases h with
  | @hex x text ds hx hne hds =>
    have hhex : isHexstr (0x30 :: x :: text ++ rest) = true := by
      rcases hx with rfl | rfl <;> rfl
    have hconv := convertDigits_zero hds (hrest.ends (by decide)) hv
    refine strtopaddr_eq ?_ ?_ hconv (ne_append hne)
    · rw [selectBase, if_pos rfl, if_pos hhex]
    · exact if_pos ⟨rfl, hhex⟩
  | @octal text ds hds =>
    have hzero : List.Forall₂ (IsDigit 8) (0x30 :: text) (0 :: ds) :=
      .cons ⟨by decide, .inl ⟨by decide, rfl⟩⟩ hds
    have hvalue : placeValue 8 (0 :: ds) = placeValue 8 ds := by
      rw [placeValue_cons, Nat.mul_zero, Nat.zero_add]
    have hhex : isHexstr (0x30 :: text ++ rest) = false := isHexstr_octal hds hrest
    have hconv := convertDigits_zero hzero (hrest.ends (by decide)) (hvalue ▸ hv)
    rw [hvalue] at hconv
    refine strtopaddr_eq ?_ (if_neg fun h => absurd h.1 (by decide)) hconv (ne_append (by simp))
    rw [selectBase, if_pos rfl, hhex]
    rfl
  | @decimal c text ds hc hds =>
    have hhex : isHexstr (c :: text ++ rest) = false := by
      cases hl : text ++ rest with
      | nil => rw [List.cons_append, hl]; rfl
      | cons d l => rw [List.cons_append, hl]; simp [isHexstr, hc]
    refine strtopaddr_eq ?_ (if_neg fun h => absurd h.1 (by decide))
      (convertDigits_zero hds (hrest.ends (by decide)) hv) (ne_append (by simp))
    rw [selectBase, if_pos rfl, hhex, if_neg Bool.false_ne_true]
    exact if_neg (by simpa using hc)

end

end QnxStartup
