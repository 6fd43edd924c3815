import Mathlib.Data.List.Forall2
import QnxStartup.Bytes
import QnxStartup.Strtoul

/-! `ultoa_end.c`, and the conversion of a number to digits that `kprintf.c` has as well: the texts
are numerals that `strtopaddr` reads. -/

namespace QnxStartup

/-- `"0123456789abcdef"`. -/
def digitTable : List UInt8 :=
  [0x30, 0x31, 0x32, 0x33, 0x34, 0x35, 0x36, 0x37, 0x38, 0x39, 0x61, 0x62, 0x63, 0x64, 0x65, 0x66]

/-- `do { *--vs = c[num % radix]; num /= radix; } while(num)`, with `room` bytes of the buffer in
front of `vs`. -/
def convertNumber (radix : Nat) : Nat → Nat → List UInt8 → Startup (List UInt8)
  | 0, _, _ => .error .fault
  | room + 1, num, vs =>
    let vs := digitTable.getD (num % radix) 0 :: vs
    if num / radix = 0 then .ok vs else convertNumber radix room (num / radix) vs

/-- `while( (*d = *p) )`: the memory, and the `d` it ends with. -/
def copyString : List UInt8 → Nat → Mem → Mem × Nat
  | [], d, m => (Function.update m d 0, d)
  | c :: p, d, m =>
    if c = 0 then (Function.update m d 0, d) else copyString p (d + 1) (Function.update m d c)

/-- The buffer has 33 bytes, the last of them for the NUL. -/
def ultoaEnd (v d radix : Nat) (m : Mem) : Startup (Mem × Nat) :=
  (convertNumber radix 32 v []).bind fun p => .ok (copyString p d m)

structure DigitsOf (radix : Nat) (text : List UInt8) (v : Nat) : Prop where
  digits : ∃ ds, List.Forall₂ (IsDigit radix) text ds ∧ placeValue radix ds = v
  nonempty : text ≠ []

section
variable {radix room num v : Nat} {text vs : List UInt8} {ds : List Nat}

theorem isDigit_digitTable (hr : radix ≤ 16) {d : Nat} (hd : d < radix) :
    IsDigit radix (digitTable.getD d 0) d := by
  have hchar : ∀ d < 16, (d < 10 ∧ (digitTable.getD d 0).toNat = 0x30 + d) ∨
      (10 ≤ d ∧ d < 16 ∧ ((digitTable.getD d 0).toNat = 0x61 + (d - 10) ∨
        (digitTable.getD d 0).toNat = 0x41 + (d - 10))) := by
    decide
  exact ⟨hd, hchar d (by omega)⟩

theorem placeValue_append_digit (ds : List Nat) (d : Nat) :
    placeValue radix (ds ++ [d]) = d + radix * placeValue radix ds := by
  rw [placeValue, placeValue, List.reverse_append, List.reverse_singleton, List.singleton_append,
    Nat.ofDigits_cons]

theorem DigitsOf.append_digit (h : DigitsOf radix text v) {c : UInt8} {d : Nat}
    (hd : IsDigit radix c d) :
    DigitsOf radix (text ++ [c]) (d + radix * v) := by
  obtain ⟨⟨ds, hds, rfl⟩, -⟩ := h
  refine ⟨⟨ds ++ [d], List.rel_append hds (.cons hd .nil), placeValue_append_digit ds d⟩, by simp⟩

theorem DigitsOf.single {c : UInt8} {d : Nat} (hd : IsDigit radix c d) : DigitsOf radix [c] d :=
  ⟨⟨[d], .cons hd .nil, by simp [placeValue]⟩, by simp⟩

theorem DigitsOf.pad (h : DigitsOf radix text v) (hr : 0 < radix) (n : Nat) :
    DigitsOf radix (List.replicate n 0x30 ++ text) v := by
  induction n with
  | zero => exact h
  | succ n ih =>
    obtain ⟨⟨ds, hds, hv⟩, -⟩ := ih
    refine ⟨⟨0 :: ds, .cons ⟨hr, .inl ⟨by decide, rfl⟩⟩ hds, ?_⟩, by simp [List.replicate_succ]⟩
    rw [placeValue_cons, Nat.mul_zero, Nat.zero_add, hv]

theorem isHexstr_digits (hr : radix ≤ 37) (h : List.Forall₂ (IsDigit radix) text ds) :
    isHexstr text = false := by
  cases h with
  | nil => rfl
  | cons _ h =>
    cases h with
    | nil => rfl
    | @cons c d _ _ hd _ =>
      have hlt := hd.radixValue ▸ hd.lt
      have hne : ∀ x : UInt8, radixValue x = 37 → c ≠ x := fun x hx hc => by
        subst hc
        omega
      simp [isHexstr, hne 0x78 rfl, hne 0x58 rfl]

theorem DigitsOf.strtopaddr (h : DigitsOf radix text v) (h2 : 2 ≤ radix) (h16 : radix ≤ 16)
    (hv : v < 2 ^ 64) :
    strtopaddr text radix = (v, []) := by
  obtain ⟨⟨ds, hds, rfl⟩, hne⟩ := h
  have hconv : convertDigits radix (text ++ []) 0 = (placeValue radix ds, []) :=
    convertDigits_zero hds nofun hv
  rw [List.append_nil] at hconv
  refine strtopaddr_eq ?_ ?_ hconv hne.symm
  · exact if_neg (by omega)
  · exact if_neg fun hc => absurd hc.2 (by simp [isHexstr_digits (by omega) hds])

theorem DigitsOf.not_mem (h : DigitsOf radix text v) (hr : radix ≤ 37) {c : UInt8}
    (hc : radixValue c = 37) : c ∉ text := by
  obtain ⟨⟨ds, hds, -⟩, -⟩ := h
  intro hmem
  induction hds with
  | nil => simp at hmem
  | cons hd _ ih =>
    rcases List.mem_cons.mp hmem with rfl | hmem
    · have hlt := hd.radixValue ▸ hd.lt
      omega
    · exact ih hmem

theorem DigitsOf.no_nul (h : DigitsOf radix text v) (hr : radix ≤ 37) : 0 ∉ text := h.not_mem hr rfl

theorem convertNumber_ok (h2 : 2 ≤ radix) (h16 : radix ≤ 16) (hnum : num < radix ^ room)
    (hroom : 0 < room) (vs : List UInt8) :
    ∃ text, convertNumber radix room num vs = .ok (text ++ vs) ∧ DigitsOf radix text num ∧
      text.length ≤ room := by
  induction room generalizing num vs with
  | zero => omega
  | succ room ih =>
    have hdigit := isDigit_digitTable h16 (Nat.mod_lt num (by omega : 0 < radix))
    rw [convertNumber]
    by_cases hlast : num / radix = 0
    · have hsingle := DigitsOf.single hdigit
      have hlt := (Nat.div_eq_zero_iff_lt (by omega)).mp hlast
      rw [Nat.mod_eq_of_lt hlt] at hsingle ⊢
      exact ⟨_, if_pos hlast, hsingle, by simp⟩
    · have hrest : num / radix < radix ^ room := by
        rw [Nat.div_lt_iff_lt_mul (by omega), ← Nat.pow_succ]
        exact hnum
      have hroom : 0 < room := by
        by_contra h0
        rw [Nat.eq_zero_of_not_pos h0, Nat.pow_zero] at hrest
        exact hlast (Nat.lt_one_iff.mp hrest)
      obtain ⟨text, hrun, htext, hlen⟩ := ih hrest hroom (digitTable.getD (num % radix) 0 :: vs)
      refine ⟨text ++ [digitTable.getD (num % radix) 0], ?_, ?_, by simpa using hlen⟩
      · rw [if_neg hlast, hrun, List.append_assoc, List.singleton_append]
      · have happend := htext.append_digit hdigit
        rwa [Nat.mod_add_div] at happend

theorem convertNumber_fault (h2 : 2 ≤ radix) (hnum : radix ^ room ≤ num) (vs : List UInt8) :
    convertNumber radix room num vs = .error .fault := by
  induction room generalizing num vs with
  | zero => rfl
  | succ room ih =>
    have hrest : radix ^ room ≤ num / radix := by
      rw [Nat.le_div_iff_mul_le (by omega), ← Nat.pow_succ]
      exact hnum
    have hpos : 0 < radix ^ room := Nat.pow_pos (by omega)
    rw [convertNumber, if_neg (hpos.trans_le hrest).ne', ih hrest]

theorem copyString_eq {p : List UInt8} (hp : 0 ∉ p) (d : Nat) (m : Mem) :
    copyString p d m = (writeBytes m d (p ++ [0]), d + p.length) := by
  induction p generalizing d m with
  | nil => rw [copyString, List.nil_append, writeBytes_singleton, List.length_nil, Nat.add_zero]
  | cons c p ih =>
    rw [List.mem_cons, not_or] at hp
    rw [copyString, if_neg (Ne.symm hp.1), ih hp.2, List.cons_append, writeBytes_cons,
      List.length_cons, Nat.add_right_comm, Nat.add_assoc]

/-- `ultoa_end` stays in its buffer if and only if the value has at most 32 digits. -/
theorem ultoa_end_iff {radix v : Nat} (h2 : 2 ≤ radix) (h16 : radix ≤ 16) (hv : v < 2 ^ 64)
    (d : Nat) (m : Mem) :
    (∃ m' s, ultoaEnd v d radix m = .ok (m', d + s.length) ∧ cstr m' d = some s ∧
      strtopaddr s radix = (v, []) ∧
      ∀ x ∉ bytes d (s.length + 1), m' x = m x) ↔ v < radix ^ 32 := by
  constructor
  · rintro ⟨m', s, hrun, -⟩
    by_contra hc
    rw [ultoaEnd, convertNumber_fault h2 (not_lt.mp hc)] at hrun
    cases hrun
  · intro hlt
    obtain ⟨s, hrun, hs, hlen⟩ := convertNumber_ok h2 h16 hlt (by decide) []
    rw [List.append_nil] at hrun
    have hnul := hs.no_nul (by omega)
    refine ⟨writeBytes m d (s ++ [0]), s, ?_, ?_, hs.strtopaddr h2 h16 hv,
      fun x hx => writeBytes_of_not_mem ?_⟩
    · rw [ultoaEnd, hrun, ok_bind, copyString_eq hnul]
    · exact cstr_eq (holds_writeBytes m d _) hnul (by omega)
    · rwa [List.length_append]

theorem ultoa_end_iff_example :
    ∃ m' s, ultoaEnd 0xdeadbeef00 0x1000 16 (fun _ => 0) = .ok (m', 0x1000 + s.length) ∧
      cstr m' 0x1000 = some s ∧
      strtopaddr s 16 = (0xdeadbeef00, []) ∧ ∀ x ∉ bytes 0x1000 (s.length + 1), m' x = 0 :=
  (ultoa_end_iff (by decide) (by decide) (by decide) _ _).mpr (by decide)

/-- `2 ^ 32` has 33 binary digits. -/
theorem ultoa_end_overruns : ultoaEnd (2 ^ 32) 0x1000 2 (fun _ => 0) = .error .fault := by
  rw [ultoaEnd, convertNumber_fault le_rfl le_rfl]
  rfl

end

end QnxStartup
