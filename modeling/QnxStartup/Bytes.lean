import Mathlib.Data.List.TakeWhile
import Mathlib.Logic.Function.Basic
import QnxStartup.Machine

/-! Byte strings in memory, C strings, and tables of records that lie one behind
another. -/

namespace QnxStartup

/-- The bytes `l` lie at `a`. -/
def Holds (m : Mem) : Nat → List UInt8 → Prop
  | _, [] => True
  | a, b :: l => m a = b ∧ Holds m (a + 1) l

instance decidableHolds (m : Mem) : (a : Nat) → (l : List UInt8) → Decidable (Holds m a l)
  | _, [] => .isTrue trivial
  | a, _ :: l => @instDecidableAnd _ _ _ (decidableHolds m (a + 1) l)

theorem holds_append {m : Mem} {a : Nat} {l l' : List UInt8} :
    Holds m a (l ++ l') ↔ Holds m a l ∧ Holds m (a + l.length) l' := by
  induction l generalizing a with
  | nil => simp [Holds]
  | cons b l ih =>
    simp only [List.cons_append, Holds, ih, List.length_cons, and_assoc]
    rw [show a + 1 + l.length = a + (l.length + 1) by omega]

theorem holds_iff {m : Mem} {a : Nat} {l : List UInt8} :
    Holds m a l ↔ ∀ k (hk : k < l.length), m (a + k) = l[k] := by
  induction l generalizing a with
  | nil => simp [Holds]
  | cons b l ih =>
    rw [Holds, ih]
    constructor
    · rintro ⟨h0, h⟩ k hk
      cases k with
      | zero => exact h0
      | succ k =>
        rw [show a + (k + 1) = a + 1 + k by omega]
        exact h k (by simpa using hk)
    · intro h
      refine ⟨h 0 (by simp), fun k hk => ?_⟩
      have hh := h (k + 1) (by simpa using hk)
      rwa [show a + (k + 1) = a + 1 + k by omega] at hh

theorem Holds.congr {m m' : Mem} {a a' : Nat} {l : List UInt8} (h : Holds m a l)
    (heq : ∀ k < l.length, m' (a' + k) = m (a + k)) : Holds m' a' l :=
  holds_iff.mpr fun k hk => (heq k hk).trans (holds_iff.mp h k hk)

theorem holds_replicate {m : Mem} {a n : Nat} {b : UInt8} :
    Holds m a (List.replicate n b) ↔ ∀ k < n, m (a + k) = b := by
  rw [holds_iff]
  constructor
  · intro h k hk
    have hh := h k (by simpa using hk)
    rwa [List.getElem_replicate] at hh
  · intro h k hk
    rw [List.getElem_replicate]
    exact h k (by simpa using hk)

/-- Stores `l` at `a`. -/
def writeBytes (m : Mem) (a : Nat) (l : List UInt8) : Mem :=
  fun x => if a ≤ x ∧ x < a + l.length then l.getD (x - a) 0 else m x

theorem writeBytes_of_not_mem {m : Mem} {a x : Nat} {l : List UInt8}
    (h : ¬ (a ≤ x ∧ x < a + l.length)) :
    writeBytes m a l x = m x := if_neg h

theorem writeBytes_nil (m : Mem) (a : Nat) : writeBytes m a [] = m :=
  funext fun _ => writeBytes_of_not_mem (by simp)

theorem writeBytes_cons (m : Mem) (a : Nat) (b : UInt8) (l : List UInt8) :
    writeBytes m a (b :: l) = writeBytes (Function.update m a b) (a + 1) l := by
  funext x
  simp only [writeBytes, List.length_cons]
  by_cases hx : x = a
  · subst hx
    rw [if_pos (by omega), if_neg (by omega), Nat.sub_self, List.getD_cons_zero,
      Function.update_self]
  · by_cases hin : a + 1 ≤ x ∧ x < a + 1 + l.length
    · rw [if_pos (by omega), if_pos hin, show x - a = x - (a + 1) + 1 by omega, List.getD_cons_succ]
    · rw [if_neg (by omega), if_neg hin, Function.update_of_ne hx]

theorem writeBytes_singleton (m : Mem) (a : Nat) (b : UInt8) :
    writeBytes m a [b] = Function.update m a b := by
  rw [writeBytes_cons, writeBytes_nil]

theorem writeBytes_append (m : Mem) (a : Nat) (l l' : List UInt8) :
    writeBytes m a (l ++ l') = writeBytes (writeBytes m a l) (a + l.length) l' := by
  induction l generalizing m a with
  | nil => rw [List.nil_append, writeBytes_nil, List.length_nil, Nat.add_zero]
  | cons b l ih =>
    rw [List.cons_append, writeBytes_cons, ih, ← writeBytes_cons, List.length_cons,
      Nat.add_assoc, Nat.add_comm 1]

theorem holds_writeBytes (m : Mem) (a : Nat) (l : List UInt8) : Holds (writeBytes m a l) a l := by
  refine holds_iff.mpr fun k hk => ?_
  rw [writeBytes, if_pos (by omega), Nat.add_sub_cancel_left, List.getD_eq_getElem _ _ hk]

theorem Holds.writeBytes_apart {m : Mem} {a b : Nat} {l l' : List UInt8} (h : Holds m a l)
    (hap : a + l.length ≤ b ∨ b + l'.length ≤ a) : Holds (writeBytes m b l') a l :=
  h.congr fun k hk => writeBytes_of_not_mem (by omega)

/-- The C string at `a`, read for at most `n` bytes. -/
def cstrUpTo (m : Mem) : Nat → Nat → Option (List UInt8)
  | 0, _ => none
  | n + 1, a => if m a = 0 then some [] else (cstrUpTo m n (a + 1)).map (m a :: ·)

/-- The C string at `a`: `strlen` is its length, `strcmp` compares it. An address space
without a NUL has none. -/
def cstr (m : Mem) (a : Nat) : Option (List UInt8) := cstrUpTo m (2 ^ 64) a

theorem cstrUpTo_eq {m : Mem} {n a : Nat} {s : List UInt8} (h : Holds m a (s ++ [0])) (hs : 0 ∉ s)
    (hn : s.length < n) : cstrUpTo m n a = some s := by
  induction s generalizing n a with
  | nil =>
    cases n with
    | zero => simp at hn
    | succ n => exact if_pos h.1
  | cons b s ih =>
    obtain ⟨hb, htail⟩ := h
    simp only [List.mem_cons, not_or] at hs
    cases n with
    | zero => simp at hn
    | succ n =>
      rw [cstrUpTo, if_neg (by rw [hb]; exact Ne.symm hs.1), ih htail hs.2 (by simpa using hn), hb]
      rfl

theorem cstr_eq {m : Mem} {a : Nat} {s : List UInt8} (h : Holds m a (s ++ [0])) (hs : 0 ∉ s)
    (hlen : s.length < 2 ^ 64) : cstr m a = some s := cstrUpTo_eq h hs hlen

/-- `strlcpy` into a buffer of `n` bytes. -/
def strlcpy (m : Mem) (dst : Nat) (src : List UInt8) (n : Nat) : Mem :=
  if n = 0 then m else writeBytes m dst (src.take (n - 1) ++ [0])

theorem strlcpy_eq {m : Mem} {dst n : Nat} {src : List UInt8} (h : src.length < n) :
    strlcpy m dst src n = writeBytes m dst (src ++ [0]) := by
  rw [strlcpy, if_neg (by omega), List.take_of_length_le (by omega)]

/-- A 32-bit word, low byte first. -/
def le32 (n : Nat) : List UInt8 :=
  [UInt8.ofNat n, UInt8.ofNat (n / 2 ^ 8), UInt8.ofNat (n / 2 ^ 16), UInt8.ofNat (n / 2 ^ 24)]

def read32 (m : Mem) (a : Nat) : Nat :=
  (m a).toNat + 256 * ((m (a + 1)).toNat + 256 * ((m (a + 2)).toNat + 256 * (m (a + 3)).toNat))

theorem read32_lt (m : Mem) (a : Nat) : read32 m a < 2 ^ 32 := by
  have h0 := (m a).toNat_lt
  have h1 := (m (a + 1)).toNat_lt
  have h2 := (m (a + 2)).toNat_lt
  have h3 := (m (a + 3)).toNat_lt
  unfold read32
  omega

theorem Holds.read32 {m : Mem} {a n : Nat} (h : Holds m a (le32 n)) (hn : n < 2 ^ 32) :
    read32 m a = n := by
  obtain ⟨h0, h1, h2, h3, -⟩ := h
  rw [QnxStartup.read32, h0, h1, h2, h3]
  simp only [UInt8.toNat_ofNat']
  omega

def le16 (n : Nat) : List UInt8 := [UInt8.ofNat n, UInt8.ofNat (n / 2 ^ 8)]

def read16 (m : Mem) (a : Nat) : Nat := (m a).toNat + 256 * (m (a + 1)).toNat

def write16 (m : Mem) (a n : Nat) : Mem := writeBytes m a (le16 n)

theorem write16_of_not_mem {m : Mem} {a n x : Nat} (h : ¬ (a ≤ x ∧ x < a + 2)) :
    write16 m a n x = m x :=
  writeBytes_of_not_mem h

theorem read16_congr {m m' : Mem} {a a' : Nat} (h0 : m a = m' a') (h1 : m (a + 1) = m' (a' + 1)) :
    read16 m a = read16 m' a' := by
  rw [read16, read16, h0, h1]

theorem read16_write16 (m : Mem) (a n : Nat) : read16 (write16 m a n) a = n % 2 ^ 16 := by
  obtain ⟨h0, h1, -⟩ := holds_writeBytes m a (le16 n)
  rw [read16, write16, h0, h1]
  simp only [UInt8.toNat_ofNat']
  omega

theorem read16_write16_apart {m : Mem} {a b n : Nat} (h : b + 2 ≤ a ∨ a + 2 ≤ b) :
    read16 (write16 m a n) b = read16 m b :=
  read16_congr (write16_of_not_mem (by omega)) (write16_of_not_mem (by omega))

theorem read16_of_zero {m : Mem} {a : Nat} (h0 : m a = 0) (h1 : m (a + 1) = 0) :
    read16 m a = 0 := by
  rw [read16, h0, h1]
  rfl

section Table

variable {α κ : Type} [DecidableEq κ] (enc : α → List UInt8) (key : α → κ)

/-- Where the record of `k` begins, or the end of the table when it has none. -/
def recordOffset (l : List α) (k : κ) : Nat := ((l.takeWhile (key · ≠ k)).flatMap enc).length

variable {enc key}

@[simp] theorem recordOffset_nil (k : κ) : recordOffset enc key [] k = 0 := rfl

theorem recordOffset_cons_self (r : α) (l : List α) :
    recordOffset enc key (r :: l) (key r) = 0 := by
  simp [recordOffset]

theorem recordOffset_cons_ne {r : α} {k : κ} (l : List α) (h : key r ≠ k) :
    recordOffset enc key (r :: l) k = (enc r).length + recordOffset enc key l k := by
  simp [recordOffset, h]

theorem recordOffset_append_of_not_mem {l : List α} {k : κ} (l' : List α) (h : k ∉ l.map key) :
    recordOffset enc key (l ++ l') k = (l.flatMap enc).length + recordOffset enc key l' k := by
  induction l with
  | nil => simp
  | cons r l ih =>
    rw [List.map_cons, List.mem_cons, not_or] at h
    rw [List.cons_append, recordOffset_cons_ne _ (Ne.symm h.1), ih h.2, List.flatMap_cons,
      List.length_append, Nat.add_assoc]

theorem recordOffset_of_not_mem {l : List α} {k : κ} (h : k ∉ l.map key) :
    recordOffset enc key l k = (l.flatMap enc).length := by
  simpa using recordOffset_append_of_not_mem [] h

theorem recordOffset_append {l : List α} {k : κ} (l' : List α) (h : k ∈ l.map key) :
    recordOffset enc key (l ++ l') k = recordOffset enc key l k := by
  induction l with
  | nil => simp at h
  | cons r l ih =>
    by_cases hr : key r = k
    · subst hr
      rw [List.cons_append, recordOffset_cons_self, recordOffset_cons_self]
    · have hk : k ∈ l.map key := by simpa [Ne.symm hr] using h
      rw [List.cons_append, recordOffset_cons_ne _ hr, recordOffset_cons_ne _ hr, ih hk]

theorem recordOffset_le (l : List α) (k : κ) :
    recordOffset enc key l k ≤ (l.flatMap enc).length := by
  induction l with
  | nil => simp
  | cons r l ih =>
    rw [List.flatMap_cons, List.length_append]
    by_cases hr : key r = k
    · subst hr
      rw [recordOffset_cons_self]
      exact Nat.zero_le _
    · rw [recordOffset_cons_ne _ hr]
      omega

theorem recordOffset_inj (hpos : ∀ r, enc r ≠ []) {l : List α} {k k' : κ} (hk : k ∈ l.map key)
    (hk' : k' ∈ l.map key) (h : recordOffset enc key l k = recordOffset enc key l k') : k = k' := by
  induction l with
  | nil => simp at hk
  | cons r l ih =>
    have hr := List.length_pos_iff.mpr (hpos r)
    by_cases h1 : key r = k
    · by_cases h2 : key r = k'
      · exact h1.symm.trans h2
      · rw [← h1, recordOffset_cons_self, recordOffset_cons_ne _ h2] at h
        omega
    · by_cases h2 : key r = k'
      · rw [← h2, recordOffset_cons_self, recordOffset_cons_ne _ h1] at h
        omega
      · rw [recordOffset_cons_ne _ h1, recordOffset_cons_ne _ h2] at h
        refine ih ?_ ?_ (by omega)
        · simpa [Ne.symm h1] using hk
        · simpa [Ne.symm h2] using hk'

theorem recordOffset_add_le {l : List α} {r : α} (hr : r ∈ l) (hnd : (l.map key).Nodup) :
    recordOffset enc key l (key r) + (enc r).length ≤ (l.flatMap enc).length := by
  induction l with
  | nil => simp at hr
  | cons r' l ih =>
    rw [List.map_cons, List.nodup_cons] at hnd
    rw [List.flatMap_cons, List.length_append]
    rcases List.mem_cons.mp hr with rfl | hr
    · rw [recordOffset_cons_self]
      omega
    · have hne : key r' ≠ key r := fun he => hnd.1 (he ▸ List.mem_map_of_mem hr)
      rw [recordOffset_cons_ne _ hne]
      have := ih hr hnd.2
      omega

theorem Holds.at_offset {m : Mem} {a : Nat} {l : List α} {r : α} (h : Holds m a (l.flatMap enc))
    (hr : r ∈ l) (hnd : (l.map key).Nodup) :
    Holds m (a + recordOffset enc key l (key r)) (enc r) := by
  induction l generalizing a with
  | nil => simp at hr
  | cons r' l ih =>
    rw [List.flatMap_cons, holds_append] at h
    rw [List.map_cons, List.nodup_cons] at hnd
    rcases List.mem_cons.mp hr with rfl | hr
    · rw [recordOffset_cons_self]
      exact h.1
    · have hne : key r' ≠ key r := fun he => hnd.1 (he ▸ List.mem_map_of_mem hr)
      rw [recordOffset_cons_ne _ hne, ← Nat.add_assoc]
      exact ih h.2 hr hnd.2

end Table

end QnxStartup
