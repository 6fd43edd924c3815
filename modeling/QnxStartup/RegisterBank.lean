import Mathlib.Data.List.Induction
import Mathlib.Data.List.Pairwise
import Mathlib.Data.Nat.Bitwise
import Mathlib.Logic.Function.Basic

/-! Banks of registers that hold the fields of numbered sources, several to a register. A write
stores the fields, or sets or clears the bits in which it has ones. -/

namespace QnxStartup

/-- The `j`-th limb of `w` bits. -/
def limb (w v j : Nat) : Nat := v / 2 ^ (w * j) % 2 ^ w

/-- The number that has given limbs of `w` bits. -/
def pack (w : Nat) (l : List Nat) : Nat := l.foldr (fun x n => x + 2 ^ w * n) 0

inductive WriteMode where
  | store
  | set
  | clear
  deriving DecidableEq

def WriteMode.apply : WriteMode → Nat → Nat → Nat
  | .store, _, v => v
  | .set, old, v => old ||| v
  | .clear, old, v => Nat.ldiff old v

/-- Registers of `size` bytes from the offset `base` on, each of which holds `per` fields of `bits`
bits, the first register from the source `first` on. -/
structure Bank (φ : Type*) where
  field : φ
  base : Nat
  words : Nat
  size : Nat
  per : Nat
  bits : Nat
  first : Nat
  mode : WriteMode
  deriving DecidableEq

namespace Bank

variable {φ : Type*}

/-- A field of all sources after a write to the `n`-th register. -/
def column (b : Bank φ) (n v : Nat) (c : Nat → Nat) (i : Nat) : Nat :=
  if b.first + b.per * n ≤ i ∧ i < b.first + b.per * (n + 1) then
    b.mode.apply (c i) (limb b.bits v (i - (b.first + b.per * n)))
  else c i

def write [DecidableEq φ] (b : Bank φ) (n v : Nat) (r : φ → Nat → Nat) : φ → Nat → Nat :=
  Function.update r b.field (b.column n v (r b.field))

def read (b : Bank φ) (n : Nat) (r : φ → Nat → Nat) : Nat :=
  pack b.bits ((List.range b.per).map fun j => r b.field (b.first + b.per * n + j))

/-- Whether a register of the bank lies at an offset. -/
def hit (b : Bank φ) (off : Nat) : Bool :=
  b.base ≤ off && off < b.base + b.size * b.words && (off - b.base) % b.size = 0

/-- The registers of one bank end before those of the other begin. -/
def Apart (b b' : Bank φ) : Prop :=
  b.base + b.size * b.words ≤ b'.base ∨ b'.base + b'.size * b'.words ≤ b.base

instance (b b' : Bank φ) : Decidable (b.Apart b') := inferInstanceAs (Decidable (_ ∨ _))

end Bank

/-- A write to whatever register lies at an offset. -/
def writeRegister {φ : Type*} [DecidableEq φ] (banks : List (Bank φ)) (off v : Nat)
    (r : φ → Nat → Nat) : φ → Nat → Nat :=
  (banks.find? fun b => b.hit off).elim r fun b => b.write ((off - b.base) / b.size) v r

def readRegister {φ : Type*} (banks : List (Bank φ)) (off : Nat) (r : φ → Nat → Nat) : Nat :=
  (banks.find? fun b => b.hit off).elim 0 fun b => b.read ((off - b.base) / b.size) r

/-! ### Digits -/

section Digits

variable {w j k : Nat}

theorem limb_lt (w v j : Nat) : limb w v j < 2 ^ w := Nat.mod_lt _ (Nat.two_pow_pos w)

theorem testBit_limb (w v j i : Nat) :
    (limb w v j).testBit i = (decide (i < w) && v.testBit (i + w * j)) := by
  rw [limb, Nat.testBit_mod_two_pow, Nat.testBit_div_two_pow]

theorem limb_or (w v v' j : Nat) : limb w (v ||| v') j = limb w v j ||| limb w v' j := by
  refine Nat.eq_of_testBit_eq fun i => ?_
  rw [Nat.testBit_or, testBit_limb, testBit_limb, testBit_limb, Nat.testBit_or,
    Bool.and_or_distrib_left]

theorem limb_ldiff (w v v' j : Nat) :
    limb w (Nat.ldiff v v') j = Nat.ldiff (limb w v j) (limb w v' j) := by
  refine Nat.eq_of_testBit_eq fun i => ?_
  rw [Nat.testBit_ldiff, testBit_limb, testBit_limb, testBit_limb, Nat.testBit_ldiff]
  cases decide (i < w) <;> cases v.testBit (i + w * j) <;> rfl

/-- A number of `w` bits moved to the `k`-th limb. -/
theorem limb_mul_two_pow {x : Nat} (hx : x < 2 ^ w) (k j : Nat) :
    limb w (x * 2 ^ (w * k)) j = if j = k then x else 0 := by
  rcases Nat.lt_trichotomy j k with hlt | rfl | hlt
  · obtain ⟨d, rfl⟩ := Nat.exists_eq_add_of_lt hlt
    rw [if_neg hlt.ne, limb, show w * (j + d + 1) = w + w * d + w * j by
      rw [Nat.mul_succ, Nat.mul_add]; omega, Nat.pow_add,
      ← Nat.mul_assoc, Nat.mul_div_cancel _ (Nat.two_pow_pos _), Nat.pow_add, Nat.mul_left_comm,
      Nat.mul_mod_right]
  · rw [if_pos rfl, limb, Nat.mul_div_cancel _ (Nat.two_pow_pos _), Nat.mod_eq_of_lt hx]
  · rw [if_neg hlt.ne', limb, Nat.div_eq_of_lt, Nat.zero_mod]
    calc x * 2 ^ (w * k) < 2 ^ w * 2 ^ (w * k) := Nat.mul_lt_mul_of_pos_right hx (Nat.two_pow_pos _)
      _ = 2 ^ (w * (k + 1)) := by rw [← Nat.pow_add, Nat.mul_succ, Nat.add_comm]
      _ ≤ 2 ^ (w * j) := Nat.pow_le_pow_right (by decide) (Nat.mul_le_mul_left w hlt)

theorem limb_pack {l : List Nat} (hl : ∀ x ∈ l, x < 2 ^ w) (hj : j < l.length) :
    limb w (pack w l) j = l[j] := by
  induction l generalizing j with
  | nil => exact absurd hj (Nat.not_lt_zero _)
  | cons x l ih =>
    rw [List.forall_mem_cons] at hl
    cases j with
    | zero =>
      rw [limb, Nat.mul_zero, Nat.pow_zero, Nat.div_one]
      exact (Nat.add_mul_mod_self_left ..).trans (Nat.mod_eq_of_lt hl.1)
    | succ j =>
      rw [List.getElem_cons_succ, ← ih hl.2 (Nat.lt_of_succ_lt_succ hj), limb, limb, Nat.mul_succ,
        Nat.add_comm (w * j), Nat.pow_add, ← Nat.div_div_eq_div_mul]
      have hrest : pack w (x :: l) / 2 ^ w = pack w l := by
        change (x + 2 ^ w * pack w l) / 2 ^ w = pack w l
        rw [Nat.add_mul_div_left _ _ (Nat.two_pow_pos w), Nat.div_eq_of_lt hl.1, Nat.zero_add]
      rw [hrest]

theorem pack_lt {l : List Nat} (hl : ∀ x ∈ l, x < 2 ^ w) : pack w l < 2 ^ (w * l.length) := by
  induction l with
  | nil => exact Nat.two_pow_pos _
  | cons x l ih =>
    rw [List.forall_mem_cons] at hl
    have hx := hl.1
    calc pack w (x :: l) = x + 2 ^ w * pack w l := rfl
      _ < 2 ^ w * (pack w l + 1) := by rw [Nat.mul_succ]; omega
      _ ≤ 2 ^ w * 2 ^ (w * l.length) := Nat.mul_le_mul_left _ (ih hl.2)
      _ = 2 ^ (w * (x :: l).length) := by
        rw [← Nat.pow_add, List.length_cons, Nat.mul_succ, Nat.add_comm]

end Digits

/-! ### Banks -/

namespace Bank

variable {φ : Type*} {b : Bank φ} {n v i lo k : Nat} {c : Nat → Nat} {r : φ → Nat → Nat}

theorem column_of_not_mem (h : ¬ (b.first + b.per * n ≤ i ∧ i < b.first + b.per * (n + 1))) :
    b.column n v c i = c i :=
  if_neg h

/-- The source `j` of the `n`-th register. -/
theorem column_at {j : Nat} (b : Bank φ) (n v : Nat) (c : Nat → Nat) (hj : j < b.per) :
    b.column n v c (b.first + b.per * n + j) = b.mode.apply (c (b.first + b.per * n + j))
      (limb b.bits v j) := by
  rw [column, if_pos ⟨Nat.le_add_right .., by rw [Nat.mul_succ]; omega⟩, Nat.add_sub_cancel_left]

section

variable [DecidableEq φ]

@[simp] theorem write_field (b : Bank φ) (n v : Nat) (r : φ → Nat → Nat) :
    b.write n v r b.field = b.column n v (r b.field) := Function.update_self ..

theorem write_of_ne {f : φ} (h : f ≠ b.field) : b.write n v r f = r f := Function.update_of_ne h ..

end

/-- The same value written to one register after the other. -/
theorem foldl_column (b : Bank φ) (v lo k : Nat) (c : Nat → Nat) (i : Nat) :
    (List.range' lo k).foldl (fun c n => b.column n v c) c i =
      if b.first + b.per * lo ≤ i ∧ i < b.first + b.per * (lo + k) then
        b.mode.apply (c i) (limb b.bits v ((i - b.first) % b.per)) else c i := by
  induction k with
  | zero => rw [List.range'_zero, List.foldl_nil, Nat.add_zero, if_neg (by omega)]
  | succ k ih =>
    rw [List.range'_1_concat, List.foldl_append, List.foldl_cons, List.foldl_nil, ← Nat.add_assoc]
    have hsplit : b.per * (lo + k + 1) = b.per * (lo + k) + b.per := Nat.mul_succ ..
    have hle : b.per * lo ≤ b.per * (lo + k) := Nat.mul_le_mul_left _ (Nat.le_add_right ..)
    by_cases hi : b.first + b.per * (lo + k) ≤ i ∧ i < b.first + b.per * (lo + k + 1)
    · rw [column, if_pos hi, ih, if_neg (by omega), if_pos (by omega)]
      congr 2
      rw [show i - b.first = i - (b.first + b.per * (lo + k)) + b.per * (lo + k) by
        omega, Nat.add_mul_mod_self_left, Nat.mod_eq_of_lt (by omega)]
    · rw [column_of_not_mem hi, ih]
      by_cases hin : b.first + b.per * lo ≤ i ∧ i < b.first + b.per * (lo + k)
      · rw [if_pos hin, if_pos (by omega)]
      · rw [if_neg hin, if_neg (by omega)]

theorem read_lt (hr : ∀ i, r b.field i < 2 ^ b.bits) : b.read n r < 2 ^ (b.bits * b.per) := by
  have hlt := pack_lt (l := (List.range b.per).map fun j => r b.field (b.first + b.per * n + j))
    fun x hx => by
    obtain ⟨j, -, rfl⟩ := List.mem_map.mp hx
    exact hr _
  rwa [List.length_map, List.length_range] at hlt

theorem limb_read {j : Nat} (hr : ∀ i, r b.field i < 2 ^ b.bits) (hj : j < b.per) :
    limb b.bits (b.read n r) j = r b.field (b.first + b.per * n + j) := by
  rw [read, limb_pack]
  · rw [List.getElem_map, List.getElem_range]
  · intro x hx
    obtain ⟨j, -, rfl⟩ := List.mem_map.mp hx
    exact hr _
  · rwa [List.length_map, List.length_range]

/-- A register that is read, changed in the bits of one field and written back. -/
theorem column_read {f : Nat → Nat → Nat}
    (hf : ∀ v v' j, limb b.bits (f v v') j = f (limb b.bits v j) (limb b.bits v' j))
    (hzero : ∀ v, f v 0 = v) (hmode : b.mode = .store) (hr : ∀ i, r b.field i < 2 ^ b.bits)
    {x k : Nat} (hx : x < 2 ^ b.bits) (hk : k < b.per) (n : Nat) :
    b.column n (f (b.read n r) (x * 2 ^ (b.bits * k))) (r b.field) =
      Function.update (r b.field) (b.first + b.per * n + k)
        (f (r b.field (b.first + b.per * n + k)) x) := by
  funext i
  by_cases hi : b.first + b.per * n ≤ i ∧ i < b.first + b.per * (n + 1)
  · obtain ⟨j, rfl⟩ := Nat.exists_eq_add_of_le hi.1
    have hj : j < b.per := by
      have := hi.2
      rw [Nat.mul_succ] at this
      omega
    rw [column_at b n _ _ hj, hmode, WriteMode.apply, hf, limb_read hr hj, limb_mul_two_pow hx]
    by_cases hjk : j = k
    · rw [if_pos hjk, hjk, Function.update_self]
    · rw [if_neg hjk, hzero, Function.update_of_ne (by omega)]
  · rw [column_of_not_mem hi, Function.update_of_ne]
    rintro rfl
    exact hi ⟨Nat.le_add_right .., by rw [Nat.mul_succ]; omega⟩

end Bank

theorem WriteMode.apply_store (old v : Nat) : WriteMode.store.apply old v = v := by
  simp only [apply]

theorem WriteMode.apply_zero {m : WriteMode} (h : m ≠ .store) (old : Nat) :
    m.apply old 0 = old := by
  cases m with
  | store => exact absurd rfl h
  | set => exact Nat.or_zero old
  | clear =>
    refine Nat.eq_of_testBit_eq fun i => ?_
    rw [apply, Nat.testBit_ldiff, Nat.zero_testBit, Bool.not_false, Bool.and_true]

theorem WriteMode.apply_lt {m : WriteMode} {w old v : Nat} (hold : old < 2 ^ w) (hv : v < 2 ^ w) :
    m.apply old v < 2 ^ w := by
  cases m with
  | store => exact hv
  | set => exact Nat.or_lt_two_pow hold hv
  | clear =>
    refine Nat.lt_pow_two_of_testBit _ fun i hi => ?_
    rw [apply, Nat.testBit_ldiff,
      Nat.testBit_lt_two_pow (hold.trans_le (Nat.pow_le_pow_right (by decide) hi)), Bool.false_and]

namespace Bank

variable {φ : Type*} {b : Bank φ}

/-- A one in the bit of one source. -/
theorem column_bit {k : Nat} (hbits : b.bits = 1) (hmode : b.mode ≠ .store) (hk : k < b.per)
    (n : Nat) (c : Nat → Nat) :
    b.column n (2 ^ k) c =
      Function.update c (b.first + b.per * n + k)
        (b.mode.apply (c (b.first + b.per * n + k)) 1) := by
  funext i
  by_cases hi : b.first + b.per * n ≤ i ∧ i < b.first + b.per * (n + 1)
  · obtain ⟨j, rfl⟩ := Nat.exists_eq_add_of_le hi.1
    have hj : j < b.per := by
      have := hi.2
      rw [Nat.mul_succ] at this
      omega
    have hlimb := limb_mul_two_pow (w := 1) (x := 1) (by decide) k j
    rw [Nat.one_mul, Nat.one_mul] at hlimb
    rw [column_at b n _ _ hj, hbits, hlimb]
    by_cases hjk : j = k
    · rw [if_pos hjk, hjk, Function.update_self]
    · rw [if_neg hjk, WriteMode.apply_zero hmode, Function.update_of_ne (by omega)]
  · rw [column_of_not_mem hi, Function.update_of_ne]
    rintro rfl
    exact hi ⟨Nat.le_add_right .., by rw [Nat.mul_succ]; omega⟩

theorem column_lt {n v : Nat} {c : Nat → Nat} (hc : ∀ i, c i < 2 ^ b.bits) (i : Nat) :
    b.column n v c i < 2 ^ b.bits := by
  rw [column]
  split
  · exact WriteMode.apply_lt (hc i) (limb_lt ..)
  · exact hc i

theorem write_lt [DecidableEq φ] {width : φ → Nat} {n v : Nat} {r : φ → Nat → Nat}
    (hb : b.bits = width b.field) (hr : ∀ f i, r f i < 2 ^ width f) (f : φ) (i : Nat) :
    b.write n v r f i < 2 ^ width f := by
  by_cases hf : f = b.field
  · rw [hf, write_field, ← hb]
    exact column_lt (fun i => hb ▸ hr b.field i) i
  · rw [write_of_ne hf]
    exact hr f i

end Bank

theorem writeRegister_lt {φ : Type*} [DecidableEq φ] {banks : List (Bank φ)} {width : φ → Nat}
    {r : φ → Nat → Nat} (hbanks : ∀ b ∈ banks, b.bits = width b.field)
    (hr : ∀ f i, r f i < 2 ^ width f) (off v : Nat) (f : φ) (i : Nat) :
    writeRegister banks off v r f i < 2 ^ width f := by
  rw [writeRegister]
  cases hfind : banks.find? fun b => b.hit off with
  | none => exact hr f i
  | some b => exact Bank.write_lt (hbanks b (List.mem_of_find?_eq_some hfind)) hr f i

section Find

variable {φ : Type*} {banks : List (Bank φ)} {b : Bank φ} {n : Nat}

theorem Bank.hit_self (hsize : 0 < b.size) (hn : n < b.words) :
    b.hit (b.base + b.size * n) = true := by
  have hlt := Nat.mul_lt_mul_of_pos_left hn hsize
  simp only [hit, Nat.add_sub_cancel_left, Nat.mul_mod_right, Bool.and_eq_true, decide_eq_true_eq]
  exact ⟨⟨Nat.le_add_right .., Nat.add_lt_add_left hlt _⟩, trivial⟩

theorem Bank.Apart.not_hit {b' : Bank φ} (h : b'.Apart b) (hsize : 0 < b.size) (hn : n < b.words) :
    b'.hit (b.base + b.size * n) = false := by
  have hlt := Nat.mul_lt_mul_of_pos_left hn hsize
  rw [Bank.Apart] at h
  rw [← Bool.not_eq_true]
  simp only [Bank.hit, Bool.and_eq_true, decide_eq_true_eq]
  omega

theorem find?_hit (hapart : banks.Pairwise Bank.Apart) (hb : b ∈ banks) (hsize : 0 < b.size)
    (hn : n < b.words) :
    banks.find? (fun b' => b'.hit (b.base + b.size * n)) = some b := by
  induction banks with
  | nil => exact nomatch hb
  | cons a l ih =>
    rw [List.pairwise_cons] at hapart
    rcases List.mem_cons.mp hb with rfl | hb
    · exact List.find?_cons_of_pos (Bank.hit_self hsize hn)
    · rw [List.find?_cons_of_neg
        (by rw [(hapart.1 b hb).not_hit hsize hn]; exact Bool.false_ne_true)]
      exact ih hapart.2 hb

theorem writeRegister_hit [DecidableEq φ] (hapart : banks.Pairwise Bank.Apart) (hb : b ∈ banks)
    (hsize : 0 < b.size) (hn : n < b.words) (v : Nat) (r : φ → Nat → Nat) :
    writeRegister banks (b.base + b.size * n) v r = b.write n v r := by
  rw [writeRegister, find?_hit hapart hb hsize hn, Option.elim_some, Nat.add_sub_cancel_left,
    Nat.mul_div_cancel_left _ hsize]

theorem readRegister_hit (hapart : banks.Pairwise Bank.Apart) (hb : b ∈ banks) (hsize : 0 < b.size)
    (hn : n < b.words) (r : φ → Nat → Nat) :
    readRegister banks (b.base + b.size * n) r = b.read n r := by
  rw [readRegister, find?_hit hapart hb hsize hn, Option.elim_some, Nat.add_sub_cancel_left,
    Nat.mul_div_cancel_left _ hsize]

end Find

/-! ### Steps that change one cell each -/

/-- What a cell holds after the steps is what the last step for it has put there. -/
theorem foldl_update_last {σ α κ β : Type*} [DecidableEq κ] {f : σ → α → σ} {g : σ → κ → β}
    {c : α → κ} {v : α → β} {l : List α}
    (h : ∀ a ∈ l, ∀ s, g (f s a) = Function.update (g s) (c a) (v a)) (s : σ) (k : κ) :
    g (l.foldl f s) k = (l.reverse.find? fun a => c a = k).elim (g s k) v := by
  induction l using List.reverseRecOn with
  | nil => rfl
  | append_singleton l a ih =>
    have ih := ih fun a' ha' => h a' (List.mem_append_left _ ha')
    rw [List.foldl_append, List.foldl_cons, List.foldl_nil,
      h a (List.mem_append_right _ (List.mem_singleton_self a)),
      List.reverse_append, List.reverse_singleton, List.singleton_append, List.find?_cons]
    by_cases hk : c a = k
    · rw [decide_eq_true hk, ← hk, Function.update_self, Option.elim_some]
    · rw [decide_eq_false hk, Function.update_of_ne (Ne.symm hk), ih]

end QnxStartup
