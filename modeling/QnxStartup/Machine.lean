import Mathlib.Data.Nat.Bitwise
import Mathlib.Data.Set.Lattice
import Mathlib.Order.CompletePartialOrder
import Mathlib.Order.Interval.Set.Basic

/-! Fixed-width arithmetic, the macros of `startup.h`, byte-addressed memory, and
the ways a startup routine can stop short of returning. -/

namespace QnxStartup

def u32 (n : Nat) : Nat := n % 2 ^ 32

def u64 (n : Nat) : Nat := n % 2 ^ 64

theorem u32_of_lt {n : Nat} (h : n < 2 ^ 32) : u32 n = n := Nat.mod_eq_of_lt h

theorem u64_of_lt {n : Nat} (h : n < 2 ^ 64) : u64 n = n := Nat.mod_eq_of_lt h

theorem u32_lt (n : Nat) : u32 n < 2 ^ 32 := Nat.mod_lt _ (by decide)

theorem u64_lt (n : Nat) : u64 n < 2 ^ 64 := Nat.mod_lt _ (by decide)

theorem u64_add_left (x y : Nat) : u64 (u64 x + y) = u64 (x + y) := Nat.mod_add_mod x _ y

theorem u64_add_right (x y : Nat) : u64 (x + u64 y) = u64 (x + y) := Nat.add_mod_mod x y _

theorem u64_mul_left (x y : Nat) : u64 (u64 x * y) = u64 (x * y) := Nat.mod_mul_mod x y _

def int32 (n : Nat) : Int := if n < 2 ^ 31 then n else (n : Int) - 2 ^ 32

/-- A signed operand converted to an unsigned type. -/
def uint32 (i : Int) : Nat := (i % 2 ^ 32).toNat

def uint64 (i : Int) : Nat := (i % 2 ^ 64).toNat

theorem int32_of_lt {n : Nat} (h : n < 2 ^ 31) : int32 n = n := if_pos h

theorem uint64_natCast {n : Nat} (h : n < 2 ^ 64) : uint64 (n : Int) = n := by
  unfold uint64
  omega

def sub32 (a b : Nat) : Nat := u32 (a + (2 ^ 32 - u32 b))

def sub64 (a b : Nat) : Nat := u64 (a + (2 ^ 64 - u64 b))

theorem sub32_of_le {a b : Nat} (ha : a < 2 ^ 32) (h : b ≤ a) : sub32 a b = a - b := by
  unfold sub32
  rw [u32_of_lt (by omega : b < 2 ^ 32)]
  unfold u32
  omega

theorem sub64_of_le {a b : Nat} (ha : a < 2 ^ 64) (h : b ≤ a) : sub64 a b = a - b := by
  unfold sub64
  rw [u64_of_lt (by omega : b < 2 ^ 64)]
  unfold u64
  omega

def compl32 (n : Nat) : Nat := 2 ^ 32 - 1 - u32 n

def compl64 (n : Nat) : Nat := 2 ^ 64 - 1 - u64 n

def nullPaddr : Nat := 2 ^ 64 - 1

def processorsMax : Nat := 64

def trunc (x a : Nat) : Nat := u64 x &&& compl64 (sub64 a 1)

def round (x a : Nat) : Nat := trunc (u64 (x + sub64 a 1)) a

theorem and_compl64_two_pow {k : Nat} (hk : k ≤ 64) (x : Nat) :
    u64 x &&& (2 ^ 64 - 2 ^ k) = u64 x / 2 ^ k * 2 ^ k := by
  have hm : 2 ^ 64 - 2 ^ k = (2 ^ (64 - k) - 1) * 2 ^ k := by
    rw [Nat.sub_mul, one_mul, ← pow_add, Nat.sub_add_cancel hk]
  apply Nat.eq_of_testBit_eq
  intro i
  rw [Nat.testBit_and, hm, Nat.testBit_mul_two_pow, Nat.testBit_mul_two_pow,
    Nat.testBit_two_pow_sub_one]
  by_cases hi : k ≤ i
  · have hd : (u64 x / 2 ^ k).testBit (i - k) = (u64 x).testBit i := by
      rw [Nat.testBit_div_two_pow, Nat.sub_add_cancel hi]
    by_cases h64 : i < 64
    · simp [hi, hd, show i - k < 64 - k by omega]
    · have hx : (u64 x).testBit i = false :=
        Nat.testBit_lt_two_pow ((u64_lt x).trans_le
          (Nat.pow_le_pow_right (by decide) (not_lt.mp h64)))
      simp [hi, hd, hx]
  · simp [hi]

theorem trunc_two_pow {k : Nat} (hk : k ≤ 63) {x : Nat} (hx : x < 2 ^ 64) :
    trunc x (2 ^ k) = x / 2 ^ k * 2 ^ k := by
  have hlt : 2 ^ k < 2 ^ 64 := Nat.pow_lt_pow_right (by decide) (by omega)
  have hpos : 0 < 2 ^ k := Nat.two_pow_pos k
  have hc : compl64 (sub64 (2 ^ k) 1) = 2 ^ 64 - 2 ^ k := by
    rw [sub64_of_le hlt hpos, compl64, u64_of_lt (by omega)]
    omega
  rw [trunc, hc, and_compl64_two_pow (by omega), u64_of_lt hx]

theorem round_two_pow {k : Nat} (hk : k ≤ 63) {x : Nat} (hx : x + 2 ^ k ≤ 2 ^ 64) :
    x ≤ round x (2 ^ k) ∧ 2 ^ k ∣ round x (2 ^ k) ∧ round x (2 ^ k) < x + 2 ^ k := by
  have hlt : 2 ^ k < 2 ^ 64 := Nat.pow_lt_pow_right (by decide) (by omega)
  have hpos : 0 < 2 ^ k := Nat.two_pow_pos k
  have hr : round x (2 ^ k) = (x + (2 ^ k - 1)) / 2 ^ k * 2 ^ k := by
    rw [round, sub64_of_le hlt hpos, trunc_two_pow hk (u64_lt _), u64_of_lt (by omega)]
  rw [hr]
  have hd := Nat.div_add_mod (x + (2 ^ k - 1)) (2 ^ k)
  have hm := Nat.mod_lt (x + (2 ^ k - 1)) hpos
  rw [mul_comm] at hd
  exact ⟨by omega, Dvd.intro_left _ rfl, by omega⟩

theorem two_pow_dvd_round {k : Nat} (hk : k ≤ 63) (x : Nat) : 2 ^ k ∣ round x (2 ^ k) := by
  rw [round, trunc_two_pow hk (u64_lt _)]
  exact Dvd.intro_left _ rfl

theorem round_wraps {k x : Nat} (hk : k ≤ 63) (hx : x < 2 ^ 64) (hw : 2 ^ 64 < x + 2 ^ k) :
    round x (2 ^ k) = 0 := by
  have hlt : 2 ^ k < 2 ^ 64 := Nat.pow_lt_pow_right (by decide) (by omega)
  have hpos := Nat.two_pow_pos k
  have hsum : u64 (x + (2 ^ k - 1)) = x + (2 ^ k - 1) - 2 ^ 64 := by
    unfold u64
    omega
  rw [round, sub64_of_le hlt hpos, trunc_two_pow hk (u64_lt _), hsum, Nat.div_eq_of_lt (by omega),
    Nat.zero_mul]

theorem round_eq_self {k x : Nat} (hk : k ≤ 63) (hx : x + 2 ^ k ≤ 2 ^ 64) (hd : 2 ^ k ∣ x) :
    round x (2 ^ k) = x := by
  obtain ⟨hle, hd', hlt⟩ := round_two_pow hk hx
  obtain ⟨a, rfl⟩ := hd
  obtain ⟨b, hb⟩ := hd'
  have hpos : 0 < 2 ^ k := Nat.two_pow_pos k
  rw [hb] at hle hlt ⊢
  have h1 : a ≤ b := Nat.le_of_mul_le_mul_left hle hpos
  have h2 : b < a + 1 := Nat.lt_of_mul_lt_mul_left (by rw [Nat.mul_add, mul_one]; exact hlt)
  rw [show b = a by omega]

/-- Physical memory, by byte address. -/
abbrev Mem := Nat → UInt8

def memset (m : Mem) (dst : Nat) (v : UInt8) (n : Nat) : Mem :=
  fun x => if dst ≤ x ∧ x < dst + n then v else m x

def memmove (m : Mem) (dst src n : Nat) : Mem :=
  fun x => if dst ≤ x ∧ x < dst + n then m (src + (x - dst)) else m x

/-- An eight-byte word in memory: a pointer or a page-table entry. -/
def readPtr (m : Mem) (a : Nat) : Nat :=
  (List.range 8).foldr (fun i n => (m (a + i)).toNat + 256 * n) 0

def writePtr (m : Mem) (a v : Nat) : Mem :=
  fun x => if a ≤ x ∧ x < a + 8 then UInt8.ofNat (v / 256 ^ (x - a)) else m x

theorem memset_of_mem {m : Mem} {dst n x : Nat} {v : UInt8} (h : dst ≤ x ∧ x < dst + n) :
    memset m dst v n x = v := if_pos h

theorem memset_of_not_mem {m : Mem} {dst n x : Nat} {v : UInt8} (h : ¬ (dst ≤ x ∧ x < dst + n)) :
    memset m dst v n x = m x := if_neg h

theorem memmove_of_mem {m : Mem} {dst src n x : Nat} (h : dst ≤ x ∧ x < dst + n) :
    memmove m dst src n x = m (src + (x - dst)) := if_pos h

theorem memmove_of_not_mem {m : Mem} {dst src n x : Nat} (h : ¬ (dst ≤ x ∧ x < dst + n)) :
    memmove m dst src n x = m x := if_neg h

theorem readPtr_eq (m : Mem) (a : Nat) :
    readPtr m a = (m a).toNat + 256 *
      ((m (a + 1)).toNat + 256 * ((m (a + 2)).toNat + 256 * ((m (a + 3)).toNat +
      256 * ((m (a + 4)).toNat + 256 * ((m (a + 5)).toNat + 256 * ((m (a + 6)).toNat +
        256 * (m (a + 7)).toNat)))))) := by
  simp [readPtr, List.range_succ]

theorem readPtr_lt (m : Mem) (a : Nat) : readPtr m a < 2 ^ 64 := by
  have hstep : ∀ (b : UInt8) (n k : Nat), n < 256 ^ k → b.toNat + 256 * n < 256 ^ (k + 1) :=
    fun b n k hn => by
    have hb := b.toNat_lt
    rw [Nat.pow_succ]
    omega
  have h1 : (m (a + 7)).toNat < 256 ^ 1 := (m (a + 7)).toNat_lt
  rw [readPtr_eq]
  exact hstep _ _ 7 (hstep _ _ 6
    (hstep _ _ 5 (hstep _ _ 4 (hstep _ _ 3 (hstep _ _ 2 (hstep _ _ 1 h1))))))

theorem readPtr_congr {m m' : Mem} {p p' : Nat} (h : ∀ i < 8, m (p + i) = m' (p' + i)) :
    readPtr m p = readPtr m' p' := by
  have h0 := h 0 (by decide)
  rw [Nat.add_zero, Nat.add_zero] at h0
  rw [readPtr_eq, readPtr_eq, h0, h 1 (by decide), h 2 (by decide),
    h 3 (by decide), h 4 (by decide), h 5 (by decide), h 6 (by decide), h 7 (by decide)]

theorem readPtr_of_zero {m : Mem} {a : Nat} (h : ∀ i < 8, m (a + i) = 0) : readPtr m a = 0 := by
  have hzero : readPtr (fun _ => 0) a = 0 := by
    rw [readPtr_eq, UInt8.toNat_zero]
  rw [← hzero]
  exact readPtr_congr h

theorem writePtr_of_not_mem {m : Mem} {a v x : Nat} (h : ¬ (a ≤ x ∧ x < a + 8)) :
    writePtr m a v x = m x :=
  if_neg h

theorem writePtr_byte (m : Mem) (a v : Nat) {i : Nat} (hi : i < 8) :
    (writePtr m a v (a + i)).toNat = v / 256 ^ i % 256 := by
  rw [writePtr, if_pos (by omega), Nat.add_sub_cancel_left, UInt8.toNat_ofNat']

theorem readPtr_writePtr_self (m : Mem) (a : Nat) {v : Nat} (hv : v < 2 ^ 64) :
    readPtr (writePtr m a v) a = v := by
  have hdigit : ∀ i, v / 256 ^ i % 256 + 256 * (v / 256 ^ (i + 1)) = v / 256 ^ i := fun i => by
    rw [Nat.pow_succ, ← Nat.div_div_eq_div_mul]
    exact Nat.mod_add_div _ _
  have h8 : v / 256 ^ 8 = 0 := Nat.div_eq_of_lt hv
  have h7 : v / 256 ^ 7 % 256 = v / 256 ^ 7 := by
    have h := hdigit 7
    rwa [h8, Nat.mul_zero, Nat.add_zero] at h
  have h0 := writePtr_byte m a v (i := 0) (by decide)
  rw [Nat.add_zero] at h0
  rw [readPtr_eq, h0, writePtr_byte m a v (by decide), writePtr_byte m a v (by decide),
    writePtr_byte m a v (by decide), writePtr_byte m a v (by decide),
    writePtr_byte m a v (by decide),
    writePtr_byte m a v (by decide), writePtr_byte m a v (by decide), h7, hdigit 6, hdigit 5,
    hdigit 4, hdigit 3, hdigit 2, hdigit 1, hdigit 0, Nat.pow_zero, Nat.div_one]

/-- How a startup routine ends when it does not return: `crash` with its message, a
loop that never ends, or an access that C leaves undefined. -/
inductive Halt where
  | crash (text : String)
  | noReturn
  | fault
  deriving DecidableEq, Repr

abbrev Startup := Except Halt

def crash {α : Type} (text : String) : Startup α := .error (.crash text)

/-- The bytes of an address range `[start, start + size)`. -/
def bytes (start size : Nat) : Set Nat := Set.Ico start (start + size)

theorem mem_bytes {start size x : Nat} : x ∈ bytes start size ↔ start ≤ x ∧ x < start + size :=
  Iff.rfl

@[simp] theorem bytes_zero (start : Nat) : bytes start 0 = ∅ := by
  simp [bytes]

theorem bytes_mono {start m n : Nat} (h : m ≤ n) : bytes start m ⊆ bytes start n :=
  Set.Ico_subset_Ico_right (Nat.add_le_add_left h start)

theorem crash_ite_eq_ok {α : Type} {c : Prop} [Decidable c] {text : String} {x : Startup α}
    {r : α} :
    (if c then crash text else x) = .ok r ↔ ¬ c ∧ x = .ok r := by
  split <;> simp_all [crash]

theorem bind_eq_ok {α β : Type} {x : Startup α} {f : α → Startup β} {r : β} :
    x.bind f = .ok r ↔ ∃ a, x = .ok a ∧ f a = .ok r := by
  cases x <;> simp [Except.bind]

theorem ok_bind {α β : Type} (a : α) (f : α → Startup β) : Except.bind (Except.ok a) f = f a := rfl

/-- The result, or `d` when the routine did not return. -/
def resultOr {α : Type} (d : α) : Startup α → α
  | .ok a => a
  | .error _ => d

theorem eq_ok_resultOr {α : Type} {x : Startup α} (d : α) (h : x.isOk = true) :
    x = .ok (resultOr d x) := by
  cases x with
  | error e => simp [Except.isOk, Except.toBool] at h
  | ok a => rfl

theorem eq_ok_pair_resultOr {α β : Type} {x : Startup (α × β)} (d : α × β) (h : x.isOk = true) :
    x = .ok ((resultOr d x).1, (resultOr d x).2) := eq_ok_resultOr d h

/-- An access to `n` bytes at `p`: nothing lies at `NULL_PADDR`, and nothing behind it. -/
def access {α : Type} (p n : Nat) (x : Startup α) : Startup α :=
  if p + n ≤ nullPaddr then x else .error .fault

theorem access_eq_ok {α : Type} {p n : Nat} {x : Startup α} {r : α} :
    access p n x = .ok r ↔ p + n ≤ nullPaddr ∧ x = .ok r := by
  unfold access
  split <;> simp_all

/-- The rounds of `copy_memory`; `max` is its length as an `unsigned`. -/
def copyRounds (max : Nat) : Nat → Nat → Nat → Nat → Mem → Startup Mem
  | 0, _, _, _, _ => .error .noReturn
  | fuel + 1, dst, src, len, m =>
    let amount := if len > max then max else len
    access dst amount (
      let m := memmove m dst src amount
      let len := len - amount
      if len = 0 then .ok m else copyRounds max fuel (u64 (dst + amount))
        (u64 (src + amount)) len m)

def copyMemory (dst src len : Nat) (m : Mem) : Startup Mem :=
  copyRounds (u32 len) (len + 1) dst src len m

theorem copyMemory_eq {dst src len : Nat} (m : Mem) (hlen : len < 2 ^ 32) :
    copyMemory dst src len m = access dst len (.ok (memmove m dst src len)) := by
  simp only [copyMemory, copyRounds, u32_of_lt hlen, lt_irrefl, if_false, Nat.sub_self, if_true]

theorem copyRounds_ok {max fuel dst src len : Nat} {m m' : Mem} (hsrc : src + len < 2 ^ 64)
    (h : copyRounds max fuel dst src len m = .ok m') :
    (∀ x ∉ bytes dst len, m' x = m x) ∧ ∀ j < len, src + j ∉ bytes dst len →
      m' (dst + j) = m (src + j) := by
  induction fuel generalizing dst src len m with
  | zero => cases h
  | succ fuel ih =>
    rw [copyRounds] at h
    generalize hamount : (if len > max then max else len) = amount at h
    have hle : amount ≤ len := by
      rw [← hamount]
      split <;> omega
    obtain ⟨hfit, h⟩ := access_eq_ok.mp h
    unfold nullPaddr at hfit
    have hmoved : ∀ j < amount, memmove m dst src amount (dst + j) = m (src + j) := fun j hj => by
      rw [memmove_of_mem (by omega), Nat.add_sub_cancel_left]
    by_cases hlast : len - amount = 0
    · rw [if_pos hlast] at h
      obtain rfl := Except.ok.inj h
      obtain rfl : amount = len := by omega
      exact ⟨fun x hx => memmove_of_not_mem hx, fun j hj _ => hmoved j hj⟩
    · rw [if_neg hlast, u64_of_lt (by omega), u64_of_lt (by omega)] at h
      obtain ⟨hout, hin⟩ := ih (by omega) h
      refine ⟨fun x hx => ?_, fun j hj hj' => ?_⟩
      · rw [mem_bytes] at hx
        rw [hout x (by rw [mem_bytes]; omega), memmove_of_not_mem (by omega)]
      · rw [mem_bytes] at hj'
        by_cases hfirst : j < amount
        · rw [hout _ (by rw [mem_bytes]; omega), hmoved j hfirst]
        · have hrest := hin (j - amount) (by omega) (by rw [mem_bytes]; omega)
          rw [memmove_of_not_mem (by omega)] at hrest
          rwa [show dst + amount + (j - amount) = dst + j by
            omega, show src + amount + (j - amount) = src + j by omega] at hrest

theorem copyMemory_ok {dst src len : Nat} {m m' : Mem} (hsrc : src + len < 2 ^ 64)
    (h : copyMemory dst src len m = .ok m') :
    (∀ x ∉ bytes dst len, m' x = m x) ∧ ∀ j < len, src + j ∉ bytes dst len →
      m' (dst + j) = m (src + j) :=
  copyRounds_ok hsrc h

end QnxStartup
