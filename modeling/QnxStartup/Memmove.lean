import QnxStartup.Bytes

/-! `memmove.c`, `memcpy.c` and the rounds of `copy_memory`: what they leave in memory is the
simultaneous copy. -/

namespace QnxStartup

/-- The target holds what the source held, and nothing else has changed. -/
structure Moved (m m' : Mem) (dst src len : Nat) : Prop where
  moved : ∀ i < len, m' (dst + i) = m (src + i)
  frame : ∀ x ∉ bytes dst len, m' x = m x

namespace Libc

/-- The variables of the unrolled loop. -/
structure WordCopy where
  mem : Mem
  d : Nat
  s : Nat

namespace WordCopy

/-- `*d++ = *s++` on `unsigned`. -/
def word (c : WordCopy) : WordCopy where
  mem := writeBytes c.mem c.d (le32 (read32 c.mem c.s))
  d := u64 (c.d + 4)
  s := u64 (c.s + 4)

def words : Nat → WordCopy → WordCopy
  | 0, c => c
  | n + 1, c => words n c.word

/-- The rounds of the `do` behind the first one, which the `switch` enters. -/
def rounds : Nat → WordCopy → WordCopy
  | 0, c => c
  | n + 1, c => rounds n (words 16 c)

def unrolled (nbytes : Nat) (c : WordCopy) : WordCopy :=
  let n := u32 ((nbytes / 4 + 15) / 16)
  let first := if nbytes / 4 % 16 = 0 then 16 else nbytes / 4 % 16
  rounds (sub32 n 1) (words first c)

end WordCopy

def copyBytes : Nat → Mem → Nat → Nat → Mem
  | 0, m, _, _ => m
  | nbytes + 1, m, dst, src =>
    copyBytes nbytes (Function.update m dst (m src)) (u64 (dst + 1)) (u64 (src + 1))

def memcpy (m : Mem) (dst src nbytes : Nat) : Mem :=
  if 4 ≤ nbytes ∧ src % 4 = 0 ∧ dst % 4 = 0 then
    let c := WordCopy.unrolled nbytes ⟨m, dst, src⟩
    copyBytes (nbytes % 4) c.mem c.d c.s
  else copyBytes nbytes m dst src

def copyBackwards : Nat → Mem → Nat → Nat → Mem
  | 0, m, _, _ => m
  | len + 1, m, d, s => copyBackwards len (Function.update m (d + len) (m (s + len))) d s

def memmove (m : Mem) (dest src len : Nat) : Mem :=
  if src < dest ∧ dest < u64 (src + len) then copyBackwards len m dest src
    else memcpy m dest src len

end Libc

theorem memmove_moved (m : Mem) (dst src len : Nat) :
    Moved m (memmove m dst src len) dst src len := by
  refine ⟨fun i hi => ?_, fun x hx => memmove_of_not_mem hx⟩
  rw [memmove_of_mem (by omega), Nat.add_sub_cancel_left]

theorem memmove_zero (m : Mem) (dst src : Nat) : memmove m dst src 0 = m :=
  funext fun _ => memmove_of_not_mem (by omega)

theorem memmove_one (m : Mem) (dst src : Nat) :
    memmove m dst src 1 = Function.update m dst (m src) := by
  funext x
  by_cases hx : x = dst
  · subst hx
    rw [memmove_of_mem (by omega), Nat.sub_self, Nat.add_zero, Function.update_self]
  · rw [memmove_of_not_mem (by omega), Function.update_of_ne hx]

/-- Upwards: what is still to be copied has not been written. -/
theorem memmove_append {m : Mem} {d s a b : Nat} (h : d ≤ s ∨ s + (a + b) ≤ d) :
    memmove (memmove m d s a) (d + a) (s + a) b = memmove m d s (a + b) := by
  funext x
  by_cases hb : d + a ≤ x ∧ x < d + a + b
  · rw [memmove_of_mem hb, memmove_of_not_mem (by omega), memmove_of_mem (by omega)]
    congr 1
    omega
  · rw [memmove_of_not_mem hb]
    by_cases ha : d ≤ x ∧ x < d + a
    · rw [memmove_of_mem ha, memmove_of_mem (by omega)]
    · rw [memmove_of_not_mem ha, memmove_of_not_mem (by omega)]

theorem memmove_prepend {m : Mem} {d s a b : Nat} (h : s ≤ d) :
    memmove (memmove m (d + a) (s + a) b) d s a = memmove m d s (a + b) := by
  funext x
  by_cases ha : d ≤ x ∧ x < d + a
  · rw [memmove_of_mem ha, memmove_of_not_mem (by omega), memmove_of_mem (by omega)]
  · rw [memmove_of_not_mem ha]
    by_cases hb : d + a ≤ x ∧ x < d + a + b
    · rw [memmove_of_mem hb, memmove_of_mem (by omega)]
      congr 1
      omega
    · rw [memmove_of_not_mem hb, memmove_of_not_mem (by omega)]

theorem le32_read32 (m : Mem) (a : Nat) :
    le32 (read32 m a) = [m a, m (a + 1), m (a + 2), m (a + 3)] := by
  have h0 := (m a).toNat_lt
  have h1 := (m (a + 1)).toNat_lt
  have h2 := (m (a + 2)).toNat_lt
  have h3 := (m (a + 3)).toNat_lt
  have hbyte : ∀ {n : Nat} {b : UInt8}, n % 256 = b.toNat → UInt8.ofNat n = b := fun h =>
    UInt8.toNat_inj.mp (by rw [UInt8.toNat_ofNat']; exact h)
  rw [le32, read32, hbyte (b := m a) (by omega), hbyte (b := m (a + 1)) (by omega),
    hbyte (b := m (a + 2)) (by omega), hbyte (b := m (a + 3)) (by omega)]

theorem writeBytes_le32_read32 (m : Mem) (d s : Nat) :
    writeBytes m d (le32 (read32 m s)) = memmove m d s 4 := by
  funext x
  have hlen : (le32 (read32 m s)).length = 4 := rfl
  by_cases hx : d ≤ x ∧ x < d + 4
  · rw [writeBytes, if_pos (by omega), memmove_of_mem hx, le32_read32]
    obtain ⟨k, rfl⟩ := Nat.exists_eq_add_of_le hx.1
    rw [Nat.add_sub_cancel_left]
    obtain rfl | rfl | rfl | rfl : k = 0 ∨ k = 1 ∨ k = 2 ∨ k = 3 := by omega
    · rfl
    · rfl
    · rfl
    · rfl
  · rw [writeBytes_of_not_mem (by omega), memmove_of_not_mem hx]

namespace Libc

section
variable {m : Mem} {d s n : Nat}

theorem WordCopy.words_append (a b : Nat) (c : WordCopy) :
    words (a + b) c = words b (words a c) := by
  induction a generalizing c with
  | zero => rw [Nat.zero_add, words]
  | succ a ih => rw [Nat.succ_add, words, ih, words]

theorem WordCopy.rounds_eq (n : Nat) (c : WordCopy) : rounds n c = words (16 * n) c := by
  induction n generalizing c with
  | zero => rfl
  | succ n ih => rw [rounds, ih, ← words_append, Nat.mul_succ, Nat.add_comm]

theorem WordCopy.words_eq (h : d ≤ s ∨ s + 4 * (n + 1) ≤ d) (hd : d + 4 * (n + 1) ≤ 2 ^ 64)
    (hs : s + 4 * (n + 1) ≤ 2 ^ 64) :
    words (n + 1) ⟨m, d, s⟩ =
      ⟨QnxStartup.memmove m d s (4 * (n + 1)), u64 (d + 4 * (n + 1)), u64 (s + 4 * (n + 1))⟩ := by
  induction n generalizing m d s with
  | zero => rw [words, words, word, writeBytes_le32_read32, Nat.zero_add, Nat.mul_one]
  | succ n ih =>
    rw [words, word]
    dsimp only
    rw [writeBytes_le32_read32, u64_of_lt (by omega : d + 4 < 2 ^ 64),
      u64_of_lt (by omega : s + 4 < 2 ^ 64), ih (by omega) (by omega) (by omega),
      memmove_append (by omega), Nat.mul_succ 4 (n + 1), Nat.add_comm (4 * (n + 1)) 4,
      Nat.add_assoc, Nat.add_assoc]

/-- The counter of the rounds has 32 bits: enough for 256 GiB. -/
theorem WordCopy.unrolled_eq {nbytes : Nat} (hn : 4 ≤ nbytes) (hlt : nbytes < 2 ^ 38 + 4)
    (c : WordCopy) :
    unrolled nbytes c = words (nbytes / 4) c := by
  have hwords : ∀ first, 1 ≤ first → first ≤ 16 → (nbytes / 4 - first) % 16 = 0 →
      first ≤ nbytes / 4 →
      first + 16 * sub32 (u32 ((nbytes / 4 + 15) / 16)) 1 = nbytes / 4 :=
        fun first h1 h16 hmod hle => by
    have hround : (nbytes / 4 + 15) / 16 = (nbytes / 4 - first) / 16 + 1 := by omega
    have hrest : sub32 (u32 ((nbytes / 4 - first) / 16 + 1)) 1 = (nbytes / 4 - first) / 16 := by
      unfold sub32 u32
      omega
    rw [hround, hrest]
    omega
  rw [unrolled, rounds_eq, ← words_append]
  split
  · rw [hwords 16 (by decide) le_rfl (by omega) (by omega)]
  · rw [hwords _ (by omega) (by omega) (by omega) (by omega)]

theorem copyBytes_eq (h : d ≤ s ∨ s + n ≤ d) (hd : d + n ≤ 2 ^ 64) (hs : s + n ≤ 2 ^ 64) :
    copyBytes n m d s = QnxStartup.memmove m d s n := by
  induction n generalizing m d s with
  | zero => exact (memmove_zero m d s).symm
  | succ n ih =>
    rw [copyBytes, ← memmove_one]
    cases n with
    | zero => rfl
    | succ n =>
      rw [u64_of_lt (by omega : d + 1 < 2 ^ 64), u64_of_lt (by omega : s + 1 < 2 ^ 64),
        ih (by omega) (by omega) (by omega), memmove_append (by omega), Nat.add_comm 1]

theorem memcpy_eq (h : d ≤ s ∨ s + n ≤ d) (hn : s % 4 = 0 → d % 4 = 0 → n < 2 ^ 38 + 4)
    (hd : d + n ≤ 2 ^ 64) (hs : s + n ≤ 2 ^ 64) :
    memcpy m d s n = QnxStartup.memmove m d s n := by
  unfold memcpy
  by_cases haligned : 4 ≤ n ∧ s % 4 = 0 ∧ d % 4 = 0
  · rw [if_pos haligned]
    obtain ⟨w, hw⟩ := Nat.exists_eq_add_of_le' (show 1 ≤ n / 4 by omega)
    have hsplit : 4 * (w + 1) + n % 4 = n := by omega
    rw [WordCopy.unrolled_eq haligned.1 (hn haligned.2.1 haligned.2.2), hw,
      WordCopy.words_eq (by omega) (by omega) (by omega)]
    dsimp only
    by_cases hrest : n % 4 = 0
    · rw [hrest, copyBytes, show 4 * (w + 1) = n by omega]
    · rw [u64_of_lt (by omega : d + 4 * (w + 1) < 2 ^ 64),
        u64_of_lt (by omega : s + 4 * (w + 1) < 2 ^ 64),
        copyBytes_eq (by omega) (by omega) (by omega), memmove_append (by omega), hsplit]
  · rw [if_neg haligned]
    exact copyBytes_eq h hd hs

theorem copyBackwards_eq (h : s ≤ d) : copyBackwards n m d s = QnxStartup.memmove m d s n := by
  induction n generalizing m with
  | zero => exact (memmove_zero m d s).symm
  | succ n ih => rw [copyBackwards, ← memmove_one, ih, memmove_prepend h]

theorem memmove_eq (hn : n < 2 ^ 32) (hd : d + n ≤ 2 ^ 64) (hs : s + n ≤ 2 ^ 64) :
    memmove m d s n = QnxStartup.memmove m d s n := by
  unfold memmove
  by_cases hback : s < d ∧ d < u64 (s + n)
  · rw [if_pos hback]
    exact copyBackwards_eq hback.1.le
  · rw [if_neg hback]
    refine memcpy_eq ?_ (fun _ _ => by omega) hd hs
    unfold u64 at hback
    omega

end

/-- `memmove` leaves the simultaneous copy; so does `memcpy`, if it does not read behind what it has
written and its counter of rounds does not wrap. -/
theorem memmove_simultaneous {m : Mem} {dest src : Nat} :
    (∀ len < 2 ^ 32, dest + len ≤ 2 ^ 64 → src + len ≤ 2 ^ 64 →
      Moved m (memmove m dest src len) dest src len) ∧
      ∀ len, (src % 4 = 0 → dest % 4 = 0 → len < 2 ^ 38 + 4) → dest + len ≤ 2 ^ 64 →
        src + len ≤ 2 ^ 64 →
        dest ≤ src ∨ src + len ≤ dest → Moved m (memcpy m dest src len) dest src len := by
  constructor
  · intro len hlen hd hs
    rw [memmove_eq hlen hd hs]
    exact memmove_moved m dest src len
  · intro len hlen hd hs h
    rw [memcpy_eq h hlen hd hs]
    exact memmove_moved m dest src len

theorem memmove_simultaneous_example :
    Moved (fun x => UInt8.ofNat x)
      (memmove (fun x => UInt8.ofNat x) 0x1001 0x1000 7) 0x1001 0x1000 7 ∧
      Moved (fun x => UInt8.ofNat x)
        (memcpy (fun x => UInt8.ofNat x) 0x1000 0x1004 75) 0x1000 0x1004 75 :=
  ⟨memmove_simultaneous.1 7 (by decide) (by decide) (by decide),
    memmove_simultaneous.2 75 (fun _ _ => by decide) (by decide) (by decide) (by decide)⟩

end Libc

/-! ### The rounds of `copy_memory` -/

section
variable {max dst src len : Nat} {m : Mem}

theorem copyRounds_stuck (hdst : dst + len < 2 ^ 64) (hsrc : src + len < 2 ^ 64) (hlen : 0 < len)
    (fuel : Nat) :
    copyRounds 0 fuel dst src len m = .error .noReturn := by
  induction fuel with
  | zero => rfl
  | succ fuel ih =>
    simp only [copyRounds, hlen, if_true, memmove_zero, Nat.add_zero, Nat.sub_zero]
    rw [access, if_pos (by unfold nullPaddr; omega), if_neg (by omega), u64_of_lt (by omega),
      u64_of_lt (by omega), ih]

theorem copyRounds_returns (hmax : 0 < max) {fuel : Nat} (hfuel : len < fuel)
    (hdst : dst + len < 2 ^ 64) (hsrc : src + len < 2 ^ 64) :
    ∃ m', copyRounds max fuel dst src len m = .ok m' := by
  induction fuel generalizing dst src len m with
  | zero => omega
  | succ fuel ih =>
    rw [copyRounds]
    generalize hamount : (if len > max then max else len) = amount
    have hle : amount ≤ len := by
      rw [← hamount]
      split <;> omega
    dsimp only
    rw [access, if_pos (by unfold nullPaddr; omega)]
    by_cases hlast : len - amount = 0
    · exact ⟨_, if_pos hlast⟩
    · have hpos : 0 < amount := by
        rw [← hamount]
        split <;> omega
      rw [if_neg hlast, u64_of_lt (by omega), u64_of_lt (by omega)]
      exact ih (by omega) (by omega) (by omega)

/-- `copy_memory` returns with the copy if and only if the length it keeps as an
`unsigned` is not zero, or the length itself is zero. -/
theorem copy_memory_iff (m : Mem) (hdst : dst + len < 2 ^ 64) (hsrc : src + len < 2 ^ 64)
    (hap : Disjoint (bytes dst len) (bytes src len)) :
    (∃ m', copyMemory dst src len m = .ok m' ∧ Moved m m' dst src len) ↔
      len = 0 ∨ len % 2 ^ 32 ≠ 0 := by
  constructor
  · rintro ⟨m', hm', -⟩
    by_contra hc
    obtain ⟨hne, hmod⟩ := not_or.mp hc
    rw [copyMemory, u32, not_not.mp hmod, copyRounds_stuck hdst hsrc (by omega)] at hm'
    cases hm'
  · intro h
    by_cases h0 : len = 0
    · subst h0
      refine ⟨m, ?_, fun i hi => absurd hi (Nat.not_lt_zero i), fun _ _ => rfl⟩
      rw [copyMemory_eq m (by decide), access, if_pos (by unfold nullPaddr; omega), memmove_zero]
    · obtain ⟨m', hm'⟩ := copyRounds_returns (m := m) (Nat.pos_of_ne_zero (h.resolve_left h0))
        (Nat.lt_succ_self len) hdst hsrc
      obtain ⟨hframe, hmoved⟩ := copyMemory_ok hsrc hm'
      refine ⟨m', hm', fun i hi => hmoved i hi ?_, hframe⟩
      exact Set.disjoint_right.mp hap (mem_bytes.mpr ⟨by omega, by omega⟩)

theorem copy_memory_iff_example :
    ∃ m', copyMemory 0x2000 0x1000 0x800 (fun x => UInt8.ofNat x) = .ok m' ∧
    Moved (fun x => UInt8.ofNat x) m' 0x2000 0x1000 0x800 := by
  refine (copy_memory_iff _ (by decide) (by decide) ?_).mpr (by decide)
  rw [Set.disjoint_left]
  intro x hx hx'
  rw [mem_bytes] at hx hx'
  omega

/-- 4 GiB are copied in rounds of no bytes for ever. -/
theorem copy_memory_stuck :
    (∀ fuel, copyRounds (u32 (2 ^ 32)) fuel 0x200000000 0x100000000 (2 ^ 32) (fun _ => 0) =
      .error .noReturn) ∧
      ¬ ∃ m', copyMemory 0x200000000 0x100000000 (2 ^ 32) (fun _ => 0) = .ok m' := by
  have hstuck : ∀ fuel, copyRounds 0 fuel 0x200000000 0x100000000 (2 ^ 32) (fun _ => 0) =
      .error .noReturn :=
    copyRounds_stuck (by decide) (by decide) (by decide)
  refine ⟨hstuck, ?_⟩
  rintro ⟨m', hm'⟩
  rw [copyMemory] at hm'
  cases (hstuck _).symm.trans hm'

end

end QnxStartup
