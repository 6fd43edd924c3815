import Mathlib.Data.List.Nodup
import Mathlib.Data.Nat.Log
import QnxStartup.Machine

/-! `aarch64_cache_flush`: the three nested loops over the levels, ways and sets of the data caches,
and what the caches make of the operands. A line that is cleaned may leave dirty lines behind in
the levels that follow, so that the order of the levels matters as well. -/

namespace QnxStartup

section

variable {α : Type*} {level : α → Nat} {d d' : Set α}

/-- The line `x` is cleaned: what it held can only go into lines of higher levels. -/
def Cleans (level : α → Nat) (x : α) (d d' : Set α) : Prop :=
  x ∉ d' ∧ ∀ y ∈ d', y ∈ d ∨ level x < level y

/-- The dirty lines before and after lines are cleaned one after the other. -/
inductive CleanRun (level : α → Nat) : List α → Set α → Set α → Prop
  | nil (d : Set α) : CleanRun level [] d d
  | cons {x : α} {xs : List α} {d d₁ d' : Set α} : Cleans level x d d₁ → CleanRun level xs d₁ d' →
      CleanRun level (x :: xs) d d'

theorem CleanRun.mem_or_lt {xs : List α} (h : CleanRun level xs d d') {y : α} (hy : y ∈ d') :
    y ∈ d ∨ ∃ x ∈ xs, level x < level y := by
  induction h with
  | nil _ => exact .inl hy
  | cons hx _ ih =>
    rcases ih hy with hmem | ⟨x, hmem, hlt⟩
    · exact (hx.2 _ hmem).imp id fun hlt => ⟨_, List.mem_cons_self .., hlt⟩
    · exact .inr ⟨x, List.mem_cons_of_mem _ hmem, hlt⟩

/-- Cleaned in the order of the levels, no line is dirty in the end. -/
theorem CleanRun.clean {xs : List α} (h : CleanRun level xs d d')
    (hlevel : xs.Pairwise fun x y => level x ≤ level y) : ∀ x ∈ xs, x ∉ d' := by
  induction h with
  | nil _ => exact nofun
  | cons hx hrun ih =>
    obtain ⟨hle, hrest⟩ := List.pairwise_cons.mp hlevel
    intro y hy hdirty
    rcases List.mem_cons.mp hy with rfl | hy
    · rcases hrun.mem_or_lt hdirty with hmem | ⟨x, hmem, hlt⟩
      · exact hx.1 hmem
      · exact (hle x hmem).not_gt hlt
    · exact ih hrest y hy hdirty

end

def signedAt (bits n : Nat) : Int := if n < 2 ^ (bits - 1) then n else (n : Int) - 2 ^ bits

/-- A loop closed by `subs` and `bge` on registers of that many bits. -/
def downLoop (bits step : Nat) (body : Nat → Option (List Nat)) : Nat → Nat → Option (List Nat)
  | 0, _ => none
  | fuel + 1, x => do
    let ops ← body x
    if signedAt bits x ≥ signedAt bits step then
      let more ← downLoop bits step body fuel ((x + (2 ^ bits - step)) % 2 ^ bits)
      some (ops ++ more)
    else some ops

theorem downLoop_eq {bits step fuel n : Nat} {body : Nat → Option (List Nat)} {f : Nat → List Nat}
    (hpos : 0 < step) (hstep : step < 2 ^ (bits - 1)) (hmax : n * step < 2 ^ (bits - 1))
    (hfuel : n < fuel) (hbody : ∀ i ≤ n, body (i * step) = some (f i)) :
    downLoop bits step body fuel (n * step) = some ((List.range (n + 1)).reverse.flatMap f) := by
  have hbits : 2 ^ (bits - 1) ≤ 2 ^ bits := Nat.pow_le_pow_right (by decide) (Nat.sub_le ..)
  induction n generalizing fuel with
  | zero =>
    obtain ⟨fuel, rfl⟩ : ∃ k, fuel = k + 1 := ⟨fuel - 1, by omega⟩
    have hlt : ¬ signedAt bits (0 * step) ≥ signedAt bits step := by
      rw [signedAt, signedAt, if_pos hmax, if_pos hstep]
      omega
    simp only [downLoop, hbody 0 le_rfl, Option.bind_eq_bind, Option.bind_some, if_neg hlt]
    simp
  | succ n ih =>
    obtain ⟨fuel, rfl⟩ : ∃ k, fuel = k + 1 := ⟨fuel - 1, by omega⟩
    have hge : signedAt bits ((n + 1) * step) ≥ signedAt bits step := by
      rw [signedAt, signedAt, if_pos hmax, if_pos hstep]
      exact Int.ofNat_le.mpr (Nat.le_mul_of_pos_left _ (Nat.succ_pos n))
    have hnext : ((n + 1) * step + (2 ^ bits - step)) % 2 ^ bits = n * step := by
      rw [Nat.succ_mul] at hmax ⊢
      rw [show n * step + step + (2 ^ bits - step) = n * step + 2 ^ bits from by
        omega, Nat.add_mod_right, Nat.mod_eq_of_lt (by omega)]
    rw [Nat.succ_mul] at hmax
    have hrest := ih (by omega) (by omega : n < fuel) fun i hi => hbody i (by omega)
    rw [List.range_succ, List.reverse_append, List.flatMap_append]
    simp only [downLoop, hbody (n + 1) le_rfl, Option.bind_eq_bind, Option.bind_some,
      if_pos hge, hnext, hrest]
    simp

/-- `lsl` of one 32-bit register by another one. -/
def shl32 (x s : Nat) : Nat := u32 (x * 2 ^ (s % 32))

def clz32 (x : Nat) : Nat := if x = 0 then 32 else 31 - x.log2

/-- `CLIDR_EL1`, and `CCSIDR_EL1` for each value of `CSSELR_EL1`. -/
structure CacheInputs where
  clidr : Nat
  ccsidr : Nat → Nat

namespace CacheInputs

/-- `loop2` and `loop3` with what comes before them; `w10` is twice the number of the level. -/
def flushData (c : CacheInputs) (fuel w10 : Nat) : Option (List Nat) :=
  let x1 := c.ccsidr w10
  let w2 := u32 (x1 % 8 + 4)
  let w4 := x1 / 2 ^ 3 % 2 ^ 10
  let w5 := clz32 w4
  let w9 := shl32 w4 w5
  let w16 := shl32 1 w5
  downLoop 64 w16
    (fun x9 =>
      let w7 := shl32 (x1 / 2 ^ 13 % 2 ^ 15) w2
      let w17 := shl32 1 w2
      downLoop 32 w17 (fun w7 => some [w10 ||| u32 x9 ||| w7]) fuel w7)
    fuel w9

/-- One round of `loop1` up to `skip`. -/
def flushLevel (c : CacheInputs) (fuel w10 : Nat) : Option (List Nat) :=
  let w2 := u32 (w10 + w10 / 2)
  let w1 := u32 c.clidr / 2 ^ (w2 % 32) % 8
  if int32 w1 < 2 then some [] else c.flushData fuel w10

def loop1 (c : CacheInputs) (fuel w3 : Nat) : Nat → Nat → Option (List Nat)
  | 0, _ => none
  | rounds + 1, w10 => do
    let ops ← c.flushLevel fuel w10
    let w10 := u32 (w10 + 2)
    if int32 w3 > int32 w10 then
      let more ← loop1 c fuel w3 rounds w10
      some (ops ++ more)
    else some ops

/-- `aarch64_cache_flush`: the operands of `dc cisw`, one after the other. -/
def aarch64CacheFlush (c : CacheInputs) (fuel : Nat) : Option (List Nat) :=
  let w3 := (u32 c.clidr &&& 0x07000000) / 2 ^ 23
  if w3 = 0 then some [] else c.loop1 fuel w3 fuel 0

/-- What the source reads of the registers: the levels below the point of coherency,
which of them hold data, and the shape of each. -/
def loc (c : CacheInputs) : Nat := c.clidr / 2 ^ 24 % 8

def ctype (c : CacheInputs) (l : Nat) : Nat := c.clidr / 2 ^ (3 * l) % 8

def lineBits (c : CacheInputs) (l : Nat) : Nat := c.ccsidr (2 * l) % 8 + 4

def ways (c : CacheInputs) (l : Nat) : Nat := c.ccsidr (2 * l) / 2 ^ 3 % 2 ^ 10 + 1

def sets (c : CacheInputs) (l : Nat) : Nat := c.ccsidr (2 * l) / 2 ^ 13 % 2 ^ 15 + 1

theorem ctype_eq (c : CacheInputs) {l : Nat} (hl : l < 7) :
    u32 c.clidr / 2 ^ (u32 (2 * l + 2 * l / 2) % 32) % 8 = c.ctype l := by
  have hw2 : u32 (2 * l + 2 * l / 2) % 32 = 3 * l := by
    rw [u32_of_lt (by omega)]
    omega
  have hsplit : 2 ^ 32 = 2 ^ (3 * l) * (8 * 2 ^ (29 - 3 * l)) := by
    rw [show 8 = 2 ^ 3 from rfl, ← Nat.pow_add, ← Nat.pow_add]
    congr 1
    omega
  rw [hw2, u32, hsplit, Nat.mod_mul_right_div_self, Nat.mod_mul_right_mod, ctype]

theorem clz32_ways {n : Nat} (hpos : 0 < n) (hlt : n < 2 ^ 10) :
    clz32 n = 32 - Nat.clog 2 (n + 1) ∧ 0 < Nat.clog 2 (n + 1) ∧ Nat.clog 2 (n + 1) ≤ 10 := by
  have hclog : Nat.clog 2 (n + 1) = n.log2 + 1 := by
    refine eq_of_forall_ge_iff fun k => ?_
    rw [Nat.clog_le_iff_le_pow (by decide), Nat.succ_le_iff, Nat.succ_le_iff, Nat.log2_lt hpos.ne']
  have hlog := (Nat.log2_lt hpos.ne').mpr hlt
  rw [clz32, if_neg hpos.ne', hclog]
  omega

theorem shl32_eq {x s : Nat} (h : x * 2 ^ (s % 32) < 2 ^ 32) : shl32 x s = x * 2 ^ (s % 32) :=
  u32_of_lt h

theorem way_field_lt {n : Nat} (hlt : n < 2 ^ 10) : n * 2 ^ (clz32 n % 32) < 2 ^ 32 := by
  rcases Nat.eq_zero_or_pos n with rfl | hpos
  · decide
  obtain ⟨hclz, hlow, hhigh⟩ := clz32_ways hpos hlt
  have hle := Nat.le_pow_clog (by decide : 1 < 2) (n + 1)
  rw [hclz, Nat.mod_eq_of_lt (by omega)]
  calc n * 2 ^ (32 - Nat.clog 2 (n + 1)) < 2 ^ Nat.clog 2 (n + 1) * 2 ^ (32 - Nat.clog 2 (n + 1)) :=
        Nat.mul_lt_mul_of_pos_right hle (Nat.two_pow_pos _)
    _ = 2 ^ 32 := by rw [← Nat.pow_add, Nat.add_sub_cancel' (by omega)]

/-- The operand for one line, as the source puts it together. -/
def operand (c : CacheInputs) (l w s : Nat) : Nat :=
  2 * l ||| w * 2 ^ (clz32 (c.ways l - 1) % 32) ||| s * 2 ^ c.lineBits l

theorem flushData_eq (c : CacheInputs) {fuel : Nat} (hfuel : 2 ^ 15 < fuel) (l : Nat) :
    c.flushData fuel (2 * l) = some ((List.range (c.ways l)).reverse.flatMap fun w =>
      (List.range (c.sets l)).reverse.map fun s => c.operand l w s) := by
  have hline : u32 (c.ccsidr (2 * l) % 8 + 4) = c.lineBits l := u32_of_lt (by omega)
  have hbits : c.lineBits l < 12 := by
    rw [lineBits]
    omega
  generalize hn : c.ccsidr (2 * l) / 2 ^ 3 % 2 ^ 10 = n
  generalize hm : c.ccsidr (2 * l) / 2 ^ 13 % 2 ^ 15 = m
  have hn10 : n < 2 ^ 10 := hn ▸ Nat.mod_lt _ (by decide)
  have hm15 : m < 2 ^ 15 := hm ▸ Nat.mod_lt _ (by decide)
  have hline32 : c.lineBits l % 32 = c.lineBits l := Nat.mod_eq_of_lt (by omega)
  have hset : m * 2 ^ c.lineBits l < 2 ^ 31 := by
    calc m * 2 ^ c.lineBits l < 2 ^ 15 * 2 ^ c.lineBits l :=
      Nat.mul_lt_mul_of_pos_right hm15 (Nat.two_pow_pos _)
      _ ≤ 2 ^ 15 * 2 ^ 11 := Nat.mul_le_mul_left _ (Nat.pow_le_pow_right (by decide) (by omega))
      _ < 2 ^ 31 := by decide
  have hone : ∀ k < 32, 1 * 2 ^ k < 2 ^ 32 := fun k hk => by
    rw [Nat.one_mul]
    exact Nat.pow_lt_pow_right (by decide) hk
  have hw7 : shl32 m (c.lineBits l) = m * 2 ^ c.lineBits l := by
    rw [shl32_eq] <;> rw [hline32]
    exact hset.trans (by decide)
  have hw17 : shl32 1 (c.lineBits l) = 2 ^ c.lineBits l := by
    rw [shl32_eq] <;> rw [hline32]
    · exact Nat.one_mul _
    · exact hone _ (by omega)
  have hstep : 2 ^ (clz32 n % 32) < 2 ^ 32 :=
    Nat.pow_lt_pow_right (by decide) (Nat.mod_lt _ (by decide))
  have hw16 : shl32 1 (clz32 n) = 2 ^ (clz32 n % 32) := by
    rw [shl32_eq (hone _ (Nat.mod_lt _ (by decide))), Nat.one_mul]
  simp only [flushData, hline, hn, hm, hw7, hw17, hw16, shl32_eq (way_field_lt hn10)]
  have hinner : ∀ w ≤ n, downLoop 32 (2 ^ c.lineBits l)
      (fun w7 => some [2 * l ||| u32 (w * 2 ^ (clz32 n % 32)) ||| w7]) fuel (m * 2 ^ c.lineBits l)
        = some ((List.range (c.sets l)).reverse.map fun s => c.operand l w s) := by
    intro w hw
    have hu : u32 (w * 2 ^ (clz32 n % 32)) = w * 2 ^ (clz32 n % 32) :=
      u32_of_lt ((Nat.mul_le_mul_right _ hw).trans_lt (way_field_lt hn10))
    rw [hu, downLoop_eq (Nat.two_pow_pos _) (Nat.pow_lt_pow_right (by decide) (by omega)) hset
      (by omega) fun _ _ => rfl, ← List.map_eq_flatMap, sets, hm]
    simp only [operand, ways, hn, Nat.add_sub_cancel]
  rw [downLoop_eq (Nat.two_pow_pos _) (hstep.trans (by decide)) ((way_field_lt hn10).trans
    (by decide)) (by omega) hinner, ways, hn]

theorem w3_eq (c : CacheInputs) : (u32 c.clidr &&& 0x07000000) / 2 ^ 23 = 2 * c.loc := by
  have hmask : u32 c.clidr &&& 0x07000000 = 2 ^ 24 * c.loc := by
    refine Nat.eq_of_testBit_eq fun i => ?_
    rw [show 0x07000000 = 2 ^ 24 * (2 ^ 3 - 1) from rfl, u32, loc, show 8 = 2 ^ 3 from rfl,
      Nat.testBit_and,
      Nat.testBit_two_pow_mul, Nat.testBit_two_pow_mul, Nat.testBit_two_pow_sub_one,
      Nat.testBit_mod_two_pow, Nat.testBit_mod_two_pow, Nat.testBit_div_two_pow]
    by_cases hi : 24 ≤ i
    · rw [Nat.sub_add_cancel hi]
      by_cases hlt : i - 24 < 3
      · simp [hi, hlt, show i < 32 by omega]
      · simp [hlt]
    · simp [hi]
  rw [hmask]
  omega

theorem loc_lt (c : CacheInputs) : c.loc < 8 := Nat.mod_lt _ (by decide)

/-- The operands for one level; there are none for a level without data. -/
def levelOps (c : CacheInputs) (l : Nat) : List Nat :=
  if c.ctype l < 2 then []
  else (List.range (c.ways l)).reverse.flatMap fun w => (List.range (c.sets l)).reverse.map fun s =>
    c.operand l w s

theorem flushLevel_eq (c : CacheInputs) {fuel l : Nat} (hfuel : 2 ^ 15 < fuel) (hl : l < 7) :
    c.flushLevel fuel (2 * l) = some (c.levelOps l) := by
  have hctype : c.ctype l < 8 := Nat.mod_lt _ (by decide)
  simp only [flushLevel]
  rw [c.ctype_eq hl, int32_of_lt (by omega), levelOps, c.flushData_eq hfuel]
  by_cases hdata : c.ctype l < 2
  · rw [if_pos hdata, if_pos (by omega)]
  · rw [if_neg hdata, if_neg (by omega)]

theorem loop1_eq (c : CacheInputs) {fuel : Nat} (hfuel : 2 ^ 15 < fuel) {n l rounds : Nat}
    (hn : l + (n + 1) = c.loc) (hrounds : n < rounds) :
    c.loop1 fuel (2 * c.loc) rounds (2 * l) =
      some ((List.range' l (n + 1)).flatMap c.levelOps) := by
  have hloc := c.loc_lt
  induction n generalizing l rounds with
  | zero =>
    obtain ⟨rounds, rfl⟩ : ∃ k, rounds = k + 1 := ⟨rounds - 1, by omega⟩
    have hdone : ¬ int32 (2 * c.loc) > int32 (u32 (2 * l + 2)) := by
      rw [u32_of_lt (by omega), int32_of_lt (by omega), int32_of_lt (by omega)]
      omega
    simp only [loop1, c.flushLevel_eq hfuel (by omega : l < 7), Option.bind_eq_bind,
      Option.bind_some, if_neg hdone]
    simp
  | succ n ih =>
    obtain ⟨rounds, rfl⟩ : ∃ k, rounds = k + 1 := ⟨rounds - 1, by omega⟩
    have hmore : int32 (2 * c.loc) > int32 (u32 (2 * l + 2)) := by
      rw [u32_of_lt (by omega), int32_of_lt (by omega), int32_of_lt (by omega)]
      omega
    have hnext : u32 (2 * l + 2) = 2 * (l + 1) := u32_of_lt (by omega)
    have hrest := @ih (l + 1) rounds (by omega) (by omega)
    simp only [loop1, c.flushLevel_eq hfuel (by omega : l < 7), Option.bind_eq_bind,
      Option.bind_some, if_pos hmore]
    rw [hnext, hrest, Option.bind_some, ← List.flatMap_cons, ← List.range'_succ]

theorem aarch64CacheFlush_eq (c : CacheInputs) {fuel : Nat} (hfuel : 2 ^ 15 < fuel) :
    c.aarch64CacheFlush fuel = some ((List.range c.loc).flatMap c.levelOps) := by
  rw [aarch64CacheFlush, c.w3_eq]
  by_cases hzero : c.loc = 0
  · simp [hzero]
  · have hloc := c.loc_lt
    have hrun := @loop1_eq c fuel hfuel (c.loc - 1) 0 fuel (by omega) (by omega)
    rw [Nat.mul_zero, Nat.sub_add_cancel (by omega)] at hrun
    rw [if_neg (by omega)]
    exact hrun.trans (by rw [List.range_eq_range'])

end CacheInputs

/-- A line of the data caches, by the numbers of its level, its way and its set. -/
structure CacheLine where
  level : Nat
  way : Nat
  set : Nat
  deriving DecidableEq

namespace CacheInputs

/-- The line that the caches take an operand for. The number of the way is at the top of
the 32 bits, and takes as many of them as the ways need. -/
def decode (c : CacheInputs) (x : Nat) : CacheLine where
  level := x / 2 % 8
  way := x / 2 ^ (32 - Nat.clog 2 (c.ways (x / 2 % 8)))
  set := x / 2 ^ c.lineBits (x / 2 % 8) % 2 ^ Nat.clog 2 (c.sets (x / 2 % 8))

/-- The data caches that are to be flushed. -/
def Flushed (c : CacheInputs) (l : Nat) : Prop := l < c.loc ∧ 2 ≤ c.ctype l

def HasLine (c : CacheInputs) (x : CacheLine) : Prop :=
  c.Flushed x.level ∧ x.way < c.ways x.level ∧ x.set < c.sets x.level

/-- The fields of an operand have room beside each other. -/
def Fits (c : CacheInputs) : Prop :=
  ∀ l, c.Flushed l → c.lineBits l + Nat.clog 2 (c.sets l) + Nat.clog 2 (c.ways l) ≤ 32

theorem operand_eq (c : CacheInputs) {l w s : Nat}
    (hfits : c.lineBits l + Nat.clog 2 (c.sets l) + Nat.clog 2 (c.ways l) ≤ 32) (hl : l < 7)
    (hw : w < c.ways l) (hs : s < 2 ^ Nat.clog 2 (c.sets l)) :
    ∃ low, c.operand l w s = 2 ^ (32 - Nat.clog 2 (c.ways l)) * w + low ∧
      low < 2 ^ (c.lineBits l + Nat.clog 2 (c.sets l)) ∧
      low = 2 ^ c.lineBits l * s + 2 * l := by
  have hbits : 4 ≤ c.lineBits l := Nat.le_add_left ..
  have hlow : 2 * l < 2 ^ c.lineBits l :=
    (by omega : 2 * l < 2 ^ 4).trans_le (Nat.pow_le_pow_right (by decide) hbits)
  have hmid : 2 ^ c.lineBits l * s + 2 * l < 2 ^ (c.lineBits l + Nat.clog 2 (c.sets l)) := by
    rw [Nat.pow_add]
    calc 2 ^ c.lineBits l * s + 2 * l < 2 ^ c.lineBits l * (s + 1) := by
          rw [Nat.mul_succ]
          omega
      _ ≤ 2 ^ c.lineBits l * 2 ^ Nat.clog 2 (c.sets l) := Nat.mul_le_mul_left _ hs
  have hway : w * 2 ^ (clz32 (c.ways l - 1) % 32) = 2 ^ (32 - Nat.clog 2 (c.ways l)) * w := by
    rcases Nat.eq_zero_or_pos w with rfl | hpos
    · simp
    obtain ⟨hclz, hone, hten⟩ := clz32_ways (by omega : 0 < c.ways l - 1)
      (by
        rw [ways, Nat.add_sub_cancel]
        exact Nat.mod_lt _ (by decide))
    rw [Nat.sub_add_cancel (by omega)] at hclz hone hten
    rw [hclz, Nat.mod_eq_of_lt (by omega), Nat.mul_comm]
  refine ⟨2 ^ c.lineBits l * s + 2 * l, ?_, hmid, rfl⟩
  have htop := hmid.trans_le (Nat.pow_le_pow_right (by decide : 0 < 2)
    (by omega : _ ≤ 32 - Nat.clog 2 (c.ways l)))
  rw [operand, hway, Nat.two_pow_add_eq_or_of_lt htop, Nat.two_pow_add_eq_or_of_lt hlow,
    Nat.mul_comm s, Nat.lor_assoc, Nat.lor_comm, Nat.lor_assoc]

theorem decode_operand {c : CacheInputs} (hc : c.Fits) {l w s : Nat} (hl : c.Flushed l)
    (hw : w < c.ways l) (hs : s < c.sets l) :
    c.decode (c.operand l w s) = ⟨l, w, s⟩ := by
  have hl7 : l < 7 := hl.1.trans_le (Nat.le_of_lt_succ c.loc_lt)
  have hfits := hc l hl
  have hset := hs.trans_le (Nat.le_pow_clog (by decide : 1 < 2) (c.sets l))
  have hway := hw.trans_le (Nat.le_pow_clog (by decide : 1 < 2) (c.ways l))
  obtain ⟨low, hop, hlt, hlow⟩ := c.operand_eq hfits hl7 hw hset
  have hbits : 2 ^ 4 ∣ 2 ^ c.lineBits l := Nat.pow_dvd_pow 2 (Nat.le_add_left ..)
  have htop : 2 ^ (c.lineBits l + Nat.clog 2 (c.sets l)) ∣ 2 ^ (32 - Nat.clog 2 (c.ways l)) :=
    Nat.pow_dvd_pow 2 (by omega)
  have hlevel : c.operand l w s / 2 % 8 = l := by
    obtain ⟨k, hk⟩ := hbits
    obtain ⟨j, hj⟩ := (Nat.pow_dvd_pow 2 (Nat.le_add_right _ _)).trans htop
    rw [hop, hlow, hj, hk, Nat.mul_assoc, Nat.mul_assoc, Nat.mul_assoc]
    omega
  rw [decode, hlevel, CacheLine.mk.injEq]
  refine ⟨rfl, ?_, ?_⟩
  · rw [hop, Nat.mul_add_div (Nat.two_pow_pos _), Nat.div_eq_of_lt, Nat.add_zero]
    exact hlt.trans_le (Nat.le_of_dvd (Nat.two_pow_pos _) htop)
  · obtain ⟨k, hk⟩ := htop
    rw [← Nat.mod_mul_right_div_self, ← Nat.pow_add, hop, hk, Nat.mul_assoc, Nat.mul_add_mod,
      Nat.mod_eq_of_lt hlt, hlow, Nat.mul_add_div (Nat.two_pow_pos _),
      Nat.div_eq_of_lt, Nat.add_zero]
    exact (by omega : 2 * l < 2 ^ 4).trans_le (Nat.le_of_dvd (Nat.two_pow_pos _) hbits)

/-- The lines of one level, in the order in which they are cleaned. -/
def levelLines (c : CacheInputs) (l : Nat) : List CacheLine :=
  if c.ctype l < 2 then []
  else (List.range (c.ways l)).reverse.flatMap fun w => (List.range (c.sets l)).reverse.map fun s =>
    ⟨l, w, s⟩

theorem mem_levelLines (c : CacheInputs) (l : Nat) (x : CacheLine) :
    x ∈ c.levelLines l ↔ 2 ≤ c.ctype l ∧ x.level = l ∧ x.way < c.ways l ∧ x.set < c.sets l := by
  obtain ⟨level, way, set⟩ := x
  rw [levelLines]
  split
  · simp; omega
  · simp only [List.mem_flatMap, List.mem_reverse, List.mem_range, List.mem_map, CacheLine.mk.injEq]
    constructor
    · rintro ⟨w, hw, s, hs, rfl, rfl, rfl⟩
      exact ⟨by omega, rfl, hw, hs⟩
    · rintro ⟨-, rfl, hw, hs⟩
      exact ⟨way, hw, set, hs, rfl, rfl, rfl⟩

theorem nodup_levelLines (c : CacheInputs) (l : Nat) : (c.levelLines l).Nodup := by
  rw [levelLines]
  split
  · exact List.nodup_nil
  refine List.nodup_flatMap.mpr ⟨fun w _ => ?_, ?_⟩
  · exact (List.nodup_reverse.mpr List.nodup_range).map fun s s' h => (CacheLine.mk.inj h).2.2
  · refine (List.nodup_reverse.mpr List.nodup_range).imp fun hne x hx hy => ?_
    obtain ⟨_, _, rfl⟩ := List.mem_map.mp hx
    obtain ⟨_, _, heq⟩ := List.mem_map.mp hy
    exact hne (CacheLine.mk.inj heq).2.1.symm

theorem map_decode_levelOps {c : CacheInputs} (hc : c.Fits) {l : Nat} (hl : l < c.loc) :
    (c.levelOps l).map c.decode = c.levelLines l := by
  rw [levelOps, levelLines]
  split
  · rfl
  rw [List.map_flatMap]
  refine List.flatMap_congr fun w hw => ?_
  rw [List.map_map]
  refine List.map_congr_left fun s hs => ?_
  simp only [List.mem_reverse, List.mem_range] at hw hs
  exact decode_operand hc ⟨hl, by omega⟩ hw hs

/-- The lines that the operands of the whole routine stand for. -/
theorem map_decode_flush {c : CacheInputs} (hc : c.Fits) :
    ((List.range c.loc).flatMap c.levelOps).map c.decode =
      (List.range c.loc).flatMap c.levelLines := by
  rw [List.map_flatMap]
  exact List.flatMap_congr fun l hl => map_decode_levelOps hc (List.mem_range.mp hl)

theorem mem_lines (c : CacheInputs) (x : CacheLine) :
    x ∈ (List.range c.loc).flatMap c.levelLines ↔ c.HasLine x := by
  simp only [List.mem_flatMap, List.mem_range, mem_levelLines, HasLine, Flushed]
  constructor
  · rintro ⟨l, hl, hdata, rfl, hw, hs⟩
    exact ⟨⟨hl, hdata⟩, hw, hs⟩
  · rintro ⟨⟨hl, hdata⟩, hw, hs⟩
    exact ⟨_, hl, hdata, rfl, hw, hs⟩

theorem nodup_lines (c : CacheInputs) : ((List.range c.loc).flatMap c.levelLines).Nodup := by
  refine List.nodup_flatMap.mpr ⟨fun l _ => c.nodup_levelLines l,
    List.nodup_range.imp fun hne x hx hy => ?_⟩
  exact hne (((c.mem_levelLines _ x).mp hx).2.1.symm.trans ((c.mem_levelLines _ x).mp hy).2.1)

theorem lines_levels (c : CacheInputs) :
    ((List.range c.loc).flatMap c.levelLines).Pairwise fun x y => x.level ≤ y.level := by
  refine List.pairwise_flatMap.mpr ⟨fun l _ => ?_, ?_⟩
  · refine List.pairwise_of_forall_mem_list fun x hx y hy => ?_
    exact (((c.mem_levelLines _ x).mp hx).2.1.trans ((c.mem_levelLines _ y).mp hy).2.1.symm).le
  · refine List.pairwise_lt_range.imp fun hlt x hx y hy => ?_
    rw [((c.mem_levelLines _ x).mp hx).2.1, ((c.mem_levelLines _ y).mp hy).2.1]
    exact hlt.le

/-- The loops end; they clean every line of the data caches below the point of coherency
and no other, each of them once, and in an order that leaves none of them dirty. -/
theorem aarch64_cache_flush {c : CacheInputs} (hc : c.Fits) :
    ∃ ops, (∀ fuel, 2 ^ 15 < fuel → c.aarch64CacheFlush fuel = some ops) ∧
      (ops.map c.decode).Nodup ∧
      (∀ x, x ∈ ops.map c.decode ↔ c.HasLine x) ∧
      ∀ d d', CleanRun CacheLine.level (ops.map c.decode) d d' → ∀ x, c.HasLine x → x ∉ d' := by
  refine ⟨_, fun fuel hfuel => c.aarch64CacheFlush_eq hfuel, ?_⟩
  rw [map_decode_flush hc]
  refine ⟨c.nodup_lines, c.mem_lines, fun d d' hrun x hx => ?_⟩
  exact hrun.clean c.lines_levels x ((c.mem_lines x).mpr hx)

end CacheInputs

/-- Two levels with lines of 64 bytes: 4 ways of 128 sets with a cache for instructions
beside it, and 16 ways of 512 sets. -/
def exampleCaches : CacheInputs :=
  ⟨0x2000023, fun select => if select = 0 then 127 * 2 ^ 13 + 3 * 2 ^ 3 + 2
    else 511 * 2 ^ 13 + 15 * 2 ^ 3 + 2⟩

theorem exampleCaches_fits : exampleCaches.Fits := by
  intro l hl
  have hcases : l = 0 ∨ l = 1 := by
    have hlt : l < 2 := hl.1
    omega
  rcases hcases with rfl | rfl <;> decide +kernel

theorem aarch64_cache_flush_example :
    ∃ ops, (∀ fuel, 2 ^ 15 < fuel → exampleCaches.aarch64CacheFlush fuel = some ops) ∧
      ⟨0, 3, 127⟩ ∈ ops.map exampleCaches.decode ∧ ⟨1, 15, 511⟩ ∈ ops.map exampleCaches.decode ∧
      ⟨1, 16, 0⟩ ∉ ops.map exampleCaches.decode := by
  obtain ⟨ops, hrun, -, hmem, -⟩ := CacheInputs.aarch64_cache_flush exampleCaches_fits
  refine ⟨ops, hrun, (hmem _).mpr ?_, (hmem _).mpr ?_,
    fun h => absurd ((hmem _).mp h).2.1 (by decide)⟩
  · exact ⟨⟨by decide, by decide⟩, by decide, by decide⟩
  · exact ⟨⟨by decide, by decide⟩, by decide, by decide⟩

end QnxStartup
