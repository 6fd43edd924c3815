import Mathlib.Data.Set.Basic
import QnxStartup.Machine

/-! `callout_cache_armv8.S`: a caller has the lines of a range maintained by as many calls as it
takes, while other processors go on storing and caches go on loading and evicting lines. -/

namespace QnxStartup

section

variable {α β : Type*}

/-- The values that the processors see, and copies of them that may be out of date: what
memory holds for a data cache, what is cached for an instruction cache. -/
structure Copies (α β : Type*) where
  value : α → β
  copy : α → Option β

inductive CopyEvent (α β : Type*) where
  | sync (line : Set α)
  | refill
  | store (a : α) (b : β)

def Copies.Fresh (s : Copies α β) (a : α) : Prop := ∀ b, s.copy a = some b → b = s.value a

inductive CopyStep : Copies α β → CopyEvent α β → Copies α β → Prop
  | sync {s : Copies α β} {line : Set α} {copy : α → Option β}
      (hin : ∀ a ∈ line, ∀ b, copy a = some b → b = s.value a)
      (hout : ∀ a ∉ line, copy a = s.copy a) : CopyStep s (.sync line) { s with copy }
  | refill {s : Copies α β} {copy : α → Option β}
      (h : ∀ a b, copy a = some b → s.copy a = some b ∨ b = s.value a) :
      CopyStep s .refill { s with copy }
  | store {s : Copies α β} {value : α → β} {a : α} (h : ∀ x, x ≠ a → value x = s.value x) :
      CopyStep s (.store a (value a)) { s with value }

inductive CopyRun : Copies α β → List (CopyEvent α β) → Copies α β → Prop
  | nil (s : Copies α β) : CopyRun s [] s
  | cons {s s₁ s' : Copies α β} {e : CopyEvent α β} {es : List (CopyEvent α β)}
      (h : CopyStep s e s₁) (run : CopyRun s₁ es s') :
      CopyRun s (e :: es) s'

theorem CopyStep.fresh {s s' : Copies α β} {e : CopyEvent α β} {a : α} (h : CopyStep s e s')
    (hfresh : s.Fresh a) (hstore : ∀ b, e ≠ .store a b) : s'.Fresh a := by
  intro b hb
  cases h with
  | @sync line _ hin hout =>
    by_cases hmem : a ∈ line
    · exact hin a hmem b hb
    · exact hfresh b ((hout a hmem).symm.trans hb)
  | refill hrefill => exact (hrefill a b hb).elim (hfresh b) id
  | @store value x hother =>
    have hne : a ≠ x := by
      rintro rfl
      exact hstore _ rfl
    exact (hfresh b hb).trans (hother a hne).symm

/-- What is brought up to date stays so until it is stored to. -/
theorem CopyRun.fresh {s s' : Copies α β} {es : List (CopyEvent α β)} {a : α}
    (run : CopyRun s es s') (hsync : s.Fresh a ∨ ∃ line, .sync line ∈ es ∧ a ∈ line)
    (hstore : ∀ b, .store a b ∉ es) : s'.Fresh a := by
  induction run with
  | nil _ => exact hsync.elim id fun ⟨_, hmem, _⟩ => absurd hmem List.not_mem_nil
  | @cons s s₁ s' e es h run ih =>
    have hhere : ∀ b, e ≠ .store a b := fun b he => hstore b (he ▸ List.mem_cons_self)
    refine ih ?_ fun b hb => hstore b (List.mem_cons_of_mem _ hb)
    rcases hsync with hfresh | ⟨line, hmem, ha⟩
    · exact .inl (h.fresh hfresh hhere)
    · rcases List.mem_cons.mp hmem with rfl | hmem
      · cases h with
        | sync hin hout => exact .inl (hin a ha)
      · exact .inr ⟨line, hmem, ha⟩

/-- The lines that are brought up to date, in their order. -/
def synced : List (CopyEvent α β) → List (Set α) :=
  List.filterMap fun e =>
    match e with
    | .sync line => some line
    | _ => none

theorem mem_synced {es : List (CopyEvent α β)} {line : Set α} :
    line ∈ synced es ↔ .sync line ∈ es := by
  constructor
  · intro h
    obtain ⟨e, he, hline⟩ := List.mem_filterMap.mp h
    cases e with
    | sync line' => exact Option.some.inj hline ▸ he
    | refill => cases hline
    | store a b => cases hline
  · exact fun h => List.mem_filterMap.mpr ⟨_, h, rfl⟩

end

def wholeCache : Nat := 1024

def maxLines : Nat := 32

/-- The instructions of the callouts, with the contents of `x2`. -/
inductive CacheOp where
  | icIalluis
  | icIvau (x2 : Nat)
  | dcCvac (x2 : Nat)
  | dcCivac (x2 : Nat)
  deriving DecidableEq, Repr

/-- A loop closed by `subs` and `b.ne`. -/
def opLoop (op : Nat → CacheOp) (x3 : Nat) : Nat → Nat → Nat → List CacheOp
  | 0, _, _ => []
  | fuel + 1, x2, x1 =>
    op x2 :: if sub64 x1 1 = 0 then [] else opLoop op x3 fuel (u64 (x2 + x3)) (sub64 x1 1)

/-- `cache_armv8_icache`, with what it returns; `x3` is the size of a line. -/
def cacheArmv8Icache (x3 x0 x1 : Nat) : List CacheOp × Nat :=
  if x1 ≥ wholeCache then ([.icIalluis], 0)
  else
    let x1 := if x1 ≤ maxLines then x1 else maxLines
    (opLoop .icIvau x3 (2 ^ 64) x0 x1, x1)

/-- `cache_armv8_dcache`. -/
def cacheArmv8Dcache (msInvalidate flags x3 x0 x1 : Nat) : List CacheOp × Nat :=
  let x1 := if x1 ≤ maxLines then x1 else maxLines
  (opLoop (if flags &&& msInvalidate = 0 then .dcCvac else .dcCivac) x3 (2 ^ 64) x0 x1, x1)

/-- A caller that goes on behind the lines that were processed, until none is left or all of the
cache was. The operations are listed call by call. -/
def maintain (control : Nat → Nat → List CacheOp × Nat) (lineSize : Nat) :
    Nat → Nat → Nat → Option (List (List CacheOp))
  | 0, _, _ => none
  | fuel + 1, base, lines =>
    let (ops, done) := control base lines
    if done = 0 ∨ done = lines then some [ops]
    else (maintain control lineSize fuel (base + done * lineSize) (lines - done)).map (ops :: ·)

/-- What an operation brings up to date: the line with its address. -/
def CacheOp.line (lineSize : Nat) : CacheOp → Set Nat
  | icIalluis => Set.univ
  | icIvau x2 | dcCvac x2 | dcCivac x2 => {a | a / lineSize = x2 / lineSize}

section

variable {op : Nat → CacheOp} {lineSize base n : Nat}

theorem opLoop_eq {fuel : Nat} (hn : 0 < n) (hfuel : n ≤ fuel) (hlt : n < 2 ^ 64)
    (hfit : base + n * lineSize ≤ 2 ^ 64) (hL : 0 < lineSize) :
    opLoop op lineSize fuel base n = (List.range n).map fun i => op (base + i * lineSize) := by
  induction n generalizing fuel base with
  | zero => omega
  | succ n ih =>
    obtain ⟨fuel, rfl⟩ : ∃ k, fuel = k + 1 := ⟨fuel - 1, by omega⟩
    have hrest : sub64 (n + 1) 1 = n := by rw [sub64_of_le hlt (by omega), Nat.add_sub_cancel]
    rw [opLoop, hrest, List.range_succ_eq_map, List.map_cons, List.map_map,
      Nat.zero_mul, Nat.add_zero]
    by_cases hzero : n = 0
    · subst hzero
      rfl
    · rw [Nat.succ_mul] at hfit
      have hmul : lineSize ≤ n * lineSize := Nat.le_mul_of_pos_left _ (by omega)
      rw [if_neg hzero, u64_of_lt (by omega), ih (by omega) (by omega) (by omega) (by omega)]
      refine congrArg (op base :: ·) (List.map_congr_left fun i _ => ?_)
      rw [Function.comp_apply, Nat.succ_mul, Nat.add_assoc, Nat.add_comm lineSize]

/-- A callout that maintains at most `maxLines` lines and says how many. -/
structure Limited (op : Nat → CacheOp) (lineSize : Nat) (control : Nat → Nat → List CacheOp × Nat)
    (n : Nat) : Prop where
  run : ∀ base k, 0 < k → k ≤ n → base + k * lineSize ≤ 2 ^ 64 →
    control base k = ((List.range (min k maxLines)).map fun i => op (base + i * lineSize),
      min k maxLines)

theorem limit_eq (n : Nat) : (if n ≤ maxLines then n else maxLines) = min n maxLines := by
  unfold maxLines
  split <;> omega

theorem loop_limited {k : Nat} (hk : 0 < k) (hfit : base + k * lineSize ≤ 2 ^ 64)
    (hL : 0 < lineSize) :
    opLoop op lineSize (2 ^ 64) base (min k maxLines) =
      (List.range (min k maxLines)).map fun i => op (base + i * lineSize) := by
  have hmul : min k maxLines * lineSize ≤ k * lineSize :=
    Nat.mul_le_mul_right _ (Nat.min_le_left ..)
  have hmin : 0 < min k maxLines ∧ min k maxLines ≤ 32 := by
    unfold maxLines
    omega
  exact opLoop_eq hmin.1 (by omega) (by omega) (by omega) hL

theorem icache_limited (hL : 0 < lineSize) (hn : n < wholeCache) :
    Limited .icIvau lineSize (cacheArmv8Icache lineSize) n where
  run := fun base k hk hkn hfit => by
    rw [cacheArmv8Icache, if_neg (by omega)]
    simp only [limit_eq, loop_limited hk hfit hL]

theorem dcache_limited (msInvalidate flags : Nat) (hL : 0 < lineSize) :
    Limited (if flags &&& msInvalidate = 0 then .dcCvac else .dcCivac) lineSize
      (cacheArmv8Dcache msInvalidate flags lineSize) n where
  run := fun base k hk _ hfit => by
    rw [cacheArmv8Dcache]
    simp only [limit_eq, loop_limited hk hfit hL]

/-- The calls do each line once, in order, and no more than `maxLines` lines each. -/
structure Calls (op : Nat → CacheOp) (lineSize base n : Nat)
    (calls : List (List CacheOp)) : Prop where
  ops : calls.flatten = (List.range n).map fun i => op (base + i * lineSize)
  short : ∀ ops ∈ calls, ops.length ≤ maxLines
  count : calls.length = (n + 31) / 32

theorem maintain_calls {control : Nat → Nat → List CacheOp × Nat} {fuel : Nat}
    (h : Limited op lineSize control n) (hn : 0 < n) (hfuel : n ≤ fuel)
    (hfit : base + n * lineSize ≤ 2 ^ 64) :
    ∃ calls, maintain control lineSize fuel base n = some calls ∧
      Calls op lineSize base n calls := by
  induction fuel generalizing base n with
  | zero => omega
  | succ fuel ih =>
    rw [maintain, h.run base n hn le_rfl hfit]
    dsimp only
    by_cases hlast : n ≤ maxLines
    · rw [Nat.min_eq_left hlast, if_pos (.inr rfl)]
      refine ⟨_, rfl, by simp, by simpa using hlast, ?_⟩
      unfold maxLines at hlast
      rw [List.length_singleton]
      omega
    · have hmax : maxLines = 32 := rfl
      rw [Nat.min_eq_right (by omega), if_neg (by omega)]
      have hsplit : n * lineSize = maxLines * lineSize + (n - maxLines) * lineSize := by
        rw [← Nat.add_mul, Nat.add_sub_cancel' (by omega)]
      obtain ⟨calls, hcalls, hrest⟩ := ih ⟨fun b k hk hle => h.run b k hk (by omega)⟩
        (by omega) (by omega)
        (show base + maxLines * lineSize + (n - maxLines) * lineSize ≤ 2 ^ 64 by omega)
      rw [hcalls]
      refine ⟨_, rfl, ?_, ?_, ?_⟩
      · have hshift : ∀ i, base + maxLines * lineSize + i * lineSize =
            base + (maxLines + i) * lineSize := fun i => by
          rw [Nat.add_mul, Nat.add_assoc]
        have hrange : List.range n = List.range maxLines ++ (List.range (n - maxLines)).map
            (maxLines + ·) := by
          rw [← List.range_add, Nat.add_sub_cancel' (by omega)]
        rw [List.flatten_cons, hrest.ops, hrange, List.map_append, List.map_map]
        simp only [hshift, Function.comp_def]
      · intro ops hops
        rcases List.mem_cons.mp hops with rfl | hops
        · simp
        · exact hrest.short ops hops
      · rw [List.length_cons, hrest.count]
        omega

/-- In every run with the operations in this order, whatever is stored and loaded in
between, the copies of the range are up to date in the end, but for what was stored
to. -/
def UpToDate (lineSize : Nat) (ops : List CacheOp) (range : Set Nat) : Prop :=
  ∀ (s s' : Copies Nat UInt8) (es : List (CopyEvent Nat UInt8)), CopyRun s es s' →
    synced es = ops.map (CacheOp.line lineSize) → ∀ a ∈ range, (∀ b, .store a b ∉ es) → s'.Fresh a

theorem upToDate_of_lines {ops : List CacheOp} {range : Set Nat}
    (h : ∀ a ∈ range, ∃ o ∈ ops, a ∈ o.line lineSize) :
    UpToDate lineSize ops range := by
  intro s s' es run hops a ha hstore
  obtain ⟨o, ho, hline⟩ := h a ha
  exact run.fresh (.inr ⟨o.line lineSize, mem_synced.mp (hops ▸ List.mem_map_of_mem ho),
    hline⟩) hstore

theorem Calls.upToDate {calls : List (List CacheOp)} (h : Calls op lineSize base n calls)
    (hL : 0 < lineSize) (hd : lineSize ∣ base)
    (hline : ∀ x, (op x).line lineSize = {a | a / lineSize = x / lineSize}) :
    UpToDate lineSize calls.flatten (bytes base (n * lineSize)) := by
  refine upToDate_of_lines fun a ha => ?_
  obtain ⟨b, rfl⟩ := hd
  rw [mem_bytes] at ha
  have hlow : b ≤ a / lineSize := (Nat.le_div_iff_mul_le hL).mpr (by rw [Nat.mul_comm]; exact ha.1)
  have hhigh : a / lineSize < b + n := (Nat.div_lt_iff_lt_mul hL).mpr (by
    rw [Nat.add_mul, Nat.mul_comm b]
    exact ha.2)
  refine ⟨op (lineSize * b + (a / lineSize - b) * lineSize), ?_, ?_⟩
  · rw [h.ops]
    exact List.mem_map_of_mem (List.mem_range.mpr (by omega))
  · rw [hline, Set.mem_ofPred_eq, Nat.mul_comm lineSize, ← Nat.add_mul, Nat.add_sub_cancel' hlow,
      Nat.mul_div_cancel _ hL]

end

/-- A range of whole lines: the data callout cleans, or cleans and invalidates, each
line once and in order, and so does the instruction callout, that gives all of the cache
up instead from 1024 lines on. Either way the copies are up to date in the end, with up
to 32 lines in each of the calls. -/
theorem cache_armv8 {msInvalidate flags lineSize base n : Nat} (hL : 0 < lineSize)
    (hd : lineSize ∣ base) (hn : 0 < n) (hfit : base + n * lineSize ≤ 2 ^ 64) :
    (∃ calls, maintain (cacheArmv8Dcache msInvalidate flags lineSize) lineSize n base n =
      some calls ∧
      Calls (if flags &&& msInvalidate = 0 then .dcCvac else .dcCivac) lineSize base n calls ∧
      UpToDate lineSize calls.flatten (bytes base (n * lineSize))) ∧
    ∃ calls, maintain (cacheArmv8Icache lineSize) lineSize n base n = some calls ∧
      (if n < wholeCache then Calls .icIvau lineSize base n calls else calls = [[.icIalluis]]) ∧
      UpToDate lineSize calls.flatten (bytes base (n * lineSize)) := by
  constructor
  · obtain ⟨calls, hcalls, h⟩ :=
      maintain_calls (dcache_limited msInvalidate flags hL) hn le_rfl hfit
    refine ⟨calls, hcalls, h, h.upToDate hL hd fun x => ?_⟩
    split <;> rfl
  · by_cases hsmall : n < wholeCache
    · obtain ⟨calls, hcalls, h⟩ := maintain_calls (icache_limited hL hsmall) hn le_rfl hfit
      refine ⟨calls, hcalls, ?_, h.upToDate hL hd fun _ => rfl⟩
      rw [if_pos hsmall]
      exact h
    · obtain ⟨fuel, rfl⟩ : ∃ k, n = k + 1 := ⟨n - 1, by omega⟩
      refine ⟨[[.icIalluis]], ?_, by rw [if_neg hsmall], upToDate_of_lines fun a _ =>
        ⟨.icIalluis, by simp, Set.mem_univ a⟩⟩
      rw [maintain, cacheArmv8Icache, if_pos (not_lt.mp hsmall)]
      rfl

theorem cache_armv8_example :
    ∃ calls, maintain (cacheArmv8Dcache 2 1 64) 64 40 0x80000000 40 = some calls ∧
      calls.length = 2 ∧
      UpToDate 64 calls.flatten (bytes 0x80000000 0xa00) := by
  obtain ⟨⟨calls, hcalls, h, hfresh⟩, -⟩ :=
    @cache_armv8 2 1 64 0x80000000 40 (by decide) (by decide) (by decide) (by decide)
  exact ⟨calls, hcalls, h.count, hfresh⟩

end QnxStartup
