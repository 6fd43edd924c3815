import QnxStartup.GicLpi

/-! `gic_v3_its_mapc`: the commands that the startup program puts into the command queue of an
interrupt translation service, the part of memory that it flushes, and its writes to CWRITER. -/

namespace QnxStartup

/-- The entries of `its_params`, as far as they are read. -/
structure ItsParams where
  gitsPaddrBase : Nat
  num4kPages : Nat
  deriving DecidableEq, Repr

/-- What the reads of the registers find; `GITS_CTLR`, `GITS_CWRITER` and `GITS_CREADER` are
read more than once, the others do not change. -/
structure ItsRegs where
  ctlr : Nat → Nat
  cbaser : Nat
  typer : Nat
  gicrTyper : Nat
  cwriter : Nat → Nat
  creader : Nat → Nat

/-- What the call has done to memory and to the registers, and the ranges it has flushed. -/
structure ItsEffects where
  mem : Mem
  ctlrWrites : List Nat
  cwriterWrites : List Nat
  flushed : List (Nat × Nat)

/-- `its_cmd_q_num_slots`. -/
def ItsParams.numSlots (p : ItsParams) : Nat := u32 (p.num4kPages * 4096) / 32

def make1to1Ptr (paddrBias p : Nat) : Nat := u64 (p + paddrBias)

def nextCmdQSlot (numSlots qBase curSlot qAddr : Nat) : Nat × Nat :=
  let nextSlot := u32 (curSlot + 1) % numSlots
  (nextSlot, if nextSlot = 0 then qBase else qAddr)

/-- `*tmp_its_cmd_q++ = word`. -/
def putWord (q : Mem × Nat) (word : Nat) : Mem × Nat := (writePtr q.1 q.2 word, u64 (q.2 + 8))

/-- `DCACHE_FLUSH_FOR_GIC_ITS`. -/
def dcacheFlushForGicIts (start len : Nat) : List (Nat × Nat) :=
  if len > 0 then [(start, len)] else []

namespace ItsRegs

def icidBits (r : ItsRegs) : Nat :=
  if r.typer / 2 ^ 36 % 2 = 1 then r.typer / 2 ^ 32 % 2 ^ 4 + 1 else 16

def icidMask (r : ItsRegs) : Nat := 2 ^ r.icidBits - 1

def rdBase (r : ItsRegs) (gicrBaseForCpu : Nat) : Nat :=
  if r.typer / 2 ^ 19 % 2 = 1 then gicrBaseForCpu
  else u32 (r.gicrTyper / 2 ^ 8 % 2 ^ 16 * 2 ^ max 16 r.icidBits)

def queueBase (r : ItsRegs) (paddrBias : Nat) : Nat :=
  make1to1Ptr paddrBias (r.cbaser &&& 0xFFFFFFFFFF000)

/-- The first value of `cur_slot`. -/
def startSlot (r : ItsRegs) : Nat := u32 (r.cwriter 0 / 32)

end ItsRegs

/-- Bits 51 to 16. -/
def rdBaseMask : Nat := 2 ^ 52 - 2 ^ 16

/-- The MAPC, SYNC and INVALL commands. -/
def itsCommands (r : ItsRegs) (cpu gicrBaseForCpu : Nat) : List Nat × List Nat × List Nat :=
  let icid := cpu &&& r.icidMask
  let rdBase := r.rdBase gicrBaseForCpu &&& rdBaseMask
  ([0x9, 0, icid ||| rdBase ||| 2 ^ 63, 0], [0x5, 0, rdBase, 0], [0xD, 0, icid, 0])

/-- The part of the routine between the reads of CWRITER and its first write. -/
def issueCommands (numSlots qBase paddrBias curSlot : Nat) (c : List Nat × List Nat × List Nat)
    (e : ItsEffects) :
    ItsEffects :=
  let q := u64 (qBase + u32 (curSlot * 32))
  let addrForFlush := make1to1Ptr paddrBias q
  let mapc := c.1.foldl putWord (e.mem, q)
  let next := nextCmdQSlot numSlots qBase curSlot mapc.2
  let sync := c.2.1.foldl putWord (mapc.1, next.2)
  let next := nextCmdQSlot numSlots qBase next.1 sync.2
  let invall := c.2.2.foldl putWord (sync.1, next.2)
  let flushed := dcacheFlushForGicIts addrForFlush (sub64 invall.2 addrForFlush)
  let next := nextCmdQSlot numSlots qBase next.1 invall.2
  { e with
    mem := invall.1
    cwriterWrites := e.cwriterWrites ++ [u32 (next.1 * 32) ||| 1]
    flushed := e.flushed ++ flushed }

/-- The loop that waits for the service to be quiescent, from the `i`-th read on. -/
def waitQuiescent (r : ItsRegs) : Nat → Nat → Option Nat
  | 0, _ => none
  | fuel + 1, i =>
    if r.ctlr i / 2 ^ 31 % 2 = 1 then some (r.ctlr i) else waitQuiescent r fuel (i + 1)

/-- The value written to enable the service, if it is not enabled already. -/
def enableIts (r : ItsRegs) (fuel : Nat) : Option (List Nat) :=
  if r.ctlr 0 % 2 = 1 then some [] else (waitQuiescent r fuel 0).map fun ctlr => [ctlr ||| 1]

/-- The tries from the `loop`-th to the last one: whether the queue has been worked off, and what
has been written to CWRITER meanwhile. -/
def waitProcessed (r : ItsRegs) : Nat → Nat → Bool × List Nat
  | 0, _ => (false, [])
  | tries + 1, loop =>
    if r.creader loop = r.cwriter loop then (true, [])
    else
      let (done, writes) := waitProcessed r tries (loop + 1)
      (done, if r.creader loop % 2 = 1 then (r.cwriter loop ||| 1) :: writes else writes)

/-- What the routine does remains when it crashes. -/
def gicV3ItsMapc (fuel : Nat) (params : List ItsParams) (paddrBias : Nat) (r : ItsRegs)
    (itsNum cpu gicrBaseForCpu : Nat) (m : Mem) : Startup Unit × ItsEffects :=
  let start : ItsEffects := ⟨m, [], [], []⟩
  match params[itsNum]? with
  | none => (crash assertText, start)
  | some p =>
    if p.gitsPaddrBase = 0 then (crash assertText, start)
    else
      match enableIts r fuel with
      | none => (.error .noReturn, start)
      | some ctlrWrites =>
        let e := { start with ctlrWrites := ctlrWrites }
        if ¬ r.startSlot < p.numSlots then (crash assertText, e)
        else
          let e := issueCommands p.numSlots (r.queueBase paddrBias) paddrBias r.startSlot
            (itsCommands r cpu gicrBaseForCpu) e
          let (done, writes) := waitProcessed r 255 1
          (if done then .ok () else crash assertText,
            { e with cwriterWrites := e.cwriterWrites ++ writes })

/-- The words that lie from `q` on. -/
def HoldsWords (m : Mem) : Nat → List Nat → Prop
  | _, [] => True
  | q, word :: words => readPtr m q = word ∧ HoldsWords m (q + 8) words

def slotAddr (numSlots qBase slot : Nat) : Nat := qBase + 32 * (slot % numSlots)

/-- Memory after the words of a command. -/
def putCommand (m : Mem) (q : Nat) (c : List Nat) : Mem := (c.foldl putWord (m, q)).1

section Words

variable {m m' : Mem} {q : Nat} {words : List Nat}

theorem HoldsWords.congr (h : HoldsWords m q words)
    (heq : ∀ x ∈ bytes q (8 * words.length), m' x = m x) :
    HoldsWords m' q words := by
  induction words generalizing q with
  | nil => trivial
  | cons word words ih =>
    rw [List.length_cons] at heq
    refine ⟨?_, ih h.2 fun x hx => heq x ?_⟩
    · rw [← h.1]
      refine readPtr_congr fun i hi => heq _ ?_
      rw [mem_bytes]
      omega
    · rw [mem_bytes] at hx ⊢
      omega

theorem foldl_putWord_pointer (hq : q + 8 * words.length < 2 ^ 64) :
    (words.foldl putWord (m, q)).2 = q + 8 * words.length := by
  induction words generalizing m q with
  | nil => rfl
  | cons word words ih =>
    rw [List.length_cons] at hq ⊢
    rw [List.foldl_cons, putWord, u64_of_lt (by omega), ih (by omega)]
    omega

theorem putCommand_cons {word : Nat} (hq : q + 8 < 2 ^ 64) :
    putCommand m q (word :: words) = putCommand (writePtr m q word) (q + 8) words := by
  rw [putCommand, List.foldl_cons, putWord, u64_of_lt hq, putCommand]

theorem putCommand_of_not_mem (hq : q + 8 * words.length < 2 ^ 64) {x : Nat}
    (hx : x ∉ bytes q (8 * words.length)) :
    putCommand m q words x = m x := by
  induction words generalizing m q with
  | nil => rfl
  | cons word words ih =>
    rw [List.length_cons] at hq hx
    rw [mem_bytes] at hx
    rw [putCommand_cons (by omega), ih (by omega), writePtr_of_not_mem (by omega)]
    rw [mem_bytes]
    omega

theorem putCommand_holds (hq : q + 8 * words.length < 2 ^ 64) (hw : ∀ word ∈ words, word < 2 ^ 64) :
    HoldsWords (putCommand m q words) q words := by
  induction words generalizing m q with
  | nil => trivial
  | cons word words ih =>
    rw [List.length_cons] at hq
    rw [List.forall_mem_cons] at hw
    rw [putCommand_cons (by omega)]
    refine ⟨?_, ih (by omega) hw.2⟩
    refine (readPtr_congr fun i hi => ?_).trans (readPtr_writePtr_self m q hw.1)
    refine putCommand_of_not_mem (by omega) ?_
    rw [mem_bytes]
    omega

theorem HoldsWords.putCommand {q' : Nat} {words' : List Nat} (h : HoldsWords m q words)
    (hq : q' + 8 * words'.length < 2 ^ 64)
    (hapart : ∀ x ∈ bytes q (8 * words.length), x ∉ bytes q' (8 * words'.length)) :
    HoldsWords (putCommand m q' words') q words :=
  h.congr fun x hx => putCommand_of_not_mem hq (hapart x hx)

end Words

section Ring

variable {n qBase s : Nat}

theorem nextCmdQSlot_slot (qBase : Nat) (hn : n < 2 ^ 32) (hs : s < n) :
    nextCmdQSlot n qBase s (qBase + 32 * s + 32) = ((s + 1) % n, slotAddr n qBase (s + 1)) := by
  rw [nextCmdQSlot, u32_of_lt (by omega), slotAddr]
  by_cases hwrap : (s + 1) % n = 0
  · rw [if_pos hwrap, hwrap, Nat.mul_zero, Nat.add_zero]
  · have hlt : s + 1 < n := by
      rcases Nat.lt_or_eq_of_le hs with hlt | heq
      · exact hlt
      · exact absurd (heq ▸ Nat.mod_self (s + 1)) hwrap
    rw [if_neg hwrap, Nat.mod_eq_of_lt hlt, Nat.mul_succ, Nat.add_assoc]

theorem slotAddr_add_le (qBase s : Nat) (hn : 0 < n) :
    slotAddr n qBase s + 32 ≤ qBase + 32 * n := by
  have := Nat.mod_lt s hn
  rw [slotAddr]
  omega

theorem slotAddr_disjoint (qBase s : Nat) {i j : Nat} (hn : 4 ≤ n) (hij : i < j) (hj : j < 4) :
    slotAddr n qBase (s + i) + 32 ≤ slotAddr n qBase (s + j) ∨ slotAddr n qBase (s + j) + 32 ≤
      slotAddr n qBase (s + i) := by
  have hne : (s + i) % n ≠ (s + j) % n := fun h => by
    have hsub := Nat.sub_mod_eq_zero_of_mod_eq h.symm
    rw [Nat.mod_eq_of_lt (by omega)] at hsub
    omega
  rw [slotAddr, slotAddr]
  omega

/-- One command at its slot, and the step to the next slot. -/
theorem foldl_putWord_next {c : List Nat} (m : Mem) (hn : n < 2 ^ 32) (hs : 0 < n)
    (hq : qBase + 32 * n < 2 ^ 64) (hc : c.length = 4) :
    nextCmdQSlot n qBase (s % n) (c.foldl putWord (m, slotAddr n qBase s)).2 =
      ((s + 1) % n, slotAddr n qBase (s + 1)) := by
  have hle := slotAddr_add_le qBase s hs
  have hlt := Nat.mod_lt s hs
  rw [foldl_putWord_pointer (by omega), hc]
  have hnext := nextCmdQSlot_slot qBase hn hlt
  rw [Nat.mod_add_mod] at hnext
  rw [slotAddr, hnext]
  rw [slotAddr, Nat.mod_add_mod, slotAddr]

/-- Each command at its own slot; only the flushed range depends on where the last pointer is. -/
theorem issueCommands_eq (qBase bias : Nat) (c : List Nat × List Nat × List Nat) (e : ItsEffects)
    (hn : n ≤ 2 ^ 27) (hs : s < n) (hq : qBase + 32 * n < 2 ^ 64) (hmapc : c.1.length = 4)
    (hsync : c.2.1.length = 4) (hinvall : c.2.2.length = 4) :
    issueCommands n qBase bias s c e =
      { e with
        mem := putCommand (putCommand (putCommand e.mem (slotAddr n qBase s) c.1)
          (slotAddr n qBase (s + 1)) c.2.1)
          (slotAddr n qBase (s + 2)) c.2.2
        cwriterWrites := e.cwriterWrites ++ [(s + 3) % n * 32 ||| 1]
        flushed := e.flushed ++ dcacheFlushForGicIts (make1to1Ptr bias (slotAddr n qBase s))
          (sub64 (slotAddr n qBase (s + 2) + 32) (make1to1Ptr bias (slotAddr n qBase s))) } := by
  have hpos : 0 < n := by omega
  have hmod : s % n = s := Nat.mod_eq_of_lt hs
  have hstart : u64 (qBase + u32 (s * 32)) = slotAddr n qBase s := by
    rw [u32_of_lt (by omega), u64_of_lt (by omega), slotAddr, hmod, Nat.mul_comm]
  have h1 := fun m => foldl_putWord_next (s := s) m (by omega) hpos hq hmapc
  have h2 : ∀ m, nextCmdQSlot n qBase ((s + 1) % n) (c.2.1.foldl putWord
      (m, slotAddr n qBase (s + 1))).2 =
      ((s + 2) % n, slotAddr n qBase (s + 2)) :=
    fun m => foldl_putWord_next m (by omega) hpos hq hsync
  have h3 : ∀ m, nextCmdQSlot n qBase ((s + 2) % n) (c.2.2.foldl putWord
      (m, slotAddr n qBase (s + 2))).2 =
      ((s + 3) % n, slotAddr n qBase (s + 3)) :=
    fun m => foldl_putWord_next m (by omega) hpos hq hinvall
  have hend := slotAddr_add_le qBase (s + 2) hpos
  have hlast : ∀ m, (c.2.2.foldl putWord (m, slotAddr n qBase (s + 2))).2 =
      slotAddr n qBase (s + 2) + 8 * c.2.2.length :=
    fun m => foldl_putWord_pointer (by omega)
  have hlt := Nat.mod_lt (s + 3) hpos
  rw [hmod] at h1
  simp only [issueCommands, hstart, h1, h2, h3]
  simp only [hlast, hinvall, putCommand]
  rw [u32_of_lt (by omega)]

/-- The three commands lie in their slots, and the rest of memory is as it was. -/
structure CommandsIn (n qBase s : Nat) (c : List Nat × List Nat × List Nat)
    (m m' : Mem) : Prop where
  mapc : HoldsWords m' (slotAddr n qBase s) c.1
  sync : HoldsWords m' (slotAddr n qBase (s + 1)) c.2.1
  invall : HoldsWords m' (slotAddr n qBase (s + 2)) c.2.2
  inQueue : ∀ i < 3, bytes (slotAddr n qBase (s + i)) 32 ⊆ bytes qBase (32 * n)
  outside : ∀ x, (∀ i < 3, x ∉ bytes (slotAddr n qBase (s + i)) 32) → m' x = m x

theorem commandsIn_putCommand {c : List Nat × List Nat × List Nat} (qBase s : Nat) (m : Mem)
    (hn : 4 ≤ n) (hq : qBase + 32 * n < 2 ^ 64)
    (hlen : c.1.length = 4 ∧ c.2.1.length = 4 ∧ c.2.2.length = 4)
    (hwords : ∀ word ∈ c.1 ++ c.2.1 ++ c.2.2, word < 2 ^ 64) :
    CommandsIn n qBase s c m (putCommand (putCommand (putCommand m (slotAddr n qBase s) c.1)
      (slotAddr n qBase (s + 1)) c.2.1)
      (slotAddr n qBase (s + 2)) c.2.2) := by
  obtain ⟨h1, h2, h3⟩ := hlen
  have hroom : ∀ {words : List Nat} (i : Nat), words.length = 4 →
      slotAddr n qBase (s + i) + 8 * words.length < 2 ^ 64 :=
    fun i hw => by
      have := slotAddr_add_le qBase (s + i) (show 0 < n by omega)
      omega
  have hapart : ∀ {words words' : List Nat} (i j : Nat), words.length = 4 →
      words'.length = 4 → i < j → j < 4 →
      ∀ x ∈ bytes (slotAddr n qBase (s + i)) (8 * words.length),
      x ∉ bytes (slotAddr n qBase (s + j)) (8 * words'.length) := by
    intro words words' i j hw hw' hij hj x hx hx'
    have := slotAddr_disjoint qBase s hn hij hj
    rw [mem_bytes] at hx hx'
    omega
  have hput := fun (m : Mem) (i : Nat) (words : List Nat) (hw : words.length = 4) =>
    putCommand_holds (m := m) (hroom i hw)
  refine ⟨?_, ?_, ?_, fun i _ x hx => ?_, fun x hx => ?_⟩
  · have h := hput m 0 c.1 h1 fun word hw => hwords word (by simp [hw])
    exact (h.putCommand (hroom 1 h2) (hapart 0 1 h1 h2 (by decide) (by decide))).putCommand
      (hroom 2 h3)
      (hapart 0 2 h1 h3 (by decide) (by decide))
  · have h := hput (putCommand m (slotAddr n qBase s) c.1) 1 c.2.1 h2 fun word hw =>
      hwords word (by simp [hw])
    exact h.putCommand (hroom 2 h3) (hapart 1 2 h2 h3 (by decide) (by decide))
  · exact hput _ 2 c.2.2 h3 fun word hw => hwords word (by simp [hw])
  · have hend := slotAddr_add_le qBase (s + i) (show 0 < n by omega)
    rw [mem_bytes] at hx ⊢
    exact ⟨(Nat.le_add_right ..).trans hx.1, hx.2.trans_le hend⟩
  · have hx0 := hx 0 (by decide)
    have hx1 := hx 1 (by decide)
    have hx2 := hx 2 (by decide)
    rw [putCommand_of_not_mem (hroom 2 h3) (by rwa [h3]),
      putCommand_of_not_mem (hroom 1 h2) (by rwa [h2])]
    exact putCommand_of_not_mem (hroom 0 h1) (by rwa [h1])

theorem mem_dcacheFlushForGicIts {start len : Nat} {x : Nat} :
    (∃ r ∈ dcacheFlushForGicIts start len, x ∈ bytes r.1 r.2) ↔ x ∈ bytes start len := by
  rw [dcacheFlushForGicIts]
  split
  · simp
  · next hlen =>
    rw [mem_bytes]
    simp
    omega

/-- When a command has gone to the beginning of the queue, the last pointer lies below
the first one. -/
theorem flush_covers_iff (qBase : Nat) {bias : Nat} (hn : 4 ≤ n) (hs : s < n)
    (hq : qBase + 32 * n + 2 ^ 32 < 2 ^ 64) (hbias : bias < 2 ^ 32) :
    (∀ i < 3, bytes (slotAddr n qBase (s + i)) 32 ⊆
        bytes (make1to1Ptr bias (slotAddr n qBase s))
          (sub64 (slotAddr n qBase (s + 2) + 32) (make1to1Ptr bias (slotAddr n qBase s)))) ↔
      bias = 0 ∧ s + 3 ≤ n := by
  have hslot : slotAddr n qBase s = qBase + 32 * s := by rw [slotAddr, Nat.mod_eq_of_lt hs]
  have hstart : make1to1Ptr bias (slotAddr n qBase s) = qBase + 32 * s + bias := by
    rw [make1to1Ptr, hslot, u64_of_lt (by omega)]
  rw [hstart]
  constructor
  · intro h
    have hfirst : slotAddr n qBase s ∈ bytes _ _ :=
      h 0 (by decide) (mem_bytes.mpr ⟨le_rfl, Nat.lt_add_of_pos_right (by decide)⟩)
    rw [hslot, mem_bytes] at hfirst
    have hzero : bias = 0 := by omega
    refine ⟨hzero, not_lt.mp fun hwrap => ?_⟩
    -- the slot at the beginning of the queue
    have hfront : slotAddr n qBase (s + (n - s)) = qBase := by
      rw [Nat.add_sub_cancel' hs.le, slotAddr, Nat.mod_self, Nat.mul_zero, Nat.add_zero]
    have hmem := h (n - s) (by omega) (mem_bytes.mpr ⟨le_rfl, by omega⟩)
    rw [hfront, mem_bytes] at hmem
    omega
  · rintro ⟨rfl, hle⟩ i hi x hx
    have hat : ∀ j < 3, slotAddr n qBase (s + j) = qBase + 32 * (s + j) := fun j hj => by
      rw [slotAddr, Nat.mod_eq_of_lt (by omega)]
    rw [hat i hi, mem_bytes] at hx
    rw [hat 2 (by decide), sub64_of_le (by omega) (by omega), mem_bytes]
    omega

end Ring

section Mapc

variable {r : ItsRegs}

theorem itsCommands_lt (r : ItsRegs) (cpu gicrBaseForCpu : Nat) :
    ∀ word ∈ (itsCommands r cpu gicrBaseForCpu).1 ++ (itsCommands r cpu gicrBaseForCpu).2.1 ++
      (itsCommands r cpu gicrBaseForCpu).2.2, word < 2 ^ 64 := by
  have hbits : r.icidBits ≤ 16 := by
    rw [ItsRegs.icidBits]
    split
    · omega
    · exact le_rfl
  have hicid : cpu &&& r.icidMask < 2 ^ 64 := by
    have hpow := Nat.pow_le_pow_right (show 0 < 2 by decide) hbits
    have hand := Nat.and_le_right (n := cpu) (m := r.icidMask)
    rw [ItsRegs.icidMask] at hand ⊢
    omega
  have hbase : r.rdBase gicrBaseForCpu &&& rdBaseMask < 2 ^ 64 :=
    Nat.and_le_right.trans_lt (by decide)
  have hmapc := Nat.or_lt_two_pow (Nat.or_lt_two_pow hicid hbase) (show 2 ^ 63 < 2 ^ 64 by decide)
  intro word hword
  simp only [itsCommands, List.mem_append, List.mem_cons, List.not_mem_nil, or_false] at hword
  omega

theorem waitQuiescent_some {i k : Nat} (h : r.ctlr (i + k) / 2 ^ 31 % 2 = 1) {fuel : Nat}
    (hfuel : k < fuel) :
    ∃ ctlr, waitQuiescent r fuel i = some ctlr := by
  induction k generalizing i fuel with
  | zero =>
    obtain ⟨fuel, rfl⟩ := Nat.exists_eq_add_of_lt hfuel
    rw [Nat.add_zero] at h
    rw [Nat.zero_add, waitQuiescent, if_pos h]
    exact ⟨_, rfl⟩
  | succ k ih =>
    obtain ⟨fuel, rfl⟩ : ∃ n, fuel = n + 1 := ⟨fuel - 1, by omega⟩
    rw [waitQuiescent]
    split
    · exact ⟨_, rfl⟩
    · exact ih (by rwa [Nat.add_assoc, Nat.add_comm 1]) (by omega)

theorem waitProcessed_writes {tries loop : Nat} :
    ∀ w ∈ (waitProcessed r tries loop).2, ∃ i, w = r.cwriter i ||| 1 := by
  induction tries generalizing loop with
  | zero => simp [waitProcessed]
  | succ tries ih =>
    rw [waitProcessed]
    split
    · simp
    · intro w hw
      dsimp only at hw
      split at hw
      · rcases List.mem_cons.mp hw with rfl | hw
        · exact ⟨loop, rfl⟩
        · exact ih w hw
      · exact ih w hw

theorem enableIts_some (hquiet : r.ctlr 0 % 2 = 1 ∨ ∃ i, r.ctlr i / 2 ^ 31 % 2 = 1) :
    ∃ rounds, ∀ fuel ≥ rounds, ∃ writes, enableIts r fuel = some writes := by
  rcases hquiet with henabled | ⟨i, hi⟩
  · exact ⟨0, fun fuel _ => ⟨[], if_pos henabled⟩⟩
  · refine ⟨i + 1, fun fuel hfuel => ?_⟩
    rw [enableIts]
    split
    · exact ⟨_, rfl⟩
    · obtain ⟨ctlr, hctlr⟩ := waitQuiescent_some (i := 0) (k := i) (by rwa [Nat.zero_add]) hfuel
      exact ⟨[ctlr ||| 1], by rw [hctlr, Option.map_some]⟩

/-- The commands and CWRITER are right wherever the routine starts in the queue; what it flushes
is right only where no command has to go to the beginning of the queue. -/
theorem gicV3ItsMapc_ring {params : List ItsParams} {p : ItsParams} {bias itsNum : Nat}
    (cpu gicrBaseForCpu : Nat) (m : Mem) (hits : params[itsNum]? = some p)
    (hbase : p.gitsPaddrBase ≠ 0) (hquiet : r.ctlr 0 % 2 = 1 ∨ ∃ i, r.ctlr i / 2 ^ 31 % 2 = 1)
    (hn : 4 ≤ p.numSlots) (hs : r.startSlot < p.numSlots) (hbias : bias < 2 ^ 32) :
    ∃ rounds, ∀ fuel ≥ rounds,
      let e := (gicV3ItsMapc fuel params bias r itsNum cpu gicrBaseForCpu m).2
      CommandsIn p.numSlots (r.queueBase bias) r.startSlot
        (itsCommands r cpu gicrBaseForCpu) m e.mem ∧
        (∃ retries, e.cwriterWrites = ((r.startSlot + 3) % p.numSlots * 32 ||| 1) :: retries ∧
          ∀ w ∈ retries, ∃ i, w = r.cwriter i ||| 1) ∧
        ((∀ i < 3, bytes (slotAddr p.numSlots (r.queueBase bias) (r.startSlot + i)) 32 ⊆
            {x | ∃ f ∈ e.flushed, x ∈ bytes f.1 f.2}) ↔
            bias = 0 ∧ r.startSlot + 3 ≤ p.numSlots) := by
  obtain ⟨rounds, hrounds⟩ := enableIts_some hquiet
  refine ⟨rounds, fun fuel hfuel => ?_⟩
  obtain ⟨writes, hwrites⟩ := hrounds fuel hfuel
  have hslots : p.numSlots ≤ 2 ^ 27 := by
    have := u32_lt (p.num4kPages * 4096)
    rw [ItsParams.numSlots]
    omega
  have hqueue : r.queueBase bias < 2 ^ 53 := by
    have hand := Nat.and_le_right (n := r.cbaser) (m := 0xFFFFFFFFFF000)
    rw [ItsRegs.queueBase, make1to1Ptr, u64_of_lt (by omega)]
    omega
  have hissue := issueCommands_eq (r.queueBase bias) bias (itsCommands r cpu gicrBaseForCpu)
    ⟨m, writes, [], []⟩ hslots hs (by omega) rfl rfl rfl
  have hwords := itsCommands_lt r cpu gicrBaseForCpu
  have hin := commandsIn_putCommand (r.queueBase bias) r.startSlot m hn (by omega)
    ⟨rfl, rfl, rfl⟩ hwords
  simp only [gicV3ItsMapc, hits, if_neg hbase, hwrites, if_neg (not_not.mpr hs),
    hissue, List.nil_append]
  refine ⟨hin, ⟨_, rfl, waitProcessed_writes⟩, ?_⟩
  rw [← flush_covers_iff (r.queueBase bias) hn hs (by omega) hbias]
  refine forall₂_congr fun i _ => ?_
  simp only [mem_dcacheFlushForGicIts]
  rfl

end Mapc

def exampleIts : ItsParams := ⟨0x17a40000, 1⟩

/-- An enabled service whose queue of 128 slots is written from `slot` on. -/
def exampleItsRegs (slot : Nat) : ItsRegs where
  ctlr := fun _ => 1
  cbaser := 0x80000000
  typer := 0
  gicrTyper := 0
  cwriter := fun i => if i = 0 then slot * 32 else (slot + 3) % 128 * 32
  creader := fun _ => (slot + 3) % 128 * 32

theorem gicV3ItsMapc_ring_example :
    ∃ rounds, ∀ fuel ≥ rounds,
      let e := (gicV3ItsMapc fuel [exampleIts] 0 (exampleItsRegs 5) 0 1 0x17a60000 fun _ => 0).2
      (∀ i < 3, bytes (slotAddr 128 0x80000000 (5 + i)) 32 ⊆
        {x | ∃ f ∈ e.flushed, x ∈ bytes f.1 f.2}) ∧
        ∃ retries, e.cwriterWrites = (8 * 32 ||| 1) :: retries := by
  have hits : [exampleIts][0]? = some exampleIts := rfl
  have hquiet : (exampleItsRegs 5).ctlr 0 % 2 = 1 := rfl
  obtain ⟨rounds, h⟩ := gicV3ItsMapc_ring 1 0x17a60000 (fun _ => 0) hits (by decide) (.inl hquiet)
    (by decide) (by decide)
    (show 0 < 2 ^ 32 by decide)
  refine ⟨rounds, fun fuel hfuel => ?_⟩
  obtain ⟨-, ⟨retries, hwrites, -⟩, hcover⟩ := h fuel hfuel
  exact ⟨hcover.mpr (by decide), retries, hwrites⟩

/-- From the last slot on, the second and third command lie below what is flushed. -/
theorem gicV3ItsMapc_unflushed :
    ¬ ∀ i < 3, bytes (slotAddr 128 0x80000000 (127 + i)) 32 ⊆
      {x | ∃ f ∈ (gicV3ItsMapc 1 [exampleIts] 0 (exampleItsRegs 127) 0 1 0x17a60000
        fun _ => 0).2.flushed,
        x ∈ bytes f.1 f.2} := by
  have hflushed :
      (gicV3ItsMapc 1 [exampleIts] 0 (exampleItsRegs 127) 0 1 0x17a60000 fun _ => 0).2.flushed =
      [(0x80000000 + 127 * 32, 2 ^ 64 - 125 * 32)] := by decide
  intro h
  obtain ⟨f, hf, hx⟩ := h 1 (by decide)
    (mem_bytes.mpr ⟨le_rfl, Nat.lt_add_of_pos_right (by decide)⟩)
  rw [hflushed, List.mem_singleton] at hf
  rw [hf, mem_bytes] at hx
  exact absurd hx.1 (by decide)

end QnxStartup
