import Mathlib.Data.Set.Insert
import Mathlib.Tactic.IntervalCases
import QnxStartup.Interleaving

/-! `callout_interrupt_qoriq_lsx_msi_v1.S` and `_v2.S`: message registers that a load clears, and a
cached word for what has been loaded and not yet been identified. -/

namespace QnxStartup

/-- The message registers that a call loads, and the one that has a vector. -/
structure QoriqMsi where
  regs : Nat
  reg : Nat → Nat

def qoriqLsxMsiV1 : QoriqMsi := ⟨1, fun _ => 0⟩

def qoriqLsxMsiV2 : QoriqMsi := ⟨4, fun v => v / 8⟩

/-- `rev` of a 32-bit register. -/
def rev32 (x : BitVec 32) : BitVec 32 :=
  x <<< 24 ||| (x <<< 8 &&& 0xff0000#32) ||| (x >>> 8 &&& 0xff00#32) ||| x >>> 24

/-- The bit of a vector in the big-endian registers, as a load gives them. -/
def msirBit (v : Nat) : Nat := 8 * (v / 8) + (7 - v % 8)

/-- Where a processor stands in the callout, with the registers that it goes on with. -/
inductive MsiPc where
  | idle
  | loadMsir (k : Nat) (w0 : BitVec 32)
  | loadCached (w0 : BitVec 32)
  | store (w1 : BitVec 32) (w19 : Nat)

structure MsiState where
  msir : Nat → BitVec 32
  cached : BitVec 32
  pc : MsiPc

inductive MsiEvent where
  | raised (v : Nat)
  | identified (v : Nat)
  | nothing
  | other
  deriving DecidableEq, Repr

/-- One load or store of `interrupt_id_qoriq_lsx_msi_v1` or `_v2`, with the instructions
up to the next. -/
def interruptIdStep (c : QoriqMsi) (s : MsiState) : MsiEvent × MsiState :=
  match s.pc with
  | .idle => (.other, { s with pc := .loadMsir 0 0 })
  | .loadMsir k w0 =>
    let w0 := w0 ||| s.msir k
    (.other, { s with msir := Function.update s.msir k 0,
                      pc := if k + 1 < c.regs then .loadMsir (k + 1) w0
                        else .loadCached (rev32 w0) })
  | .loadCached w0 =>
    let w1 := s.cached ||| w0
    if w1 = 0 then (.nothing, { s with pc := .idle })
    else
      let w19 := w1.clz.toNat
      (.other, { s with pc := .store (w1 &&& ~~~(1#32 <<< w19).reverse) w19 })
  | .store w1 w19 => (.identified w19, { s with cached := w1, pc := .idle })

/-- The processor that serves the interrupt, and the devices by their vectors. -/
def msiStep (c : QoriqMsi) : Option Nat → MsiState → Option (MsiEvent × MsiState)
  | none, s => some (interruptIdStep c s)
  | some v, s =>
    if v < 32 then
      some (.raised v,
        { s with msir := Function.update s.msir (c.reg v) (s.msir (c.reg v) |||
          BitVec.twoPow 32 (msirBit v)) })
    else none

def msiInit : MsiState := ⟨fun _ => 0, 0, .idle⟩

/-- The vectors that were raised and have not been identified since. -/
def unserved (t : List MsiEvent) : Set Nat :=
  t.foldl (fun p e =>
    match e with
    | .raised v => insert v p
    | .identified v => p \ {v}
    | _ => p) ∅

/-- The vector is in its register. -/
def MsiState.inMsir (c : QoriqMsi) (s : MsiState) (v : Nat) : Bool :=
  (s.msir (c.reg v)).getLsbD (msirBit v)

/-- The vector is among those that have been loaded and not yet merged with the cached word. -/
def MsiState.inHand (s : MsiState) (v : Nat) : Bool :=
  match s.pc with
  | .loadMsir _ w0 => w0.getLsbD (msirBit v)
  | .loadCached w0 => w0.getLsbD (31 - v)
  | _ => false

/-- The vector is in the cached word, or will be when the call is over, or is the one
that it identifies. -/
def MsiState.inCached (s : MsiState) (v : Nat) : Bool :=
  match s.pc with
  | .store w1 w19 => w1.getLsbD (31 - v) || v == w19
  | _ => s.cached.getLsbD (31 - v)

/-! ### The bits -/

theorem msirBit_lt {v : Nat} (hv : v < 32) : msirBit v < 32 := by
  unfold msirBit
  omega

theorem msirBit_inj {v w : Nat} (h : msirBit v = msirBit w) : v = w := by
  unfold msirBit at h
  omega

theorem rev32_bit (x : BitVec 32) {v : Nat} (hv : v < 32) :
    (rev32 x).getLsbD (31 - v) = x.getLsbD (msirBit v) := by
  interval_cases v <;> simp [rev32, msirBit]

theorem vector_bit {w19 v : Nat} (w1 : BitVec 32) (hw : w19 < 32) (hv : v < 32) :
    (w1 &&& ~~~(1#32 <<< w19).reverse).getLsbD (31 - v) = (w1.getLsbD (31 - v) && !(v == w19)) := by
  have hone : (1#32).getLsbD (v - w19) = (v - w19 == 0) := by
    cases v - w19 with
    | zero => rfl
    | succ n => simp
  have hbit : (1#32 <<< w19).reverse.getLsbD (31 - v) = (v == w19) := by
    rw [BitVec.getLsbD_reverse, BitVec.getMsbD_eq_getLsbD,
      show 32 - 1 - (31 - v) = v by omega, BitVec.getLsbD_shiftLeft, hone,
      decide_eq_true (by omega : 31 - v < 32), decide_eq_true hv]
    by_cases heq : v = w19
    · subst heq
      simp
    · simp only [Bool.true_and, beq_eq_false_iff_ne.mpr heq, Bool.and_eq_false_iff,
        beq_eq_false_iff_ne, Bool.not_eq_false', decide_eq_true_eq]
      omega
  rw [BitVec.getLsbD_and, BitVec.getLsbD_not, hbit, decide_eq_true (by omega), Bool.true_and]

theorem clz_vector {w1 : BitVec 32} (h : w1 ≠ 0) :
    w1.clz.toNat < 32 ∧ w1.getLsbD (31 - w1.clz.toNat) = true :=
  ⟨BitVec.lt_def.mp (BitVec.clz_lt_iff_ne_zero.mpr h),
    BitVec.getLsbD_true_clz_of_ne_zero (by decide) h⟩

/-! ### What a run keeps -/

section

variable {c : QoriqMsi} {s s' : MsiState} {t : List MsiEvent} {e : MsiEvent}

theorem last_event {pre post : List MsiEvent} {x : MsiEvent} (h : t ++ [e] = pre ++ x :: post) :
    (post = [] ∧ e = x) ∨ ∃ post', post = post' ++ [e] ∧ t = pre ++ x :: post' := by
  rcases List.eq_nil_or_concat post with rfl | ⟨post', e', rfl⟩
  · exact .inl ⟨rfl, List.singleton_inj.mp (List.append_inj' h rfl).2⟩
  · rw [List.concat_eq_append, ← List.cons_append, ← List.append_assoc] at h
    obtain ⟨ht, he⟩ := List.append_inj' h rfl
    obtain rfl := List.singleton_inj.mp he
    exact .inr ⟨post', List.concat_eq_append .., ht⟩

theorem mem_unserved_append {v : Nat} :
    v ∈ unserved (t ++ [e]) ↔ e = .raised v ∨ v ∈ unserved t ∧ e ≠ .identified v := by
  rw [unserved, List.foldl_append]
  change v ∈ (match e with
    | .raised v => insert v (unserved t)
    | .identified v => unserved t \ {v}
    | _ => unserved t) ↔ _
  cases e with
  | raised w => simp [eq_comm]
  | identified w => simp [eq_comm]
  | nothing => simp
  | other => simp

/-- What is true of the place of a processor in the callout. -/
def MsiPc.Good (c : QoriqMsi) : MsiPc → Prop
  | .loadMsir k _ => k < c.regs
  | .store w1 w19 => w19 < 32 ∧ w1.getLsbD (31 - w19) = false
  | _ => True

/-- Each vector is kept until it is identified, and is identified for something that was
raised. A call that identifies nothing leaves nothing behind but in the registers. -/
structure MsiInv (c : QoriqMsi) (t : List MsiEvent) (s : MsiState) : Prop where
  own : ∀ k, ∀ v < 32, c.reg v ≠ k → (s.msir k).getLsbD (msirBit v) = false
  pc : s.pc.Good c
  kept : ∀ v < 32, v ∈ unserved t → s.inMsir c v ∨ s.inHand v ∨ s.inCached v
  counted : ∀ v < 32, t.count (.identified v) + ((s.inMsir c v).toNat + (s.inHand v).toNat +
    (s.inCached v).toNat) ≤ t.count (.raised v)
  rest : ∀ pre post, t = pre ++ .nothing :: post → (∀ e ∈ post, ∃ v, e = .raised v) →
    s.pc = .idle ∧ s.cached = 0
  range : ∀ v, .identified v ∈ t → v < 32

/-- An event of the service that identifies nothing: each vector stays in one of the
places or moves on. -/
theorem MsiInv.other (h : MsiInv c t s)
    (he : e = .other ∨ e = .nothing ∧ s'.pc = .idle ∧ s'.cached = 0)
    (hown : ∀ k, ∀ v < 32, c.reg v ≠ k → (s'.msir k).getLsbD (msirBit v) = false)
    (hpc : s'.pc.Good c)
    (hsame : ∀ v < 32, (s.inMsir c v ∨ s.inHand v ∨ s.inCached v → s'.inMsir c v ∨
      s'.inHand v ∨ s'.inCached v) ∧
      (s'.inMsir c v).toNat + (s'.inHand v).toNat + (s'.inCached v).toNat ≤
        (s.inMsir c v).toNat + (s.inHand v).toNat + (s.inCached v).toNat) :
    MsiInv c (t ++ [e]) s' := by
  have hraised : ∀ v, e ≠ .raised v := by
    rintro v rfl
    rcases he with he | ⟨he, -⟩ <;> cases he
  have hidentified : ∀ v, e ≠ .identified v := by
    rintro v rfl
    rcases he with he | ⟨he, -⟩ <;> cases he
  refine ⟨hown, hpc, fun v hv hmem => ?_, fun v hv => ?_, fun pre post ht hpost => ?_,
    fun v hmem => ?_⟩
  · exact (hsame v hv).1 (h.kept v hv ((mem_unserved_append.mp hmem).elim
      (fun heq => absurd heq (hraised v)) And.left))
  · rw [List.count_append, List.count_append, List.count_singleton, List.count_singleton,
      if_neg (by simpa using hidentified v), if_neg (by simpa using hraised v)]
    exact (Nat.add_le_add_left (hsame v hv).2 _).trans (h.counted v hv)
  · rcases last_event ht with ⟨-, rfl⟩ | ⟨post', rfl, -⟩
    · rcases he with he | ⟨-, hidle⟩
      · cases he
      · exact hidle
    · obtain ⟨v, hv⟩ := hpost e (by simp)
      exact absurd hv (hraised v)
  · rcases List.mem_append.mp hmem with hold | hnew
    · exact h.range v hold
    · exact absurd (List.mem_singleton.mp hnew).symm (hidentified v)

/-- A register is loaded, which clears it. -/
theorem MsiInv.load {msir : Nat → BitVec 32} {cached w0 : BitVec 32} {k : Nat}
    (h : MsiInv c t ⟨msir, cached, .loadMsir k w0⟩) :
    MsiInv c (t ++ [(interruptIdStep c ⟨msir, cached, .loadMsir k w0⟩).1])
      (interruptIdStep c ⟨msir, cached, .loadMsir k w0⟩).2 := by
  have hhand : ∀ v < 32, (interruptIdStep c ⟨msir, cached, .loadMsir k w0⟩).2.inHand v =
      (w0.getLsbD (msirBit v) || (msir k).getLsbD (msirBit v)) := fun v hv => by
    rw [← BitVec.getLsbD_or]
    by_cases hmore : k + 1 < c.regs
    · simp only [interruptIdStep, MsiState.inHand, if_pos hmore]
    · simp only [interruptIdStep, MsiState.inHand, if_neg hmore, rev32_bit _ hv]
  have hcached : ∀ v, (interruptIdStep c ⟨msir, cached, .loadMsir k w0⟩).2.inCached v =
      cached.getLsbD (31 - v) := fun v => by
    by_cases hmore : k + 1 < c.regs
    · simp only [interruptIdStep, MsiState.inCached, if_pos hmore]
    · simp only [interruptIdStep, MsiState.inCached, if_neg hmore]
  refine h.other (.inl rfl) (fun k' v hv hne => ?_) ?_ fun v hv => ?_
  · by_cases hk : k' = k
    · subst hk
      simp [interruptIdStep]
    · simp only [interruptIdStep, Function.update_of_ne hk]
      exact h.own k' v hv hne
  · by_cases hmore : k + 1 < c.regs
    · simp only [interruptIdStep, if_pos hmore]
      exact hmore
    · simp only [interruptIdStep, if_neg hmore]
      trivial
  · rw [hhand v hv, hcached v]
    by_cases hk : c.reg v = k
    · -- the bit moves from the register to the word in hand
      subst hk
      simp only [interruptIdStep, MsiState.inMsir, MsiState.inHand, MsiState.inCached,
        Function.update_self]
      cases w0.getLsbD (msirBit v) <;> cases (msir (c.reg v)).getLsbD (msirBit v) <;> simp
    · have hzero : (msir k).getLsbD (msirBit v) = false := h.own k v hv hk
      simp [interruptIdStep, MsiState.inMsir, MsiState.inHand, MsiState.inCached,
        Function.update_of_ne hk, hzero]

/-- The word in hand is merged with the cached one; when both are empty the call is over. -/
theorem MsiInv.merge {msir : Nat → BitVec 32} {cached w0 : BitVec 32}
    (h : MsiInv c t ⟨msir, cached, .loadCached w0⟩) :
    MsiInv c (t ++ [(interruptIdStep c ⟨msir, cached, .loadCached w0⟩).1])
      (interruptIdStep c ⟨msir, cached, .loadCached w0⟩).2 := by
  by_cases hzero : cached ||| w0 = 0
  · have hstep : interruptIdStep c ⟨msir, cached, .loadCached w0⟩ =
        (.nothing, ⟨msir, cached, .idle⟩) := by
      simp only [interruptIdStep, if_pos hzero]
    obtain ⟨hcached, hw0⟩ := BitVec.or_eq_zero_iff.mp hzero
    rw [hstep]
    refine h.other (.inr ⟨rfl, rfl, hcached⟩) h.own trivial fun v hv => ?_
    subst hcached hw0
    simp [MsiState.inMsir, MsiState.inHand, MsiState.inCached]
  · have hstep : interruptIdStep c ⟨msir, cached, .loadCached w0⟩ = (.other, ⟨msir, cached, .store
        ((cached ||| w0) &&& ~~~(1#32 <<< (cached ||| w0).clz.toNat).reverse)
          (cached ||| w0).clz.toNat⟩) := by
      simp only [interruptIdStep, if_neg hzero]
    obtain ⟨hlt, hset⟩ := clz_vector hzero
    rw [hstep]
    generalize (cached ||| w0).clz.toNat = w19 at hlt hset ⊢
    refine h.other (.inl rfl) h.own ⟨hlt, ?_⟩ fun v hv => ?_
    · rw [vector_bit _ hlt hlt, beq_self_eq_true, Bool.not_true, Bool.and_false]
    · -- the vector that is identified is one of the merged word
      have hbit : (((cached ||| w0) &&& ~~~(1#32 <<< w19).reverse).getLsbD (31 - v) || v == w19) =
          (cached.getLsbD (31 - v) || w0.getLsbD (31 - v)) := by
        rw [vector_bit _ hlt hv, ← BitVec.getLsbD_or]
        by_cases heq : v = w19
        · rw [heq, hset, beq_self_eq_true, Bool.or_true]
        · rw [beq_eq_false_iff_ne.mpr heq, Bool.not_false, Bool.and_true, Bool.or_false]
      simp only [MsiState.inMsir, MsiState.inHand, MsiState.inCached, hbit]
      cases cached.getLsbD (31 - v) <;> cases w0.getLsbD (31 - v) <;> simp

/-- The vector that was chosen is identified. -/
theorem MsiInv.identify {msir : Nat → BitVec 32} {cached w1 : BitVec 32} {w19 : Nat}
    (h : MsiInv c t ⟨msir, cached, .store w1 w19⟩) :
    MsiInv c (t ++ [(interruptIdStep c ⟨msir, cached, .store w1 w19⟩).1])
      (interruptIdStep c ⟨msir, cached, .store w1 w19⟩).2 := by
  obtain ⟨hlt, hclear⟩ := h.pc
  refine ⟨h.own, trivial, fun v hv hmem => ?_, fun v hv => ?_, fun pre post ht hpost => ?_,
    fun v hmem => ?_⟩
  · rcases mem_unserved_append.mp hmem with heq | ⟨hold, hne⟩
    · cases heq
    · have hother : v ≠ w19 := fun heq => hne (congrArg MsiEvent.identified heq.symm)
      simpa [interruptIdStep, MsiState.inMsir, MsiState.inHand, MsiState.inCached, hother]
        using h.kept v hv hold
  · have hcount := h.counted v hv
    simp only [interruptIdStep, MsiState.inMsir, MsiState.inHand, MsiState.inCached,
      List.count_append, List.count_singleton] at hcount ⊢
    by_cases heq : v = w19
    · subst heq
      simp [hclear] at hcount ⊢
      omega
    · have hne : ¬ w19 = v := fun h => heq h.symm
      simp [beq_eq_false_iff_ne.mpr heq, hne] at hcount ⊢
      exact hcount
  · rcases last_event ht with ⟨-, hlast⟩ | ⟨post', rfl, -⟩
    · cases hlast
    · obtain ⟨v, hv⟩ := hpost (.identified w19) (by simp [interruptIdStep])
      cases hv
  · rcases List.mem_append.mp hmem with hold | hnew
    · exact h.range v hold
    · exact MsiEvent.identified.inj (List.mem_singleton.mp hnew) ▸ hlt

theorem MsiInv.service (h : MsiInv c t s) (hregs : 0 < c.regs) :
    MsiInv c (t ++ [(interruptIdStep c s).1]) (interruptIdStep c s).2 := by
  obtain ⟨msir, cached, pc⟩ := s
  cases pc with
  | idle =>
    refine h.other (.inl rfl) h.own hregs fun v hv => ?_
    simp [interruptIdStep, MsiState.inMsir, MsiState.inHand, MsiState.inCached]
  | loadMsir k w0 => exact h.load
  | loadCached w0 => exact h.merge
  | store w1 w19 => exact h.identify

theorem device_bit (s : MsiState) {v w k : Nat} (hv : v < 32) :
    (Function.update s.msir (c.reg v) (s.msir (c.reg v) ||| BitVec.twoPow 32 (msirBit v)) k).getLsbD
      (msirBit w) =
      ((s.msir k).getLsbD (msirBit w) || (k == c.reg v && w == v)) := by
  by_cases hk : k = c.reg v
  · subst hk
    rw [Function.update_self, BitVec.getLsbD_or, BitVec.getLsbD_twoPow,
      decide_eq_true (msirBit_lt hv), beq_self_eq_true, Bool.true_and, Bool.true_and]
    by_cases heq : w = v
    · simp [heq]
    · rw [beq_eq_false_iff_ne.mpr heq, decide_eq_false fun hb => heq (msirBit_inj hb).symm]
  · rw [Function.update_of_ne hk, beq_eq_false_iff_ne.mpr hk, Bool.false_and, Bool.or_false]

theorem MsiInv.device {v : Nat} (h : MsiInv c t s) (hv : v < 32) :
    MsiInv c (t ++ [.raised v])
      { s with msir := Function.update s.msir (c.reg v) (s.msir (c.reg v) ||| BitVec.twoPow 32
        (msirBit v)) } := by
  have hin : ∀ w < 32, MsiState.inMsir c
      { s with msir := Function.update s.msir (c.reg v) (s.msir (c.reg v) ||| BitVec.twoPow 32
        (msirBit v)) } w = (s.inMsir c w || w == v) := fun w hw => by
    rw [MsiState.inMsir, device_bit s hv, MsiState.inMsir]
    by_cases heq : w = v
    · simp [heq]
    · rw [beq_eq_false_iff_ne.mpr heq, Bool.and_false]
  refine ⟨fun k w hw hne => ?_, h.pc, fun w hw hmem => ?_, fun w hw => ?_,
    fun pre post ht hpost => ?_, fun w hmem => ?_⟩
  · rw [device_bit s hv, h.own k w hw hne, Bool.false_or]
    by_cases heq : w = v
    · subst heq
      rw [beq_eq_false_iff_ne.mpr hne.symm, Bool.false_and]
    · rw [beq_eq_false_iff_ne.mpr heq, Bool.and_false]
  · rw [hin w hw]
    rcases mem_unserved_append.mp hmem with heq | ⟨hold, -⟩
    · obtain rfl := MsiEvent.raised.inj heq
      simp
    · rcases h.kept w hw hold with hr | hrest
      · simp [hr]
      · exact .inr hrest
  · have hcount := h.counted w hw
    have hmore : (s.inMsir c w || w == v).toNat ≤ (s.inMsir c w).toNat + if v = w
        then 1 else 0 := by
      by_cases heq : v = w
      · rw [if_pos heq]
        exact (Bool.toNat_le _).trans (Nat.le_add_left ..)
      · rw [beq_eq_false_iff_ne.mpr (Ne.symm heq), Bool.or_false]
        exact Nat.le_add_right ..
    rw [hin w hw, List.count_append, List.count_append, List.count_singleton, List.count_singleton,
      if_neg (by simp)]
    simp only [MsiState.inHand, MsiState.inCached, beq_iff_eq, MsiEvent.raised.injEq] at hcount ⊢
    omega
  · rcases last_event ht with ⟨-, hlast⟩ | ⟨post', rfl, rfl⟩
    · cases hlast
    · exact h.rest pre post' rfl fun e he => hpost e (by simp [he])
  · rcases List.mem_append.mp hmem with hold | hnew
    · exact h.range w hold
    · cases List.mem_singleton.mp hnew

theorem msiInv_init (c : QoriqMsi) : MsiInv c [] msiInit where
  own := fun _ _ _ _ => BitVec.getLsbD_zero
  pc := trivial
  kept := fun v _ hmem => absurd hmem (Set.notMem_empty v)
  counted := fun v _ => by simp [MsiState.inMsir, MsiState.inHand, MsiState.inCached, msiInit]
  rest := fun pre post ht => by simp at ht
  range := fun v hmem => absurd hmem List.not_mem_nil

theorem msiInv_of_trace (hregs : 0 < c.regs) (run : Trace (msiStep c) msiInit t s) :
    MsiInv c t s := by
  refine run.induct (msiInv_init c) fun t s i e s' h hs => ?_
  cases i with
  | none =>
    obtain ⟨rfl, rfl⟩ := Prod.mk.inj (Option.some.inj hs)
    exact h.service hregs
  | some v =>
    rw [msiStep] at hs
    split at hs
    · next hv =>
      obtain ⟨rfl, rfl⟩ := Prod.mk.inj (Option.some.inj hs)
      exact h.device hv
    · cases hs

/-- No message is lost or made up: over all interleavings, a vector that was raised and
not identified since is in the registers, in the call under way or in the cached word,
and no vector is identified more often than it is raised. Once a call has identified
nothing, what is raised stays in the registers, so that the interrupt comes again. -/
theorem qoriq_msi (hc : c = qoriqLsxMsiV1 ∨ c = qoriqLsxMsiV2)
    (run : Trace (msiStep c) msiInit t s) :
    (∀ v < 32, v ∈ unserved t → s.inMsir c v ∨ s.inHand v ∨ s.inCached v) ∧
      (∀ v, t.count (.identified v) ≤ t.count (.raised v)) ∧
      ∀ pre post, t = pre ++ .nothing :: post → (∀ e ∈ post, ∃ v, e = .raised v) →
        ∀ v < 32, v ∈ unserved t → s.inMsir c v := by
  have hregs : 0 < c.regs := by
    rcases hc with rfl | rfl
    · decide
    · decide
  have h := msiInv_of_trace hregs run
  refine ⟨h.kept, fun v => ?_, fun pre post ht hpost v hv hmem => ?_⟩
  · by_cases hv : v < 32
    · exact (Nat.le_add_right ..).trans (h.counted v hv)
    · rw [List.count_eq_zero_of_not_mem fun hmem => hv (h.range v hmem)]
      exact Nat.zero_le _
  · obtain ⟨hpc, hcached⟩ := h.rest pre post ht hpost
    simpa [MsiState.inHand, MsiState.inCached, hpc, hcached] using h.kept v hv hmem

end

/-- Vector 5 is identified; vector 9 comes when the service has found nothing more. -/
def msiSchedule : List (Option Nat) := some 5 :: List.replicate 13 none ++ [some 9]

theorem qoriq_msi_example :
    ∃ t s, Trace (msiStep qoriqLsxMsiV2) msiInit t s ∧ t.count (.identified 5) = 1 ∧
      s.inMsir qoriqLsxMsiV2 9 := by
  have run : Trace (msiStep qoriqLsxMsiV2) msiInit [] msiInit := .start
  have run := run.runSchedule msiSchedule
  obtain ⟨t, ht, run⟩ : ∃ t, t = _ ∧ Trace (msiStep qoriqLsxMsiV2) msiInit t _ := ⟨_, rfl, run⟩
  have hevents : t = .raised 5 :: List.replicate 6 .other ++ .identified 5 ::
      List.replicate 5 .other ++ .nothing :: [.raised 9] := by
    rw [ht]
    decide +kernel
  have hafter := (qoriq_msi (.inr rfl) run).2.2 _ _ hevents fun e he =>
    ⟨9, List.mem_singleton.mp he⟩
  refine ⟨t, _, run, by rw [hevents]; decide, hafter 9 (by decide) ?_⟩
  rw [hevents]
  simp [unserved]

end QnxStartup
