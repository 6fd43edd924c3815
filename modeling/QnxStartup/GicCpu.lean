import QnxStartup.GicDistributor

/-! What `gic_v3_gicc_init` does for each processor: its redistributor is found by the affinity, the
private interrupts are set up, and a value for inter-processor interrupts is kept. The callouts
for these interrupts go by the indices that it has recorded. There are no LPIs. -/

namespace QnxStartup

/-! ### Redistributors -/

/-- `gicr_paddr_base`, `gicr_offset_shift_val` and `gicr_index_limit`. -/
structure GicrRegion where
  base : Nat
  shift : Nat
  limit : Nat
  base_lt : base < 2 ^ 64
  shift_cases : shift = 17 ∨ shift = 18
  limit_lt : limit < 2 ^ 32

/-- The part of `gic_v3_set_paddr_range` about the redistributors; `v4` tells the
version of the architecture. -/
def gicV3SetPaddrRange (v4 : Bool) (maxCpu gicr gicrSize : Nat) : GicrRegion where
  base := u64 gicr
  shift := if v4 then 18 else 17
  limit := if gicrSize = 0 then u32 maxCpu else u32 (gicrSize / 2 ^ (if v4 then 18 else 17))
  base_lt := u64_lt _
  shift_cases := by cases v4 <;> simp
  limit_lt := by split <;> exact u32_lt _

/-- What reads of the redistributors give: the upper half of `GICR_TYPER`, and
`GICR_WAKER` each time that it is read. -/
structure GicrInputs where
  affinity : Nat → Nat
  waker : Nat → Nat → Nat

def igroupr0 : Bank GicdField := ⟨.group, 0x80, 1, 4, 32, 1, 0, .store⟩
def isenabler0 : Bank GicdField := ⟨.enable, 0x100, 1, 4, 32, 1, 0, .set⟩
def icenabler0 : Bank GicdField := ⟨.enable, 0x180, 1, 4, 32, 1, 0, .clear⟩
def ispendr0 : Bank GicdField := ⟨.pending, 0x200, 1, 4, 32, 1, 0, .set⟩
def icpendr0 : Bank GicdField := ⟨.pending, 0x280, 1, 4, 32, 1, 0, .clear⟩
def ipriorityr0 : Bank GicdField := ⟨.priority, 0x400, 8, 4, 4, 8, 0, .store⟩
def igrpmodr0 : Bank GicdField := ⟨.modifier, 0xD00, 1, 4, 32, 1, 0, .store⟩

/-- The second frame of a redistributor. -/
def gicrBanks : List (Bank GicdField) :=
  [igroupr0, isenabler0, icenabler0, ispendr0, icpendr0, ipriorityr0, igrpmodr0]

theorem gicrBanks_apart : gicrBanks.Pairwise Bank.Apart := by decide

theorem gicrBanks_size : ∀ b ∈ gicrBanks, b.bits = b.field.width ∧ b.size = 4 := by decide

def sgiBaseOffset : Nat := 0x10000

structure GicrFrame where
  fields : GicdField → Nat → Nat
  fits : ∀ f i, fields f i < 2 ^ f.width

def GicrFrame.out (off v : Nat) (d : GicrFrame) : GicrFrame where
  fields := writeRegister gicrBanks off v d.fields
  fits := writeRegister_lt (fun b hb => (gicrBanks_size b hb).1) d.fits off v

/-- The registers of each redistributor, and the entries of the system page for each processor. -/
structure GicrState where
  frames : Nat → GicrFrame
  waker : Nat → Nat
  gicrIdx : Nat → Nat
  gicCpu : Nat → Nat

namespace GicrState

/-- A write at an offset from the first redistributor. -/
def out (shift off v : Nat) (s : GicrState) : GicrState :=
  let r := off / 2 ^ shift
  let reg := off % 2 ^ shift
  if sgiBaseOffset ≤ reg then
    { s with frames := Function.update s.frames r ((s.frames r).out (reg - sgiBaseOffset) v) }
  else if reg = 0x14 then { s with waker := Function.update s.waker r v }
  else s

/-- `out32`. -/
def out32 (g : GicrRegion) (addr v : Nat) (s : GicrState) : GicrState :=
  s.out g.shift (sub64 addr g.base) v

end GicrState

/-! ### Initialisation -/

/-- The affinity fields of `MPIDR_EL1` in one word. -/
def cpuAff (mpidr : Nat) : Nat := u32 ((mpidr &&& 0xFFFFFF) ||| (mpidr / 2 ^ 8 &&& 0xFF000000))

namespace GicrRegion

/-- Which redistributor lies at an address. -/
def index (g : GicrRegion) (addr : Nat) : Nat := sub64 addr g.base / 2 ^ g.shift

/-- The loop over the redistributors; `n` is how often the assertion about `gicr_index`
still holds. -/
def findGicr (g : GicrRegion) (hw : GicrInputs) (aff : Nat) : Nat → Nat → Nat → Startup (Nat × Nat)
  | n, addr, i =>
    if aff = hw.affinity (g.index addr) then .ok (addr, i)
    else
      match n with
      | 0 => crash assertText
      | n + 1 => g.findGicr hw aff n (u64 (addr + 2 ^ g.shift)) (i + 1)

/-- The loop that waits for `GICR_WAKER`, whose `k`-th value is the last one that was
read; `n` as above. -/
def pollWaker (waker : Nat → Nat) : Nat → Nat → Startup Nat
  | n, k =>
    if waker k / 2 ^ 2 % 2 = 0 then
      match n with
      | 0 => crash assertText
      | n + 1 => pollWaker waker n (k + 1)
    else .ok (waker k)

def wakeGicr (g : GicrRegion) (hw : GicrInputs) (addr : Nat)
    (s : GicrState) : Startup GicrState := do
  let waker := hw.waker (g.index addr)
  if waker 0 / 2 % 2 ≠ 0 then
    let v ← pollWaker waker 999 0
    .ok (s.out32 g (u64 (addr + 0x14)) (v &&& compl32 2))
  else .ok s

/-- The writes to the second frame. -/
def initSgis (g : GicrRegion) (sgi : Nat) (s : GicrState) : GicrState :=
  let s := s.out32 g (u64 (sgi + igroupr0.base)) 0xFFFFFFFF
  let s := s.out32 g (u64 (sgi + igrpmodr0.base)) 0
  let s := s.out32 g (u64 (sgi + ipriorityr0.base)) 0xA0A0A0C0
  let s := (List.range' 1 7).foldl
    (fun s i => s.out32 g (u64 (sgi + ipriorityr0.base + i * 4)) 0xA0A0A0A0) s
  let s := s.out32 g (u64 (sgi + icpendr0.base)) 0xFFFFFFFF
  let s := s.out32 g (u64 (sgi + icenabler0.base)) 0xFFFFFFFF
  s.out32 g (u64 (sgi + isenabler0.base)) 1

/-- The value for `ICC_SGI1R_EL1`. -/
def iccSgi1r (aff : Nat) : Nat :=
  let aff0 := aff % 2 ^ 8
  let v := 2 ^ (aff0 % 2 ^ 4) ||| aff / 2 ^ 8 % 2 ^ 8 * 2 ^ 16 ||| aff / 2 ^ 16 % 2 ^ 8 * 2 ^ 32 |||
    aff / 2 ^ 24 % 2 ^ 8 * 2 ^ 48
  if aff0 > 0x0f then v ||| (aff0 &&& 0xf0) * 2 ^ 40 else v

/-- `gic_v3_gicc_init` on the processor with that `MPIDR_EL1`; `mm` tells that the callouts are the
memory-mapped ones. -/
def gicV3GiccInit (g : GicrRegion) (hw : GicrInputs) (mm : Bool) (cpu mpidr : Nat)
    (s : GicrState) : Startup GicrState := do
  let (addr, i) ← g.findGicr hw (cpuAff mpidr) (g.limit - 1) g.base 0
  let s := { s with gicrIdx := Function.update s.gicrIdx cpu i }
  let s ← g.wakeGicr hw addr s
  let s := g.initSgis (u64 (addr + sgiBaseOffset)) s
  let v := if mm then u32 (u32 (2 ^ g.shift * cpu) + sgiBaseOffset + ispendr0.base)
    else iccSgi1r (cpuAff mpidr)
  .ok { s with gicCpu := Function.update s.gicCpu cpu v }

end GicrRegion

/-! ### Addresses -/

/-- A change of the second frame of one redistributor. -/
def GicrState.modify (r : Nat) (f : GicrFrame → GicrFrame) (s : GicrState) : GicrState :=
  { s with frames := Function.update s.frames r (f (s.frames r)) }

theorem GicrState.modify_modify (r : Nat) (f f' : GicrFrame → GicrFrame) (s : GicrState) :
    (s.modify r f).modify r f' = s.modify r fun d => f' (f d) := by
  simp only [modify, Function.update_self, Function.update_idem]

theorem GicrState.foldl_modify {step : GicrState → Nat → GicrState}
    {f : Nat → GicrFrame → GicrFrame} {l : List Nat} (r : Nat)
    (h : ∀ n ∈ l, ∀ s, step s n = s.modify r (f n)) (s : GicrState) :
    l.foldl step s = s.modify r fun d => l.foldl (fun d n => f n d) d := by
  induction l generalizing s with
  | nil => simp only [List.foldl_nil, modify, Function.update_eq_self]
  | cons n l ih =>
    rw [List.forall_mem_cons] at h
    rw [List.foldl_cons, h.1, ih h.2, modify_modify]
    rfl

theorem sub64_add_self {x : Nat} (b : Nat) (hx : x < 2 ^ 64) : sub64 (u64 (b + x)) b = x := by
  unfold sub64 u64
  omega

namespace GicrRegion

variable (g : GicrRegion) {r : Nat}

theorem two_pow_shift : 2 ^ 17 ≤ 2 ^ g.shift ∧ 2 ^ g.shift ≤ 2 ^ 18 := by
  rcases g.shift_cases with h | h <;> rw [h] <;> decide

/-- The redistributors that the loop looks at lie in the address space. -/
theorem offset_lt (hr : r < 2 ^ 32) {x : Nat} (hx : x < 2 ^ 17) : r * 2 ^ g.shift + x < 2 ^ 64 := by
  have hshift := g.two_pow_shift.2
  have hmul : r * 2 ^ g.shift ≤ 2 ^ 32 * 2 ^ 18 := Nat.mul_le_mul hr.le hshift
  omega

theorem index_eq (hr : r < 2 ^ 32) : g.index (u64 (g.base + r * 2 ^ g.shift)) = r := by
  have hlt := g.offset_lt hr (show 0 < 2 ^ 17 by decide)
  rw [Nat.add_zero] at hlt
  rw [index, sub64_add_self g.base hlt, Nat.mul_div_cancel _ (Nat.two_pow_pos _)]

/-- A write to a register of the first frame or the second one. -/
theorem out32_eq (hr : r < 2 ^ 32) {x : Nat} (hx : x < 2 ^ 17) (v : Nat) (s : GicrState) :
    s.out32 g (u64 (g.base + (r * 2 ^ g.shift + x))) v = s.out g.shift (r * 2 ^ g.shift + x) v := by
  rw [GicrState.out32, sub64_add_self g.base (g.offset_lt hr hx)]

theorem out_second (r : Nat) {x : Nat} (hx : x < 2 ^ 16) (v : Nat) (s : GicrState) :
    s.out g.shift (r * 2 ^ g.shift + (sgiBaseOffset + x)) v = s.modify r fun d => d.out x v := by
  have hshift := g.two_pow_shift.1
  have hlt : sgiBaseOffset + x < 2 ^ g.shift := by
    rw [sgiBaseOffset]
    omega
  have hdiv : (r * 2 ^ g.shift + (sgiBaseOffset + x)) / 2 ^ g.shift = r := by
    rw [Nat.add_comm, Nat.add_mul_div_right _ _ (Nat.two_pow_pos _),
      Nat.div_eq_of_lt hlt, Nat.zero_add]
  have hmod : (r * 2 ^ g.shift + (sgiBaseOffset + x)) % 2 ^ g.shift = sgiBaseOffset + x := by
    rw [Nat.add_comm, Nat.add_mul_mod_self_right, Nat.mod_eq_of_lt hlt]
  rw [GicrState.out, hdiv, hmod, if_pos (Nat.le_add_right ..), Nat.add_sub_cancel_left,
    GicrState.modify]

/-- The second frame after `initSgis`. -/
def initFrame (d : GicrFrame) : GicrFrame :=
  let d := d.out igroupr0.base 0xFFFFFFFF
  let d := d.out igrpmodr0.base 0
  let d := d.out ipriorityr0.base 0xA0A0A0C0
  let d := (List.range' 1 7).foldl (fun d n => d.out (ipriorityr0.base + n * 4) 0xA0A0A0A0) d
  let d := d.out icpendr0.base 0xFFFFFFFF
  let d := d.out icenabler0.base 0xFFFFFFFF
  d.out isenabler0.base 1

theorem initSgis_eq (hr : r < 2 ^ 32) (s : GicrState) :
    g.initSgis (u64 (u64 (g.base + r * 2 ^ g.shift) + sgiBaseOffset)) s = s.modify r initFrame := by
  have hout : ∀ x v : Nat, x < 2 ^ 16 → ∀ s : GicrState,
      s.out32 g (u64 (u64 (u64 (g.base + r * 2 ^ g.shift) + sgiBaseOffset) + x)) v =
      s.modify r fun d => d.out x v := by
    intro x v hx s
    rw [u64_add_left, Nat.add_assoc, u64_add_left, Nat.add_assoc,
      g.out32_eq hr (by rw [sgiBaseOffset]; omega), g.out_second r hx]
  generalize u64 (u64 (g.base + r * 2 ^ g.shift) + sgiBaseOffset) = sgi at hout ⊢
  have hprio : ∀ n ∈ List.range' 1 7, ∀ s : GicrState,
      s.out32 g (u64 (sgi + ipriorityr0.base + n * 4)) 0xA0A0A0A0 =
      s.modify r fun d => d.out (ipriorityr0.base + n * 4) 0xA0A0A0A0 := by
    intro n hn s
    have hlt := (List.mem_range'_1.mp hn).2
    rw [Nat.add_assoc]
    exact hout _ _ (by change 0x400 + n * 4 < 2 ^ 16; omega) s
  rw [initSgis, hout _ _ (by decide), hout _ _ (by decide), hout _ _ (by decide),
    GicrState.foldl_modify r hprio,
    hout _ _ (by decide), hout _ _ (by decide), hout _ _ (by decide)]
  simp only [GicrState.modify_modify]
  rfl

end GicrRegion

/-! ### The private interrupts -/

/-- What the private interrupts of a processor are set up as. -/
structure FrameReady (fields : GicdField → Nat → Nat) : Prop where
  group : ∀ i < 32, fields .group i = 1
  modifier : ∀ i < 32, fields .modifier i = 0
  priority : ∀ i < 32, fields .priority i = if i = 0 then 0xC0 else 0xA0
  pending : ∀ i < 32, fields .pending i = 0
  enable : ∀ i < 32, fields .enable i = if i = 0 then 1 else 0

theorem GicrFrame.out_fields {b : Bank GicdField} (hb : b ∈ gicrBanks) {n : Nat} (hn : n < b.words)
    (v : Nat) (d : GicrFrame) :
    (d.out (b.base + n * 4) v).fields = b.write n v d.fields := by
  have hsize := (gicrBanks_size b hb).2
  rw [out, ← hsize, Nat.mul_comm]
  exact writeRegister_hit gicrBanks_apart hb (by rw [hsize]; decide) hn v d.fields

/-- The writes of `initSgis` one after the other. -/
theorem initFrame_fields (d : GicrFrame) : (GicrRegion.initFrame d).fields =
    isenabler0.write 0 1 (icenabler0.write 0 0xFFFFFFFF (icpendr0.write 0 0xFFFFFFFF
      ((List.range' 1 7).foldl (fun r n => ipriorityr0.write n 0xA0A0A0A0 r)
        (ipriorityr0.write 0 0xA0A0A0C0
          (igrpmodr0.write 0 0 (igroupr0.write 0 0xFFFFFFFF d.fields)))))) := by
  have hout : ∀ {b : Bank GicdField} (v : Nat) (d : GicrFrame), b ∈ gicrBanks → 0 < b.words →
      (d.out b.base v).fields = b.write 0 v d.fields := by
    intro b v d hb hn
    have h := GicrFrame.out_fields hb hn v d
    rwa [Nat.zero_mul, Nat.add_zero] at h
  have hfold : ∀ (l : List Nat) (d : GicrFrame), (∀ n ∈ l, n < 8) →
      (l.foldl (fun d n => d.out (ipriorityr0.base + n * 4) 0xA0A0A0A0) d).fields =
        l.foldl (fun r n => ipriorityr0.write n 0xA0A0A0A0 r) d.fields := by
    intro l d hl
    induction l generalizing d with
    | nil => rfl
    | cons n l ih =>
      rw [List.forall_mem_cons] at hl
      rw [List.foldl_cons, List.foldl_cons, ih _ hl.2,
        GicrFrame.out_fields (b := ipriorityr0) (by decide) hl.1]
  rw [GicrRegion.initFrame, hout _ _ (by decide) (by decide), hout _ _ (by decide) (by decide),
    hout _ _ (by decide) (by decide),
    hfold _ _ fun n hn => (List.mem_range'_1.mp hn).2, hout _ _ (by decide) (by decide),
    hout _ _ (by decide) (by decide), hout _ _ (by decide) (by decide)]

theorem column_source {b : Bank GicdField} {v i : Nat} {c : Nat → Nat}
    (hb : b.first = 0 ∧ b.per = 32) (hi : i < 32) :
    b.column 0 v c i = b.mode.apply (c i) (limb b.bits v i) := by
  have h := Bank.column_at b 0 v c (j := i) (hb.2 ▸ hi)
  rwa [hb.1, Nat.mul_zero, Nat.add_zero, Nat.zero_add] at h

theorem frameReady_init (d : GicrFrame) : FrameReady (GicrRegion.initFrame d).fields := by
  have hones : ∀ i < 32, limb 1 0xFFFFFFFF i = 1 := by decide
  have hgroup : (GicrRegion.initFrame d).fields .group = igroupr0.column 0 0xFFFFFFFF
      (d.fields .group) := by
    rw [initFrame_fields]
    rfl
  have hmodifier : (GicrRegion.initFrame d).fields .modifier =
      igrpmodr0.column 0 0 (d.fields .modifier) := by
    rw [initFrame_fields]
    rfl
  have hpriority : (GicrRegion.initFrame d).fields .priority =
      (List.range' 1 7).foldl (fun c n => ipriorityr0.column n 0xA0A0A0A0 c)
      (ipriorityr0.column 0 0xA0A0A0C0 (d.fields .priority)) := by
    rw [initFrame_fields]
    rfl
  have hpending : (GicrRegion.initFrame d).fields .pending = icpendr0.column 0 0xFFFFFFFF
      (d.fields .pending) := by
    rw [initFrame_fields]
    rfl
  have henable : (GicrRegion.initFrame d).fields .enable =
      isenabler0.column 0 1 (icenabler0.column 0 0xFFFFFFFF (d.fields .enable)) := by
    rw [initFrame_fields]
    rfl
  refine ⟨fun i hi => ?_, fun i hi => ?_, fun i hi => ?_, fun i hi => ?_, fun i hi => ?_⟩
  · rw [hgroup, column_source ⟨rfl, rfl⟩ hi]
    exact (WriteMode.apply_store ..).trans (hones i hi)
  · rw [hmodifier, column_source ⟨rfl, rfl⟩ hi]
    exact (WriteMode.apply_store ..).trans (GicV3.limb_zero ..)
  · rw [hpriority, Bank.foldl_column]
    by_cases h4 : 4 ≤ i
    · rw [if_pos ⟨h4, hi⟩, if_neg (by omega)]
      exact (WriteMode.apply_store ..).trans (GicV3.limb_priority _)
    · have hfour : ∀ i < 4, limb 8 0xA0A0A0C0 i = if i = 0 then 0xC0 else 0xA0 := by decide
      have hcolumn := Bank.column_at ipriorityr0 0 0xA0A0A0C0 (d.fields .priority)
        (j := i) (not_le.mp h4)
      rw [Nat.mul_zero, Nat.add_zero, show ipriorityr0.first + i = i from Nat.zero_add i] at hcolumn
      rw [if_neg fun h => h4 h.1, hcolumn, ← hfour i (not_le.mp h4)]
      exact WriteMode.apply_store ..
  · rw [hpending, column_source ⟨rfl, rfl⟩ hi]
    exact (congrArg _ (hones i hi)).trans (GicV3.clear_one (d.fits .pending i))
  · have hone := limb_mul_two_pow (w := 1) (x := 1) (by decide) 0 i
    rw [Nat.mul_zero, Nat.pow_zero, Nat.mul_one] at hone
    rw [henable, column_source ⟨rfl, rfl⟩ hi, column_source ⟨rfl, rfl⟩ hi]
    change WriteMode.set.apply (WriteMode.clear.apply _ (limb 1 0xFFFFFFFF i)) (limb 1 1 i) = _
    rw [hones i hi, GicV3.clear_one (d.fits .enable i), hone]
    exact Nat.zero_or _

/-! ### One processor -/

namespace GicrRegion

/-- The redistributor that the loop finds for an affinity. -/
structure Owns (g : GicrRegion) (hw : GicrInputs) (aff r : Nat) : Prop where
  affinity : hw.affinity r = aff
  first : ∀ j < r, hw.affinity j ≠ aff
  limit : r ≤ g.limit - 1

/-- It is awake, or said to be by the thousandth read of `GICR_WAKER` at the latest. -/
def Wakes (hw : GicrInputs) (r : Nat) : Prop := hw.waker r 0 / 2 % 2 = 0 ∨
    ∃ k < 1000, hw.waker r k / 2 ^ 2 % 2 ≠ 0

variable {g : GicrRegion} {hw : GicrInputs} {aff r n i addr : Nat}

theorem findGicr_ok_iff (hbound : i + n < 2 ^ 32) :
    g.findGicr hw aff n (u64 (g.base + i * 2 ^ g.shift)) i = .ok (addr, r) ↔
      i ≤ r ∧ r ≤ i + n ∧ hw.affinity r = aff ∧ (∀ j, i ≤ j → j < r → hw.affinity j ≠ aff) ∧
        addr = u64 (g.base + r * 2 ^ g.shift) := by
  induction n generalizing i with
  | zero =>
    rw [findGicr, g.index_eq (show i < 2 ^ 32 by omega)]
    by_cases haff : aff = hw.affinity i
    · rw [if_pos haff]
      constructor
      · rintro ⟨⟩
        exact ⟨le_rfl, le_rfl, haff.symm, fun j hle hlt => absurd hlt hle.not_gt, rfl⟩
      · rintro ⟨hle, hge, -, -, rfl⟩
        obtain rfl : r = i := Nat.le_antisymm hge hle
        rfl
    · rw [if_neg haff]
      refine ⟨nofun, fun h => absurd ?_ haff⟩
      rw [← h.2.2.1, Nat.le_antisymm h.2.1 h.1, Nat.add_zero]
  | succ n ih =>
    rw [findGicr, g.index_eq (show i < 2 ^ 32 by omega)]
    by_cases haff : aff = hw.affinity i
    · rw [if_pos haff]
      constructor
      · rintro ⟨⟩
        exact ⟨le_rfl, Nat.le_add_right .., haff.symm, fun j hle hlt => absurd hlt hle.not_gt, rfl⟩
      · rintro ⟨hle, -, -, hfirst, rfl⟩
        rcases hle.eq_or_lt with rfl | hlt
        · rfl
        · exact absurd haff.symm (hfirst i le_rfl hlt)
    · have hnext : u64 (u64 (g.base + i * 2 ^ g.shift) + 2 ^ g.shift) =
          u64 (g.base + (i + 1) * 2 ^ g.shift) := by
        rw [u64_add_left, Nat.add_assoc, Nat.succ_mul]
      rw [if_neg haff, hnext, ih (by omega)]
      constructor
      · rintro ⟨hle, hge, hr, hfirst, haddr⟩
        refine ⟨by omega, by omega, hr, fun j hj hlt => ?_, haddr⟩
        rcases hj.eq_or_lt with rfl | hj
        · exact Ne.symm haff
        · exact hfirst j hj hlt
      · rintro ⟨hle, hge, hr, hfirst, haddr⟩
        have hne : i ≠ r := by
          rintro rfl
          exact haff hr.symm
        exact ⟨by omega, by omega, hr, fun j hj hlt => hfirst j (by omega) hlt, haddr⟩

theorem findGicr_owns : g.findGicr hw aff (g.limit - 1) g.base 0 = .ok (addr, r) ↔
    g.Owns hw aff r ∧ addr = u64 (g.base + r * 2 ^ g.shift) := by
  have hlimit := g.limit_lt
  have hbase : g.base = u64 (g.base + 0 * 2 ^ g.shift) := by
    rw [Nat.zero_mul, Nat.add_zero, u64_of_lt g.base_lt]
  nth_rewrite 1 [hbase]
  rw [findGicr_ok_iff (by omega)]
  constructor
  · rintro ⟨-, hle, hr, hfirst, haddr⟩
    exact ⟨⟨hr, fun j hj => hfirst j (Nat.zero_le j) hj, by omega⟩, haddr⟩
  · rintro ⟨⟨hr, hfirst, hle⟩, haddr⟩
    exact ⟨Nat.zero_le r, by omega, hr, fun j _ hj => hfirst j hj, haddr⟩

theorem Owns.unique {r' : Nat} (h : g.Owns hw aff r) (h' : g.Owns hw aff r') : r = r' := by
  rcases Nat.lt_trichotomy r r' with hlt | rfl | hlt
  · exact absurd h.affinity (h'.first r hlt)
  · rfl
  · exact absurd h'.affinity (h.first r' hlt)

theorem pollWaker_ok_iff {waker : Nat → Nat} {k : Nat} :
    (∃ v, pollWaker waker n k = .ok v) ↔ ∃ j ≤ n, waker (k + j) / 2 ^ 2 % 2 ≠ 0 := by
  induction n generalizing k with
  | zero =>
    rw [pollWaker]
    by_cases hk : waker k / 2 ^ 2 % 2 = 0
    · rw [if_pos hk]
      refine ⟨nofun, fun ⟨j, hj, hset⟩ => absurd hk ?_⟩
      rwa [Nat.le_zero.mp hj] at hset
    · rw [if_neg hk]
      exact ⟨fun _ => ⟨0, le_rfl, hk⟩, fun _ => ⟨_, rfl⟩⟩
  | succ n ih =>
    rw [pollWaker]
    by_cases hk : waker k / 2 ^ 2 % 2 = 0
    · rw [if_pos hk, ih]
      constructor
      · rintro ⟨j, hj, hset⟩
        exact ⟨j + 1, by omega, by rwa [show k + (j + 1) = k + 1 + j by omega]⟩
      · rintro ⟨j, hj, hset⟩
        have hpos : j ≠ 0 := by
          rintro rfl
          exact hset hk
        exact ⟨j - 1, by omega, by rwa [show k + 1 + (j - 1) = k + j by omega]⟩
    · rw [if_neg hk]
      exact ⟨fun _ => ⟨0, Nat.zero_le _, hk⟩, fun _ => ⟨_, rfl⟩⟩

/-- The handshake changes `GICR_WAKER` at most. -/
theorem wakeGicr_ok (hr : r < 2 ^ 32) (s : GicrState) :
    ((∃ s', g.wakeGicr hw (u64 (g.base + r * 2 ^ g.shift)) s = .ok s') ↔ Wakes hw r) ∧
      ∀ s', g.wakeGicr hw (u64 (g.base + r * 2 ^ g.shift)) s = .ok s' →
        s'.frames = s.frames ∧ s'.gicrIdx = s.gicrIdx ∧ s'.gicCpu = s.gicCpu := by
  rw [wakeGicr, g.index_eq hr, Wakes]
  by_cases h0 : hw.waker r 0 / 2 % 2 = 0
  · rw [if_neg (not_not.mpr h0)]
    refine ⟨⟨fun _ => .inl h0, fun _ => ⟨s, rfl⟩⟩, fun s' h => ?_⟩
    cases h
    exact ⟨rfl, rfl, rfl⟩
  · rw [if_pos h0]
    constructor
    · rw [or_iff_right h0]
      constructor
      · rintro ⟨s', h⟩
        obtain ⟨v, hv, -⟩ := bind_eq_ok.mp h
        obtain ⟨k, hk, hset⟩ := pollWaker_ok_iff.mp ⟨v, hv⟩
        exact ⟨k, Nat.lt_succ_of_le hk, by rwa [Nat.zero_add] at hset⟩
      · rintro ⟨k, hk, hset⟩
        obtain ⟨v, hv⟩ := pollWaker_ok_iff.mpr ⟨k, Nat.le_of_lt_succ hk, by rwa [Nat.zero_add]⟩
        exact ⟨_, bind_eq_ok.mpr ⟨v, hv, rfl⟩⟩
    · intro s' h
      obtain ⟨v, -, h⟩ := bind_eq_ok.mp h
      have hmod : (r * 2 ^ g.shift + 0x14) % 2 ^ g.shift = 0x14 := by
        rw [Nat.add_comm, Nat.add_mul_mod_self_right,
          Nat.mod_eq_of_lt (lt_of_lt_of_le (by decide) g.two_pow_shift.1)]
      cases h
      rw [u64_add_left, Nat.add_assoc, g.out32_eq hr (by decide), GicrState.out, hmod,
        if_neg (by decide), if_pos rfl]
      exact ⟨rfl, rfl, rfl⟩

/-- What is kept for the callout that sends interrupts to a processor. -/
def ipiValue (g : GicrRegion) (mm : Bool) (cpu aff : Nat) : Nat :=
  if mm then u32 (u32 (2 ^ g.shift * cpu) + sgiBaseOffset + ispendr0.base) else iccSgi1r aff

/-- What the initialisation of one processor comes to. -/
structure Initialised (g : GicrRegion) (mm : Bool) (cpu aff r : Nat) (s s' : GicrState) : Prop where
  frames : s'.frames = Function.update s.frames r (initFrame (s.frames r))
  gicrIdx : s'.gicrIdx = Function.update s.gicrIdx cpu r
  gicCpu : s'.gicCpu = Function.update s.gicCpu cpu (g.ipiValue mm cpu aff)

theorem gicV3GiccInit_ok {mm : Bool} {cpu mpidr : Nat} (s : GicrState) :
    ((∃ s', g.gicV3GiccInit hw mm cpu mpidr s = .ok s') ↔
      ∃ r, g.Owns hw (cpuAff mpidr) r ∧ Wakes hw r) ∧
      ∀ s', g.gicV3GiccInit hw mm cpu mpidr s = .ok s' →
        ∃ r, g.Owns hw (cpuAff mpidr) r ∧ g.Initialised mm cpu (cpuAff mpidr) r s s' := by
  have hlimit := g.limit_lt
  constructor
  · constructor
    · rintro ⟨s', h⟩
      obtain ⟨⟨addr, r⟩, hfind, h⟩ := bind_eq_ok.mp h
      obtain ⟨howns, rfl⟩ := findGicr_owns.mp hfind
      obtain ⟨s₁, hwake, -⟩ := bind_eq_ok.mp h
      have hle := howns.limit
      exact ⟨r, howns, (wakeGicr_ok (by omega) _).1.mp ⟨s₁, hwake⟩⟩
    · rintro ⟨r, howns, hwakes⟩
      have hle := howns.limit
      obtain ⟨s₁, hwake⟩ := (wakeGicr_ok (by omega) { s with
        gicrIdx := Function.update s.gicrIdx cpu r }).1.mpr hwakes
      exact ⟨_, bind_eq_ok.mpr ⟨(_, r), findGicr_owns.mpr ⟨howns, rfl⟩,
        bind_eq_ok.mpr ⟨s₁, hwake, rfl⟩⟩⟩
  · intro s' h
    obtain ⟨⟨addr, r⟩, hfind, h⟩ := bind_eq_ok.mp h
    obtain ⟨howns, rfl⟩ := findGicr_owns.mp hfind
    obtain ⟨s₁, hwake, h⟩ := bind_eq_ok.mp h
    have hle := howns.limit
    have hr : r < 2 ^ 32 := by omega
    obtain ⟨hframes, hidx, hcpu⟩ := (wakeGicr_ok hr _).2 s₁ hwake
    cases h
    rw [g.initSgis_eq hr]
    refine ⟨r, howns, ?_, ?_, ?_⟩
    · rw [GicrState.modify, hframes]
    · exact hidx
    · rw [GicrState.modify, hcpu]
      rfl

/-! ### All processors -/

/-- `gic_cpu_init` on one processor after the other, each given by its number and its
`MPIDR_EL1`. -/
def initCpus (g : GicrRegion) (hw : GicrInputs) (mm : Bool) (cpus : List (Nat × Nat))
    (s : GicrState) : Startup GicrState :=
  cpus.foldlM (fun s c => g.gicV3GiccInit hw mm c.1 c.2 s) s

/-- Each processor has the first redistributor with its affinity, set up, and no other
redistributor is changed. -/
structure CpusReady (g : GicrRegion) (hw : GicrInputs) (mm : Bool) (cpus : List (Nat × Nat))
    (s s' : GicrState) : Prop where
  owns : ∀ c ∈ cpus, g.Owns hw (cpuAff c.2) (s'.gicrIdx c.1)
  ready : ∀ c ∈ cpus, FrameReady (s'.frames (s'.gicrIdx c.1)).fields
  value : ∀ c ∈ cpus, s'.gicCpu c.1 = g.ipiValue mm c.1 (cpuAff c.2)
  others : ∀ r, (∀ c ∈ cpus, ¬ g.Owns hw (cpuAff c.2) r) → s'.frames r = s.frames r
  keeps : ∀ r, FrameReady (s.frames r).fields → FrameReady (s'.frames r).fields
  rest : ∀ i ∉ cpus.map Prod.fst, s'.gicrIdx i = s.gicrIdx i ∧ s'.gicCpu i = s.gicCpu i

theorem CpusReady.cons {mm : Bool} {cpu mpidr : Nat} {cpus : List (Nat × Nat)} {s s₁ s' : GicrState}
    (howns : g.Owns hw (cpuAff mpidr) r) (hinit : g.Initialised mm cpu (cpuAff mpidr) r s s₁)
    (h : g.CpusReady hw mm cpus s₁ s') (hcpu : cpu ∉ cpus.map Prod.fst) :
    g.CpusReady hw mm ((cpu, mpidr) :: cpus) s s' := by
  obtain ⟨hidx, hvalue⟩ := h.rest cpu hcpu
  have hready : FrameReady (s₁.frames r).fields := by
    rw [hinit.frames, Function.update_self]
    exact frameReady_init _
  have hidx : s'.gicrIdx cpu = r := by rw [hidx, hinit.gicrIdx, Function.update_self]
  refine ⟨?_, ?_, ?_, fun r' hr' => ?_, fun r' hr' => h.keeps r' ?_, fun i hi => ?_⟩
  · rw [List.forall_mem_cons]
    exact ⟨hidx.symm ▸ howns, h.owns⟩
  · rw [List.forall_mem_cons]
    exact ⟨hidx.symm ▸ h.keeps r hready, h.ready⟩
  · rw [List.forall_mem_cons]
    exact ⟨by rw [hvalue, hinit.gicCpu, Function.update_self], h.value⟩
  · rw [List.forall_mem_cons] at hr'
    have hne : r' ≠ r := by
      rintro rfl
      exact hr'.1 howns
    rw [h.others r' hr'.2, hinit.frames, Function.update_of_ne hne]
  · by_cases heq : r' = r
    · rw [heq]
      exact hready
    · rwa [hinit.frames, Function.update_of_ne heq]
  · rw [List.map_cons, List.mem_cons, not_or] at hi
    rw [(h.rest i hi.2).1, (h.rest i hi.2).2, hinit.gicrIdx, hinit.gicCpu,
      Function.update_of_ne hi.1, Function.update_of_ne hi.1]
    exact ⟨rfl, rfl⟩

theorem initCpus_returns {mm : Bool} {cpus : List (Nat × Nat)} (s : GicrState) :
    (∃ s', g.initCpus hw mm cpus s = .ok s') ↔
      ∀ c ∈ cpus, ∃ r, g.Owns hw (cpuAff c.2) r ∧ Wakes hw r := by
  induction cpus generalizing s with
  | nil => exact ⟨fun _ => nofun, fun _ => ⟨s, rfl⟩⟩
  | cons c cpus ih =>
    have hone := @gicV3GiccInit_ok g hw mm c.1 c.2 s
    have hcons : g.initCpus hw mm (c :: cpus) s = (g.gicV3GiccInit hw mm c.1 c.2 s).bind
        (g.initCpus hw mm cpus) := List.foldlM_cons ..
    rw [hcons, List.forall_mem_cons]
    constructor
    · rintro ⟨s', h⟩
      obtain ⟨s₁, h₁, h⟩ := bind_eq_ok.mp h
      exact ⟨hone.1.mp ⟨s₁, h₁⟩, (ih s₁).mp ⟨s', h⟩⟩
    · rintro ⟨hc, hrest⟩
      obtain ⟨s₁, h₁⟩ := hone.1.mpr hc
      obtain ⟨s', h⟩ := (ih s₁).mpr hrest
      exact ⟨s', bind_eq_ok.mpr ⟨s₁, h₁, h⟩⟩

theorem initCpus_ready {mm : Bool} {cpus : List (Nat × Nat)} {s s' : GicrState}
    (hcpus : (cpus.map Prod.fst).Nodup) (h : g.initCpus hw mm cpus s = .ok s') :
    g.CpusReady hw mm cpus s s' := by
  induction cpus generalizing s with
  | nil =>
    cases h
    exact ⟨nofun, nofun, nofun, fun _ _ => rfl, fun _ hr => hr, fun _ _ => ⟨rfl, rfl⟩⟩
  | cons c cpus ih =>
    rw [List.map_cons, List.nodup_cons] at hcpus
    have hcons : g.initCpus hw mm (c :: cpus) s = (g.gicV3GiccInit hw mm c.1 c.2 s).bind
        (g.initCpus hw mm cpus) := List.foldlM_cons ..
    rw [hcons] at h
    obtain ⟨s₁, h₁, h⟩ := bind_eq_ok.mp h
    obtain ⟨r, howns, hinit⟩ := (@gicV3GiccInit_ok g hw mm c.1 c.2 s).2 s₁ h₁
    exact .cons howns hinit (ih hcpus.2 h) hcpus.1

/-- The initialisation of all processors returns if each of them has a redistributor that wakes up,
and no matter in which order they come. -/
theorem gic_v3_gicc_init_all {mm : Bool} {cpus : List (Nat × Nat)}
    (hcpus : (cpus.map Prod.fst).Nodup) (s : GicrState) :
    ((∃ s', g.initCpus hw mm cpus s = .ok s') ↔
      ∀ c ∈ cpus, ∃ r, g.Owns hw (cpuAff c.2) r ∧ Wakes hw r) ∧
      ∀ s', g.initCpus hw mm cpus s = .ok s' → g.CpusReady hw mm cpus s s' :=
  ⟨initCpus_returns s, fun _ h => initCpus_ready hcpus h⟩

end GicrRegion

/-! ### Interrupts between processors -/

/-- The processors that take an interrupt after a write of `v` to `ICC_SGI1R_EL1`: those
whose affinity fields and range selector are the ones in `v` and whose bit of the target
list is set, as long as the routing mode is not the one for all others. -/
structure SgiReaches (v aff : Nat) : Prop where
  irm : v / 2 ^ 40 % 2 = 0
  aff3 : v / 2 ^ 48 % 2 ^ 8 = aff / 2 ^ 24 % 2 ^ 8
  aff2 : v / 2 ^ 32 % 2 ^ 8 = aff / 2 ^ 16 % 2 ^ 8
  aff1 : v / 2 ^ 16 % 2 ^ 8 = aff / 2 ^ 8 % 2 ^ 8
  rs : v / 2 ^ 44 % 2 ^ 4 = aff / 2 ^ 4 % 2 ^ 4
  target : v.testBit (aff % 2 ^ 4)

/-- The interrupt that the write generates. -/
def sgiIntid (v : Nat) : Nat := v / 2 ^ 24 % 2 ^ 4

theorem limb_of_lt {w v j : Nat} (h : v < 2 ^ (w * j)) : limb w v j = 0 := by
  rw [limb, Nat.div_eq_of_lt h, Nat.zero_mod]

theorem and_high_nibble {x : Nat} (h : x < 2 ^ 8) : x &&& 0xf0 = x / 2 ^ 4 * 2 ^ 4 := by
  have hall : ∀ x < 2 ^ 8, x &&& 0xf0 = x / 2 ^ 4 * 2 ^ 4 := by decide +kernel
  exact hall x h

namespace GicrRegion

theorem iccSgi1r_eq (aff : Nat) : iccSgi1r aff =
    2 ^ (aff % 2 ^ 8 % 2 ^ 4) ||| aff / 2 ^ 8 % 2 ^ 8 * 2 ^ (8 * 2) ||| aff / 2 ^ 16 %
      2 ^ 8 * 2 ^ (8 * 4) |||
      aff / 2 ^ 24 % 2 ^ 8 * 2 ^ (8 * 6) ||| aff % 2 ^ 8 / 2 ^ 4 * 2 ^ 4 * 2 ^ (8 * 5) := by
  have hlt : aff % 2 ^ 8 < 2 ^ 8 := Nat.mod_lt _ (by decide)
  rw [iccSgi1r, and_high_nibble hlt]
  by_cases h : aff % 2 ^ 8 > 0x0f
  · rw [if_pos h]
  · rw [if_neg h, Nat.div_eq_of_lt (by omega : aff % 2 ^ 8 < 2 ^ 4), Nat.zero_mul,
      Nat.zero_mul, Nat.or_zero]

theorem iccSgi1r_limb (aff : Nat) {j : Nat} (hj : 2 ≤ j) : limb 8 (iccSgi1r aff) j =
    (if j = 2 then aff / 2 ^ 8 % 2 ^ 8 else 0) ||| (if j = 4 then aff / 2 ^ 16 % 2 ^ 8 else 0) |||
      (if j = 6 then aff / 2 ^ 24 % 2 ^ 8 else 0) ||| (if j = 5 then aff % 2 ^ 8 / 2 ^ 4 * 2 ^ 4
        else 0) := by
  have hmod : ∀ n, n % 2 ^ 8 < 2 ^ 8 := fun n => Nat.mod_lt _ (by decide)
  have hhigh : aff % 2 ^ 8 / 2 ^ 4 * 2 ^ 4 < 2 ^ 8 := (Nat.div_mul_le_self ..).trans_lt (hmod aff)
  have hbit : 2 ^ (aff % 2 ^ 8 % 2 ^ 4) < 2 ^ (8 * j) :=
    Nat.pow_lt_pow_right (by decide) ((Nat.mod_lt _ (by decide)).trans_le (by omega))
  rw [iccSgi1r_eq, limb_or, limb_or, limb_or, limb_or, limb_of_lt hbit, limb_mul_two_pow (hmod _),
    limb_mul_two_pow (hmod _), limb_mul_two_pow (hmod _), limb_mul_two_pow hhigh, Nat.zero_or]

theorem iccSgi1r_testBit (aff : Nat) {j : Nat} (hj : j < 16) :
    (iccSgi1r aff).testBit j = decide (aff % 2 ^ 4 = j) := by
  rw [iccSgi1r_eq, Nat.testBit_or, Nat.testBit_or, Nat.testBit_or, Nat.testBit_or,
    Nat.testBit_two_pow, Nat.testBit_mul_two_pow,
    Nat.testBit_mul_two_pow, Nat.testBit_mul_two_pow, Nat.testBit_mul_two_pow,
    decide_eq_false (by omega : ¬ 8 * 2 ≤ j),
    decide_eq_false (by omega : ¬ 8 * 4 ≤ j), decide_eq_false (by omega : ¬ 8 * 6 ≤ j),
    decide_eq_false (by omega : ¬ 8 * 5 ≤ j), Nat.mod_mod_of_dvd _ (by decide)]
  simp only [Bool.false_and, Bool.or_false]

/-- The value for one affinity reaches the processor that has it, and no other. -/
theorem sgiReaches_iff {aff aff' : Nat} (haff : aff < 2 ^ 32) (haff' : aff' < 2 ^ 32) :
    SgiReaches (iccSgi1r aff) aff' ↔ aff' = aff := by
  have h2 := iccSgi1r_limb aff (j := 2) le_rfl
  have h4 := iccSgi1r_limb aff (j := 4) (by decide)
  have h5 := iccSgi1r_limb aff (j := 5) (by decide)
  have h6 := iccSgi1r_limb aff (j := 6) (by decide)
  have hbit := iccSgi1r_testBit aff (j := aff' % 2 ^ 4) (Nat.mod_lt _ (by decide))
  simp only [limb, reduceIte, Nat.reduceEqDiff, Nat.or_zero, Nat.zero_or] at h2 h4 h5 h6
  constructor
  · rintro ⟨hirm, haff3, haff2, haff1, hrs, htarget⟩
    rw [hbit, decide_eq_true_eq] at htarget
    omega
  · rintro rfl
    refine ⟨by omega, by omega, by omega, by omega, by omega, by rw [hbit, decide_eq_true rfl]⟩

theorem sgiIntid_iccSgi1r (aff : Nat) : sgiIntid (iccSgi1r aff) = 0 := by
  have h3 := iccSgi1r_limb aff (j := 3) (by decide)
  simp only [limb, reduceIte, Nat.reduceEqDiff, Nat.or_zero] at h3
  rw [sgiIntid]
  omega

/-- The affinity fields of `MPIDR_EL1`. -/
def SameAffinity (m m' : Nat) : Prop :=
  m % 2 ^ 24 = m' % 2 ^ 24 ∧ m / 2 ^ 32 % 2 ^ 8 = m' / 2 ^ 32 % 2 ^ 8

theorem cpuAff_eq (m : Nat) : cpuAff m = 2 ^ 24 * (m / 2 ^ 32 % 2 ^ 8) + m % 2 ^ 24 := by
  have hlow : m &&& 0xFFFFFF = m % 2 ^ 24 := Nat.and_two_pow_sub_one_eq_mod m 24
  have hhigh : m / 2 ^ 8 &&& 0xFF000000 = 2 ^ 24 * (m / 2 ^ 32 % 2 ^ 8) := by
    refine Nat.eq_of_testBit_eq fun i => ?_
    rw [show 0xFF000000 = 2 ^ 24 * (2 ^ 8 - 1) from rfl, Nat.testBit_and, Nat.testBit_two_pow_mul,
      Nat.testBit_two_pow_mul,
      Nat.testBit_two_pow_sub_one, Nat.testBit_mod_two_pow, Nat.testBit_div_two_pow,
      Nat.testBit_div_two_pow]
    by_cases hi : 24 ≤ i
    · rw [show i - 24 + 32 = i + 8 by omega, decide_eq_true hi, Bool.true_and,
        Bool.true_and, Bool.and_comm]
    · rw [decide_eq_false hi, Bool.false_and, Bool.false_and, Bool.and_false]
  rw [cpuAff, hlow, hhigh, Nat.lor_comm,
    ← Nat.two_pow_add_eq_or_of_lt (Nat.mod_lt _ (Nat.two_pow_pos _))]
  exact u32_of_lt (by omega)

theorem cpuAff_lt (m : Nat) : cpuAff m < 2 ^ 32 := u32_lt _

theorem cpuAff_inj (m m' : Nat) : cpuAff m' = cpuAff m ↔ SameAffinity m' m := by
  rw [cpuAff_eq, cpuAff_eq, SameAffinity]
  omega

variable {g : GicrRegion} {hw : GicrInputs} {mm : Bool} {cpus : List (Nat × Nat)}
  {s s' : GicrState} {r aff : Nat}

/-- A write to `ISPENDR0` at the offset that the memory-mapped callout goes by. -/
theorem out_ispendr0 (hr : r < 2 ^ 14) :
    s.out g.shift (g.ipiValue true r aff) 1 = s.modify r fun d => d.out ispendr0.base 1 := by
  have hshift := g.two_pow_shift.2
  have hmul : 2 ^ g.shift * r ≤ 2 ^ 18 * (2 ^ 14 - 1) := Nat.mul_le_mul hshift (by omega)
  have hvalue : g.ipiValue true r aff = r * 2 ^ g.shift + (sgiBaseOffset + ispendr0.base) := by
    change u32 (u32 (2 ^ g.shift * r) + sgiBaseOffset + ispendr0.base) = _
    have hbase : sgiBaseOffset + ispendr0.base = 66048 := rfl
    have hinner : u32 (2 ^ g.shift * r) = 2 ^ g.shift * r := u32_of_lt (by omega)
    rw [hinner, Nat.add_assoc, u32_of_lt (by omega), Nat.mul_comm]
  rw [hvalue, g.out_second r (by decide)]

/-- A one written to the bit of an interrupt. -/
theorem out_bit {b : Bank GicdField} (hb : b ∈ gicrBanks) (hmode : b.mode ≠ .store)
    (hshape : b.first = 0 ∧ b.per = 32 ∧ b.bits = 1 ∧ 0 < b.words) {i : Nat} (hi : i < 32)
    (d : GicrFrame) :
    (d.out b.base (2 ^ i)).fields = Function.update d.fields b.field
      (Function.update (d.fields b.field) i (b.mode.apply (d.fields b.field i) 1)) := by
  obtain ⟨hfirst, hper, hbits, hwords⟩ := hshape
  have h := GicrFrame.out_fields hb hwords (2 ^ i) d
  rw [Nat.zero_mul, Nat.add_zero] at h
  have hindex : b.first + b.per * 0 + i = i := by
    rw [hfirst, Nat.mul_zero, Nat.add_zero, Nat.zero_add]
  rw [h, Bank.write, Bank.column_bit hbits hmode (hper ▸ hi), hindex]

/-- The interrupt that a processor sends to one of those that are set up. With the
system register it is interrupt 0 of all processors with the affinity of that one. The
memory-mapped callout makes it pending at the redistributor with the number of the
processor, which is the right one if it is the one that was found. -/
theorem gic_v3_ipi (hcpus : (cpus.map Prod.fst).Nodup) (h : g.initCpus hw mm cpus s = .ok s') :
    (mm = false → ∀ c ∈ cpus, sgiIntid (s'.gicCpu c.1) = 0 ∧
        ∀ m, SgiReaches (s'.gicCpu c.1) (cpuAff m) ↔ SameAffinity m c.2) ∧
      (mm = true → ∀ c ∈ cpus, c.1 < 2 ^ 14 →
        (∀ r ≠ c.1, (s'.out g.shift (s'.gicCpu c.1) 1).frames r = s'.frames r) ∧
        ((s'.out g.shift (s'.gicCpu c.1) 1).frames c.1).fields =
          Function.update (s'.frames c.1).fields .pending
            (Function.update ((s'.frames c.1).fields .pending) 0 1) ∧
        (((s'.out g.shift (s'.gicCpu c.1) 1).frames (s'.gicrIdx c.1)).fields .pending 0 = 1 ↔
          s'.gicrIdx c.1 = c.1)) := by
  have hready := initCpus_ready hcpus h
  constructor
  · rintro rfl c hc
    have hvalue : s'.gicCpu c.1 = iccSgi1r (cpuAff c.2) := hready.value c hc
    rw [hvalue]
    refine ⟨sgiIntid_iccSgi1r _, fun m => ?_⟩
    rw [sgiReaches_iff (cpuAff_lt _) (cpuAff_lt _), cpuAff_inj]
  · rintro rfl c hc hlt
    have hbit := out_bit (b := ispendr0) (by decide) nofun ⟨rfl, rfl, rfl, Nat.one_pos⟩
      (show 0 < 32 by decide) (s'.frames c.1)
    have hset : ispendr0.mode.apply ((s'.frames c.1).fields ispendr0.field 0) 1 = 1 :=
      GicdCall.set_one ((s'.frames c.1).fits .pending 0)
    rw [hset] at hbit
    rw [hready.value c hc, out_ispendr0 hlt, GicrState.modify]
    refine ⟨fun r hr => Function.update_of_ne hr .., ?_, fun hone => ?_, fun heq => ?_⟩
    · dsimp only
      rw [Function.update_self]
      exact hbit
    · by_contra hne
      dsimp only at hone
      rw [Function.update_of_ne hne, (hready.ready c hc).pending 0 (by decide)] at hone
      exact absurd hone (by decide)
    · dsimp only
      rw [heq, Function.update_self, ← Nat.pow_zero 2, hbit]
      rfl

end GicrRegion

/-! ### The callouts for private interrupts -/

/-- The address of the second frame of the running processor's redistributor. The upper half of
`TPIDR_EL1` has the index of the redistributor if its first bit is set. -/
def ppiFrame (gicrVaddr shift tpidr : Nat) : Nat :=
  let x9 := if tpidr &&& 2 ^ 63 = 0 then tpidr else tpidr / 2 ^ 32 &&& 0xffff
  u64 (u64 (gicrVaddr + sgiBaseOffset) + u64 (x9 * 2 ^ shift))

/-- A write to the bit of a vector; the redistributors are mapped at `gicrVaddr`. -/
def writePpiBit (base gicrVaddr shift tpidr x1 : Nat) (s : GicrState) : GicrState :=
  s.out shift (sub64 (u64 (ppiFrame gicrVaddr shift tpidr + base)) gicrVaddr)
    (u32 (2 ^ (u32 x1 % 32)))

def interruptMaskGicV3Ppi : Nat → Nat → Nat → Nat → GicrState → GicrState :=
  writePpiBit icenabler0.base

def interruptUnmaskGicV3Ppi : Nat → Nat → Nat → Nat → GicrState → GicrState :=
  writePpiBit isenabler0.base

/-- A call on a processor. -/
structure PpiCall where
  cpu : Nat
  unmask : Bool
  vector : Nat

def PpiCall.run (c : PpiCall) (gicrVaddr shift : Nat) (tpidr : Nat → Nat) : GicrState → GicrState :=
  if c.unmask then interruptUnmaskGicV3Ppi gicrVaddr shift (tpidr c.cpu) c.vector
  else interruptMaskGicV3Ppi gicrVaddr shift (tpidr c.cpu) c.vector

def runPpiCalls (gicrVaddr shift : Nat) (tpidr : Nat → Nat) (calls : List PpiCall)
    (s : GicrState) : GicrState :=
  calls.foldl (fun s c => c.run gicrVaddr shift tpidr s) s

/-- The last call for an interrupt on the processors of a redistributor. -/
def lastPpiCall (gicrIdx : Nat → Nat) (calls : List PpiCall) (r i : Nat) : Option PpiCall :=
  calls.reverse.find? fun c => (gicrIdx c.cpu, c.vector) = (r, i)

/-- The two forms of `TPIDR_EL1` that the callouts understand. -/
def TpidrHolds (tpidr r : Nat) : Prop := tpidr / 2 ^ 63 % 2 = 1 ∧ tpidr / 2 ^ 32 % 2 ^ 16 = r ∨
    tpidr < 2 ^ 63 ∧ tpidr = r

section Ppi

variable {g : GicrRegion} {gicrVaddr tpidr r x : Nat}

theorem ppiFrame_offset (h : TpidrHolds tpidr r) (hr : r < 2 ^ 32) (hx : x < 2 ^ 16) :
    sub64 (u64 (ppiFrame gicrVaddr g.shift tpidr + x)) gicrVaddr =
      r * 2 ^ g.shift + (sgiBaseOffset + x) := by
  have hindex : (if tpidr &&& 2 ^ 63 = 0 then tpidr else tpidr / 2 ^ 32 &&& 0xffff) = r := by
    rw [Nat.and_two_pow, Nat.testBit_eq_decide_div_mod_eq]
    rcases h with ⟨htop, hr⟩ | ⟨hlt, rfl⟩
    · rw [decide_eq_true htop, if_neg (by decide), ← hr]
      exact Nat.and_two_pow_sub_one_eq_mod _ 16
    · rw [decide_eq_false (by omega), Bool.toNat_false, Nat.zero_mul, if_pos rfl]
  have hsgi : sgiBaseOffset + x < 2 ^ 17 := by
    rw [sgiBaseOffset]
    omega
  have hsum : u64 (ppiFrame gicrVaddr g.shift tpidr + x) =
      u64 (gicrVaddr + (r * 2 ^ g.shift + (sgiBaseOffset + x))) := by
    rw [ppiFrame, hindex, u64_add_left, ← u64_add_left (u64 _ + _), u64_add_left (gicrVaddr + _),
      u64_add_right, u64_add_left]
    congr 1
    omega
  rw [hsum, sub64_add_self _ (g.offset_lt hr hsgi)]

theorem PpiCall.run_frames {c : PpiCall} {tpidr : Nat → Nat} (h : TpidrHolds (tpidr c.cpu) r)
    (hr : r < 2 ^ 32) (hvector : c.vector < 32) (s : GicrState) :
    (∀ r' ≠ r, (c.run gicrVaddr g.shift tpidr s).frames r' = s.frames r') ∧
      ((c.run gicrVaddr g.shift tpidr s).frames r).fields =
        Function.update (s.frames r).fields .enable
        (Function.update ((s.frames r).fields .enable) c.vector (if c.unmask then 1 else 0)) := by
  have hbit : u32 (2 ^ (u32 c.vector % 32)) = 2 ^ c.vector := by
    rw [u32_of_lt (hvector.trans (by decide)), Nat.mod_eq_of_lt hvector,
      u32_of_lt (Nat.pow_lt_pow_right (by decide) hvector)]
  have hwrite : ∀ base < 2 ^ 16, writePpiBit base gicrVaddr g.shift (tpidr c.cpu) c.vector s =
      s.modify r fun d => d.out base (2 ^ c.vector) := by
    intro base hbase
    rw [writePpiBit, hbit, ppiFrame_offset h hr hbase, g.out_second r hbase]
  have hold := (s.frames r).fits .enable c.vector
  cases hunmask : c.unmask with
  | false =>
    have hrun : c.run gicrVaddr g.shift tpidr s = s.modify r fun d =>
        d.out icenabler0.base (2 ^ c.vector) := by
      rw [run, if_neg (by rw [hunmask]; exact Bool.false_ne_true)]
      exact hwrite _ (by decide)
    have hout := GicrRegion.out_bit (b := icenabler0) (by decide) nofun ⟨rfl, rfl, rfl,
      Nat.one_pos⟩ hvector (s.frames r)
    rw [hrun, GicrState.modify]
    refine ⟨fun r' hr' => Function.update_of_ne hr' .., ?_⟩
    dsimp only
    rw [Function.update_self, if_neg Bool.false_ne_true, ← GicV3.clear_one hold]
    exact hout
  | true =>
    have hrun : c.run gicrVaddr g.shift tpidr s = s.modify r fun d =>
        d.out isenabler0.base (2 ^ c.vector) := by
      rw [run, if_pos hunmask]
      exact hwrite _ (by decide)
    have hout := GicrRegion.out_bit (b := isenabler0) (by decide) nofun ⟨rfl, rfl, rfl,
      Nat.one_pos⟩ hvector (s.frames r)
    rw [hrun, GicrState.modify]
    refine ⟨fun r' hr' => Function.update_of_ne hr' .., ?_⟩
    dsimp only
    rw [Function.update_self, if_pos rfl, ← GicdCall.set_one hold]
    exact hout

variable {hw : GicrInputs} {mm : Bool} {cpus : List (Nat × Nat)} {s s' : GicrState}
  {calls : List PpiCall} {tpidr : Nat → Nat}

/-- A call by a processor that was initialised is at its own redistributor. -/
theorem PpiCall.run_ready (gicrVaddr : Nat) {c : PpiCall} (h : g.CpusReady hw mm cpus s s')
    (htpidr : ∀ c ∈ cpus, TpidrHolds (tpidr c.1) (s'.gicrIdx c.1))
    (hcpu : c.cpu ∈ cpus.map Prod.fst) (hvector : c.vector < 32) (s : GicrState) :
    (∀ r' ≠ s'.gicrIdx c.cpu, (c.run gicrVaddr g.shift tpidr s).frames r' = s.frames r') ∧
      ((c.run gicrVaddr g.shift tpidr s).frames (s'.gicrIdx c.cpu)).fields =
        Function.update (s.frames (s'.gicrIdx c.cpu)).fields .enable
          (Function.update ((s.frames (s'.gicrIdx c.cpu)).fields .enable) c.vector
            (if c.unmask then 1 else 0)) := by
  obtain ⟨⟨cpu, mpidr⟩, hmem, hcpu⟩ := List.mem_map.mp hcpu
  have hidx := htpidr _ hmem
  have hlimit := (h.owns _ hmem).limit
  have hlt := g.limit_lt
  dsimp only at hcpu hidx hlimit
  rw [hcpu] at hidx hlimit
  exact PpiCall.run_frames hidx (by omega) hvector s

/-- Each processor masks and unmasks its own private interrupts: those of processors with another
affinity are at other redistributors, and there the last call for an interrupt counts. -/
theorem gic_v3_ppi_masks (hcpus : (cpus.map Prod.fst).Nodup) (h : g.initCpus hw mm cpus s = .ok s')
    (htpidr : ∀ c ∈ cpus, TpidrHolds (tpidr c.1) (s'.gicrIdx c.1))
    (hcalls : ∀ c ∈ calls, c.cpu ∈ cpus.map Prod.fst ∧ c.vector < 32) :
    (∀ c ∈ cpus, ∀ c' ∈ cpus, ¬ GicrRegion.SameAffinity c.2 c'.2 →
      s'.gicrIdx c.1 ≠ s'.gicrIdx c'.1) ∧
      (∀ c ∈ cpus, ∀ i < 32,
        ((runPpiCalls gicrVaddr g.shift tpidr calls s').frames (s'.gicrIdx c.1)).fields .enable i =
          (lastPpiCall s'.gicrIdx calls (s'.gicrIdx c.1) i).elim (if i = 0 then 1 else 0) fun c =>
            if c.unmask then 1 else 0) ∧
      (∀ r, ∀ f ≠ .enable, ((runPpiCalls gicrVaddr g.shift tpidr calls s').frames r).fields f =
        (s'.frames r).fields f) ∧
      ∀ r, (∀ c ∈ cpus, s'.gicrIdx c.1 ≠ r) →
        (runPpiCalls gicrVaddr g.shift tpidr calls s').frames r = s'.frames r := by
  have hready := GicrRegion.initCpus_ready hcpus h
  have hstep := fun c (hc : c ∈ calls) =>
    PpiCall.run_ready gicrVaddr hready htpidr (hcalls c hc).1 (hcalls c hc).2
  refine ⟨fun c hc c' hc' hne heq => ?_, fun c hc i hi => ?_, ?_, ?_⟩
  · have haff := (hready.owns c hc).affinity
    rw [heq, (hready.owns c' hc').affinity] at haff
    exact hne ((GicrRegion.cpuAff_inj _ _).mp haff.symm)
  · have hlast := foldl_update_last (g :=
      fun (s : GicrState) (k : Nat × Nat) => (s.frames k.1).fields .enable k.2)
      (f := fun s c => c.run gicrVaddr g.shift tpidr s) (c :=
        fun c : PpiCall => (s'.gicrIdx c.cpu, c.vector))
      (v := fun c => if c.unmask then 1 else 0) (l := calls) (fun c hc s => ?_) s'
        (s'.gicrIdx c.1, i)
    · rw [← (hready.ready c hc).enable i hi]
      exact hlast
    · obtain ⟨hother, hself⟩ := hstep c hc s
      funext ⟨r, i⟩
      dsimp only
      by_cases hr : r = s'.gicrIdx c.cpu
      · rw [hr, hself, Function.update_self]
        by_cases hi : i = c.vector
        · rw [hi, Function.update_self, Function.update_self]
        · rw [Function.update_of_ne hi, Function.update_of_ne fun heq => hi (Prod.mk.inj heq).2]
      · rw [hother r hr, Function.update_of_ne fun heq => hr (Prod.mk.inj heq).1]
  · intro r f hf
    refine List.foldlRecOn calls _ (motive := fun s : GicrState => (s.frames r).fields f =
      (s'.frames r).fields f) rfl fun s ih c hc => ?_
    obtain ⟨hother, hself⟩ := hstep c hc s
    by_cases hr : r = s'.gicrIdx c.cpu
    · rw [hr, hself, Function.update_of_ne hf, ← hr, ih]
    · rw [hother r hr, ih]
  · intro r hr
    refine List.foldlRecOn calls _ (motive := fun s : GicrState => s.frames r = s'.frames r) rfl
      fun s ih c hc => ?_
    obtain ⟨c', hc', hcpu⟩ := List.mem_map.mp (hcalls c hc).1
    rw [(hstep c hc s).1 r (hcpu ▸ (hr c' hc').symm), ih]

end Ppi

/-! ### Two processors -/

def exampleRegion : GicrRegion := gicV3SetPaddrRange false 2 0xF200000 0

/-- The redistributors in the other order than the processors, the second one asleep at first. -/
def exampleInputs : GicrInputs :=
  ⟨fun r => if r = 0 then 0x100 else 0, fun r k => if r = 0 then if k = 0 then 2 else 6 else 0⟩

def exampleCpus : List (Nat × Nat) := [(0, 0x80000000), (1, 0x80000100)]

def exampleGicr : GicrState :=
  ⟨fun _ => ⟨exampleGicd.fields, exampleGicd.fits⟩, fun _ => 0, fun _ => 0, fun _ => 0⟩

theorem exampleCpus_own : exampleRegion.Owns exampleInputs (cpuAff 0x80000000) 1 ∧
    exampleRegion.Owns exampleInputs (cpuAff 0x80000100) 0 :=
  ⟨⟨rfl, by decide, by decide⟩, ⟨rfl, by decide, by decide⟩⟩

theorem exampleCpus_wake :
    ∀ c ∈ exampleCpus, ∃ r, exampleRegion.Owns exampleInputs (cpuAff c.2) r ∧
      GicrRegion.Wakes exampleInputs r := by
  simp only [exampleCpus, List.forall_mem_cons]
  exact ⟨⟨1, exampleCpus_own.1, .inl rfl⟩, ⟨0, exampleCpus_own.2, .inr ⟨1, by decide, by decide⟩⟩,
    nofun⟩

theorem gic_v3_gicc_init_all_example :
    ∃ s', exampleRegion.initCpus exampleInputs false exampleCpus exampleGicr = .ok s' ∧
      s'.gicrIdx 0 = 1 ∧ s'.gicrIdx 1 = 0 ∧ (s'.frames 0).fields .priority 0 = 0xC0 := by
  have hall := @GicrRegion.gic_v3_gicc_init_all exampleRegion exampleInputs false exampleCpus
    (by decide) exampleGicr
  obtain ⟨s', h⟩ := hall.1.mpr exampleCpus_wake
  have hready := hall.2 s' h
  have hfirst := (hready.owns _ (List.mem_cons_self ..)).unique exampleCpus_own.1
  have hsecond := (hready.owns _ (List.mem_cons_of_mem _ (List.mem_cons_self ..))).unique
    exampleCpus_own.2
  have hframe := hready.ready _ (List.mem_cons_of_mem _ (List.mem_cons_self ..))
  rw [hsecond] at hframe
  exact ⟨s', h, hfirst, hsecond, hframe.priority 0 (by decide)⟩

theorem gic_v3_ipi_example :
    ∃ s', exampleRegion.initCpus exampleInputs false exampleCpus exampleGicr = .ok s' ∧
      SgiReaches (s'.gicCpu 1) (cpuAff 0x100) ∧ ¬ SgiReaches (s'.gicCpu 1) (cpuAff 0) := by
  obtain ⟨s', h⟩ := (GicrRegion.initCpus_returns exampleGicr).mpr exampleCpus_wake
  have hipi := ((GicrRegion.gic_v3_ipi (by decide) h).1 rfl _
    (List.mem_cons_of_mem _ (List.mem_cons_self ..))).2
  exact ⟨s', h, (hipi 0x100).mpr ⟨rfl, rfl⟩,
    fun hreach => absurd ((hipi 0).mp hreach).1 (by decide)⟩

def exampleTpidr (cpu : Nat) : Nat := 2 ^ 63 + (1 - cpu) * 2 ^ 32

/-- The first processor unmasks interrupt 27 and the second one masks it. -/
def examplePpiCalls : List PpiCall := [⟨0, true, 27⟩, ⟨1, false, 27⟩]

theorem gic_v3_ppi_masks_example :
    ∃ s', exampleRegion.initCpus exampleInputs false exampleCpus exampleGicr = .ok s' ∧
      ((runPpiCalls 0x1000 exampleRegion.shift exampleTpidr examplePpiCalls s').frames 1).fields
        .enable 27 = 1 ∧
      ((runPpiCalls 0x1000 exampleRegion.shift exampleTpidr examplePpiCalls s').frames 0).fields
        .enable 27 = 0 := by
  obtain ⟨s', h⟩ := (@GicrRegion.initCpus_returns exampleRegion exampleInputs false exampleCpus
    exampleGicr).mpr exampleCpus_wake
  have hready := GicrRegion.initCpus_ready (by decide) h
  have hfirst := (hready.owns _ (List.mem_cons_self ..)).unique exampleCpus_own.1
  have hsecond := (hready.owns _ (List.mem_cons_of_mem _ (List.mem_cons_self ..))).unique
    exampleCpus_own.2
  dsimp only at hfirst hsecond
  have htpidr : ∀ c ∈ exampleCpus, TpidrHolds (exampleTpidr c.1) (s'.gicrIdx c.1) := by
    simp only [exampleCpus, List.forall_mem_cons]
    rw [hfirst, hsecond]
    exact ⟨.inl ⟨rfl, rfl⟩, .inl ⟨rfl, rfl⟩, nofun⟩
  have hmasks := (@gic_v3_ppi_masks exampleRegion 0x1000 exampleInputs false exampleCpus exampleGicr
    s' examplePpiCalls exampleTpidr
    (by decide) h htpidr (by decide)).2.1
  have hone := hmasks _ (List.mem_cons_self ..) 27 (by decide)
  have htwo := hmasks _ (List.mem_cons_of_mem _ (List.mem_cons_self ..)) 27 (by decide)
  simp only [hfirst, hsecond, lastPpiCall, examplePpiCalls, List.reverse_cons, List.reverse_nil,
    List.nil_append, List.cons_append, List.find?_cons] at hone htwo
  exact ⟨s', h, hone, htwo⟩

end QnxStartup
