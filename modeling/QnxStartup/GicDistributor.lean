import Mathlib.Data.List.Nodup
import QnxStartup.GicEntries
import QnxStartup.RegisterBank

/-! The distributor of a GICv3: what `gic_v3_initialize` and `gic_v3_set_intr_trig_mode`
write to it, and the callouts that mask and unmask shared interrupts. An access reaches
all that is in the registers, whatever the security state. -/

namespace QnxStartup

inductive GicdField where
  | group
  | enable
  | pending
  | priority
  | config
  | modifier
  | route
  deriving DecidableEq

/-- The bits of a field. -/
def GicdField.width : GicdField → Nat
  | .group | .enable | .pending | .modifier => 1
  | .priority => 8
  | .config => 2
  | .route => 64

/-! ### The registers -/

def igroupr : Bank GicdField := ⟨.group, 0x80, 32, 4, 32, 1, 0, .store⟩
def isenabler : Bank GicdField := ⟨.enable, 0x100, 32, 4, 32, 1, 0, .set⟩
def icenabler : Bank GicdField := ⟨.enable, 0x180, 32, 4, 32, 1, 0, .clear⟩
def icpendr : Bank GicdField := ⟨.pending, 0x280, 32, 4, 32, 1, 0, .clear⟩
def ipriorityr : Bank GicdField := ⟨.priority, 0x400, 256, 4, 4, 8, 0, .store⟩
def icfgr : Bank GicdField := ⟨.config, 0xC00, 64, 4, 16, 2, 0, .store⟩
def igrpmodr : Bank GicdField := ⟨.modifier, 0xD00, 32, 4, 32, 1, 0, .store⟩
def irouter : Bank GicdField := ⟨.route, 0x6000, 1020, 8, 1, 64, 0, .store⟩
def isenablerE : Bank GicdField := ⟨.enable, 0x1200, 32, 4, 32, 1, 4096, .set⟩
def icenablerE : Bank GicdField := ⟨.enable, 0x1400, 32, 4, 32, 1, 4096, .clear⟩
def icpendrE : Bank GicdField := ⟨.pending, 0x1800, 32, 4, 32, 1, 4096, .clear⟩
def ipriorityrE : Bank GicdField := ⟨.priority, 0x2000, 256, 4, 4, 8, 4096, .store⟩
def icfgrE : Bank GicdField := ⟨.config, 0x3000, 64, 4, 16, 2, 4096, .store⟩
def igrpmodrE : Bank GicdField := ⟨.modifier, 0x3400, 32, 4, 32, 1, 4096, .store⟩
def irouterE : Bank GicdField := ⟨.route, 0x8000, 1024, 8, 1, 64, 4096, .store⟩

def gicdBanks : List (Bank GicdField) :=
  [igroupr, isenabler, icenabler, icpendr, ipriorityr, icfgr, igrpmodr, irouter, isenablerE,
    icenablerE, icpendrE, ipriorityrE, icfgrE, igrpmodrE, irouterE]

theorem gicdBanks_apart : gicdBanks.Pairwise Bank.Apart := by decide

theorem gicdBanks_width : ∀ b ∈ gicdBanks, b.bits = b.field.width ∧ 0 < b.size ∧ 8 ≤ b.base := by
  decide

structure Gicd where
  ctlr : Nat
  fields : GicdField → Nat → Nat
  fits : ∀ f i, fields f i < 2 ^ f.width

namespace Gicd

/-- `out32` and `out64`; the control register is the first one. -/
def out (d : Gicd) (off v : Nat) : Gicd :=
  if off = 0 then { d with ctlr := v }
  else
    { d with
      fields := writeRegister gicdBanks off v d.fields
      fits := writeRegister_lt (fun b hb => (gicdBanks_width b hb).1) d.fits off v }

def in32 (d : Gicd) (off : Nat) : Nat := readRegister gicdBanks off d.fields

/-- A loop over register indices that writes the same values for each of them. -/
def fill (d : Gicd) (writes : List (Bank GicdField × Nat)) (lo hi : Nat) : Gicd :=
  (List.range' lo (hi - lo)).foldl
    (fun d i => writes.foldl (fun d w => d.out (w.1.base + i * w.1.size) w.2) d) d

end Gicd

/-! ### Initialisation -/

namespace GicV3

def itlines (g : GicV3) : Nat := g.gicdTyper % 2 ^ 5 + 1

def itn (g : GicV3) : Nat :=
  if g.itlines * 32 > spiMaxIrq + 1 then spiMaxIrq + 1 else g.itlines * 32

def espilines (g : GicV3) : Nat :=
  if g.gicdTyper / 2 ^ 8 % 2 = 0 then 0 else g.gicdTyper / 2 ^ 27 % 2 ^ 5 + 1

/-- `gic_v3_initialize` up to where it maps the registers. -/
def resetGicd (g : GicV3) (mpidr : Nat) (d : Gicd) : Gicd :=
  let d := d.out 0 0
  let d := d.fill [(icenabler, 0xFFFFFFFF), (icpendr, 0xFFFFFFFF), (igroupr, 0xFFFFFFFF),
    (igrpmodr, 0)] 1 g.itlines
  let d := d.fill [(ipriorityr, 0xA0A0A0A0)] 8 (8 * g.itlines)
  let d := d.fill [(icfgr, 0)] 2 (g.itn / 16)
  let espin := 32 * g.espilines
  let d := d.fill [(icenablerE, 0xFFFFFFFF), (icpendrE, 0xFFFFFFFF), (igrpmodrE, 0)] 0 g.espilines
  let d := d.fill [(ipriorityrE, 0xA0A0A0A0)] 0 (8 * g.espilines)
  let d := d.fill [(icfgrE, 0)] 0 (espin / 16)
  let d := if g.gicdTyper / 2 ^ 10 % 2 ≠ 0 then (d.out 0 0x10).out 0 (0x10 ||| 0x2)
    else d.out 0 (0x10 ||| 0x2)
  let affinity := mpidr &&& 0xff00ffffff
  let d := d.fill [(irouter, affinity)] 32 g.itn
  d.fill [(irouterE, affinity)] 0 espin

/-- The register of `gic_v3_set_intr_trig_mode` read, changed and written back. -/
def setTrigMode (off irq : Nat) (edge : Bool) (d : Gicd) : Gicd :=
  let mask := u32 (0x2 * 2 ^ (irq % 16 * 2))
  let val := d.in32 off
  d.out off (if edge then val ||| mask else val &&& compl32 mask)

def gicV3SetIntrTrigMode (g : GicV3) (irq : Nat) (edge : Bool) (d : Gicd) : Startup Gicd :=
  if ¬ g.baseAddressesInitialized then crash assertText
  else if irq ≥ 32 ∧ irq < g.numSpis + 32 then
    .ok (setTrigMode (icfgr.base + irq / 16 * 4) irq edge d)
  else if irq ≥ 4096 ∧ irq < g.numEspis + 4096 then
    .ok (setTrigMode (icfgrE.base + (irq - 4096) / 16 * 4) irq edge d)
  else .ok d

/-- The vectors of the entries with `INTR_FLAG_MSI`. -/
def msiEdges (g : GicV3) (entries : List StartupIntrinfo) (d : Gicd) : Startup Gicd :=
  entries.foldlM (fun d e =>
    if e.flags &&& g.intrFlagMsi ≠ 0 then
      (List.range' e.vectorBase (u32 (e.vectorBase + e.numVectors) - e.vectorBase)).foldlM
        (fun d irq => g.gicV3SetIntrTrigMode irq true d) d
    else .ok d) d

/-- One entry for all vectors. -/
def addDefaultEntry (g : GicV3) (k : GicKind) (p : Nat) (s : GicState) : Startup GicState := do
  let s := { s with intrinfo := Function.update s.intrinfo p { s.intrinfo p with
    numVectors := g.num k } }
  let (_, s) ← g.addEntry k p s
  .ok s

/-- The default entry where the board has added none. -/
def addDefaultSpi (g : GicV3) (p : Nat) (s : GicState) : Startup GicState :=
  if (s.tables .spi).length = 0 then g.addDefaultEntry .spi p s else .ok s

def addDefaultEspi (g : GicV3) (p : Nat) (s : GicState) : Startup GicState :=
  if (s.tables .espi).length = 0 ∧ g.numEspis > 0 then g.addDefaultEntry .espi p s else .ok s

end GicV3

def GicState.entries (s : GicState) (k : GicKind) : List StartupIntrinfo :=
  (s.tables k).map s.intrinfo

namespace GicV3

/-- `gic_v3_initialize`, as far as it is about the distributor and the shared interrupts;
`gic_v3_intr_spi` and `gic_v3_intr_espi` lie at `intrSpi` and `intrEspi`. -/
def gicV3Initialize (g : GicV3) (mpidr intrSpi intrEspi : Nat) (s : GicState)
    (d : Gicd) : Startup (GicState × Gicd) :=
  if ¬ g.baseAddressesInitialized then crash assertText
  else do
    let d := g.resetGicd mpidr d
    let s ← g.addDefaultSpi intrSpi s
    let d ← g.msiEdges (s.entries .spi) d
    let s ← g.addDefaultEspi intrEspi s
    let d ← g.msiEdges (s.entries .espi) d
    .ok (s, d)

end GicV3

/-! ### The callouts -/

/-- The bit of a vector, written to the register of its word. -/
def writeVectorBit (base vecOff x1 : Nat) (d : Gicd) : Gicd :=
  let x1 := u64 (x1 + vecOff)
  d.out (base + u32 x1 / 32 * 4) (u32 (2 ^ (u32 x1 % 32)))

def interruptMaskGicV3Spi : Nat → Nat → Gicd → Gicd := writeVectorBit (icenabler.base + 4)

def interruptUnmaskGicV3Spi : Nat → Nat → Gicd → Gicd := writeVectorBit (isenabler.base + 4)

def interruptMaskGicV3Espi : Nat → Nat → Gicd → Gicd := writeVectorBit icenablerE.base

def interruptUnmaskGicV3Espi : Nat → Nat → Gicd → Gicd := writeVectorBit isenablerE.base

/-- A call of a callout that was patched for an entry. -/
structure GicdCall where
  espi : Bool
  unmask : Bool
  entry : LpiEntry
  vector : Nat

namespace GicdCall

def kind (c : GicdCall) : GicKind := if c.espi then .espi else .spi

/-- `patch_data.vec_off`. -/
def vecOff (c : GicdCall) : Nat := sub32 c.entry.vectorBase c.kind.minIrq

def intid (c : GicdCall) : Nat := c.entry.vectorBase + c.vector

def run (c : GicdCall) : Gicd → Gicd :=
  match c.espi, c.unmask with
  | false, false => interruptMaskGicV3Spi c.vecOff c.vector
  | false, true => interruptUnmaskGicV3Spi c.vecOff c.vector
  | true, false => interruptMaskGicV3Espi c.vecOff c.vector
  | true, true => interruptUnmaskGicV3Espi c.vecOff c.vector

end GicdCall

/-! ### Loops -/

namespace Gicd

section

variable {d : Gicd} {b : Bank GicdField} {n v : Nat}

theorem out_hit (d : Gicd) (hb : b ∈ gicdBanks) (hn : n < b.words) (v : Nat) :
    (d.out (b.base + n * b.size) v).fields = b.write n v d.fields ∧
      (d.out (b.base + n * b.size) v).ctlr = d.ctlr := by
  obtain ⟨-, hsize, hbase⟩ := gicdBanks_width b hb
  rw [out, if_neg (by omega), Nat.mul_comm]
  exact ⟨writeRegister_hit gicdBanks_apart hb hsize hn v d.fields, rfl⟩

theorem in32_hit (d : Gicd) (hb : b ∈ gicdBanks) (hn : n < b.words) :
    d.in32 (b.base + n * b.size) = b.read n d.fields := by
  obtain ⟨-, hsize, -⟩ := gicdBanks_width b hb
  rw [in32, Nat.mul_comm]
  exact readRegister_hit gicdBanks_apart hb hsize hn d.fields

/-- What a field of a source comes to in a loop of `fill`. -/
def filled (writes : List (Bank GicdField × Nat)) (lo hi : Nat) (f : GicdField)
    (i old : Nat) : Nat :=
  match writes.find? fun w => w.1.field = f with
  | none => old
  | some w =>
    if w.1.first + w.1.per * lo ≤ i ∧ i < w.1.first + w.1.per * hi then
      w.1.mode.apply old (limb w.1.bits w.2 ((i - w.1.first) % w.1.per))
    else old

/-- The writes for one register index. -/
theorem writes_fields {writes : List (Bank GicdField × Nat)}
    (hwrites : ∀ w ∈ writes, w.1 ∈ gicdBanks ∧ n < w.1.words) (d : Gicd) (f : GicdField) :
    (writes.foldl (fun d w => d.out (w.1.base + n * w.1.size) w.2) d).fields f =
      writes.foldl (fun c w => if w.1.field = f then w.1.column n w.2 c else c) (d.fields f) := by
  induction writes generalizing d with
  | nil => rfl
  | cons w writes ih =>
    rw [List.forall_mem_cons] at hwrites
    rw [List.foldl_cons, List.foldl_cons, ih hwrites.2, (d.out_hit hwrites.1.1 hwrites.1.2 w.2).1]
    by_cases hf : w.1.field = f
    · rw [if_pos hf, ← hf, Bank.write_field]
    · rw [if_neg hf, Bank.write_of_ne (Ne.symm hf)]

theorem foldl_of_ne {writes : List (Bank GicdField × Nat)} {f : GicdField}
    (h : ∀ w ∈ writes, w.1.field ≠ f) (c : Nat → Nat) :
    writes.foldl (fun c w => if w.1.field = f then w.1.column n w.2 c else c) c = c := by
  induction writes generalizing c with
  | nil => rfl
  | cons w writes ih =>
    rw [List.forall_mem_cons] at h
    rw [List.foldl_cons, if_neg h.1, ih h.2]

theorem fill_fields {writes : List (Bank GicdField × Nat)} {lo hi : Nat} (hle : lo ≤ hi)
    (hwrites : ∀ w ∈ writes, w.1 ∈ gicdBanks ∧ hi ≤ w.1.words)
    (hfields : (writes.map fun w => w.1.field).Nodup) (d : Gicd) (f : GicdField) (i : Nat) :
    (d.fill writes lo hi).fields f i = filled writes lo hi f i (d.fields f i) := by
  have hfold : ∀ (l : List Nat) (d : Gicd), (∀ n ∈ l, n < hi) →
      (l.foldl (fun d n => writes.foldl
        (fun d w => d.out (w.1.base + n * w.1.size) w.2) d) d).fields f =
        l.foldl (fun c n => writes.foldl (fun c w => if w.1.field = f then w.1.column n w.2 c
          else c) c) (d.fields f) := by
    intro l d hl
    induction l generalizing d with
    | nil => rfl
    | cons n l ih =>
      rw [List.forall_mem_cons] at hl
      rw [List.foldl_cons, List.foldl_cons, ih _ hl.2,
        writes_fields fun w hw => ⟨(hwrites w hw).1, hl.1.trans_le (hwrites w hw).2⟩]
  rw [fill, hfold _ _ fun n hn => by
    rw [List.mem_range'_1] at hn
    omega]
  clear hfold
  rw [filled]
  cases hfind : writes.find? fun w => w.1.field = f with
  | none =>
    have hne := List.find?_eq_none.mp hfind
    have hstep : ∀ l : List Nat,
        l.foldl (fun c n => writes.foldl (fun c w => if w.1.field = f then
          w.1.column n w.2 c else c) c)
        (d.fields f) = d.fields f := fun l => by
      induction l with
      | nil => rfl
      | cons n l ih => rw [List.foldl_cons, foldl_of_ne fun w hw => by simpa using hne w hw, ih]
    rw [hstep]
  | some w =>
    obtain ⟨hwf, pre, post, rfl, hpre⟩ := List.find?_eq_some_iff_append.mp hfind
    have hwf : w.1.field = f := of_decide_eq_true hwf
    have hpost : ∀ x ∈ post, x.1.field ≠ f := fun x hx hxf => by
      rw [List.map_append, List.map_cons] at hfields
      exact (List.nodup_cons.mp (List.nodup_append.mp hfields).2.1).1
        (List.mem_map.mpr ⟨x, hx, hxf.trans hwf.symm⟩)
    have hpre : ∀ x ∈ pre, x.1.field ≠ f := fun x hx => by simpa using hpre x hx
    have hone : ∀ (c : Nat → Nat) (n : Nat),
        (pre ++ w :: post).foldl (fun c w => if w.1.field = f then w.1.column n w.2 c else c) c =
        w.1.column n w.2 c := fun c n => by
      rw [List.foldl_append, foldl_of_ne hpre, List.foldl_cons, if_pos hwf, foldl_of_ne hpost]
    simp only [hone]
    rw [Bank.foldl_column, Nat.add_sub_cancel' hle]

end

end Gicd

/-! ### What initialisation leaves -/

namespace GicV3

variable (g : GicV3)

def IsSpi (i : Nat) : Prop := 32 ≤ i ∧ i < 32 + g.numSpis

def IsEspi (i : Nat) : Prop := 4096 ≤ i ∧ i < 4096 + g.numEspis

instance (i : Nat) : Decidable (g.IsSpi i) := inferInstanceAs (Decidable (_ ∧ _))

instance (i : Nat) : Decidable (g.IsEspi i) := inferInstanceAs (Decidable (_ ∧ _))

/-- Where the loops over the SPIs end. The one that sets the trigger modes stops at the last whole
register of 16. -/
def spiEnd (g : GicV3) : GicdField → Nat
  | .config => 16 * (g.itn / 16)
  | .route => g.itn
  | _ => 32 * g.itlines

theorem itn_eq : g.itn = 32 + g.numSpis ∧ g.itn ≤ 32 * g.itlines := by
  unfold itn numSpis itlines spiMaxIrq
  dsimp only
  split <;> omega

theorem itn_bounds : 32 ≤ g.itn ∧ g.itn ≤ 1020 := by
  unfold itn itlines spiMaxIrq
  split <;> omega

theorem itlines_bounds : 1 ≤ g.itlines ∧ g.itlines ≤ 32 := by
  unfold itlines
  omega

theorem espilines_le : g.espilines ≤ 32 ∧ g.numEspis = 32 * g.espilines := by
  unfold espilines numEspis
  split <;> omega

theorem resetGicd_fields (mpidr : Nat) (d : Gicd) (f : GicdField) (i : Nat) :
    (g.resetGicd mpidr d).fields f i =
      Gicd.filled [(irouterE, mpidr &&& 0xff00ffffff)] 0 (32 * g.espilines) f i
        (Gicd.filled [(irouter, mpidr &&& 0xff00ffffff)] 32 g.itn f i
          (Gicd.filled [(icfgrE, 0)] 0 (32 * g.espilines / 16) f i
            (Gicd.filled [(ipriorityrE, 0xA0A0A0A0)] 0 (8 * g.espilines) f i
              (Gicd.filled [(icenablerE, 0xFFFFFFFF), (icpendrE, 0xFFFFFFFF),
                (igrpmodrE, 0)] 0 g.espilines f i
                (Gicd.filled [(icfgr, 0)] 2 (g.itn / 16) f i
                  (Gicd.filled [(ipriorityr, 0xA0A0A0A0)] 8 (8 * g.itlines) f i
                    (Gicd.filled [(icenabler, 0xFFFFFFFF), (icpendr, 0xFFFFFFFF),
                      (igroupr, 0xFFFFFFFF), (igrpmodr, 0)] 1 g.itlines
                      f i (d.fields f i)))))))) := by
  obtain ⟨hpos, hlines⟩ := g.itlines_bounds
  obtain ⟨hitn, hmax⟩ := g.itn_bounds
  have hespi := g.espilines_le.1
  have hctlr : ∀ (d : Gicd) (v : Nat), (d.out 0 v).fields = d.fields := fun _ _ => rfl
  have hone : ∀ {b : Bank GicdField} {v n : Nat}, b ∈ gicdBanks → n ≤ b.words →
      ∀ w ∈ [(b, v)], w.1 ∈ gicdBanks ∧ n ≤ w.1.words := fun hb hn w hw => by
    rw [List.mem_singleton.mp hw]
    exact ⟨hb, hn⟩
  have hfour : ∀ w ∈ [(icenabler, 0xFFFFFFFF), (icpendr, 0xFFFFFFFF), (igroupr, 0xFFFFFFFF),
      (igrpmodr, 0)], w.1 ∈ gicdBanks ∧ g.itlines ≤ w.1.words := fun w hw => by
    have hwords : ∀ w ∈ [(icenabler, 0xFFFFFFFF), (icpendr, 0xFFFFFFFF), (igroupr, 0xFFFFFFFF),
        (igrpmodr, 0)], w.1 ∈ gicdBanks ∧ w.1.words = 32 := by decide
    exact ⟨(hwords w hw).1, (hwords w hw).2 ▸ hlines⟩
  have hthree : ∀ w ∈ [(icenablerE, 0xFFFFFFFF), (icpendrE, 0xFFFFFFFF), (igrpmodrE, 0)],
      w.1 ∈ gicdBanks ∧ g.espilines ≤ w.1.words := fun w hw => by
    have hwords : ∀ w ∈ [(icenablerE, 0xFFFFFFFF), (icpendrE, 0xFFFFFFFF), (igrpmodrE, 0)],
        w.1 ∈ gicdBanks ∧ w.1.words = 32 := by decide
    exact ⟨(hwords w hw).1, (hwords w hw).2 ▸ hespi⟩
  have hctlr : ∀ d : Gicd, (if g.gicdTyper / 2 ^ 10 % 2 ≠ 0 then (d.out 0 0x10).out 0 (0x10 ||| 0x2)
      else d.out 0 (0x10 ||| 0x2)).fields = d.fields := fun d => by
    split <;> rfl
  simp only [resetGicd]
  rw [Gicd.fill_fields (Nat.zero_le _) (hone (by decide) (by change _ ≤ 1024; omega))
    (List.nodup_singleton _),
    Gicd.fill_fields hitn (hone (by decide) hmax) (List.nodup_singleton _), hctlr,
    Gicd.fill_fields (Nat.zero_le _) (hone (by decide) (by change _ ≤ 64; omega))
      (List.nodup_singleton _),
    Gicd.fill_fields (Nat.zero_le _) (hone (by decide) (by change _ ≤ 256; omega))
      (List.nodup_singleton _), Gicd.fill_fields (Nat.zero_le _) hthree (by decide),
    Gicd.fill_fields (by omega) (hone (by decide) (by change _ ≤ 64; omega))
      (List.nodup_singleton _),
    Gicd.fill_fields (by omega) (hone (by decide) (by change _ ≤ 256; omega))
      (List.nodup_singleton _), Gicd.fill_fields hpos hfour (by decide)]
  rfl

/-- What the loops write to a field. -/
def resetValue (affinity : Nat) : GicdField → Nat
  | .group => 1
  | .priority => 0xA0
  | .route => affinity
  | _ => 0

theorem limb_ones (i : Nat) : limb 1 0xFFFFFFFF (i % 32) = 1 := by
  have hall : ∀ j < 32, limb 1 0xFFFFFFFF j = 1 := by decide
  exact hall _ (Nat.mod_lt _ (by decide))

theorem limb_priority (i : Nat) : limb 8 0xA0A0A0A0 (i % 4) = 0xA0 := by
  have hall : ∀ j < 4, limb 8 0xA0A0A0A0 j = 0xA0 := by decide
  exact hall _ (Nat.mod_lt _ (by decide))

theorem limb_zero (w j : Nat) : limb w 0 j = 0 := by
  rw [limb, Nat.zero_div, Nat.zero_mod]

theorem clear_one {x : Nat} (h : x < 2 ^ 1) : WriteMode.clear.apply x 1 = 0 := by
  refine Nat.eq_of_testBit_eq fun i => ?_
  rw [WriteMode.apply, Nat.testBit_ldiff, Nat.zero_testBit]
  cases i with
  | zero => exact Bool.and_false _
  | succ i =>
    rw [Nat.testBit_lt_two_pow (h.trans_le (Nat.pow_le_pow_right (by decide) (Nat.succ_pos i))),
      Bool.false_and]

theorem clear_twice {x : Nat} (h : x < 2 ^ 1) (p q : Prop) [Decidable p] [Decidable q] :
    (if q then WriteMode.clear.apply (if p then WriteMode.clear.apply x 1 else x) 1
      else if p then WriteMode.clear.apply x 1 else x) = if p ∨ q then 0 else x := by
  by_cases hp : p <;> by_cases hq :
    q <;> simp [hp, hq, clear_one h, clear_one (show 0 < 2 ^ 1 by decide)]

theorem store_twice (v x : Nat) (p q : Prop) [Decidable p] [Decidable q] :
    (if q then v else if p then v else x) = if p ∨ q then v else x := by
  by_cases hp : p <;> by_cases hq : q <;> simp [hp, hq]

/-- Each field of each source after the loops; no loop writes the group of an ESPI. -/
theorem resetGicd_field (mpidr : Nat) (d : Gicd) (f : GicdField) (i : Nat) :
    (g.resetGicd mpidr d).fields f i =
      if 32 ≤ i ∧ i < g.spiEnd f ∨ f ≠ .group ∧ g.IsEspi i then
        resetValue (mpidr &&& 0xff00ffffff) f else d.fields f i := by
  have haff : mpidr &&& 0xff00ffffff < 2 ^ 64 := Nat.and_le_right.trans_lt (by decide)
  have hroute : limb 64 (mpidr &&& 0xff00ffffff) 0 = mpidr &&& 0xff00ffffff := by
    rw [limb, Nat.mul_zero, Nat.pow_zero, Nat.div_one, Nat.mod_eq_of_lt haff]
  have hlines := g.itlines_bounds
  have hitn := g.itn_bounds
  have hespi := g.espilines_le
  have hfits := d.fits f i
  rw [resetGicd_fields]
  generalize mpidr &&& 0xff00ffffff = affinity at haff hroute ⊢
  have hE : g.IsEspi i ↔ 4096 ≤ i ∧ i < 4096 + 32 * g.espilines := by rw [IsEspi, hespi.2]
  cases f with
  | group =>
    simp [Gicd.filled, irouterE, irouter, icfgrE, ipriorityrE, icenablerE, icpendrE, igrpmodrE,
      icfgr, ipriorityr, icenabler,
      icpendr, igroupr, limb_ones, WriteMode.apply_store, spiEnd, resetValue]
  | enable =>
    simp [Gicd.filled, irouterE, irouter, icfgrE, ipriorityrE, icenablerE, icfgr, ipriorityr,
      icenabler, limb_ones, spiEnd, resetValue, hE]
    exact clear_twice hfits ..
  | pending =>
    simp [Gicd.filled, irouterE, irouter, icfgrE, ipriorityrE, icenablerE, icpendrE, icfgr,
      ipriorityr, icenabler, icpendr, limb_ones, spiEnd, resetValue, hE]
    exact clear_twice hfits ..
  | priority =>
    simp [Gicd.filled, irouterE, irouter, icfgrE, ipriorityrE, icenablerE, icpendrE, igrpmodrE,
      icfgr, ipriorityr, icenabler,
      icpendr, igroupr, igrpmodr, limb_priority, WriteMode.apply_store, spiEnd, resetValue, hE]
    rw [← Nat.mul_assoc, ← Nat.mul_assoc]
    exact store_twice ..
  | config =>
    simp [Gicd.filled, irouterE, irouter, icfgrE, ipriorityrE, icenablerE, icpendrE, igrpmodrE,
      icfgr, ipriorityr, icenabler,
      icpendr, igroupr, igrpmodr, limb_zero, WriteMode.apply_store, spiEnd, resetValue, hE]
    rw [show 16 * (32 * g.espilines / 16) = 32 * g.espilines by omega]
    exact store_twice ..
  | modifier =>
    simp [Gicd.filled, irouterE, irouter, icfgrE, ipriorityrE, icenablerE, icpendrE, igrpmodrE,
      icfgr, ipriorityr, icenabler,
      icpendr, igroupr, igrpmodr, limb_zero, WriteMode.apply_store, spiEnd, resetValue, hE]
    exact store_twice ..
  | route =>
    simp [Gicd.filled, irouterE, irouter, icfgrE, ipriorityrE, icenablerE, icpendrE, igrpmodrE,
      icfgr, ipriorityr, icenabler,
      icpendr, igroupr, igrpmodr, Nat.mod_one, hroute, WriteMode.apply_store,
      spiEnd, resetValue, hE]
    exact store_twice ..

/-! ### Trigger modes -/

theorem and_compl32_eq_ldiff {v m : Nat} (hv : v < 2 ^ 32) (hm : m < 2 ^ 32) :
    v &&& compl32 m = Nat.ldiff v m := by
  refine Nat.eq_of_testBit_eq fun i => ?_
  have hcompl : compl32 m = 2 ^ 32 - (m + 1) := by
    rw [compl32, u32_of_lt hm]
    omega
  rw [Nat.testBit_and, hcompl, Nat.testBit_two_pow_sub_succ hm, Nat.testBit_ldiff]
  by_cases hi : i < 32
  · rw [decide_eq_true hi, Bool.true_and]
  · rw [Nat.testBit_lt_two_pow (hv.trans_le (Nat.pow_le_pow_right (by decide) (not_lt.mp hi))),
      Bool.false_and, Bool.false_and]

/-- The trigger mode is the upper bit. -/
def withEdge (edge : Bool) (x : Nat) : Nat := if edge then x ||| 2 else Nat.ldiff x 2

theorem setTrigMode_fields {b : Bank GicdField} (hb : b = icfgr ∨ b = icfgrE) {n : Nat}
    (hn : n < 64) (irq : Nat) (edge : Bool) (d : Gicd) :
    (setTrigMode (b.base + n * 4) irq edge d).fields = Function.update d.fields .config
      (Function.update (d.fields .config) (b.first + 16 * n + irq % 16)
        (withEdge edge (d.fields .config (b.first + 16 * n + irq % 16)))) := by
  have hmem : b ∈ gicdBanks := by
    rcases hb with rfl | rfl <;> decide
  have hshape : b.field = .config ∧ b.words = 64 ∧ b.size = 4 ∧ b.per = 16 ∧ b.bits = 2 ∧
      b.mode = .store := by
    rcases hb with rfl | rfl <;> decide
  obtain ⟨hfield, hwords, hsize, hper, hbits, hmode⟩ := hshape
  have hr : ∀ i, d.fields b.field i < 2 ^ b.bits := fun i => by
    rw [hfield, hbits]
    exact d.fits .config i
  have hmod := Nat.mod_lt irq (show 16 > 0 by decide)
  have hmask : 0x2 * 2 ^ (irq % 16 * 2) < 2 ^ 32 := by
    calc 0x2 * 2 ^ (irq % 16 * 2) = 2 ^ (irq % 16 * 2 + 1) := by rw [Nat.pow_succ, Nat.mul_comm]
      _ < 2 ^ 32 := Nat.pow_lt_pow_right (by decide) (by omega)
  have hval : d.in32 (b.base + n * 4) = b.read n d.fields := hsize ▸ d.in32_hit hmem (hwords ▸ hn)
  have hlt : b.read n d.fields < 2 ^ 32 := by
    have := Bank.read_lt (n := n) hr
    rwa [hbits, hper] at this
  have hx : (2 : Nat) < 2 ^ b.bits := by
    rw [hbits]
    decide
  have hk : irq % 16 < b.per := hper ▸ hmod
  have hcolumn : b.column n (if edge then b.read n d.fields ||| 0x2 * 2 ^ (irq % 16 * 2)
      else Nat.ldiff (b.read n d.fields) (0x2 * 2 ^ (irq % 16 * 2))) (d.fields .config) =
      Function.update (d.fields .config) (b.first + 16 * n + irq % 16)
        (withEdge edge (d.fields .config (b.first + 16 * n + irq % 16))) := by
    have hor := Bank.column_read (f := Nat.lor) (limb_or _) Nat.or_zero hmode hr hx hk n
    have hldiff := Bank.column_read (f := Nat.ldiff) (limb_ldiff _)
      (WriteMode.apply_zero (m := .clear) nofun) hmode hr hx hk n
    rw [hbits, hper, hfield, Nat.mul_comm 2 (irq % 16)] at hor hldiff
    cases edge with
    | true => exact hor
    | false => exact hldiff
  rw [setTrigMode, u32_of_lt hmask, hval, and_compl32_eq_ldiff hlt hmask]
  have hout := (d.out_hit hmem (hwords ▸ hn)
    (if edge then b.read n d.fields ||| 0x2 * 2 ^ (irq % 16 * 2)
      else Nat.ldiff (b.read n d.fields) (0x2 * 2 ^ (irq % 16 * 2)))).1
  rw [hsize] at hout
  rw [hout, Bank.write, hfield, hcolumn]

/-- A distributor whose trigger modes are set for some sources and that is otherwise another one. -/
structure Edged (d d' : Gicd) (edge : Bool) (p : Nat → Prop) : Prop where
  ctlr : d'.ctlr = d.ctlr
  same : ∀ f ≠ .config, d'.fields f = d.fields f
  set : ∀ i, p i → d'.fields .config i = withEdge edge (d.fields .config i)
  other : ∀ i, ¬ p i → d'.fields .config i = d.fields .config i

theorem setTrigMode_edged {b : Bank GicdField} (hb : b = icfgr ∨ b = icfgrE) {n irq : Nat}
    (hn : n < 64) (hirq : b.first + 16 * n + irq % 16 = irq) (edge : Bool) (d : Gicd) :
    Edged d (setTrigMode (b.base + n * 4) irq edge d) edge (· = irq) := by
  have hfields := setTrigMode_fields hb hn irq edge d
  rw [hirq] at hfields
  refine ⟨?_, fun f hf => ?_, fun i hi => ?_, fun i hi => ?_⟩
  · rw [setTrigMode, Gicd.out, if_neg]
    rcases hb with rfl | rfl
    · change 0xC00 + n * 4 ≠ 0
      omega
    · change 0x3000 + n * 4 ≠ 0
      omega
  · rw [hfields, Function.update_of_ne hf]
  · rw [hfields, Function.update_self, hi, Function.update_self]
  · rw [hfields, Function.update_self, Function.update_of_ne hi]

variable {g}

theorem gicV3SetIntrTrigMode_ok (hinit : g.baseAddressesInitialized = true) (irq : Nat)
    (edge : Bool) (d : Gicd) :
    ∃ d', g.gicV3SetIntrTrigMode irq edge d = .ok d' ∧ Edged d d' edge fun i =>
      i = irq ∧ (g.IsSpi i ∨ g.IsEspi i) := by
  have hmax := g.itn_bounds.2
  have hitn := g.itn_eq.1
  have hespi := g.espilines_le
  rw [gicV3SetIntrTrigMode, if_neg (not_not.mpr hinit)]
  by_cases hspi : irq ≥ 32 ∧ irq < g.numSpis + 32
  · rw [if_pos hspi]
    have h : Edged d (setTrigMode (icfgr.base + irq / 16 * 4) irq edge d) edge (· = irq) :=
      setTrigMode_edged (.inl rfl) (by omega) (by
        change 0 + 16 * (irq / 16) + irq % 16 = irq
        omega) edge d
    refine ⟨_, rfl, h.ctlr, h.same, fun i hi => h.set i hi.1,
      fun i hi => h.other i fun heq => hi ⟨heq, .inl ?_⟩⟩
    rw [IsSpi]
    omega
  · rw [if_neg hspi]
    by_cases hext : irq ≥ 4096 ∧ irq < g.numEspis + 4096
    · rw [if_pos hext]
      have h : Edged d (setTrigMode (icfgrE.base + (irq - 4096) / 16 * 4) irq edge d) edge
          (· = irq) :=
        setTrigMode_edged (.inr rfl) (by omega) (by
          change 4096 + 16 * ((irq - 4096) / 16) + irq % 16 = irq
          omega) edge d
      refine ⟨_, rfl, h.ctlr, h.same, fun i hi => h.set i hi.1,
        fun i hi => h.other i fun heq => hi ⟨heq, .inr ?_⟩⟩
      rw [IsEspi]
      omega
    · rw [if_neg hext]
      refine ⟨d, rfl, rfl, fun _ _ => rfl, fun i hi => ?_, fun _ _ => rfl⟩
      obtain ⟨rfl, hi⟩ := hi
      rw [IsSpi, IsEspi] at hi
      omega

theorem withEdge_true_idem (x : Nat) : withEdge true (withEdge true x) = withEdge true x := by
  change x ||| 2 ||| 2 = x ||| 2
  rw [Nat.or_assoc, Nat.or_self]

theorem Edged.trans {d d' d'' : Gicd} {p q : Nat → Prop} (h : Edged d d' true p)
    (h' : Edged d' d'' true q) :
    Edged d d'' true fun i => p i ∨ q i := by
  refine ⟨h'.ctlr.trans h.ctlr, fun f hf => (h'.same f hf).trans (h.same f hf),
    fun i hi => ?_, fun i hi => ?_⟩
  · by_cases hq : q i
    · rw [h'.set i hq]
      by_cases hp : p i
      · rw [h.set i hp, withEdge_true_idem]
      · rw [h.other i hp]
    · rw [h'.other i hq, h.set i (hi.resolve_right hq)]
  · rw [h'.other i fun hq => hi (.inr hq), h.other i fun hp => hi (.inl hp)]

theorem Edged.refl (d : Gicd) (edge : Bool) : Edged d d edge fun _ => False :=
  ⟨rfl, fun _ _ => rfl, fun _ h => h.elim, fun _ _ => rfl⟩

theorem Edged.congr {d d' : Gicd} {edge : Bool} {p q : Nat → Prop} (h : Edged d d' edge p)
    (hpq : ∀ i, p i ↔ q i) :
    Edged d d' edge q :=
  ⟨h.ctlr, h.same, fun i hi => h.set i ((hpq i).mpr hi),
    fun i hi => h.other i fun hp => hi ((hpq i).mp hp)⟩

theorem foldlM_edged {α : Type*} {step : Gicd → α → Startup Gicd} {p : α → Nat → Prop}
    (hstep : ∀ d a, ∃ d', step d a = .ok d' ∧ Edged d d' true (p a)) (l : List α) (d : Gicd) :
    ∃ d', l.foldlM step d = .ok d' ∧ Edged d d' true fun i => ∃ a ∈ l, p a i := by
  induction l generalizing d with
  | nil => exact ⟨d, rfl, (Edged.refl d true).congr fun i => by simp⟩
  | cons a l ih =>
    obtain ⟨d₁, h₁, hedged₁⟩ := hstep d a
    obtain ⟨d₂, h₂, hedged₂⟩ := ih d₁
    refine ⟨d₂, ?_, (hedged₁.trans hedged₂).congr fun i => by simp⟩
    rw [List.foldlM_cons, h₁]
    exact h₂

/-- The vectors of an entry that is used for messages. -/
def MsiVector (g : GicV3) (e : StartupIntrinfo) (i : Nat) : Prop :=
  e.flags &&& g.intrFlagMsi ≠ 0 ∧ e.vectorBase ≤ i ∧ i < u32 (e.vectorBase + e.numVectors)

theorem msiEdges_ok (hinit : g.baseAddressesInitialized = true) (entries : List StartupIntrinfo)
    (d : Gicd) :
    ∃ d', g.msiEdges entries d = .ok d' ∧
      Edged d d' true fun i => ∃ e ∈ entries, g.MsiVector e i ∧ (g.IsSpi i ∨ g.IsEspi i) := by
  refine foldlM_edged (fun d e => ?_) entries d
  by_cases hmsi : e.flags &&& g.intrFlagMsi ≠ 0
  · rw [if_pos hmsi]
    obtain ⟨d', h, hedged⟩ := foldlM_edged (fun d irq => gicV3SetIntrTrigMode_ok hinit irq true d)
      (List.range' e.vectorBase (u32 (e.vectorBase + e.numVectors) - e.vectorBase)) d
    refine ⟨d', h, hedged.congr fun i => ?_⟩
    constructor
    · rintro ⟨irq, hirq, rfl, hi⟩
      rw [List.mem_range'_1] at hirq
      exact ⟨⟨hmsi, hirq.1, by omega⟩, hi⟩
    · rintro ⟨⟨-, hlo, hhi⟩, hi⟩
      exact ⟨i, List.mem_range'_1.mpr (by omega), rfl, hi⟩
  · rw [if_neg hmsi]
    exact ⟨d, rfl, (Edged.refl d true).congr fun i => iff_of_false id fun h => hmsi h.1.1⟩

/-! ### The entries for all vectors -/

/-- A static entry of the startup program that no table holds yet. -/
structure DefaultEntry (s : GicState) (k : GicKind) (p : Nat) : Prop where
  base : (s.intrinfo p).vectorBase = k.minIrq
  flags : (s.intrinfo p).flags = 0
  free : ∀ k, p ∉ s.tables k

theorem num_bounds (g : GicV3) : g.num .spi ≤ 988 ∧ g.num .espi ≤ 1024 := by
  have := g.itn_bounds
  have := g.itn_eq.1
  have := g.espilines_le
  change g.numSpis ≤ 988 ∧ g.numEspis ≤ 1024
  omega

section Default

variable {s s' : GicState} {k : GicKind} {p : Nat}

theorem sharedAddEntry_default {maxIrq : Nat} {id mask unmask : GicCallout}
    (hinit : g.baseAddressesInitialized = true) (hempty : s.tables k = [])
    (hmax : k.minIrq ≤ maxIrq) (hbase : (s.intrinfo p).vectorBase = k.minIrq)
    (hnum : (s.intrinfo p).numVectors = g.num k) (hflags : (s.intrinfo p).flags = 0)
    (hlt : k.minIrq + g.num k < 2 ^ 32) (hpos : 0 < k.minIrq) :
    g.sharedAddEntry k maxIrq false id mask unmask p s =
      .ok (0, s.register k p
        ((s.intrinfo p).complete g.ntoIntrSpare id .interruptEoiGicV3SpiSr mask unmask)) := by
  have hlast : ¬ (s.intrinfo p).last ≥ u32 (g.num k + k.minIrq) := by
    rw [LpiEntry.last, hbase, hnum, Nat.add_comm, u32_of_lt (by omega),
      sub32_of_le (by omega) (by omega)]
    omega
  rw [sharedAddEntry, if_neg (not_not.mpr hinit), hempty, if_neg (not_not.mpr (by decide)),
    hbase, hnum,
    if_neg (not_not.mpr ⟨le_rfl, hmax⟩), if_neg (not_not.mpr (by rw [Nat.add_comm])),
    if_neg Bool.false_ne_true, if_neg hlast, if_neg (by simp [hflags])]
  rfl

/-- The state with the one entry. -/
structure Defaulted (g : GicV3) (s s' : GicState) (k : GicKind) (p : Nat) : Prop where
  ranges : s'.ranges k = [⟨k.minIrq, g.num k⟩]
  flags : ∀ e ∈ s'.entries k, e.flags = 0
  others : ∀ k' ≠ k, s'.tables k' = s.tables k' ∧ s'.entries k' = s.entries k' ∧
    s'.ranges k' = s.ranges k'
  table : s'.tables k = [p]
  intrinfo : ∀ q ≠ p, s'.intrinfo q = s.intrinfo q
  run : ∀ cond, GicRun g cond s → GicRun g (fun _ _ _ => True) s'

/-- Either kind of entry is added, with its own callouts. -/
theorem addEntry_default {s₁ : GicState} (hk : k = .spi ∨ k = .espi ∧ 0 < g.numEspis)
    (hinit : g.baseAddressesInitialized = true) (hempty : s₁.tables k = [])
    (hbase : (s₁.intrinfo p).vectorBase = k.minIrq) (hnum : (s₁.intrinfo p).numVectors = g.num k)
    (hflags : (s₁.intrinfo p).flags = 0) (hlt : k.minIrq + g.num k < 2 ^ 32) :
    ∃ e : StartupIntrinfo,
      (e.toLpiEntry = (s₁.intrinfo p).toLpiEntry ∧ e.flags = (s₁.intrinfo p).flags) ∧
      g.addEntry k p s₁ = .ok (0, s₁.register k p e) := by
  rcases hk with rfl | ⟨rfl, hpos⟩
  · refine ⟨(s₁.intrinfo p).complete g.ntoIntrSpare .interruptIdGicV3Spi .interruptEoiGicV3SpiSr
      .interruptMaskGicV3Spi
      .interruptUnmaskGicV3Spi, ⟨rfl, rfl⟩, ?_⟩
    exact sharedAddEntry_default hinit hempty (by decide) hbase hnum hflags hlt (by decide)
  · refine ⟨(s₁.intrinfo p).complete g.ntoIntrSpare .interruptIdGicV3Espi .interruptEoiGicV3SpiSr
      .interruptMaskGicV3Espi
      .interruptUnmaskGicV3Espi, ⟨rfl, rfl⟩, ?_⟩
    change g.sharedAddEntry .espi espiMaxIrq (g.numEspis = 0) _ _ _ p s₁ = _
    rw [decide_eq_false hpos.ne']
    exact sharedAddEntry_default hinit hempty (by decide) hbase hnum hflags hlt (by decide)

theorem addDefaultEntry_ok (hk : k = .spi ∨ k = .espi ∧ 0 < g.numEspis)
    (hinit : g.baseAddressesInitialized = true) (hempty : s.tables k = [])
    (hd : DefaultEntry s k p) : ∃ s', g.addDefaultEntry k p s = .ok s' ∧ Defaulted g s s' k p := by
  obtain ⟨hspi, hespi⟩ := num_bounds g
  let s₁ : GicState :=
    { s with intrinfo := Function.update s.intrinfo p { s.intrinfo p with numVectors := g.num k } }
  have hself : s₁.intrinfo p = { s.intrinfo p with numVectors := g.num k } :=
    Function.update_self ..
  have hbase : (s₁.intrinfo p).vectorBase = k.minIrq := by
    rw [hself]
    exact hd.base
  have hnum : (s₁.intrinfo p).numVectors = g.num k := by
    rw [hself]
  have hflags : (s₁.intrinfo p).flags = 0 := by
    rw [hself]
    exact hd.flags
  have hlt : k.minIrq + g.num k < 2 ^ 32 := by
    rcases hk with rfl | ⟨rfl, -⟩
    · change 32 + g.num .spi < 2 ^ 32
      omega
    · change 4096 + g.num .espi < 2 ^ 32
      omega
  obtain ⟨e, he, hadd⟩ := addEntry_default hk hinit
    (show s₁.tables k = [] from hempty) hbase hnum hflags hlt
  have hranges := fun k' => GicState.ranges_register (s := s₁) (k := k) he.1 k'
  have hsame : ∀ k', s₁.ranges k' = s.ranges k' := fun k' => GicState.ranges_prepare hd.free
  refine ⟨s₁.register k p e, ?_, ?_, fun e' he' => ?_,
    fun k' hk' => ⟨Function.update_of_ne hk' .., ?_, ?_⟩, ?_, fun q hq => ?_, fun cond run => ?_⟩
  · change (do
      let (_, s) ← g.addEntry k p s₁
      Except.ok s) = Except.ok (s₁.register k p e)
    rw [hadd]
    rfl
  · rw [hranges, if_pos rfl, hsame, GicState.ranges, hempty, he.1]
    change [LpiEntry.mk (s₁.intrinfo p).vectorBase (s₁.intrinfo p).numVectors] = _
    rw [hbase, hnum]
  · have htable : (s₁.register k p e).entries k = [e] := by
      simp [GicState.entries, GicState.register, s₁, hempty]
    rw [htable, List.mem_singleton] at he'
    rw [he', he.2, hflags]
  · refine (List.map_congr_left fun q hq => ?_).trans (congrArg _ (Function.update_of_ne hk' ..))
    have hqp : q ≠ p := by
      rintro rfl
      have htable : (s₁.register k q e).tables k' = s.tables k' := Function.update_of_ne hk' ..
      exact hd.free k' (htable ▸ hq)
    exact (Function.update_of_ne hqp ..).trans (Function.update_of_ne hqp ..)
  · rw [hranges, if_neg hk', List.append_nil, hsame]
  · simp [GicState.register, s₁, hempty]
  · exact (Function.update_of_ne hq ..).trans (Function.update_of_ne hq ..)
  · refine GicRun.call ((run.imp fun _ _ _ _ => trivial).prepare hd.free) ?_ trivial hadd
    change (s₁.intrinfo p).vectorBase + (s₁.intrinfo p).numVectors < 2 ^ 32
    rwa [hbase, hnum]

end Default

/-! ### The result of initialisation -/

def IsMsi (g : GicV3) (s : GicState) (i : Nat) : Prop :=
  ∃ e ∈ s.entries .spi ++ s.entries .espi, g.MsiVector e i

/-- Each shared interrupt is disabled, not pending, of priority 0xA0 and routed to one
processor, and triggered by an edge if it is a message. The SPIs behind the last whole
register of trigger modes keep the mode that they had. -/
structure Ready (g : GicV3) (mpidr : Nat) (s' : GicState) (d d' : Gicd) : Prop where
  quiet : ∀ i, g.IsSpi i ∨ g.IsEspi i → d'.fields .enable i = 0 ∧ d'.fields .pending i = 0 ∧
    d'.fields .modifier i = 0 ∧
    d'.fields .priority i = 0xA0 ∧ d'.fields .route i = mpidr &&& 0xff00ffffff
  group : ∀ i, g.IsSpi i → d'.fields .group i = 1
  espiGroup : ∀ i, g.IsEspi i → d'.fields .group i = d.fields .group i
  edge : ∀ i, g.IsSpi i ∨ g.IsEspi i → g.IsMsi s' i → d'.fields .config i / 2 = 1
  level : ∀ i, g.IsSpi i ∧ i < 16 * (g.itn / 16) ∨ g.IsEspi i → ¬ g.IsMsi s' i →
    d'.fields .config i = 0
  kept : ∀ i, g.IsSpi i → 16 * (g.itn / 16) ≤ i → ¬ g.IsMsi s' i →
    d'.fields .config i = d.fields .config i
  own : ∀ f, ∀ i < 32, d'.fields f i = d.fields f i

theorem edge_of_withEdge {x : Nat} (h : x < 2 ^ 2) : withEdge true x / 2 = 1 := by
  have hall : ∀ x < 2 ^ 2, (x ||| 2) / 2 = 1 := by decide
  exact hall x h

theorem lt_spiEnd {f : GicdField} (hf : f ≠ .config) {i : Nat} (hi : g.IsSpi i) :
    i < g.spiEnd f := by
  have hitn := g.itn_eq
  rw [IsSpi] at hi
  cases f with
  | config => exact absurd rfl hf
  | route =>
    change i < g.itn
    omega
  | _ =>
    change i < 32 * g.itlines
    omega

theorem ready_of_edged {mpidr : Nat} {s' : GicState} {d d' : Gicd}
    (h : Edged (g.resetGicd mpidr d) d' true fun i => g.IsMsi s' i ∧ (g.IsSpi i ∨ g.IsEspi i)) :
    g.Ready mpidr s' d d' := by
  have hitn := g.itn_eq
  have hreset := g.resetGicd_field mpidr d
  have hespi := g.espilines_le
  have hat : ∀ f ≠ .config, ∀ i, g.IsSpi i ∨ f ≠ .group ∧ g.IsEspi i →
      d'.fields f i = resetValue (mpidr &&& 0xff00ffffff) f := by
    intro f hf i hi
    rw [h.same f hf, hreset, if_pos]
    exact hi.imp_left fun hspi => ⟨hspi.1, g.lt_spiEnd hf hspi⟩
  have hany : ∀ f, f ≠ .config → f ≠ .group → ∀ i, g.IsSpi i ∨ g.IsEspi i →
      d'.fields f i = resetValue (mpidr &&& 0xff00ffffff) f :=
    fun f hf hg i hi => hat f hf i (hi.imp_right fun he => ⟨hg, he⟩)
  refine ⟨fun i hi => ⟨hany .enable nofun nofun i hi, hany .pending nofun nofun i hi,
      hany .modifier nofun nofun i hi, hany .priority nofun nofun i hi,
      hany .route nofun nofun i hi⟩,
    fun i hi => hat .group nofun i (.inl hi), fun i hi => ?_, fun i hi hmsi => ?_,
    fun i hi hmsi => ?_, fun i hi hle hmsi => ?_, fun f i hi => ?_⟩
  · rw [h.same .group nofun, hreset, if_neg]
    have := g.itlines_bounds
    rw [IsEspi] at hi
    change ¬ (32 ≤ i ∧ i < 32 * g.itlines ∨ _)
    simp
    omega
  · rw [h.set i ⟨hmsi, hi⟩]
    exact edge_of_withEdge ((g.resetGicd mpidr d).fits .config i)
  · rw [h.other i fun hp => hmsi hp.1, hreset, if_pos]
    · rfl
    · exact hi.imp (fun hspi => ⟨hspi.1.1, hspi.2⟩) fun he => ⟨nofun, he⟩
  · rw [h.other i fun hp => hmsi hp.1, hreset, if_neg]
    have := g.itn_bounds
    rw [IsSpi] at hi
    rw [IsEspi]
    change ¬ (32 ≤ i ∧ i < 16 * (g.itn / 16) ∨ _)
    omega
  · have hnot : ¬ (g.IsSpi i ∨ g.IsEspi i) := by
      rw [IsSpi, IsEspi]
      omega
    have hsame : d'.fields f i = (g.resetGicd mpidr d).fields f i := by
      by_cases hf : f = .config
      · rw [hf]
        exact h.other i fun hp => hnot hp.2
      · rw [h.same f hf]
    rw [hsame, hreset, if_neg]
    rw [IsEspi]
    omega

variable {cond : GicState → GicKind → Nat → Prop} {s : GicState} {intrSpi intrEspi : Nat}

theorem addDefaultSpi_ok (hinit : g.baseAddressesInitialized = true) (run : GicRun g cond s)
    (hspi : DefaultEntry s .spi intrSpi) (hespi : DefaultEntry s .espi intrEspi)
    (hne : intrSpi ≠ intrEspi) :
    ∃ s', g.addDefaultSpi intrSpi s = .ok s' ∧ GicRun g (fun _ _ _ => True) s' ∧
      (s.tables .spi = [] → s'.ranges .spi = [⟨32, g.numSpis⟩]) ∧ s'.tables .espi = s.tables .espi ∧
      DefaultEntry s' .espi intrEspi := by
  by_cases hempty : s.tables .spi = []
  · obtain ⟨s', hs', hd⟩ := addDefaultEntry_ok (.inl rfl) hinit hempty hspi
    refine ⟨s', ?_, hd.run _ run, fun _ => hd.ranges, (hd.others .espi nofun).1,
      ?_, ?_, fun k hk => ?_⟩
    · rw [addDefaultSpi, hempty, if_pos List.length_nil, hs']
    · rw [hd.intrinfo _ hne.symm]
      exact hespi.base
    · rw [hd.intrinfo _ hne.symm]
      exact hespi.flags
    · by_cases hks : k = .spi
      · rw [hks, hd.table, List.mem_singleton] at hk
        exact hne hk.symm
      · rw [(hd.others k hks).1] at hk
        exact hespi.free k hk
  · exact ⟨s, if_neg fun hlen => hempty (List.length_eq_zero_iff.mp hlen),
      run.imp fun _ _ _ _ => trivial, fun h => absurd h hempty, rfl, hespi⟩

theorem addDefaultEspi_ok (hinit : g.baseAddressesInitialized = true) (run : GicRun g cond s)
    (hespi : DefaultEntry s .espi intrEspi) :
    ∃ s', g.addDefaultEspi intrEspi s = .ok s' ∧ GicRun g (fun _ _ _ => True) s' ∧
      (s.tables .espi = [] → 0 < g.numEspis → s'.ranges .espi = [⟨4096, g.numEspis⟩]) ∧
      s'.entries .spi = s.entries .spi ∧ s'.ranges .spi = s.ranges .spi := by
  by_cases hempty : s.tables .espi = [] ∧ 0 < g.numEspis
  · obtain ⟨s', hs', hd⟩ := addDefaultEntry_ok (.inr ⟨rfl, hempty.2⟩) hinit hempty.1 hespi
    refine ⟨s', ?_, hd.run _ run, fun _ _ => hd.ranges, (hd.others .spi nofun).2⟩
    rw [addDefaultEspi, hempty.1, if_pos ⟨List.length_nil, hempty.2⟩, hs']
  · exact ⟨s, if_neg fun h => hempty ⟨List.length_eq_zero_iff.mp h.1, h.2⟩,
      run.imp fun _ _ _ _ => trivial, fun h1 h2 => absurd ⟨h1, h2⟩ hempty, rfl, rfl⟩

/-- The steps of `gic_v3_initialize`, with the vectors that are triggered by an edge. -/
theorem gicV3Initialize_ok (hinit : g.baseAddressesInitialized = true)
    (run : GicRun g cond s) (hspi : DefaultEntry s .spi intrSpi)
    (hespi : DefaultEntry s .espi intrEspi) (hne : intrSpi ≠ intrEspi) (mpidr : Nat) (d : Gicd) :
    ∃ s' d', g.gicV3Initialize mpidr intrSpi intrEspi s d = .ok (s', d') ∧
      Edged (g.resetGicd mpidr d) d' true (fun i => g.IsMsi s' i ∧ (g.IsSpi i ∨ g.IsEspi i)) ∧
      GicRun g (fun _ _ _ => True) s' ∧ (s.tables .spi = [] → s'.ranges .spi = [⟨32, g.numSpis⟩]) ∧
      (s.tables .espi = [] → 0 < g.numEspis → s'.ranges .espi = [⟨4096, g.numEspis⟩]) := by
  obtain ⟨s₁, hs₁, run₁, hranges₁, htable₁, hespi₁⟩ := addDefaultSpi_ok hinit run hspi hespi hne
  obtain ⟨d₁, hd₁, hedged₁⟩ := msiEdges_ok hinit (s₁.entries .spi) (g.resetGicd mpidr d)
  obtain ⟨s₂, hs₂, run₂, hranges₂, hsame₂⟩ := addDefaultEspi_ok hinit run₁ hespi₁
  obtain ⟨d₂, hd₂, hedged₂⟩ := msiEdges_ok hinit (s₂.entries .espi) d₁
  refine ⟨s₂, d₂, ?_, (hedged₁.trans hedged₂).congr fun i => ?_, run₂,
    fun h => hsame₂.2.trans (hranges₁ h), fun h => hranges₂ (htable₁.trans h)⟩
  · rw [gicV3Initialize, if_neg (not_not.mpr hinit)]
    dsimp only [bind]
    rw [hs₁, ok_bind, hd₁, ok_bind, hs₂, ok_bind, hd₂, ok_bind]
  · rw [IsMsi, ← hsame₂.1]
    simp only [List.mem_append]
    constructor
    · rintro (⟨e, he, hmsi, hi⟩ | ⟨e, he, hmsi, hi⟩)
      · exact ⟨⟨e, .inl he, hmsi⟩, hi⟩
      · exact ⟨⟨e, .inr he, hmsi⟩, hi⟩
    · rintro ⟨⟨e, he | he, hmsi⟩, hi⟩
      · exact .inl ⟨e, he, hmsi, hi⟩
      · exact .inr ⟨e, he, hmsi, hi⟩

/-- After `gic_v3_initialize`, whatever the board has registered before. -/
theorem gic_v3_initialize_distributor (hinit : g.baseAddressesInitialized = true)
    (run : GicRun g cond s) (hspi : DefaultEntry s .spi intrSpi)
    (hespi : DefaultEntry s .espi intrEspi) (hne : intrSpi ≠ intrEspi) (mpidr : Nat) (d : Gicd) :
    ∃ s' d', g.gicV3Initialize mpidr intrSpi intrEspi s d = .ok (s', d') ∧ g.Ready mpidr s' d d' ∧
      GicRun g (fun _ _ _ => True) s' ∧ (s.tables .spi = [] → s'.ranges .spi = [⟨32, g.numSpis⟩]) ∧
      (s.tables .espi = [] → 0 < g.numEspis → s'.ranges .espi = [⟨4096, g.numEspis⟩]) := by
  obtain ⟨s', d', hok, hedged, run', hranges⟩ :=
    gicV3Initialize_ok hinit run hspi hespi hne mpidr d
  exact ⟨s', d', hok, ready_of_edged hedged, run', hranges⟩

end GicV3

def exampleGicd : Gicd := ⟨0, fun _ _ => 0, fun _ _ => Nat.two_pow_pos _⟩

def exampleMbiGic : GicV3 := { exampleGic with gicdTyper := exampleGic.gicdTyper + 2 ^ 16 }

/-- A board that has registered messages at the INTIDs 40 and 41. -/
theorem gic_v3_initialize_distributor_example :
    ∃ (s s' : GicState) (d' : Gicd), s.ranges .spi = [⟨40, 2⟩] ∧
      exampleMbiGic.gicV3Initialize 0x100 2 3 s exampleGicd = .ok (s', d') ∧
        d'.fields .priority 41 = 0xA0 ∧
      GicRun exampleMbiGic (fun _ _ _ => True) s' := by
  have first : GicRun exampleMbiGic (fun _ _ _ => True) _ :=
    .init fun p => if p = 1 then { exampleIntrinfo 40 2 with flags := 1 }
      else exampleIntrinfo (if p = 2 then 32 else 4096) 0
  have second := first.call (k := .spi) (p := 1) (by decide) trivial rfl
  have hfree : ∀ p, p ≠ 1 → ∀ k : GicKind, p ∉ (if k = .spi then [1] else []) := fun p hp k => by
    cases k <;> simp [hp]
  obtain ⟨s', d', h, hready, hrun, -⟩ := GicV3.gic_v3_initialize_distributor (g :=
    exampleMbiGic) rfl second
    ⟨rfl, rfl, by intro k; cases k <;> decide⟩ ⟨rfl, rfl, by intro k; cases k <;> decide⟩
      (show 2 ≠ 3 by decide) 0x100 exampleGicd
  exact ⟨_, s', d', rfl, h, (hready.quiet 41 (.inl (by decide))).2.2.2.1, hrun⟩

/-! ### Masks -/

/-- The bit that a callout writes, in a register of a bank or, where the vectors count from an
INTID behind its first one, in a later one. -/
theorem writeVectorBit_fields {b : Bank GicdField} (hb : b ∈ gicdBanks) (hmode : b.mode ≠ .store)
    (hshape : b.bits = 1 ∧ b.per = 32 ∧ b.size = 4) {w vecOff x : Nat} (hx : vecOff + x < 2 ^ 32)
    (hn : w + (vecOff + x) / 32 < b.words) (d : Gicd) :
    (writeVectorBit (b.base + w * 4) vecOff x d).fields = Function.update d.fields b.field
        (Function.update (d.fields b.field) (b.first + 32 * w + (vecOff + x))
          (b.mode.apply (d.fields b.field (b.first + 32 * w + (vecOff + x))) 1)) ∧
      (writeVectorBit (b.base + w * 4) vecOff x d).ctlr = d.ctlr := by
  obtain ⟨hbits, hper, hsize⟩ := hshape
  have hsum : u64 (x + vecOff) = vecOff + x := by
    rw [Nat.add_comm]
    exact Nat.mod_eq_of_lt (hx.trans (by decide))
  have hmod := Nat.mod_lt (vecOff + x) (show 32 > 0 by decide)
  have hbit : u32 (2 ^ ((vecOff + x) % 32)) = 2 ^ ((vecOff + x) % 32) :=
    u32_of_lt (Nat.pow_lt_pow_right (by decide) hmod)
  have hat : b.base + w * 4 + (vecOff + x) / 32 * 4 =
      b.base + (w + (vecOff + x) / 32) * b.size := by
    rw [hsize, Nat.add_mul, Nat.add_assoc]
  have hindex : b.first + b.per * (w + (vecOff + x) / 32) + (vecOff + x) % 32 =
      b.first + 32 * w + (vecOff + x) := by
    rw [hper]
    omega
  obtain ⟨hfields, hctlr⟩ := d.out_hit hb hn (2 ^ ((vecOff + x) % 32))
  rw [writeVectorBit, hsum, u32_of_lt hx, hbit, hat]
  refine ⟨?_, hctlr⟩
  rw [hfields, Bank.write, Bank.column_bit hbits hmode (hper ▸ hmod), hindex]

namespace GicdCall

/-- The entry lies among the vectors that there are, and the vector in the entry. -/
structure Fits (g : GicV3) (c : GicdCall) : Prop where
  min : c.kind.minIrq ≤ c.entry.vectorBase
  max : c.entry.vectorBase + c.entry.numVectors ≤ c.kind.minIrq + g.num c.kind
  vector : c.vector < c.entry.numVectors

variable {g : GicV3} {c : GicdCall}

theorem Fits.intid (h : c.Fits g) :
    c.vecOff = c.entry.vectorBase - c.kind.minIrq ∧
      c.kind.minIrq + (c.vecOff + c.vector) = c.intid ∧
      c.vecOff + c.vector < g.num c.kind := by
  obtain ⟨hmin, hmax, hvector⟩ := h
  have hnum : c.kind.minIrq + g.num c.kind < 2 ^ 32 := by
    obtain ⟨hspi, hespi⟩ := GicV3.num_bounds g
    rw [kind]
    split
    · change 4096 + g.num .espi < 2 ^ 32
      omega
    · change 32 + g.num .spi < 2 ^ 32
      omega
  have hoff : c.vecOff = c.entry.vectorBase - c.kind.minIrq := sub32_of_le (by omega) hmin
  rw [hoff, GicdCall.intid]
  omega

theorem set_one {x : Nat} (h : x < 2 ^ 1) : WriteMode.set.apply x 1 = 1 := by
  have hall : ∀ x < 2 ^ 1, WriteMode.set.apply x 1 = 1 := by decide
  exact hall x h

/-- The bank that a callout writes to, and the register for the first vectors. -/
theorem run_bank (c : GicdCall) :
    ∃ b ∈ gicdBanks, ∃ w, c.run = writeVectorBit (b.base + w * 4) c.vecOff c.vector ∧
    b.field = .enable ∧ b.mode = (if c.unmask then .set else .clear) ∧
      (b.bits = 1 ∧ b.per = 32 ∧ b.size = 4) ∧
    b.first + 32 * w = c.kind.minIrq ∧ b.words = 32 ∧ w ≤ 1 ∧ (w = 1 → c.kind = .spi) := by
  rcases c with ⟨_ | _, _ | _, entry, vector⟩
  · exact ⟨icenabler, by decide, 1, rfl, rfl, rfl, ⟨rfl, rfl, rfl⟩, rfl, rfl, le_rfl, fun _ => rfl⟩
  · exact ⟨isenabler, by decide, 1, rfl, rfl, rfl, ⟨rfl, rfl, rfl⟩, rfl, rfl, le_rfl, fun _ => rfl⟩
  · exact ⟨icenablerE, by decide, 0, rfl, rfl, rfl, ⟨rfl, rfl, rfl⟩, rfl, rfl, Nat.zero_le _, nofun⟩
  · exact ⟨isenablerE, by decide, 0, rfl, rfl, rfl, ⟨rfl, rfl, rfl⟩, rfl, rfl, Nat.zero_le _, nofun⟩

/-- A callout changes one bit. -/
theorem run_fields (h : c.Fits g) (d : Gicd) :
    (c.run d).fields = Function.update d.fields .enable
        (Function.update (d.fields .enable) c.intid (if c.unmask then 1 else 0)) ∧
          (c.run d).ctlr = d.ctlr := by
  obtain ⟨hspi, hespi⟩ := GicV3.num_bounds g
  obtain ⟨-, hintid, hlt⟩ := h.intid
  obtain ⟨b, hb, w, hrun, hfield, hmode, hshape, hfirst, hwords, hw, hkind⟩ := c.run_bank
  have hnum : g.num c.kind ≤ 1024 ∧ (w = 1 → g.num c.kind ≤ 988) := by
    refine ⟨?_, fun h1 => hkind h1 ▸ hspi⟩
    rw [kind]
    split <;> omega
  have hstore : b.mode ≠ .store := by
    rw [hmode]
    split <;> nofun
  have hword : w + (c.vecOff + c.vector) / 32 < b.words := by
    rw [hwords]
    rcases Nat.le_one_iff_eq_zero_or_eq_one.mp hw with rfl | rfl
    · omega
    · have := hnum.2 rfl
      omega
  have hsmall : c.vecOff + c.vector < 2 ^ 32 := by omega
  obtain ⟨hfields, hctlr⟩ := writeVectorBit_fields hb hstore hshape hsmall hword d
  rw [hrun, hfields, hctlr, hfirst, hintid, hfield, hmode]
  refine ⟨?_, rfl⟩
  cases c.unmask with
  | false =>
    rw [if_neg Bool.false_ne_true, if_neg Bool.false_ne_true,
      GicV3.clear_one (d.fits .enable c.intid)]
  | true => rw [if_pos rfl, if_pos rfl, set_one (d.fits .enable c.intid)]

end GicdCall

/-- The last call for an INTID. -/
def lastCall (calls : List GicdCall) (i : Nat) : Option GicdCall :=
  calls.reverse.find? fun c => c.intid = i

/-- The callouts one after the other. -/
def runCalls (calls : List GicdCall) (d : Gicd) : Gicd := calls.foldl (fun d c => c.run d) d

section Masks

variable {g : GicV3} {calls : List GicdCall}

theorem runCalls_fields (hcalls : ∀ c ∈ calls, c.Fits g) (d : Gicd) :
    (∀ i, (runCalls calls d).fields .enable i =
        (lastCall calls i).elim (d.fields .enable i) fun c => if c.unmask then 1 else 0) ∧
      (∀ f ≠ .enable, (runCalls calls d).fields f = d.fields f) ∧
        (runCalls calls d).ctlr = d.ctlr := by
  constructor
  · refine foldl_update_last (g := fun d : Gicd => d.fields .enable) (fun c hc d => ?_) d
    exact (congrFun (GicdCall.run_fields (hcalls c hc) d).1 .enable).trans (Function.update_self ..)
  · induction calls generalizing d with
    | nil => exact ⟨fun _ _ => rfl, rfl⟩
    | cons c calls ih =>
      rw [List.forall_mem_cons] at hcalls
      obtain ⟨hfields, hctlr⟩ := GicdCall.run_fields hcalls.1 d
      obtain ⟨hother, hctlr'⟩ := ih hcalls.2 (c.run d)
      exact ⟨fun f hf => by rw [runCalls, List.foldl_cons, ← runCalls, hother f hf, hfields,
        Function.update_of_ne hf], hctlr'.trans hctlr⟩

variable {cond : GicState → GicKind → Nat → Prop} {s : GicState}

/-- A call for a vector of an entry in the tables. -/
def GicdCall.Registered (s : GicState) (c : GicdCall) : Prop :=
  c.entry ∈ s.ranges c.kind ∧ c.vector < c.entry.numVectors

theorem GicdCall.Registered.fits (run : GicRun g cond s) {c : GicdCall} (h : c.Registered s) :
    c.Fits g :=
  ⟨run.ordered.min _ _ h.1, run.ordered.max _ _ h.1, h.2⟩

theorem GicdCall.Registered.shared (run : GicRun g cond s) {c : GicdCall} (h : c.Registered s) :
    if c.espi then g.IsEspi c.intid else g.IsSpi c.intid := by
  obtain ⟨-, hintid, hlt⟩ := (h.fits run).intid
  rcases c with ⟨_ | _, unmask, entry, vector⟩
  · exact ⟨hintid ▸ Nat.le_add_right .., hintid ▸ Nat.add_lt_add_left hlt _⟩
  · exact ⟨hintid ▸ Nat.le_add_right .., hintid ▸ Nat.add_lt_add_left hlt _⟩

/-- No two vectors of the tables have the same INTID. -/
theorem GicdCall.Registered.eq_of_intid (run : GicRun g cond s) {c c' : GicdCall}
    (h : c.Registered s) (h' : c'.Registered s) (heq : c.intid = c'.intid) :
    c.espi = c'.espi ∧ c.entry = c'.entry ∧ c.vector = c'.vector := by
  have hmax := g.num_bounds.1
  have hs := h.shared run
  have hs' := h'.shared run
  have hespi : c.espi = c'.espi := by
    rcases c with ⟨_ | _, unmask, entry, vector⟩ <;> rcases c'
      with ⟨_ | _, unmask', entry', vector'⟩
    · rfl
    · have := hs.2
      have := hs'.1
      change g.numSpis ≤ 988 at hmax
      omega
    · have := hs'.2
      have := hs.1
      change g.numSpis ≤ 988 at hmax
      omega
    · rfl
  have hkind : c'.kind = c.kind := by rw [GicdCall.kind, GicdCall.kind, hespi]
  have hentry : c.entry = c'.entry := by
    by_contra hne
    have hpair : (s.ranges c.kind).Pairwise fun e e' => Disjoint e.vectors e'.vectors :=
      (run.ordered.order c.kind).imp fun hle => LpiEntry.disjoint_vectors hle
    have : Std.Symm fun e e' : LpiEntry => Disjoint e.vectors e'.vectors := ⟨fun _ _ hd => hd.symm⟩
    have hdisj := hpair.forall h.1 (hkind ▸ h'.1) hne
    refine Set.disjoint_left.mp hdisj ⟨Nat.le_add_right _ c.vector, Nat.add_lt_add_left h.2 _⟩ ?_
    change c.intid ∈ _
    rw [heq]
    exact ⟨Nat.le_add_right .., Nat.add_lt_add_left h'.2 _⟩
  refine ⟨hespi, hentry, ?_⟩
  rw [GicdCall.intid, GicdCall.intid, hentry] at heq
  exact Nat.add_left_cancel heq

variable {intrSpi intrEspi mpidr : Nat} {d d' : Gicd} {s' : GicState}

/-- After initialisation a shared interrupt is enabled if the last call for it unmasked it, and
nothing else in the distributor changes. -/
theorem gic_v3_masks (hinit : g.baseAddressesInitialized = true) (run : GicRun g cond s)
    (hspi : GicV3.DefaultEntry s .spi intrSpi) (hespi : GicV3.DefaultEntry s .espi intrEspi)
    (hne : intrSpi ≠ intrEspi) (h : g.gicV3Initialize mpidr intrSpi intrEspi s d = .ok (s', d'))
    (hcalls : ∀ c ∈ calls, c.Registered s') :
    (∀ i, g.IsSpi i ∨ g.IsEspi i → (runCalls calls d').fields .enable i =
        (lastCall calls i).elim 0 fun c => if c.unmask then 1 else 0) ∧
      (∀ i, ¬ (g.IsSpi i ∨ g.IsEspi i) →
        (runCalls calls d').fields .enable i = d'.fields .enable i) ∧
      (∀ f ≠ .enable, (runCalls calls d').fields f = d'.fields f) ∧
        (runCalls calls d').ctlr = d'.ctlr ∧
      ∀ c ∈ calls, ∀ c' ∈ calls, c.intid = c'.intid → c.espi = c'.espi ∧ c.entry = c'.entry ∧
        c.vector = c'.vector := by
  obtain ⟨_, _, hok, hedged, run', -⟩ :=
    GicV3.gicV3Initialize_ok hinit run hspi hespi hne mpidr d
  obtain ⟨rfl, rfl⟩ := Prod.mk.inj (Except.ok.inj (h.symm.trans hok))
  have hready := GicV3.ready_of_edged hedged
  obtain ⟨henable, hother, hctlr⟩ := runCalls_fields (fun c hc => (hcalls c hc).fits run') d'
  refine ⟨fun i hi => ?_, fun i hi => ?_, hother, hctlr,
    fun c hc c' hc' => (hcalls c hc).eq_of_intid run' (hcalls c' hc')⟩
  · rw [henable, (hready.quiet i hi).1]
  · rw [henable]
    cases hlast : lastCall calls i with
    | none => rfl
    | some c =>
      have hc := List.mem_reverse.mp (List.mem_of_find?_eq_some hlast)
      have hshared := (hcalls c hc).shared run'
      rw [show c.intid = i from of_decide_eq_true (List.find?_some (p := fun c : GicdCall => decide
        (c.intid = i)) hlast)] at hshared
      refine absurd ?_ hi
      cases hespi : c.espi with
      | false => exact .inl (by rwa [hespi, if_neg Bool.false_ne_true] at hshared)
      | true => exact .inr (by rwa [hespi, if_pos rfl] at hshared)

end Masks

/-- INTID 33 is unmasked, 34 unmasked and masked again. -/
def exampleCalls : List GicdCall :=
  [⟨false, true, ⟨32, 224⟩, 1⟩, ⟨false, true, ⟨32, 224⟩, 2⟩, ⟨false, false, ⟨32, 224⟩, 2⟩]

theorem gic_v3_masks_example :
    ∃ (s s' : GicState) (d' : Gicd), exampleGic.gicV3Initialize 0 2 3 s exampleGicd = .ok (s', d') ∧
      (∀ c ∈ exampleCalls, c.Registered s') ∧ (runCalls exampleCalls d').fields .enable 33 = 1 ∧
      (runCalls exampleCalls d').fields .enable 34 = 0 := by
  let s : GicState := ⟨fun p => exampleIntrinfo (if p = 2 then 32 else 4096) 0, fun _ => [], 0⟩
  have run : GicRun exampleGic (fun _ _ _ => True) s := .init _
  have hspi : GicV3.DefaultEntry s .spi 2 := ⟨rfl, rfl, fun _ => List.not_mem_nil⟩
  have hespi : GicV3.DefaultEntry s .espi 3 := ⟨rfl, rfl, fun _ => List.not_mem_nil⟩
  obtain ⟨s', d', h, -, -, hranges, -⟩ := GicV3.gicV3Initialize_ok rfl run hspi hespi
    (by decide) 0 exampleGicd
  have hcalls : ∀ c ∈ exampleCalls, c.Registered s' := by
    have hentry : (⟨32, 224⟩ : LpiEntry) ∈ s'.ranges .spi := by
      rw [hranges rfl]
      decide
    simp only [exampleCalls, List.forall_mem_cons]
    exact ⟨⟨hentry, by decide⟩, ⟨hentry, by decide⟩, ⟨hentry, by decide⟩, nofun⟩
  have hmasks := (gic_v3_masks rfl run hspi hespi (by decide) h hcalls).1
  exact ⟨_, s', d', h, hcalls, hmasks 33 (.inl (by decide)), hmasks 34 (.inl (by decide))⟩

end QnxStartup
