import QnxStartup.GicLpi
import Mathlib.Logic.Function.Basic
import Mathlib.Order.Interval.Set.Disjoint

/-! The three routines that register ranges of interrupt vectors with the GICv3. The tables
hold pointers to the callers' entries, so an entry is read again each time another one is added. -/

namespace QnxStartup

inductive GicCallout where
  | at (address : Nat)
  | interruptIdGicV3Spi
  | interruptIdGicV3Espi
  | interruptIdGicV3Lpi
  | interruptEoiGicV3SpiSr
  | interruptEoiGicV3LpiSr
  | interruptMaskGicV3Spi
  | interruptUnmaskGicV3Spi
  | interruptMaskGicV3Espi
  | interruptUnmaskGicV3Espi
  | interruptMaskGicV3LpiIts
  | interruptUnmaskGicV3LpiIts
  | interruptMaskGicV3LpiDirect
  | interruptUnmaskGicV3LpiDirect
  deriving DecidableEq, Repr

structure StartupIntrgen where
  genflags : Nat
  size : Nat
  rtn : GicCallout
  deriving DecidableEq, Repr

structure StartupIntrinfo extends LpiEntry where
  cascadeVector : Nat
  cpuIntrBase : Nat
  cpuIntrStride : Nat
  flags : Nat
  id : StartupIntrgen
  eoi : StartupIntrgen
  mask : GicCallout
  unmask : GicCallout
  config : Nat
  patchData : Nat
  localStride : Nat
  deriving DecidableEq, Repr

inductive GicKind where
  | spi
  | espi
  | lpi
  deriving DecidableEq, Repr

/-- What the routines read of the controller, and two constants of the system's headers. -/
structure GicV3 where
  baseAddressesInitialized : Bool
  gicdTyper : Nat
  gicrTyper : Nat
  intrFlagMsi : Nat
  ntoIntrSpare : Nat
  deriving DecidableEq, Repr

/-- The callers' entries by their addresses, the pointers in `spi_intrinfo`, `espi_intrinfo`
and `lpi_intrinfo`, and `lpi_params.num_lpis`. -/
structure GicState where
  intrinfo : Nat → StartupIntrinfo
  tables : GicKind → List Nat
  numLpis : Nat

def GicKind.minIrq : GicKind → Nat
  | .spi => 32
  | .espi => 4096
  | .lpi => lpiMinIrq

def spiMaxIrq : Nat := 1019

def espiMaxIrq : Nat := 5119

namespace GicV3

def numSpis (g : GicV3) : Nat :=
  let itLines := g.gicdTyper % 2 ^ 5
  if (itLines + 1) * 32 > spiMaxIrq + 1 then spiMaxIrq + 1 - 32 else itLines * 32

def numEspis (g : GicV3) : Nat :=
  if g.gicdTyper / 2 ^ 8 % 2 = 0 then 0 else 32 * (g.gicdTyper / 2 ^ 27 % 2 ^ 5 + 1)

/-- How many vectors of a kind there are. -/
def num (g : GicV3) : GicKind → Nat
  | .spi => g.numSpis
  | .espi => g.numEspis
  | .lpi => gicV3NumLpis g.gicdTyper

def mbis (g : GicV3) : Bool := g.gicdTyper / 2 ^ 16 % 2 ≠ 0

def lpiUsesIts (g : GicV3) : Bool := g.gicrTyper % 2 ≠ 0 && g.gicrTyper / 2 ^ 3 % 2 = 0

end GicV3

/-- The comparisons that `gic_v3_spi_add_entry` and `gic_v3_espi_add_entry` make. -/
def LpiEntry.clashesShared (new cur : LpiEntry) : Bool :=
  (new.vectorBase ≥ cur.vectorBase && new.vectorBase ≤ cur.last) ||
    (new.last ≥ cur.vectorBase && new.last ≤ cur.last) || new.vectorBase ≤ cur.last

namespace GicState

/-- The loop over the entries that are there; it stops at the first one that is in the way. -/
def inTheWay (s : GicState) (clashes : LpiEntry → Bool) : List Nat → Startup Bool
  | [] => .ok false
  | cur :: l =>
    if cur = 0 then crash assertText
    else if clashes (s.intrinfo cur).toLpiEntry then .ok true else s.inTheWay clashes l

/-- The entry is completed where it lies and its address appended to the table. -/
def register (s : GicState) (k : GicKind) (p : Nat) (e : StartupIntrinfo) : GicState :=
  { s with
    intrinfo := Function.update s.intrinfo p e
    tables := Function.update s.tables k (s.tables k ++ [p]) }

end GicState

/-- The fields that all three routines set, with the callouts of one of them. -/
def StartupIntrinfo.complete (e : StartupIntrinfo) (ntoIntrSpare : Nat)
    (id eoi mask unmask : GicCallout) :
    StartupIntrinfo :=
  { e with
    cascadeVector := ntoIntrSpare
    cpuIntrBase := 0
    cpuIntrStride := 0
    id := ⟨0, 0, id⟩
    eoi := ⟨0, 0, eoi⟩
    mask := mask
    unmask := unmask }

namespace GicV3

/-- The body of the SPI and ESPI routines; `refused` is a check that only one of them makes. -/
def sharedAddEntry (g : GicV3) (k : GicKind) (maxIrq : Nat) (refused : Bool)
    (id mask unmask : GicCallout) (p : Nat) (s : GicState) : Startup (Int × GicState) :=
  let e := s.intrinfo p
  if ¬ g.baseAddressesInitialized then crash assertText
  else if ¬ (s.tables k).length < lpiEntriesMax then crash assertText
  else if ¬ (e.vectorBase ≥ k.minIrq ∧ e.vectorBase ≤ maxIrq) then crash assertText
  else if ¬ u32 (e.vectorBase + e.numVectors) ≤ u32 (g.num k + k.minIrq) then crash assertText
  else if refused then .ok (-1, s)
  else if e.last ≥ u32 (g.num k + k.minIrq) then .ok (-1, s)
  else if e.flags &&& g.intrFlagMsi ≠ 0 ∧ ¬ g.mbis then .ok (-1, s)
  else do
    let found ← s.inTheWay e.clashesShared (s.tables k)
    if found then .ok (-1, s)
    else .ok (0, s.register k p (e.complete g.ntoIntrSpare id .interruptEoiGicV3SpiSr mask unmask))

def spiAddEntry (g : GicV3) : Nat → GicState → Startup (Int × GicState) :=
  g.sharedAddEntry .spi spiMaxIrq false .interruptIdGicV3Spi .interruptMaskGicV3Spi
    .interruptUnmaskGicV3Spi

def espiAddEntry (g : GicV3) : Nat → GicState → Startup (Int × GicState) :=
  g.sharedAddEntry .espi espiMaxIrq (g.numEspis = 0) .interruptIdGicV3Espi .interruptMaskGicV3Espi
    .interruptUnmaskGicV3Espi

def lpiAddEntry (g : GicV3) (p : Nat) (s : GicState) : Startup (Int × GicState) :=
  let e := s.intrinfo p
  if ¬ g.baseAddressesInitialized then crash assertText
  else if ¬ (s.tables .lpi).length < lpiEntriesMax then crash assertText
  else if ¬ e.vectorBase ≥ lpiMinIrq then crash assertText
  else if ¬ sub32 (u32 (e.vectorBase + e.numVectors)) lpiMinIrq ≤ gicV3NumLpis g.gicdTyper
    then crash assertText
  else if e.last ≥ u32 (gicV3NumLpis g.gicdTyper + lpiMinIrq) then .ok (-1, s)
  else do
    let found ← s.inTheWay e.clashes (s.tables .lpi)
    if found then .ok (-1, s)
    else
      let total := u32 (s.numLpis + e.numVectors)
      let mask := if g.lpiUsesIts then GicCallout.interruptMaskGicV3LpiIts
        else .interruptMaskGicV3LpiDirect
      let unmask := if g.lpiUsesIts then GicCallout.interruptUnmaskGicV3LpiIts
        else .interruptUnmaskGicV3LpiDirect
      let e' := e.complete g.ntoIntrSpare .interruptIdGicV3Lpi .interruptEoiGicV3LpiSr mask unmask
      if ¬ total ≤ gicV3NumLpis g.gicdTyper then crash assertText
      else .ok (0, { s.register .lpi p e' with numLpis := total })

def addEntry (g : GicV3) : GicKind → Nat → GicState → Startup (Int × GicState)
  | .spi => g.spiAddEntry
  | .espi => g.espiAddEntry
  | .lpi => g.lpiAddEntry

/-- The vectors of a kind that the controller supports. -/
def vectors (g : GicV3) (k : GicKind) : Set Nat := Set.Ico k.minIrq (k.minIrq + g.num k)

end GicV3

def LpiEntry.vectors (e : LpiEntry) : Set Nat := Set.Ico e.vectorBase (e.vectorBase + e.numVectors)

def GicState.ranges (s : GicState) (k : GicKind) : List LpiEntry :=
  (s.tables k).map fun p => (s.intrinfo p).toLpiEntry

/-- The states after calls that returned, each of which met `cond` beforehand. Between the calls
an entry that no table holds may be changed. -/
inductive GicRun (g : GicV3) (cond : GicState → GicKind → Nat → Prop) : GicState → Prop
  | init (intrinfo : Nat → StartupIntrinfo) : GicRun g cond ⟨intrinfo, fun _ => [], 0⟩
  | prepare {s : GicState} {p : Nat} {e : StartupIntrinfo} (run : GicRun g cond s)
      (hfree : ∀ k, p ∉ s.tables k) :
      GicRun g cond { s with intrinfo := Function.update s.intrinfo p e }
  | call {s s' : GicState} {k : GicKind} {p : Nat} {r : Int} (run : GicRun g cond s)
      (hwrap : (s.intrinfo p).vectorBase + (s.intrinfo p).numVectors < 2 ^ 32) (hcond : cond s k p)
      (h : g.addEntry k p s = .ok (r, s')) : GicRun g cond s'

section Calls

variable {g : GicV3} {s s' : GicState} {k : GicKind} {p : Nat} {r : Int}

theorem GicState.inTheWay_ok {clashes : LpiEntry → Bool} {l : List Nat} {found : Bool}
    (h : s.inTheWay clashes l = .ok found) :
    found = (l.map fun p => (s.intrinfo p).toLpiEntry).any clashes := by
  induction l with
  | nil => exact (Except.ok.inj h).symm
  | cons cur l ih =>
    rw [inTheWay, crash_ite_eq_ok] at h
    rw [List.map_cons, List.any_cons]
    by_cases hc : clashes (s.intrinfo cur).toLpiEntry = true
    · rw [if_pos hc] at h
      rw [hc, Bool.true_or]
      exact (Except.ok.inj h.2).symm
    · rw [if_neg hc] at h
      rw [Bool.eq_false_iff.mpr hc, Bool.false_or]
      exact ih h.2

theorem GicState.inTheWay_ranges {clashes : LpiEntry → Bool} {found : Bool}
    (h : s.inTheWay clashes (s.tables k) = .ok found) : found = (s.ranges k).any clashes :=
  inTheWay_ok h

theorem GicState.ranges_register {e : StartupIntrinfo}
    (he : e.toLpiEntry = (s.intrinfo p).toLpiEntry) (k' : GicKind) :
    (s.register k p e).ranges k' = s.ranges k' ++ if k' = k then [e.toLpiEntry] else [] := by
  have hsame : (fun q => (Function.update s.intrinfo p e q).toLpiEntry) = fun q =>
      (s.intrinfo q).toLpiEntry :=
    funext fun q => by
      by_cases hq : q = p
      · rw [hq, Function.update_self, he]
      · rw [Function.update_of_ne hq]
  by_cases hk : k' = k
  · simp only [ranges, register, hsame, hk, Function.update_self, if_pos, List.map_append,
      List.map_singleton, he]
  · simp only [ranges, register, hsame, Function.update_of_ne hk, if_neg hk, List.append_nil]

theorem GicState.ranges_prepare {e : StartupIntrinfo} (hfree : ∀ k, p ∉ s.tables k) :
    GicState.ranges { s with intrinfo := Function.update s.intrinfo p e } k = s.ranges k :=
  List.map_congr_left fun q hq => by
    have hne : q ≠ p := fun h => hfree k (h ▸ hq)
    exact congrArg StartupIntrinfo.toLpiEntry (Function.update_of_ne hne ..)

/-- What a call that returns 0 has found out about the entry, beside the entries `l` of its kind. -/
structure GicV3.Accepts (g : GicV3) (k : GicKind) (l : List LpiEntry) (e : LpiEntry) : Prop where
  min : k.minIrq ≤ e.vectorBase
  fits : e.vectorBase + e.numVectors ≤ k.minIrq + g.num k
  above : ∀ cur ∈ l, cur.last < e.vectorBase

structure GicState.Registered (s s' : GicState) (k : GicKind) (e : LpiEntry) : Prop where
  same : s'.ranges k = s.ranges k ++ [e]
  other : ∀ k' ≠ k, s'.ranges k' = s.ranges k'

theorem GicState.registered_register {e : StartupIntrinfo}
    (he : e.toLpiEntry = (s.intrinfo p).toLpiEntry) :
    s.Registered (s.register k p e) k (s.intrinfo p).toLpiEntry :=
  ⟨by rw [ranges_register he, if_pos rfl, he],
    fun k' hk => by rw [ranges_register he, if_neg hk, List.append_nil]⟩

/-- The call has returned -1 and changed nothing, or it has returned 0 and the entry is
the last one of its kind. -/
def GicV3.Outcome (g : GicV3) (k : GicKind) (p : Nat) (s : GicState) (r : Int)
    (s' : GicState) : Prop :=
  (r = -1 ∧ s' = s) ∨
    (r = 0 ∧ g.Accepts k (s.ranges k) (s.intrinfo p).toLpiEntry ∧
      s.Registered s' k (s.intrinfo p).toLpiEntry)

theorem GicV3.outcome_rejected (h : (.ok (-1, s) : Startup (Int × GicState)) = .ok (r, s')) :
    g.Outcome k p s r s' := by
  cases h
  exact .inl ⟨rfl, rfl⟩

theorem GicV3.sharedAddEntry_ok {maxIrq : Nat} {refused : Bool} {id mask unmask : GicCallout}
    (hwrap : (s.intrinfo p).vectorBase + (s.intrinfo p).numVectors < 2 ^ 32)
    (h : g.sharedAddEntry k maxIrq refused id mask unmask p s = .ok (r, s')) :
    g.Outcome k p s r s' := by
  simp only [sharedAddEntry, crash_ite_eq_ok, not_not] at h
  obtain ⟨-, -, hbase, hend, h⟩ := h
  rw [u32_of_lt hwrap] at hend
  split at h
  · exact outcome_rejected h
  split at h
  · exact outcome_rejected h
  split at h
  · exact outcome_rejected h
  obtain ⟨found, hfound, h⟩ := bind_eq_ok.mp h
  split at h
  · exact outcome_rejected h
  · next hnot =>
    cases h
    refine .inr ⟨rfl, ⟨hbase.1, ?_, fun cur hcur => not_le.mp fun hle => hnot ?_⟩,
      GicState.registered_register rfl⟩
    · rw [Nat.add_comm k.minIrq]
      exact hend.trans (Nat.mod_le _ _)
    · rw [GicState.inTheWay_ranges hfound]
      exact List.any_eq_true.mpr ⟨cur, hcur, by simp [LpiEntry.clashesShared, hle]⟩

/-- The calls for the LPIs, seen as calls on what the tables are sized by. -/
theorem GicV3.lpiAddEntry_ok (h : g.lpiAddEntry p s = .ok (r, s')) :
    gicV3LpiAddEntry g.gicdTyper (s.intrinfo p).toLpiEntry ⟨s.ranges .lpi, s.numLpis⟩ =
        .ok (r, ⟨s'.ranges .lpi, s'.numLpis⟩) ∧
      ((r = -1 ∧ s' = s) ∨ (r = 0 ∧ s.Registered s' .lpi (s.intrinfo p).toLpiEntry)) := by
  simp only [lpiAddEntry, crash_ite_eq_ok, not_not] at h
  obtain ⟨-, hfree, hmin, hend, h⟩ := h
  have hlen : (s.ranges .lpi).length < lpiEntriesMax := (List.length_map _).trans_lt hfree
  simp only [gicV3LpiAddEntry, crash_ite_eq_ok, not_not]
  split at h
  · next hlast =>
    cases h
    refine ⟨⟨hlen, hmin, hend, ?_⟩, .inl ⟨rfl, rfl⟩⟩
    rw [if_pos hlast]
  next hlast =>
  rw [if_neg hlast]
  obtain ⟨found, hfound, h⟩ := bind_eq_ok.mp h
  rw [GicState.inTheWay_ranges hfound] at h
  split at h
  · next hclash =>
    cases h
    refine ⟨⟨hlen, hmin, hend, ?_⟩, .inl ⟨rfl, rfl⟩⟩
    rw [if_pos hclash]
  · next hclash =>
    rw [crash_ite_eq_ok] at h
    obtain ⟨htotal, h⟩ := h
    obtain ⟨rfl, rfl⟩ := Prod.mk.inj (Except.ok.inj h)
    have hreg := GicState.registered_register (s := s) (k := .lpi) (p := p)
      (e := (s.intrinfo p).complete g.ntoIntrSpare .interruptIdGicV3Lpi .interruptEoiGicV3LpiSr
        (if g.lpiUsesIts then .interruptMaskGicV3LpiIts else .interruptMaskGicV3LpiDirect)
        (if g.lpiUsesIts then .interruptUnmaskGicV3LpiIts else .interruptUnmaskGicV3LpiDirect)) rfl
    refine ⟨⟨hlen, hmin, hend, ?_⟩, .inr ⟨rfl, ⟨hreg.same, hreg.other⟩⟩⟩
    rw [if_neg hclash, if_neg htotal]
    exact congrArg (fun l => Except.ok (0, LpiState.mk l _)) hreg.same.symm

theorem GicV3.addEntry_ok (hwrap : (s.intrinfo p).vectorBase + (s.intrinfo p).numVectors < 2 ^ 32)
    (h : g.addEntry k p s = .ok (r, s')) : g.Outcome k p s r s' := by
  cases k with
  | spi => exact sharedAddEntry_ok hwrap h
  | espi => exact sharedAddEntry_ok hwrap h
  | lpi =>
    obtain ⟨hranges, hrejected | ⟨rfl, hreg⟩⟩ := lpiAddEntry_ok h
    · exact .inl hrejected
    · obtain ⟨hmin, habove, -⟩ := gicV3LpiAddEntry_ok hranges
      refine .inr ⟨rfl, ⟨hmin, ?_, habove⟩, hreg⟩
      simp only [gicV3LpiAddEntry, crash_ite_eq_ok, not_not] at hranges
      have hend := hranges.2.2.1
      rw [u32_of_lt hwrap, sub32_of_le hwrap (hmin.trans (Nat.le_add_right ..))] at hend
      exact Nat.sub_le_iff_le_add'.mp hend

end Calls

/-- Each entry ends before the next one of its kind begins. -/
structure GicState.Ordered (g : GicV3) (s : GicState) : Prop where
  order : ∀ k, (s.ranges k).Pairwise fun e e' => e.vectorBase + e.numVectors ≤ e'.vectorBase
  min : ∀ k, ∀ e ∈ s.ranges k, k.minIrq ≤ e.vectorBase
  max : ∀ k, ∀ e ∈ s.ranges k, e.vectorBase + e.numVectors ≤ k.minIrq + g.num k
  nowrap : ∀ k, ∀ e ∈ s.ranges k, e.vectorBase + e.numVectors < 2 ^ 32

structure GicState.Ascending (g : GicV3) (s : GicState) : Prop where
  strict : ∀ k, (s.ranges k).Pairwise fun e e' => e.vectorBase < e'.vectorBase
  supported : ∀ k, ∀ e ∈ s.ranges k, e.vectorBase ∈ g.vectors k

/-- No entry of the kind without vectors begins where this one begins, and if this one has none
it still begins at a vector that there is. -/
def GicState.Apart (g : GicV3) (s : GicState) (k : GicKind) (p : Nat) : Prop :=
  ((s.intrinfo p).numVectors = 0 → (s.intrinfo p).vectorBase < k.minIrq + g.num k) ∧
    ∀ cur ∈ s.ranges k, cur.numVectors = 0 → cur.vectorBase ≠ (s.intrinfo p).vectorBase

instance (g : GicV3) (s : GicState) (k : GicKind) (p : Nat) : Decidable (s.Apart g k p) :=
  inferInstanceAs (Decidable (_ ∧ _))

section Runs

variable {g : GicV3} {s s' : GicState} {k : GicKind} {p : Nat} {e : LpiEntry}

theorem GicKind.minIrq_pos (k : GicKind) : 0 < k.minIrq := by
  cases k <;> decide

theorem LpiEntry.last_lt_iff (hpos : 0 < e.vectorBase)
    (hwrap : e.vectorBase + e.numVectors < 2 ^ 32) {b : Nat} :
    e.last < b ↔ e.vectorBase + e.numVectors ≤ b := by
  rw [last, u32_of_lt hwrap, sub32_of_le hwrap (by omega)]
  omega

theorem GicState.Registered.forall {P : GicKind → LpiEntry → Prop} (hreg : s.Registered s' k e)
    (h : ∀ k, ∀ e ∈ s.ranges k, P k e) (hnew : P k e) : ∀ k, ∀ e ∈ s'.ranges k, P k e := by
  intro k' e' he'
  by_cases hk : k' = k
  · subst hk
    rw [hreg.same, List.mem_append, List.mem_singleton] at he'
    rcases he' with hold | rfl
    · exact h k' e' hold
    · exact hnew
  · rw [hreg.other k' hk] at he'
    exact h k' e' he'

theorem GicState.Registered.pairwise_iff {R : LpiEntry → LpiEntry → Prop}
    (hreg : s.Registered s' k e) (h : ∀ k, (s.ranges k).Pairwise R) :
    (∀ k, (s'.ranges k).Pairwise R) ↔ ∀ cur ∈ s.ranges k, R cur e := by
  constructor
  · intro h' cur hcur
    have hk := h' k
    rw [hreg.same, List.pairwise_append] at hk
    exact hk.2.2 cur hcur e (List.mem_singleton_self e)
  · intro hnew k'
    by_cases hk : k' = k
    · rw [hk, hreg.same, List.pairwise_append]
      refine ⟨h k, List.pairwise_singleton R e, fun cur hcur e' he' => ?_⟩
      rw [List.mem_singleton.mp he']
      exact hnew cur hcur
    · rw [hreg.other k' hk]
      exact h k'

theorem GicState.Ordered.of_ranges (inv : s.Ordered g) (hsame : ∀ k, s'.ranges k = s.ranges k) :
    s'.Ordered g where
  order := fun k => hsame k ▸ inv.order k
  min := fun k => hsame k ▸ inv.min k
  max := fun k => hsame k ▸ inv.max k
  nowrap := fun k => hsame k ▸ inv.nowrap k

theorem GicState.Ascending.of_ranges (asc : s.Ascending g) (hsame : ∀ k, s'.ranges k = s.ranges k) :
    s'.Ascending g where
  strict := fun k => hsame k ▸ asc.strict k
  supported := fun k => hsame k ▸ asc.supported k

theorem GicState.Ordered.register (inv : s.Ordered g) (hwrap : e.vectorBase + e.numVectors < 2 ^ 32)
    (hacc : g.Accepts k (s.ranges k) e) (hreg : s.Registered s' k e) : s'.Ordered g where
  order := (hreg.pairwise_iff inv.order).mpr fun cur hcur =>
    (LpiEntry.last_lt_iff (k.minIrq_pos.trans_le (inv.min k cur hcur)) (inv.nowrap k cur hcur)).mp
      (hacc.above cur hcur)
  min := hreg.forall inv.min hacc.min
  max := hreg.forall inv.max hacc.fits
  nowrap := hreg.forall inv.nowrap hwrap

/-- An entry that is accepted comes strictly behind the others exactly when it is apart
from them. -/
theorem GicState.Ascending.register_iff (inv : s.Ordered g) (asc : s.Ascending g)
    (hacc : g.Accepts k (s.ranges k) (s.intrinfo p).toLpiEntry)
    (hreg : s.Registered s' k (s.intrinfo p).toLpiEntry) : s'.Ascending g ↔ s.Apart g k p := by
  have hfits := hacc.fits
  constructor
  · intro asc'
    have hnew := (hreg.pairwise_iff asc.strict).mp asc'.strict
    refine ⟨fun _ => ?_, fun cur hcur _ => (hnew cur hcur).ne⟩
    have hmem : (s.intrinfo p).toLpiEntry ∈ s'.ranges k := by
      rw [hreg.same]
      exact List.mem_append_right _ (List.mem_singleton_self _)
    exact (asc'.supported k _ hmem).2
  · rintro ⟨hempty, hapart⟩
    refine ⟨(hreg.pairwise_iff asc.strict).mpr fun cur hcur => ?_,
      hreg.forall asc.supported ⟨hacc.min, ?_⟩⟩
    · have hle := (LpiEntry.last_lt_iff (k.minIrq_pos.trans_le (inv.min k cur hcur))
        (inv.nowrap k cur hcur)).mp
        (hacc.above cur hcur)
      have hne := hapart cur hcur
      omega
    · omega

theorem GicRun.imp {cond cond' : GicState → GicKind → Nat → Prop} (run : GicRun g cond s)
    (h : ∀ s k p, cond s k p → cond' s k p) : GicRun g cond' s := by
  induction run with
  | init intrinfo => exact .init intrinfo
  | prepare _ hfree ih => exact ih.prepare hfree
  | call _ hwrap hcond hcall ih => exact ih.call hwrap (h _ _ _ hcond) hcall

theorem GicRun.ordered {cond : GicState → GicKind → Nat → Prop} (run : GicRun g cond s) :
    s.Ordered g := by
  induction run with
  | init => constructor <;> simp [GicState.ranges]
  | prepare _ hfree ih => exact ih.of_ranges fun _ => GicState.ranges_prepare hfree
  | call _ hwrap _ h ih =>
    rcases GicV3.addEntry_ok hwrap h with ⟨-, rfl⟩ | ⟨-, hacc, hreg⟩
    · exact ih
    · exact ih.register hwrap hacc hreg

theorem GicRun.ascending (run : GicRun g (GicState.Apart g) s) : s.Ascending g := by
  induction run with
  | init => constructor <;> simp [GicState.ranges]
  | prepare _ hfree ih => exact ih.of_ranges fun _ => GicState.ranges_prepare hfree
  | call run hwrap hapart h ih =>
    rcases GicV3.addEntry_ok hwrap h with ⟨-, rfl⟩ | ⟨-, hacc, hreg⟩
    · exact ih
    · exact (ih.register_iff run.ordered hacc hreg).mpr hapart

end Runs

theorem LpiEntry.disjoint_vectors {e e' : LpiEntry}
    (h : e.vectorBase + e.numVectors ≤ e'.vectorBase) :
    Disjoint e.vectors e'.vectors :=
  Set.disjoint_left.mpr fun _ hv hv' => absurd (hv.2.trans_le h) (not_lt.mpr hv'.1)

/-- The vectors of the entries are those of different ranges, in order, whatever the calls are. The
entries themselves are in strict order and begin at vectors that there are as long as no call
registers an entry beside one that has no vectors. -/
theorem add_entry_ranges {g : GicV3} {cond : GicState → GicKind → Nat → Prop} {s : GicState}
    (run : GicRun g cond s) :
    (∀ k, (s.ranges k).Pairwise (fun e e' => e.vectorBase + e.numVectors ≤ e'.vectorBase) ∧
        (s.ranges k).Pairwise (fun e e' => Disjoint e.vectors e'.vectors) ∧
        ∀ e ∈ s.ranges k, e.vectors ⊆ g.vectors k) ∧
      (∀ k p r s', (s.intrinfo p).vectorBase + (s.intrinfo p).numVectors < 2 ^ 32 →
        g.addEntry k p s = .ok (r, s') → (r = 0 ∨ r = -1) ∧ (r = -1 → s' = s)) ∧
      ((∀ s k p, cond s k p → s.Apart g k p) → s.Ascending g) := by
  have inv := run.ordered
  refine ⟨fun k => ⟨inv.order k, (inv.order k).imp LpiEntry.disjoint_vectors, fun e he => ?_⟩,
    fun k p r s' hwrap h => ?_, fun hcond => (run.imp hcond).ascending⟩
  · exact Set.Ico_subset_Ico (inv.min k e he) (inv.max k e he)
  · rcases GicV3.addEntry_ok hwrap h with ⟨rfl, rfl⟩ | ⟨rfl, -⟩
    · exact ⟨.inr rfl, fun _ => rfl⟩
    · exact ⟨.inl rfl, fun hr => absurd hr (by decide)⟩

def exampleGic : GicV3 := ⟨true, exampleTyper + 7, 0, 1, 0⟩

def exampleIntrinfo (vectorBase numVectors : Nat) : StartupIntrinfo :=
  ⟨⟨vectorBase, numVectors⟩, 0, 0, 0, 0, ⟨0, 0, .at 0⟩, ⟨0, 0, .at 0⟩, .at 0, .at 0, 0, 0, 0⟩

theorem add_entry_ranges_example :
    ∃ s, GicRun exampleGic (GicState.Apart exampleGic) s ∧ s.ranges .spi = [⟨32, 16⟩, ⟨64, 8⟩] ∧
      ((s.ranges .spi).Pairwise fun e e' => Disjoint e.vectors e'.vectors) ∧
        s.Ascending exampleGic := by
  have first : GicRun exampleGic (GicState.Apart exampleGic) _ :=
    .init fun p => if p = 1 then exampleIntrinfo 32 16 else exampleIntrinfo 64 8
  have second := first.call (k := .spi) (p := 1) (by decide) (by decide) rfl
  have third := second.call (k := .spi) (p := 2) (by decide) (by decide) rfl
  have h := add_entry_ranges third
  exact ⟨_, third, by decide, (h.1 .spi).2.1, h.2.2 fun _ _ _ hapart => hapart⟩

/-- An entry without vectors is accepted behind the last vector that there is, and
accepted again. -/
theorem add_entry_empty_twice :
    ∃ s, GicRun exampleGic (fun _ _ _ => True) s ∧
      (¬ (s.ranges .spi).Pairwise fun e e' => e.vectorBase < e'.vectorBase) ∧
      ¬ ∀ e ∈ s.ranges .spi, e.vectorBase ∈ exampleGic.vectors .spi := by
  have first : GicRun exampleGic (fun _ _ _ => True) _ := .init fun _ => exampleIntrinfo 256 0
  have second := first.call (k := .spi) (p := 1) (by decide) trivial rfl
  have third := second.call (k := .spi) (p := 2) (by decide) trivial rfl
  refine ⟨_, third, by decide, fun h => ?_⟩
  have hlt := (h ⟨256, 0⟩ (by decide)).2
  exact absurd hlt (by decide)

end QnxStartup
