import QnxStartup.Machine

/-! The locality-specific interrupts of the GICv3: the entries that `gic_v3_lpi_add_entry`
accepts, and the tables that are sized by their number. -/

namespace QnxStartup

def lpiMinIrq : Nat := 8192

/-- `gic_v3_num_lpis`, from the distributor's type register. -/
def gicV3NumLpis (gicdTyper : Nat) : Nat :=
  let nlpi := gicdTyper / 2 ^ 11 % 2 ^ 5
  if gicdTyper / 2 ^ 17 % 2 = 0 then 0
  else if nlpi = 0 then sub32 (u32 (2 ^ (gicdTyper / 2 ^ 19 % 2 ^ 5 + 1))) lpiMinIrq
  else u32 (2 ^ (nlpi + 1))

/-- The fields of `struct startup_intrinfo` that say which vectors an entry has. -/
structure LpiEntry where
  vectorBase : Nat
  numVectors : Nat
  deriving DecidableEq, Repr

/-- `lpi_intrinfo` and `lpi_params.num_lpis`. -/
structure LpiState where
  entries : List LpiEntry
  numLpis : Nat
  deriving DecidableEq, Repr

def LpiEntry.last (e : LpiEntry) : Nat := sub32 (u32 (e.vectorBase + e.numVectors)) 1

/-- The three comparisons of a new entry with one that is there. -/
def LpiEntry.clashes (new cur : LpiEntry) : Bool :=
  (new.vectorBase ≥ cur.vectorBase && new.vectorBase ≤ cur.last) ||
    (new.last ≥ cur.vectorBase && new.vectorBase ≤ cur.last) || new.vectorBase ≤ cur.last

/-- The text of `ASSERT`. -/
def assertText : String := "%s:%d -- ASSERT(%s) failed!\n%s"

def lpiEntriesMax : Nat := 16

def gicV3LpiAddEntry (gicdTyper : Nat) (e : LpiEntry) (s : LpiState) : Startup (Int × LpiState) :=
  let num := gicV3NumLpis gicdTyper
  if ¬ s.entries.length < lpiEntriesMax then crash assertText
  else if ¬ e.vectorBase ≥ lpiMinIrq then crash assertText
  else if ¬ sub32 (u32 (e.vectorBase + e.numVectors)) lpiMinIrq ≤ num then crash assertText
  else if e.last ≥ u32 (num + lpiMinIrq) then .ok (-1, s)
  else if s.entries.any e.clashes then .ok (-1, s)
  else
    let total := u32 (s.numLpis + e.numVectors)
    if ¬ total ≤ num then crash assertText else .ok (0, ⟨s.entries ++ [e], total⟩)

def lpiConfigSize (s : LpiState) : Nat := s.numLpis

def lpiPendingSize (s : LpiState) : Nat := round (u32 (lpiMinIrq + s.numLpis) / 8) 1024

/-- The loop that looks for the number of bits; at 32 it has found it. -/
def countBits (count : Nat) : Nat → Nat → Nat
  | 0, bits => bits
  | n + 1, bits => if 2 ^ bits < count then countBits count n (bits + 1) else bits

def propbaserIdBits (s : LpiState) : Nat := countBits (u32 (s.numLpis + lpiMinIrq)) 18 14 - 1

/-- The tables have a place for the vector. -/
structure LpiState.Covers (s : LpiState) (v : Nat) : Prop where
  min : lpiMinIrq ≤ v
  config : v - lpiMinIrq < lpiConfigSize s
  pending : v < 8 * lpiPendingSize s
  idBits : v < 2 ^ (propbaserIdBits s + 1)

/-- The states after calls that returned 0. -/
inductive LpiRun (gicdTyper : Nat) : LpiState → Prop
  | init : LpiRun gicdTyper ⟨[], 0⟩
  | add {s s' : LpiState} {e : LpiEntry} (run : LpiRun gicdTyper s) (hbase : e.vectorBase < 2 ^ 32)
      (hnum : e.numVectors < 2 ^ 32) (h : gicV3LpiAddEntry gicdTyper e s = .ok (0, s')) :
      LpiRun gicdTyper s'

def lpiTotal (l : List LpiEntry) : Nat := (l.map LpiEntry.numVectors).sum

/-- The ranges follow each other from `next` on without a gap. -/
def GapFree : Nat → List LpiEntry → Prop
  | _, [] => True
  | next, e :: l => (e.numVectors = 0 ∨ e.vectorBase = next) ∧ GapFree (next + e.numVectors) l

section Ranges

variable {b : Nat} {l : List LpiEntry}

@[simp] theorem lpiTotal_cons (e : LpiEntry) (l : List LpiEntry) :
    lpiTotal (e :: l) = e.numVectors + lpiTotal l := by
  simp [lpiTotal]

@[simp] theorem lpiTotal_append (l l' : List LpiEntry) :
    lpiTotal (l ++ l') = lpiTotal l + lpiTotal l' := by
  simp [lpiTotal]

/-- Each range begins behind the ones before it. -/
def Ascending (l : List LpiEntry) : Prop :=
  l.Pairwise fun e e' => e.numVectors ≠ 0 → e'.numVectors ≠ 0 →
    e.vectorBase + e.numVectors ≤ e'.vectorBase

theorem Ascending.reach (h : Ascending l) (hbase : ∀ e ∈ l, e.numVectors ≠ 0 → b ≤ e.vectorBase)
    (htotal : lpiTotal l ≠ 0) :
    ∃ e ∈ l, e.numVectors ≠ 0 ∧ b + lpiTotal l ≤ e.vectorBase + e.numVectors := by
  induction l generalizing b with
  | nil => exact absurd rfl htotal
  | cons e l ih =>
    rw [Ascending, List.pairwise_cons] at h
    rw [lpiTotal_cons] at htotal ⊢
    by_cases hrest : lpiTotal l = 0
    · have hb := hbase e (by simp) (by omega)
      exact ⟨e, by simp, by omega, by omega⟩
    · by_cases he : e.numVectors = 0
      · obtain ⟨e', he', hn, hle⟩ := ih h.2 (fun e' he' => hbase e' (by simp [he'])) hrest
        exact ⟨e', by simp [he'], hn, by omega⟩
      · have hb := hbase e (by simp) he
        obtain ⟨e', he', hn, hle⟩ := ih (b := e.vectorBase + e.numVectors) h.2
          (fun e' he' hn => h.1 e' he' he hn) hrest
        exact ⟨e', by simp [he'], hn, by omega⟩

theorem Ascending.gapFree (h : Ascending l) (hbase : ∀ e ∈ l, e.numVectors ≠ 0 → b ≤ e.vectorBase)
    (hend : ∀ e ∈ l, e.numVectors ≠ 0 → e.vectorBase + e.numVectors ≤ b + lpiTotal l) :
    GapFree b l := by
  induction l generalizing b with
  | nil => trivial
  | cons e l ih =>
    rw [Ascending, List.pairwise_cons] at h
    rw [lpiTotal_cons] at hend
    have hrest := ih (b := b + e.numVectors) h.2 (fun e' he' hn => ?_) fun e' he' hn => by
      have := hend e' (by simp [he']) hn
      omega
    · refine ⟨?_, hrest⟩
      by_cases he : e.numVectors = 0
      · exact .inl he
      · refine .inr ?_
        have hb := hbase e (by simp) he
        have hle := hend e (by simp) he
        by_cases ht : lpiTotal l = 0
        · omega
        · obtain ⟨e', he', hn, hr⟩ := Ascending.reach (b := e.vectorBase + e.numVectors) h.2
            (fun e' he' hn => h.1 e' he' he hn) ht
          have := hend e' (by simp [he']) hn
          omega
    · have hb := hbase e' (by simp [he']) hn
      by_cases he : e.numVectors = 0
      · omega
      · have h1 := h.1 e' he' he hn
        have h2 := hbase e (by simp) he
        omega

theorem GapFree.range {e : LpiEntry} (h : GapFree b l) (he : e ∈ l) (hn : e.numVectors ≠ 0) :
    b ≤ e.vectorBase ∧ e.vectorBase + e.numVectors ≤ b + lpiTotal l := by
  induction l generalizing b with
  | nil => simp at he
  | cons e' l ih =>
    obtain ⟨h1, h2⟩ := h
    rw [lpiTotal_cons]
    rcases List.mem_cons.mp he with rfl | he
    · have := h1.resolve_left hn
      omega
    · have := ih h2 he
      omega

end Ranges

structure LpiInv (s : LpiState) : Prop where
  numLpis : s.numLpis = u32 (lpiTotal s.entries)
  min : ∀ e ∈ s.entries, lpiMinIrq ≤ e.vectorBase
  order : s.entries.Pairwise fun e e' => e.last < e'.vectorBase

theorem gicV3LpiAddEntry_ok {gicdTyper : Nat} {e : LpiEntry} {s s' : LpiState}
    (h : gicV3LpiAddEntry gicdTyper e s = .ok (0, s')) :
    lpiMinIrq ≤ e.vectorBase ∧ (∀ cur ∈ s.entries, cur.last < e.vectorBase) ∧
      s' = ⟨s.entries ++ [e], u32 (s.numLpis + e.numVectors)⟩ := by
  unfold gicV3LpiAddEntry at h
  simp only [crash_ite_eq_ok] at h
  obtain ⟨-, hmin, -, h⟩ := h
  have hreject : ¬ (Except.ok (-1, s) : Startup (Int × LpiState)) = .ok (0, s') := fun hh =>
    absurd (show (-1 : Int) = 0 from congrArg Prod.fst (Except.ok.inj hh)) (by decide)
  split at h
  · exact absurd h hreject
  split at h
  · exact absurd h hreject
  · next hclash =>
    rw [crash_ite_eq_ok] at h
    refine ⟨not_not.mp hmin, fun cur hcur => not_le.mp fun hle => hclash ?_, ?_⟩
    · exact List.any_eq_true.mpr ⟨cur, hcur, by simp [LpiEntry.clashes, hle]⟩
    · exact (Prod.mk.inj (Except.ok.inj h.2)).2.symm

theorem LpiRun.inv {gicdTyper : Nat} {s : LpiState} (run : LpiRun gicdTyper s) : LpiInv s := by
  induction run with
  | init => exact ⟨rfl, by simp, List.Pairwise.nil⟩
  | add _ _ _ h ih =>
    obtain ⟨hmin, hlast, rfl⟩ := gicV3LpiAddEntry_ok h
    refine ⟨?_, fun e he => ?_, List.pairwise_append.mpr ⟨ih.order, List.pairwise_singleton ..,
      fun cur hcur e he => ?_⟩⟩
    · simp only [ih.numLpis, lpiTotal_append, lpiTotal_cons]
      unfold u32
      simp [lpiTotal]
    · rcases List.mem_append.mp he with he | he
      · exact ih.min e he
      · rwa [List.mem_singleton.mp he]
    · rw [List.mem_singleton.mp he]
      exact hlast cur hcur

theorem le_two_pow_countBits {c n k : Nat} (h : c ≤ 2 ^ (k + n)) :
    c ≤ 2 ^ countBits c n k ∧ k ≤ countBits c n k := by
  induction n generalizing k with
  | zero => exact ⟨h, le_rfl⟩
  | succ n ih =>
    rw [countBits]
    split
    · have hnext : c ≤ 2 ^ (k + 1 + n) := by rwa [Nat.add_right_comm]
      obtain ⟨h1, h2⟩ := ih hnext
      exact ⟨h1, by omega⟩
    · next hlt => exact ⟨not_lt.mp hlt, le_rfl⟩

theorem lpiPendingSize_eq (s : LpiState) :
    8 * lpiPendingSize s = 8192 * ((u32 (lpiMinIrq + s.numLpis) / 8 + 1023) / 1024) := by
  have hlt := u32_lt (lpiMinIrq + s.numLpis)
  obtain ⟨h1, h2, h3⟩ := round_two_pow (k := 10) (by decide) (x := u32 (lpiMinIrq + s.numLpis) / 8)
    (by omega)
  change u32 (lpiMinIrq + s.numLpis) / 8 ≤ round (u32 (lpiMinIrq + s.numLpis) / 8) 1024 at h1
  change 1024 ∣ round (u32 (lpiMinIrq + s.numLpis) / 8) 1024 at h2
  change round (u32 (lpiMinIrq + s.numLpis) / 8) 1024 < u32 (lpiMinIrq + s.numLpis) / 8 + 1024 at h3
  unfold lpiPendingSize
  omega

/-- The tables are sized by the number of vectors, so they cover every registered vector
exactly when the ranges leave no gap and the pending table loses no bits to its division. -/
theorem lpi_tables_cover_iff {gicdTyper : Nat} {s : LpiState} (run : LpiRun gicdTyper s) :
    (∀ e ∈ s.entries, ∀ level < e.numVectors, s.Covers (e.vectorBase + level)) ↔
      GapFree lpiMinIrq s.entries ∧ lpiMinIrq + lpiTotal s.entries < 2 ^ 32 ∧
        (lpiTotal s.entries % 8192 = 0 ∨ 8 ≤ lpiTotal s.entries % 8192) := by
  have hinv := run.inv
  have hpend := lpiPendingSize_eq s
  have hmin : lpiMinIrq = 8192 := rfl
  constructor
  · intro h
    -- the last vector of a range
    have hlast : ∀ e ∈ s.entries, e.numVectors ≠ 0 →
        e.vectorBase + e.numVectors ≤ lpiMinIrq + s.numLpis ∧ lpiMinIrq + s.numLpis < 2 ^ 32 ∧
          e.vectorBase + e.numVectors ≤ 8 * lpiPendingSize s := fun e he hn => by
      have hc := h e he (e.numVectors - 1) (by omega)
      have h1 := hc.config
      have h2 := hc.pending
      have h3 := hinv.min e he
      have h4 := hinv.numLpis
      rw [lpiConfigSize] at h1
      rw [hmin] at h1 h3 hpend ⊢
      unfold u32 at h4 hpend
      omega
    have hasc : Ascending s.entries := hinv.order.imp_of_mem fun {e e'} he he' hlt hn hn' => by
      have h1 := hlast e he hn
      rw [LpiEntry.last, u32_of_lt (by omega), sub32_of_le (by omega) (by omega)] at hlt
      omega
    have hnum : s.numLpis ≤ lpiTotal s.entries := by
      rw [hinv.numLpis]
      exact Nat.mod_le _ _
    have hgap := hasc.gapFree (b := lpiMinIrq) (fun e he _ => hinv.min e he) fun e he hn =>
      (hlast e he hn).1.trans (Nat.add_le_add_left hnum _)
    by_cases htotal : lpiTotal s.entries = 0
    · rw [htotal]
      exact ⟨hgap, by decide, .inl rfl⟩
    · obtain ⟨e, he, hn, hreach⟩ := hasc.reach (b := lpiMinIrq) (fun e he _ => hinv.min e he) htotal
      have hl := hlast e he hn
      have heq : s.numLpis = lpiTotal s.entries := by omega
      rw [heq, hmin] at hpend
      rw [heq, hmin] at hl
      rw [u32_of_lt hl.2.1] at hpend
      exact ⟨hgap, hl.2.1, by omega⟩
  · rintro ⟨hgap, hlt, hmod⟩ e he level hlevel
    have heq : s.numLpis = lpiTotal s.entries := by
      rw [hinv.numLpis, u32_of_lt (by omega)]
    obtain ⟨hlo, hhi⟩ := hgap.range he (by omega)
    rw [heq, u32_of_lt hlt, hmin] at hpend
    rw [hmin] at hlo hhi
    have hcount : lpiTotal s.entries + lpiMinIrq ≤ 2 ^ (14 + 18) := by
      rw [Nat.add_comm]
      exact hlt.le
    have hbits := le_two_pow_countBits hcount
    refine ⟨by omega, ?_, by omega, ?_⟩
    · rw [lpiConfigSize, heq]
      omega
    · rw [propbaserIdBits, heq, u32_of_lt (by omega), Nat.sub_add_cancel (by omega)]
      omega

def exampleTyper : Nat := 2 ^ 17 + 15 * 2 ^ 19

theorem lpi_tables_cover_example :
    ∃ s, LpiRun exampleTyper s ∧ lpiTotal s.entries = 48 ∧
      ((∀ e ∈ s.entries, ∀ level < e.numVectors, s.Covers (e.vectorBase + level)) ↔
        GapFree lpiMinIrq s.entries ∧ lpiMinIrq + lpiTotal s.entries < 2 ^ 32 ∧
          (lpiTotal s.entries % 8192 = 0 ∨ 8 ≤ lpiTotal s.entries % 8192)) := by
  have first : LpiRun exampleTyper ⟨[⟨8192, 16⟩], 16⟩ :=
    LpiRun.init.add (e := ⟨8192, 16⟩) (by decide) (by decide) (by decide)
  have run : LpiRun exampleTyper ⟨[⟨8192, 16⟩, ⟨8208, 32⟩], 48⟩ :=
    first.add (e := ⟨8208, 32⟩) (by decide) (by decide) (by decide)
  exact ⟨_, run, by decide, lpi_tables_cover_iff run⟩

/-- One range that does not begin at the first vector. -/
theorem lpi_range_uncovered :
    ∃ s, LpiRun exampleTyper s ∧ ¬ ∀ e ∈ s.entries, ∀ level < e.numVectors,
      s.Covers (e.vectorBase + level) := by
  have run : LpiRun exampleTyper ⟨[⟨8256, 16⟩], 16⟩ :=
    LpiRun.init.add (e := ⟨8256, 16⟩) (by decide) (by decide) (by decide)
  refine ⟨_, run, fun h => ?_⟩
  have hc := (h ⟨8256, 16⟩ (by simp) 0 (by decide)).config
  exact absurd hc (by decide)

end QnxStartup
