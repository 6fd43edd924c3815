import QnxStartup.PageWalk

/-! The loops of `aarch64_map`: which entries they write, and with what. -/

namespace QnxStartup

theorem or_and_mask {k x y : Nat} : (x ||| y) &&& (2 ^ k - 1) = 0 ↔ 2 ^ k ∣ x ∧ 2 ^ k ∣ y := by
  rw [Nat.and_two_pow_sub_one_eq_mod, Nat.or_mod_two_pow, Nat.or_eq_zero_iff,
    Nat.dvd_iff_mod_eq_zero, Nat.dvd_iff_mod_eq_zero]

variable [MmuHeader]
open MmuHeader

/-- Where the addresses of a tree begin. -/
def vaBase (b : Bool) : Nat := if b then 2 ^ 64 - 2 ^ (if useLargePage then 42 else 39) else 0

def pageVa (b : Bool) (p : Nat) : Nat := vaBase b + p * pagesz

theorem truncpg_eq {x : Nat} (hx : x < 2 ^ 64) : truncpg x = x / pagesz * pagesz := by
  rcases page_cases with ⟨-, hp, -⟩ | ⟨-, hp, -⟩ <;> rw [truncpg, hp] <;>
    exact trunc_two_pow (by decide) hx

/-- When the contiguous path is taken: an aligned group of pages, all of them to be
mapped, onto an aligned range of memory. -/
theorem useContig_iff {b : Bool} {p e pa a : Nat} (ha : IsAttr a) (hd : pagesz ∣ pa)
    (hlt : pa < 2 ^ 48) (hpe : p ≤ e) (he : pageVa b e < 2 ^ 64) :
    useContig (pageVa b p) (truncpg (pa + a)) (sub64 (pageVa b e) (pageVa b p))
      (contigPages * pagesz) = true ↔
      contigPages ∣ p ∧ p + contigPages ≤ e ∧ contigPages * pagesz ∣ pa := by
  have hle : pageVa b p ≤ pageVa b e := Nat.add_le_add_left (Nat.mul_le_mul_right _ hpe) _
  rw [sub64_of_le he hle, truncpg_eq (ha.paddr_add_lt hd hlt), useContig, decide_eq_true_eq]
  have hlow := ha.low
  simp only [pageVa, vaBase] at he hle ⊢
  rcases page_cases with ⟨hl, hp, -, hc⟩ | ⟨hl, hp, -, hc⟩
  · rw [hp] at hd
    rw [hl, hp] at he
    rw [hl, hp, hc, show 16 * 2 ^ 12 = 2 ^ 16 from rfl, or_and_mask]
    cases b <;> simp only [Bool.false_eq_true, if_true, if_false] at he ⊢ <;> omega
  · rw [hp] at hd
    rw [hl, hp] at he
    rw [hl, hp, hc, show 32 * 2 ^ 16 = 2 ^ 21 from rfl, or_and_mask]
    cases b <;> simp only [Bool.false_eq_true, if_true, if_false] at he ⊢ <;> omega

def groupStart (p : Nat) : Nat := p / contigPages * contigPages

/-- Mapping the pages from `first` to `stop` onto `pa` covers the whole group of `p`, and puts it
onto an aligned range. -/
def Grouped (first stop pa p : Nat) : Prop :=
  first ≤ groupStart p ∧ groupStart p + contigPages ≤ stop ∧
    contigPages * pagesz ∣ pa + (groupStart p - first) * pagesz

instance (first stop pa p : Nat) : Decidable (Grouped first stop pa p) :=
  inferInstanceAs (Decidable (_ ∧ _ ∧ _))

/-- The entry for page `p` when the pages from `first` to `stop` are mapped onto `pa` with
the attributes `a`. -/
def mappedPte (a first stop pa p : Nat) : Nat :=
  pa + (p - first) * pagesz + a + if Grouped first stop pa p then pteContig else 0

theorem mappedPte_congr {a first stop pa first' pa' p : Nat}
    (hp : pa + (p - first) * pagesz = pa' + (p - first') * pagesz)
    (hg : Grouped first stop pa p ↔ Grouped first' stop pa' p) :
    mappedPte a first stop pa p = mappedPte a first' stop pa' p := by
  simp only [mappedPte, hp, hg]

theorem mappedPte_from_group {a first next stop pa p : Nat} (hle : first ≤ next) (hp : next ≤ p)
    (hd : contigPages ∣ next) :
    mappedPte a next stop (pa + (next - first) * pagesz) p = mappedPte a first stop pa p := by
  obtain ⟨q, rfl⟩ := hd
  refine mappedPte_congr ?_ ?_
  · rcases page_cases with ⟨-, hpg, -, hc⟩ | ⟨-, hpg, -, hc⟩ <;> rw [hpg] <;>
      rw [hc] at hle hp ⊢ <;> omega
  · unfold Grouped groupStart
    rcases page_cases with ⟨-, hpg, -, hc⟩ | ⟨-, hpg, -, hc⟩ <;> rw [hpg] <;>
      rw [hc] at hle hp ⊢ <;> omega

theorem mappedPte_from_page {a first stop pa p : Nat} (hp : first < p)
    (hn : ¬ (contigPages ∣ first ∧ first + contigPages ≤ stop ∧ contigPages * pagesz ∣ pa)) :
    mappedPte a (first + 1) stop (pa + pagesz) p = mappedPte a first stop pa p := by
  refine mappedPte_congr ?_ ?_
  · rcases page_cases with ⟨-, hpg, -⟩ | ⟨-, hpg, -⟩ <;> rw [hpg] <;> omega
  · unfold Grouped groupStart
    rcases page_cases with ⟨-, hpg, -, hc⟩ | ⟨-, hpg, -, hc⟩ <;> rw [hpg, hc] at hn ⊢ <;> omega

theorem writePtes_eq (l3 : Nat) : ∀ n i c, c.pte < 2 ^ 64 → c.va + n * pagesz < 2 ^ 64 →
    ∃ m, writePtes l3 n i c = (i + n,
      ⟨c.va + n * pagesz, u64 (c.pte + n * pagesz), c.s.withMem m⟩) ∧
      (∀ x, ¬ (l3 + 8 * i ≤ x ∧ x < l3 + 8 * (i + n)) → m x = c.s.ram.mem x) ∧
      ∀ k < n, readPtr m (l3 + 8 * (i + k)) = u64 (c.pte + k * pagesz) := by
  intro n
  induction n with
  | zero =>
    intro i c hpte _
    refine ⟨c.s.ram.mem, ?_, fun _ _ => rfl, fun k hk => absurd hk (Nat.not_lt_zero k)⟩
    simp only [writePtes, Nat.zero_mul, Nat.add_zero, u64_of_lt hpte]
    rfl
  | succ n ih =>
    intro i c hpte hva
    have hva1 : c.va + pagesz + n * pagesz < 2 ^ 64 := by rw [Nat.add_mul] at hva; omega
    have hu : u64 (c.va + pagesz) = c.va + pagesz := u64_of_lt (by omega)
    obtain ⟨m, heq, hout, hin⟩ := ih (i + 1) ⟨u64 (c.va + pagesz), u64 (c.pte + pagesz),
      c.s.setEntry l3 i c.pte⟩
      (u64_lt _) (by rw [hu]; exact hva1)
    refine ⟨m, ?_, fun x hx => ?_, fun k hk => ?_⟩
    · rw [writePtes, heq, hu, u64_add_left]
      simp only [Nat.add_mul, Nat.one_mul]
      rw [show i + 1 + n = i + (n + 1) by omega, show c.va + pagesz + n * pagesz =
        c.va + (n * pagesz + pagesz) by omega,
        show c.pte + pagesz + n * pagesz = c.pte + (n * pagesz + pagesz) by omega]
      rfl
    · rw [hout x (by omega)]
      exact writePtr_of_not_mem (by omega)
    · cases k with
      | zero =>
        have hsame : ∀ o < 8, m (l3 + 8 * i + o) = writePtr c.s.ram.mem (l3 + 8 * i) c.pte
            (l3 + 8 * i + o) :=
          fun o ho => hout _ (by omega)
        rw [Nat.add_zero, Nat.zero_mul, Nat.add_zero, readPtr_congr hsame,
          readPtr_writePtr_self _ _ hpte, u64_of_lt hpte]
      | succ k =>
        rw [show i + (k + 1) = i + 1 + k by omega, hin k (by omega), u64_add_left]
        congr 1
        rw [Nat.add_mul, Nat.one_mul]
        omega

theorem pageVa_add (b : Bool) (p n : Nat) : pageVa b (p + n) = pageVa b p + n * pagesz := by
  rw [pageVa, pageVa, Nat.add_mul, Nat.add_assoc]

theorem pageVa_le {b : Bool} {p e : Nat} (h : p ≤ e) : pageVa b p ≤ pageVa b e :=
  Nat.add_le_add_left (Nat.mul_le_mul_right _ h) _

theorem pageVa_lt_iff {b : Bool} {p e : Nat} : pageVa b p < pageVa b e ↔ p < e := by
  have hpos : 0 < pagesz := by
    have := npte_pos
    rw [← eight_mul_npte]
    omega
  rw [pageVa, pageVa, Nat.add_lt_add_iff_left, Nat.mul_lt_mul_right hpos]

theorem grouped_first {first stop pa : Nat}
    (h : contigPages ∣ first ∧ first + contigPages ≤ stop ∧ contigPages * pagesz ∣ pa) {k : Nat}
    (hk : k < contigPages) : Grouped first stop pa (first + k) := by
  obtain ⟨⟨q, rfl⟩, hle, hd⟩ := h
  unfold Grouped groupStart
  rcases page_cases with ⟨-, hpg, -, hc⟩ | ⟨-, hpg, -, hc⟩ <;> rw [hpg] at hd ⊢ <;>
    rw [hc] at hle hd hk ⊢ <;> omega

theorem not_grouped_first {first stop pa : Nat}
    (h : ¬ (contigPages ∣ first ∧ first + contigPages ≤ stop ∧ contigPages * pagesz ∣ pa)) :
    ¬ Grouped first stop pa first := by
  unfold Grouped groupStart
  rcases page_cases with ⟨-, hpg, -, hc⟩ | ⟨-, hpg, -, hc⟩ <;> rw [hpg] at h ⊢ <;>
    rw [hc] at h ⊢ <;> omega

/-- One turn of the loop over an `L3` table: `n` pages are mapped. -/
structure L3Turn (b : Bool) (a l3 first stop pa i : Nat) (c : MapCursor) (n : Nat) (m : Mem)
    (pte : Nat) : Prop where
  pos : 0 < n
  index : i + n ≤ npte
  pages : first + n ≤ stop
  pte : first + n < stop → pte = pa + n * pagesz + a
  frame : ∀ x, ¬ (l3 + 8 * i ≤ x ∧ x < l3 + 8 * (i + n)) → m x = c.s.ram.mem x
  entries : ∀ k < n, readPtr m (l3 + 8 * (i + k)) = mappedPte a first stop pa (first + k)
  later : ∀ p, first + n ≤ p → mappedPte a (first + n) stop (pa + n * pagesz) p =
    mappedPte a first stop pa p

section
variable {b : Bool} {a base first stop pa i : Nat} {c : MapCursor}

theorem page_below (hpa : pa + (stop - first) * pagesz ≤ 2 ^ 48) {k : Nat} (hk : first + k < stop) :
    pa + k * pagesz < 2 ^ 48 := by
  have hpos := npte_pos
  have hmul : (k + 1) * pagesz ≤ (stop - first) * pagesz := Nat.mul_le_mul_right _ (by omega)
  rw [Nat.add_mul, ← eight_mul_npte] at hmul
  rw [← eight_mul_npte] at hpa ⊢
  omega

/-- At the start of a group that is mapped as a whole the loop writes all its entries. -/
theorem mapL3_group (l3 fuel : Nat) (ha : IsAttr a) (hstop : pageVa b stop < 2 ^ 64)
    (hbase : npte ∣ base) (hva : c.va = pageVa b first) (hfirst : first = base + i) (hi : i < npte)
    (hlt : first < stop) (hd : pagesz ∣ pa) (hpa : pa + (stop - first) * pagesz ≤ 2 ^ 48)
    (hpte : c.pte = pa + a)
    (hg : contigPages ∣ first ∧ first + contigPages ≤ stop ∧ contigPages * pagesz ∣ pa) :
    ∃ m pte, L3Turn b a l3 first stop pa i c contigPages m pte ∧
      mapL3 l3 (pageVa b stop) (fuel + 1) i c = mapL3 l3 (pageVa b stop) fuel (i + contigPages)
        ⟨pageVa b (first + contigPages), pte, c.s.withMem m⟩ := by
  have hlt0 : pa < 2 ^ 48 := by simpa using page_below hpa (k := 0) hlt
  have hdk : ∀ k, pagesz ∣ pa + k * pagesz := fun k => Nat.dvd_add hd (Dvd.intro_left k rfl)
  have hgroup : contigPages ∣ npte := by
    rcases page_cases with ⟨-, -, hn, hc⟩ | ⟨-, -, hn, hc⟩ <;> rw [hn, hc] <;> decide
  have hroom := ha.contig_room hd hlt0
  have hva' : c.va + contigPages * pagesz < 2 ^ 64 := by
    rw [hva, ← pageVa_add]
    exact (pageVa_le hg.2.1).trans_lt hstop
  obtain ⟨m, heq, hframe, hin⟩ :=
    writePtes_eq l3 contigPages i { c with pte := pa + a + pteContig } hroom.2 hva'
  refine ⟨m, u64 (pa + a + pteContig + contigPages * pagesz) &&& compl64 pteContig,
    ⟨?_, ?_, hg.2.1, fun hnext => ?_, hframe, fun k hk => ?_, fun p hp => ?_⟩, ?_⟩
  · rcases page_cases with ⟨-, -, -, hc⟩ | ⟨-, -, -, hc⟩ <;> rw [hc] <;> decide
  · have hdi : contigPages ∣ i := (Nat.dvd_add_right (hgroup.trans hbase)).mp (hfirst ▸ hg.1)
    rcases page_cases with ⟨-, -, hn, hc⟩ | ⟨-, -, hn, hc⟩ <;> rw [hc] at hdi ⊢ <;>
      rw [hn] at hi ⊢ <;> omega
  · have hr := ha.contig_room (hdk contigPages) (page_below hpa hnext)
    rw [show pa + a + pteContig + contigPages * pagesz = pa + contigPages * pagesz +
      a + pteContig by omega, u64_of_lt hr.2, and_compl64_pteContig hr.1 hr.2]
  · have hr := ha.contig_room (hdk k) (page_below hpa (k := k) (by omega))
    rw [hin k hk, mappedPte, if_pos (grouped_first hg hk), Nat.add_sub_cancel_left,
      show pa + a + pteContig + k * pagesz = pa + k * pagesz + a + pteContig by
        omega, u64_of_lt hr.2]
  · have hgroup : mappedPte a (first + contigPages) stop (pa + (first + contigPages - first) *
        pagesz) p = _ :=
      mappedPte_from_group (Nat.le_add_right first contigPages) hp (Nat.dvd_add hg.1 dvd_rfl)
    rwa [Nat.add_sub_cancel_left] at hgroup
  · rw [mapL3, if_pos ⟨hi, hva ▸ pageVa_lt_iff.mpr hlt⟩]
    simp only [hva, hpte, (useContig_iff (b := b) ha hd hlt0 hlt.le hstop).mpr hg, if_true,
      or_pteContig hroom.1]
    rw [← hva, heq]
    simp only [pageVa_add, hva]

/-- Elsewhere it writes one entry. -/
theorem mapL3_page (l3 fuel : Nat) (ha : IsAttr a) (hstop : pageVa b stop < 2 ^ 64)
    (hva : c.va = pageVa b first) (hi : i < npte) (hlt : first < stop) (hd : pagesz ∣ pa)
    (hpa : pa + (stop - first) * pagesz ≤ 2 ^ 48) (hpte : c.pte = pa + a)
    (hg : ¬ (contigPages ∣ first ∧ first + contigPages ≤ stop ∧ contigPages * pagesz ∣ pa)) :
    ∃ m pte, L3Turn b a l3 first stop pa i c 1 m pte ∧
      mapL3 l3 (pageVa b stop) (fuel + 1) i c = mapL3 l3 (pageVa b stop) fuel (i + 1)
        ⟨pageVa b (first + 1), pte, c.s.withMem m⟩ := by
  have hlt0 : pa < 2 ^ 48 := by simpa using page_below hpa (k := 0) hlt
  have hd1 : pagesz ∣ pa + 1 * pagesz := Nat.dvd_add hd (Dvd.intro_left 1 rfl)
  have hfalse : useContig (pageVa b first) (truncpg (pa + a))
      (sub64 (pageVa b stop) (pageVa b first))
      (contigPages * pagesz) = false := by
    rw [← Bool.not_eq_true, useContig_iff (b := b) ha hd hlt0 hlt.le hstop]
    exact hg
  have hone : ¬ 1 = contigPages := by
    rcases page_cases with ⟨-, -, -, hc⟩ | ⟨-, -, -, hc⟩ <;> rw [hc] <;> decide
  have hva' : c.va + 1 * pagesz < 2 ^ 64 := by
    rw [hva, ← pageVa_add]
    exact (pageVa_le (by omega)).trans_lt hstop
  obtain ⟨m, heq, hframe, hin⟩ := writePtes_eq l3 1 i { c with pte := pa + a }
    (ha.paddr_add_lt hd hlt0) hva'
  refine ⟨m, u64 (pa + a + 1 * pagesz),
    ⟨Nat.one_pos, hi, hlt, fun hnext => ?_, hframe, fun k hk => ?_, fun p hp => ?_⟩, ?_⟩
  · rw [show pa + a + 1 * pagesz = pa + 1 * pagesz + a by
      omega, u64_of_lt (ha.paddr_add_lt hd1 (page_below hpa hnext))]
  · obtain rfl : k = 0 := by omega
    rw [hin 0 hk, mappedPte, Nat.add_zero, if_neg (not_grouped_first hg), Nat.sub_self,
      Nat.zero_mul, Nat.add_zero, Nat.add_zero, u64_of_lt (ha.paddr_add_lt hd hlt0), Nat.add_zero]
  · have := mappedPte_from_page (a := a) (p := p) (by omega) hg
    rwa [Nat.one_mul]
  · rw [mapL3, if_pos ⟨hi, hva ▸ pageVa_lt_iff.mpr hlt⟩]
    simp only [hva, hpte, hfalse, Bool.false_eq_true, if_false, if_neg hone]
    rw [← hva, heq]
    simp only [pageVa_add, hva]

theorem mapL3_turn (l3 fuel : Nat) (ha : IsAttr a) (hstop : pageVa b stop < 2 ^ 64)
    (hbase : npte ∣ base) (hva : c.va = pageVa b first) (hfirst : first = base + i) (hi : i < npte)
    (hlt : first < stop) (hd : pagesz ∣ pa) (hpa : pa + (stop - first) * pagesz ≤ 2 ^ 48)
    (hpte : c.pte = pa + a) :
    ∃ n m pte, L3Turn b a l3 first stop pa i c n m pte ∧
      mapL3 l3 (pageVa b stop) (fuel + 1) i c =
        mapL3 l3 (pageVa b stop) fuel (i + n) ⟨pageVa b (first + n), pte, c.s.withMem m⟩ := by
  by_cases hg : contigPages ∣ first ∧ first + contigPages ≤ stop ∧ contigPages * pagesz ∣ pa
  · exact ⟨contigPages, mapL3_group l3 fuel ha hstop hbase hva hfirst hi hlt hd hpa hpte hg⟩
  · exact ⟨1, mapL3_page l3 fuel ha hstop hva hi hlt hd hpa hpte hg⟩

end

/-- From `c` to `c'` the pages from `first` on were mapped, up to `stop` or to the end of
the `L3` table whose first page is `base`. -/
structure L3Mapped (b : Bool) (a l3 base first stop pa : Nat) (c c' : MapCursor) : Prop where
  va : c'.va = pageVa b (min stop (base + npte))
  pte : base + npte < stop → c'.pte = pa + (base + npte - first) * pagesz + a
  state : c'.s = c.s.withMem c'.s.ram.mem
  frame : ∀ x, ¬ (l3 + 8 * (first - base) ≤ x ∧ x < l3 + 8 * npte) → c'.s.ram.mem x = c.s.ram.mem x
  entries : ∀ p, first ≤ p → p < base + npte →
    c'.s.entry l3 (p - base) = if p < stop then mappedPte a first stop pa p
    else c.s.entry l3 (p - base)

theorem l3Mapped_done {b : Bool} {a l3 base first stop pa : Nat} {c : MapCursor}
    (hva : c.va = pageVa b first) (hpte : first < stop → c.pte = pa + a) (hle : first ≤ stop)
    (hin : first ≤ base + npte) (hend : ¬ (first < base + npte ∧ first < stop)) :
    L3Mapped b a l3 base first stop pa c c where
  va := by rw [hva, show min stop (base + npte) = first by omega]
  pte := fun h => by rw [hpte (by omega), show base + npte - first = 0 by omega, Nat.zero_mul,
    Nat.add_zero]
  state := rfl
  frame := fun _ _ => rfl
  entries := fun p h1 h2 => (if_neg (by omega)).symm

theorem L3Turn.mapped {b : Bool} {a l3 base first stop pa i n pte : Nat} {c c' : MapCursor}
    {m : Mem} (ht : L3Turn b a l3 first stop pa i c n m pte) (hfirst : first = base + i)
    (h : L3Mapped b a l3 base (first + n) stop (pa + n * pagesz) ⟨pageVa b (first + n),
      pte, c.s.withMem m⟩ c') :
    L3Mapped b a l3 base first stop pa c c' where
  va := h.va
  pte := fun hlt => by
    have hindex := ht.index
    rw [h.pte hlt, show base + npte - first = n + (base + npte - (first + n)) by omega, Nat.add_mul]
    omega
  state := h.state
  frame := fun x hx => by
    have hindex := ht.index
    rw [h.frame x (by omega)]
    exact ht.frame x (by omega)
  entries := fun p h1 h2 => by
    have hindex := ht.index
    have hpages := ht.pages
    by_cases hnext : first + n ≤ p
    · rw [h.entries p hnext h2, ht.later p hnext]
      split
      · rfl
      · exact MapState.entry_eq fun o ho => ht.frame _ (by omega)
    · obtain ⟨k, rfl⟩ : ∃ k, p = first + k := ⟨p - first, by omega⟩
      rw [if_pos (by omega), ← ht.entries k (by omega), show first + k - base = i + k by omega]
      exact readPtr_congr fun o ho => h.frame _ (by omega)

theorem mapL3_spec {b : Bool} {a l3 base stop : Nat} (ha : IsAttr a)
    (hstop : pageVa b stop < 2 ^ 64) (hbase : npte ∣ base) :
    ∀ fuel i first pa c, c.va = pageVa b first → first = base + i → i ≤ npte →
    npte ≤ i + fuel → first ≤ stop → pagesz ∣ pa → pa + (stop - first) * pagesz ≤ 2 ^ 48 →
    (first < stop → c.pte = pa + a) →
    L3Mapped b a l3 base first stop pa c (mapL3 l3 (pageVa b stop) fuel i c) := by
  intro fuel
  induction fuel with
  | zero =>
    intro i first pa c hva hfirst hi hfuel hle hd hpa hpte
    exact l3Mapped_done hva hpte hle (by omega) (by omega)
  | succ fuel ih =>
    intro i first pa c hva hfirst hi hfuel hle hd hpa hpte
    by_cases hcond : i < npte ∧ first < stop
    · obtain ⟨n, m, pte, ht, heq⟩ :=
        mapL3_turn l3 fuel ha hstop hbase hva hfirst hcond.1 hcond.2 hd hpa (hpte hcond.2)
      have hpos := ht.pos
      have hpages := ht.pages
      have hmul : (stop - first) * pagesz = n * pagesz + (stop - (first + n)) * pagesz := by
        rw [← Nat.add_mul]
        congr 1
        omega
      rw [heq]
      exact ht.mapped hfirst (ih (i + n) (first + n) (pa + n * pagesz) _ rfl (by omega) ht.index
        (by omega) ht.pages
        (Nat.dvd_add hd (Dvd.intro_left n rfl)) (by omega) ht.pte)
    · rw [mapL3, if_neg (by rwa [hva, pageVa_lt_iff])]
      exact l3Mapped_done hva hpte hle (by omega) (by omega)

end QnxStartup
