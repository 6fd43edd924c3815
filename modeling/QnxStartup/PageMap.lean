import QnxStartup.MapLoop

/-! The walk down the tables and the loops over them, seen as an update of the map from
pages to `L3` entries. -/

namespace QnxStartup

theorem sub_mul_split {first mid stop : Nat} (h1 : first ≤ mid) (h2 : mid ≤ stop) (k : Nat) :
    (stop - first) * k = (mid - first) * k + (stop - mid) * k := by
  rw [← Nat.add_mul, show mid - first + (stop - mid) = stop - first by omega]

variable [MmuHeader]
open MmuHeader

def pageCount : Nat := if useLargePage then 2 ^ 26 else 2 ^ 27

theorem page_geometry :
    useLargePage = false ∧ pagesz = 2 ^ 12 ∧ npte = 512 ∧ pageCount = 2 ^ 27 ∧
      (∀ b, vaBase b = if b then 2 ^ 64 - 2 ^ 39 else 0) ∨
      useLargePage = true ∧ pagesz = 2 ^ 16 ∧ npte = 8192 ∧ pageCount = 2 ^ 26 ∧
        ∀ b, vaBase b = if b then 2 ^ 64 - 2 ^ 42 else 0 := by
  rcases page_cases with ⟨hl, hp, hn, -⟩ | ⟨hl, hp, hn, -⟩
  · exact .inl ⟨hl, hp, hn, by simp [pageCount, hl], fun b => by simp [vaBase, hl]⟩
  · exact .inr ⟨hl, hp, hn, by simp [pageCount, hl], fun b => by simp [vaBase, hl]⟩

theorem l3_index {b : Bool} {p o : Nat} (ho : o < pagesz) :
    (if useLargePage then l3Idx64K (pageVa b p + o) else l3Idx (pageVa b p + o)) = p % npte := by
  unfold pageVa l3Idx64K l3Idx
  rw [Nat.shiftRight_eq_div_pow, Nat.shiftRight_eq_div_pow, show 511 = 2 ^ 9 - 1 from rfl,
    show 8191 = 2 ^ 13 - 1 from rfl, Nat.and_two_pow_sub_one_eq_mod, Nat.and_two_pow_sub_one_eq_mod]
  rcases page_geometry with ⟨hl, hpg, hn, -, hb⟩ | ⟨hl, hpg, hn, -, hb⟩ <;> rw [hpg] at ho <;>
    rw [hl, hpg, hn, hb] <;> cases b <;> simp only [Bool.false_eq_true, if_true, if_false] <;> omega

theorem l2_index {b : Bool} {p o : Nat} (ho : o < pagesz) :
    (if useLargePage then l2Idx64K (pageVa b p + o) else l2Idx (pageVa b p + o)) =
      p / npte % npte := by
  unfold pageVa l2Idx64K l2Idx
  rw [Nat.shiftRight_eq_div_pow, Nat.shiftRight_eq_div_pow, show 511 = 2 ^ 9 - 1 from rfl,
    show 8191 = 2 ^ 13 - 1 from rfl, Nat.and_two_pow_sub_one_eq_mod, Nat.and_two_pow_sub_one_eq_mod]
  rcases page_geometry with ⟨hl, hpg, hn, -, hb⟩ | ⟨hl, hpg, hn, -, hb⟩ <;> rw [hpg] at ho <;>
    rw [hl, hpg, hn, hb] <;> cases b <;> simp only [Bool.false_eq_true, if_true, if_false] <;> omega

theorem l1_index {b : Bool} {p o : Nat} (hl : useLargePage = false) (hp : p < pageCount)
    (ho : o < pagesz) :
    l1Idx (pageVa b p + o) = p / npte / npte := by
  unfold pageVa l1Idx
  rw [Nat.shiftRight_eq_div_pow, show 511 = 2 ^ 9 - 1 from rfl, Nat.and_two_pow_sub_one_eq_mod]
  rcases page_geometry with ⟨-, hpg, hn, hc, hb⟩ | ⟨hl', -⟩
  · rw [hpg] at ho
    rw [hc] at hp
    rw [hpg, hn, hb]
    cases b <;> simp only [Bool.false_eq_true, if_true, if_false] <;> omega
  · rw [hl] at hl'
    cases hl'

/-- From `c` to `c'` the pages from `first` on were mapped, up to `stop` or to `lim`. -/
structure RangeMapped (b : Bool) (a first stop pa lim : Nat) (c c' : MapCursor)
    (f f' : FreeList) : Prop where
  tables : c'.s.Tables f'
  grows : Grows c.s c'.s f f'
  kept : ∀ k q t, Place k q → c.s.forest.table k q = some t → c'.s.forest.table k q = some t
  va : c'.va = pageVa b (min stop lim)
  pte : lim < stop → c'.pte = pa + (lim - first) * pagesz + a
  leaves : ∀ k p, Place k (leafPath (p / npte)) →
    c'.s.leaf k p = if k = b ∧ first ≤ p ∧ p < stop ∧ p < lim then mappedPte a first stop pa p
    else c.s.leaf k p

theorem rangeMapped_done {b : Bool} {a first stop pa lim : Nat} {c : MapCursor} {f : FreeList}
    (hs : c.s.Tables f) (hva : c.va = pageVa b first) (hpte : first < stop → c.pte = pa + a)
    (hle : first ≤ stop) (hlim : first ≤ lim) (hend : ¬ (first < lim ∧ first < stop)) :
    RangeMapped b a first stop pa lim c c f f where
  tables := hs
  grows := .refl _ _
  kept := fun _ _ _ _ h => h
  va := by rw [hva, show min stop lim = first by omega]
  pte := fun h => by rw [hpte (by omega), show lim - first = 0 by omega, Nat.zero_mul, Nat.add_zero]
  leaves := fun k p _ => (if_neg (by omega)).symm

theorem RangeMapped.widen {b : Bool} {a first stop pa mid lim : Nat} {c c' : MapCursor}
    {f f' : FreeList} (h : RangeMapped b a first stop pa mid c c' f f') (hend : stop ≤ mid)
    (hle : mid ≤ lim) :
    RangeMapped b a first stop pa lim c c' f f' where
  tables := h.tables
  grows := h.grows
  kept := h.kept
  va := by rw [h.va, show min stop mid = min stop lim by omega]
  pte := fun hlt => by omega
  leaves := fun k p hp => by
    rw [h.leaves k p hp]
    have hiff : (k = b ∧ first ≤ p ∧ p < stop ∧ p < mid) ↔
        (k = b ∧ first ≤ p ∧ p < stop ∧ p < lim) :=
      and_congr_right fun _ => by omega
    simp only [hiff]

theorem RangeMapped.trans {b : Bool} {a first stop pa mid lim : Nat} {c c' c'' : MapCursor}
    {f f' f'' : FreeList} (h : RangeMapped b a first stop pa mid c c' f f')
    (h' : RangeMapped b a mid stop (pa + (mid - first) * pagesz) lim c' c'' f' f'')
    (hfirst : first ≤ mid) (hlim : mid ≤ lim) (hd : contigPages ∣ mid) :
    RangeMapped b a first stop pa lim c c'' f f'' where
  tables := h'.tables
  grows := h.grows.trans h'.grows
  kept := fun k q t hq ht => h'.kept k q t hq (h.kept k q t hq ht)
  va := h'.va
  pte := fun hlt => by
    rw [h'.pte hlt, show lim - first = (mid - first) + (lim - mid) by omega, Nat.add_mul]
    omega
  leaves := fun k p hp => by
    rw [h'.leaves k p hp, h.leaves k p hp]
    by_cases hk : k = b
    · simp only [hk, true_and]
      by_cases hge : mid ≤ p
      · rw [mappedPte_from_group hfirst hge hd]
        split_ifs <;> omega
      · split_ifs <;> omega
    · simp only [hk, false_and, if_false]

theorem contigPages_dvd_npte : contigPages ∣ npte := by
  rcases page_cases with ⟨-, -, hn, hc⟩ | ⟨-, -, hn, hc⟩ <;> rw [hn, hc] <;> decide

/-- The descriptor of a page after the loop over the `L3` table that it is in. -/
theorem L3Mapped.leaf {b : Bool} {a first stop pa t n p : Nat} {c c' : MapCursor}
    (h : L3Mapped b a t (n * npte) first stop pa c c')
    (ht : c.s.forest.table b (leafPath n) = some t) (hn : first / npte = n) (hp : p / npte = n) :
    c'.s.entry t (p % npte) =
      if first ≤ p ∧ p < stop ∧ p < n * npte + npte then mappedPte a first stop pa p
      else c.s.leaf b p := by
  have hmod := Nat.mod_lt p npte_pos
  have hpd := Nat.div_add_mod p npte
  have hfd := Nat.div_add_mod first npte
  rw [hp, Nat.mul_comm] at hpd
  rw [hn, Nat.mul_comm] at hfd
  have hold : c.s.leaf b p = c.s.entry t (p % npte) :=
    MapState.Tables.leaf_eq_entry (by rw [hp, ht])
  rw [hold]
  by_cases hge : first ≤ p
  · have he := h.entries p hge (by omega)
    rw [show p - n * npte = p % npte by omega] at he
    rw [he]
    split_ifs <;> omega
  · rw [if_neg (by omega)]
    exact MapState.entry_eq fun o ho => h.frame _ (by omega)

/-- The loop over the `L3` table of a run of pages, as an update of the page map. -/
theorem mapL3_range {b : Bool} {a first stop pa t n : Nat} {c : MapCursor} {f : FreeList}
    (ha : IsAttr a) (hs : c.s.Tables f) (hstop : pageVa b stop < 2 ^ 64)
    (hplace : Place b (leafPath n)) (ht : c.s.forest.table b (leafPath n) = some t)
    (hva : c.va = pageVa b first) (hn : first / npte = n) (hlt : first < stop) (hd : pagesz ∣ pa)
    (hpa : pa + (stop - first) * pagesz ≤ 2 ^ 48) (hpte : c.pte = pa + a) :
    RangeMapped b a first stop pa ((n + 1) * npte) c
      (mapL3 t (pageVa b stop) npte (if useLargePage then l3Idx64K c.va
        else l3Idx c.va) c) f f := by
  have hpos := npte_pos
  have hidx : (if useLargePage then l3Idx64K c.va else l3Idx c.va) = first % npte := by
    have := l3_index (b := b) (p := first) (o := 0) (by rw [← eight_mul_npte]; omega)
    rwa [Nat.add_zero, ← hva] at this
  have hsplit : first = n * npte + first % npte := by
    rw [← hn, Nat.mul_comm]
    exact (Nat.div_add_mod first npte).symm
  have hmod := Nat.mod_lt first hpos
  have hsucc : (n + 1) * npte = n * npte + npte := by rw [Nat.add_mul, Nat.one_mul]
  rw [hidx]
  have h : L3Mapped b a t (n * npte) first stop pa c (mapL3 t (pageVa b stop) npte
      (first % npte) c) :=
    mapL3_spec ha hstop (Nat.dvd_mul_left npte n) npte (first % npte) first pa c hva hsplit hmod.le
      (by omega) hlt.le hd
      hpa fun _ => hpte
  generalize mapL3 t (pageVa b stop) npte (first % npte) c = c' at h ⊢
  have hm : ∀ x ∉ bytes t pagesz, c'.s.ram.mem x = c.s.ram.mem x := fun x hx => by
    rw [mem_bytes, ← eight_mul_npte] at hx
    exact h.frame x (by omega)
  rw [hsucc]
  refine ⟨?_, ?_, ?_, h.va, h.pte, ?_⟩
  · rw [h.state]
    exact hs.withMem hplace ht hm
  · rw [h.state]
    exact hs.grows_withMem hplace ht hm
  · intro k q t' hq ht'
    rw [h.state, hs.table_withMem hplace ht hm hq, ht']
  · intro k p hp
    rw [h.state, hs.leaf_withMem hplace ht hm hp, ← h.state]
    by_cases hk : k = b ∧ p / npte = n
    · obtain ⟨rfl, hpn⟩ := hk
      rw [if_pos ⟨rfl, hpn⟩, h.leaf ht hn hpn]
      simp only [true_and]
    · rw [if_neg hk, if_neg]
      rintro ⟨rfl, h1, h2, h3⟩
      exact hk ⟨rfl, by rw [Nat.div_eq_iff hpos]; omega⟩

theorem div_npte_iff {p n : Nat} : p / npte = n ↔ n * npte ≤ p ∧ p < n * npte + npte := by
  rw [Nat.div_eq_iff npte_pos]
  have := npte_pos
  omega

/-- Behind the last entry of an `L2` table, or behind the last page, nothing is left to map. -/
theorem rangeMapped_end {b : Bool} {a first stop pa base i : Nat} {c : MapCursor} {f : FreeList}
    (hs : c.s.Tables f) (hva : c.va = pageVa b first) (hpte : first < stop → c.pte = pa + a)
    (hle : first ≤ stop) (hlim : first ≤ (base + npte) * npte)
    (hdiv : first < stop → first / npte = base + i) (hi : i ≤ npte)
    (hend : ¬ (i < npte ∧ first < stop)) :
    RangeMapped b a first stop pa ((base + npte) * npte) c c f f := by
  refine rangeMapped_done hs hva hpte hle hlim fun hc => ?_
  have hbehind := (div_npte_iff.mp (hdiv hc.2)).1
  rw [show i = npte by omega] at hbehind
  omega

theorem pageCount_eq : pageCount = if useLargePage then npte * npte else npte * npte * npte := by
  rcases page_geometry with ⟨hl, -, hn, hc, -⟩ | ⟨hl, -, hn, hc, -⟩ <;> rw [hl, hn, hc] <;> rfl

theorem leafPath_small (hl : useLargePage = false) (i : Nat) {j : Nat} (hj : j < npte) :
    leafPath (i * npte + j) = [i] ++ [j] := by
  simp only [leafPath, hl, Bool.false_eq_true, if_false, List.cons_append, List.nil_append,
    List.cons.injEq, and_true]
  rw [Nat.add_comm, Nat.add_mul_div_right _ _ npte_pos, Nat.div_eq_of_lt hj,
    Nat.add_mul_mod_self_right, Nat.mod_eq_of_lt hj, Nat.zero_add]
  exact ⟨rfl, rfl⟩

theorem l1_root (s : MapState) (b : Bool) :
    s.forest.table b [] = some (if b then s.l1Ttbr1 else s.l1Ttbr0) := rfl

section
variable [SyspageHeader]

theorem mapL2_stop {l2 stop fuel i : Nat} {c : MapCursor} (h : ¬ c.va < stop) :
    mapL2 l2 stop fuel i c = .ok c := by
  cases fuel with
  | zero => rfl
  | succ fuel => rw [mapL2, if_neg fun hc => h hc.2]

theorem mapL1_stop {l1 stop fuel i : Nat} {c : MapCursor} (h : ¬ c.va < stop) :
    mapL1 l1 stop fuel i c = .ok c := by
  cases fuel with
  | zero => rfl
  | succ fuel => rw [mapL1, if_neg fun hc => h hc.2]

theorem ensureTable_range {b : Bool} {a first stop pa lim i t : Nat} {p : List Nat}
    {c c' : MapCursor} {s : MapState} {f : FreeList} (hs : c.s.Tables f) (hp : Place b (p ++ [i]))
    (ht : c.s.forest.table b p = some t) (h : ensureTable t i c.s = .ok s)
    (hr : ∀ f', s.Tables f' → s.forest.table b p = some t →
      s.forest.table b (p ++ [i]) = some (ptpPaddr (s.entry t i)) →
        ∃ f'', RangeMapped b a first stop pa lim { c with s := s } c' f' f'') :
    ∃ f', RangeMapped b a first stop pa lim c c' f f' := by
  obtain ⟨f1, hs1, hg, hnew, hkept, hleaf⟩ := ensureTable_ok hs hp ht h
  obtain ⟨f2, hr⟩ := hr f1 hs1 (hkept b p t (place_prefixClosed b p i hp) ht) hnew
  refine ⟨f2, hr.tables, hg.trans hr.grows,
    fun k q t hq hqt => hr.kept k q t hq (hkept k q t hq hqt), hr.va, hr.pte, fun k q hq => ?_⟩
  rw [hr.leaves k q hq, hleaf k q hq]

/-- The loop over an `L2` table, whose entries stand for the runs of pages from `base` on. -/
theorem mapL2_spec {b : Bool} {a stop l2 : Nat} (base : Nat) {q : List Nat} (ha : IsAttr a)
    (hstop : pageVa b stop < 2 ^ 64) (hq : ∀ j < npte, leafPath (base + j) = q ++ [j]) :
    ∀ fuel i first pa c c' f, c.s.Tables f →
    c.s.forest.table b q = some l2 → c.va = pageVa b first →
      (first < stop → first / npte = base + i) →
    i ≤ npte → npte ≤ i + fuel → first ≤ stop → first ≤ (base + npte) * npte → pagesz ∣ pa →
    pa + (stop - first) * pagesz ≤ 2 ^ 48 → (first < stop → c.pte = pa + a) →
    (∀ p, first ≤ p → p < stop → Place b (leafPath (p / npte))) →
      mapL2 l2 (pageVa b stop) fuel i c = .ok c' →
    ∃ f', RangeMapped b a first stop pa ((base + npte) * npte) c c' f f' := by
  intro fuel
  induction fuel with
  | zero =>
    intro i first pa c c' f hs ht hva hdiv hi hfuel hle hlim hd hpa hpte huse hrun
    cases hrun
    exact ⟨f, rangeMapped_end hs hva hpte hle hlim hdiv hi (by omega)⟩
  | succ fuel ih =>
    intro i first pa c c' f hs ht hva hdiv hi hfuel hle hlim hd hpa hpte huse hrun
    by_cases hcond : i < npte ∧ first < stop
    · obtain ⟨hi', hlt⟩ := hcond
      have hn := hdiv hlt
      have hplace : Place b (leafPath (base + i)) := hn ▸ huse first le_rfl hlt
      have hpath := hq i hi'
      rw [mapL2, if_pos ⟨hi', hva ▸ pageVa_lt_iff.mpr hlt⟩] at hrun
      obtain ⟨s1, hs1, hrun⟩ := bind_eq_ok.mp hrun
      refine ensureTable_range hs (hpath ▸ hplace) ht hs1 fun f1 ht1 hl2 hnew => ?_
      have h1 := mapL3_range (c := { c with s := s1 }) ha ht1 hstop hplace
        (hpath ▸ hnew) hva hn hlt hd hpa (hpte hlt)
      dsimp only at hrun h1
      generalize mapL3 (ptpPaddr (s1.entry l2 i)) (pageVa b stop) npte _ _ = c1 at hrun h1
      obtain ⟨hlo, hhi⟩ := div_npte_iff.mp hn
      have hmid : (base + i + 1) * npte = (base + i) * npte + npte := by
        rw [Nat.add_mul, Nat.one_mul]
      have hend : (base + i + 1) * npte ≤ (base + npte) * npte := Nat.mul_le_mul_right _ (by omega)
      by_cases hstop' : stop ≤ (base + i + 1) * npte
      · rw [mapL2_stop] at hrun
        · obtain rfl := Except.ok.inj hrun
          exact ⟨f1, h1.widen hstop' hend⟩
        · rw [h1.va, Nat.min_eq_left hstop']
          exact Nat.lt_irrefl _
      · have hsub := sub_mul_split (by omega : first ≤ (base + i + 1) * npte)
          (not_le.mp hstop').le pagesz
        obtain ⟨f2, h2⟩ := ih (i + 1) ((base + i + 1) * npte)
          (pa + ((base + i + 1) * npte - first) * pagesz) _ c' f1
          h1.tables (h1.kept b q l2 (place_prefixClosed b q i (hpath ▸ hplace)) hl2)
          (by rw [h1.va, Nat.min_eq_right (by omega)]) (fun _ => Nat.mul_div_cancel _ npte_pos) hi'
            (by omega)
          (by omega) hend (Nat.dvd_add hd (Dvd.intro_left _ rfl)) (by omega) (fun h => h1.pte h)
          (fun p hp hp' => huse p (by omega) hp') hrun
        exact ⟨f2, h1.trans h2 (by omega) hend (contigPages_dvd_npte.trans (Dvd.intro_left _ rfl))⟩
    · rw [mapL2, if_neg (by rwa [hva, pageVa_lt_iff])] at hrun
      cases hrun
      exact ⟨f, rangeMapped_end hs hva hpte hle hlim hdiv hi hcond⟩

structure MapRange (b : Bool) (a first stop pa : Nat) (c : MapCursor) (f : FreeList) : Prop where
  attr : IsAttr a
  tables : c.s.Tables f
  va : c.va = pageVa b first
  le : first ≤ stop
  count : stop ≤ pageCount
  stop_lt : pageVa b stop < 2 ^ 64
  aligned : pagesz ∣ pa
  physical : pa + (stop - first) * pagesz ≤ 2 ^ 48
  pte : first < stop → c.pte = pa + a
  usable : ∀ p, first ≤ p → p < stop → Place b (leafPath (p / npte))

omit [SyspageHeader] in
theorem mapL1_done {b : Bool} {a first stop pa i : Nat} {c : MapCursor} {f : FreeList}
    (hl : useLargePage = false) (h : MapRange b a first stop pa c f)
    (hdiv : first < stop → first / npte / npte = i) (hi : i ≤ npte)
    (hend : first < stop → npte ≤ i) : RangeMapped b a first stop pa pageCount c c f f := by
  have hcount : pageCount = npte * npte * npte := by rw [pageCount_eq, hl]; rfl
  refine rangeMapped_done h.tables h.va h.pte h.le (h.le.trans h.count) fun hc => ?_
  have h1 := (div_npte_iff.mp (hdiv hc.2)).1
  have h2 := (Nat.le_div_iff_mul_le npte_pos).mp h1
  rw [le_antisymm hi (hend hc.2), ← hcount] at h2
  omega

omit [SyspageHeader] in
theorem l2Idx_small {b : Bool} (hl : useLargePage = false) (p : Nat) :
    l2Idx (pageVa b p) = p / npte % npte := by
  have hpos : 0 < pagesz := eight_mul_npte ▸ Nat.mul_pos (by decide) npte_pos
  have h := l2_index (b := b) (p := p) hpos
  rwa [hl, if_neg (by decide)] at h

omit [SyspageHeader] in
/-- The pages below one entry of `L1` end at the first page below the next. -/
theorem l1Entry_bounds {first i : Nat} (hl : useLargePage = false) (hi : i < npte)
    (hdiv : first / npte / npte = i) :
    first ≤ (i * npte + npte) * npte ∧ (i * npte + npte) * npte ≤ pageCount ∧
      (i * npte + npte) * npte / npte / npte = i + 1 := by
  have hcount : pageCount = npte * npte * npte := by rw [pageCount_eq, hl]; rfl
  have hsucc : i * npte + npte = (i + 1) * npte := by rw [Nat.add_mul, Nat.one_mul]
  refine ⟨(Nat.lt_mul_of_div_lt (div_npte_iff.mp hdiv).2 npte_pos).le, ?_, ?_⟩
  · rw [hcount, hsucc]
    exact Nat.mul_le_mul_right _ (Nat.mul_le_mul_right _ hi)
  · rw [hsucc, Nat.mul_div_cancel _ npte_pos, Nat.mul_div_cancel _ npte_pos]

omit [SyspageHeader] in
theorem MapRange.next {b : Bool} {a first mid stop pa : Nat} {c c' : MapCursor} {f f' : FreeList}
    (h : MapRange b a first stop pa c f) (hm : RangeMapped b a first stop pa mid c c' f f')
    (hfirst : first ≤ mid) (hstop : mid < stop) :
    MapRange b a mid stop (pa + (mid - first) * pagesz) c' f' where
  attr := h.attr
  tables := hm.tables
  va := by rw [hm.va, Nat.min_eq_right hstop.le]
  le := hstop.le
  count := h.count
  stop_lt := h.stop_lt
  aligned := Nat.dvd_add h.aligned (Dvd.intro_left _ rfl)
  physical := by
    have hsub := sub_mul_split hfirst hstop.le pagesz
    have hphys := h.physical
    omega
  pte := hm.pte
  usable := fun p hp hp' => h.usable p (hfirst.trans hp) hp'

/-- One round of the loop over `L1`: the table below the entry, and the pages in it. -/
theorem MapRange.mapL2_small {b : Bool} {a first stop pa l1 : Nat} {c c' : MapCursor}
    {f : FreeList} {s1 : MapState} (hl : useLargePage = false)
    (h : MapRange b a first stop pa c f) (hroot : c.s.forest.table b [] = some l1)
    (hlt : first < stop) (hs1 : ensureTable l1 (first / npte / npte) c.s = .ok s1)
    (hc' : mapL2 (ptpPaddr (s1.entry l1 (first / npte / npte))) (pageVa b stop) npte (l2Idx c.va)
      { c with s := s1 } = .ok c')
    (hlim : first ≤ (first / npte / npte * npte + npte) * npte) :
    ∃ f', RangeMapped b a first stop pa ((first / npte / npte * npte + npte) * npte) c c' f f' := by
  have hmod := Nat.mod_lt (first / npte) npte_pos
  have hdiv : first / npte = first / npte / npte * npte + first / npte % npte := by
    rw [Nat.mul_comm]
    exact (Nat.div_add_mod _ npte).symm
  have hplace : Place b ([first / npte / npte] ++ [first / npte % npte]) := by
    rw [← leafPath_small hl _ hmod, ← hdiv]
    exact h.usable first le_rfl hlt
  have hidx : l2Idx c.va = first / npte % npte := h.va ▸ l2Idx_small hl first
  refine ensureTable_range h.tables (place_prefixClosed b [_] _ hplace) hroot hs1
    fun f1 ht1 hl1 hnew => ?_
  exact mapL2_spec _ h.attr h.stop_lt (fun j hj => leafPath_small hl _ hj) npte (l2Idx c.va) first
    pa { c with s := s1 } c' f1 ht1 hnew h.va (fun _ => by rw [hidx]; exact hdiv)
    (by rw [hidx]; exact hmod.le) (Nat.le_add_left _ _) h.le hlim h.aligned h.physical h.pte
    h.usable hc'

theorem mapL1_small {b : Bool} {a stop l1 : Nat} (hl : useLargePage = false) :
    ∀ fuel i first pa c c' f,
    MapRange b a first stop pa c f → c.s.forest.table b [] = some l1 →
    (first < stop → first / npte / npte = i) → i ≤ npte → npte ≤ i + fuel →
    mapL1 l1 (pageVa b stop) fuel i c = .ok c' →
      ∃ f', RangeMapped b a first stop pa pageCount c c' f f' := by
  intro fuel
  induction fuel with
  | zero =>
    intro i first pa c c' f h hroot hdiv hi hfuel hrun
    cases hrun
    exact ⟨f, mapL1_done hl h hdiv hi fun _ => hfuel⟩
  | succ fuel ih =>
    intro i first pa c c' f h hroot hdiv hi hfuel hrun
    by_cases hcond : i < npte ∧ first < stop
    · obtain ⟨hi', hlt⟩ := hcond
      rw [mapL1, if_pos ⟨hi', h.va ▸ pageVa_lt_iff.mpr hlt⟩, hl, if_neg (by decide)] at hrun
      obtain ⟨s1, hs1, hrun⟩ := bind_eq_ok.mp hrun
      obtain ⟨c1, hc1, hrun⟩ := bind_eq_ok.mp hrun
      obtain ⟨hlim, hend, hdiv'⟩ := l1Entry_bounds hl hi' (hdiv hlt)
      obtain rfl := hdiv hlt
      obtain ⟨f2, h2⟩ := h.mapL2_small hl hroot hlt hs1 hc1 hlim
      by_cases hstop' : stop ≤ (first / npte / npte * npte + npte) * npte
      · rw [mapL1_stop] at hrun
        · obtain rfl := Except.ok.inj hrun
          exact ⟨f2, h2.widen hstop' hend⟩
        · rw [h2.va, Nat.min_eq_left hstop']
          exact Nat.lt_irrefl _
      · have hroot1 := h2.kept b [] l1 (place_nil b) hroot
        obtain ⟨f3, h3⟩ := ih _ _ _ c1 c' f2 (h.next h2 hlim (not_le.mp hstop')) hroot1
          (fun _ => hdiv') hi' (by omega) hrun
        exact ⟨f3, h2.trans h3 hlim hend (contigPages_dvd_npte.trans (Dvd.intro_left _ rfl))⟩
    · rw [mapL1, if_neg (by rwa [h.va, pageVa_lt_iff])] at hrun
      cases hrun
      exact ⟨f, mapL1_done hl h hdiv hi fun hlt => not_lt.mp fun hlt' => hcond ⟨hlt', hlt⟩⟩

theorem mapL1_large {b : Bool} {a first stop pa l1 fuel : Nat} {c c' : MapCursor} {f : FreeList}
    (hl : useLargePage = true) (h : MapRange b a first stop pa c f)
    (hroot : c.s.forest.table b [] = some l1) (hfuel : 0 < fuel)
    (hrun : mapL1 l1 (pageVa b stop) fuel 0 c = .ok c') :
    ∃ f', RangeMapped b a first stop pa pageCount c c' f f' := by
  obtain ⟨fuel, rfl⟩ : ∃ n, fuel = n + 1 := ⟨fuel - 1, by omega⟩
  have hcount : pageCount = (0 + npte) * npte := by rw [pageCount_eq, hl, Nat.zero_add]; rfl
  by_cases hlt : first < stop
  · rw [mapL1, if_pos ⟨npte_pos, h.va ▸ pageVa_lt_iff.mpr hlt⟩, hl, if_pos rfl] at hrun
    obtain ⟨c1, hc1, hrun⟩ := bind_eq_ok.mp hrun
    have hidx : l2Idx64K c.va = first / npte % npte := by
      have := l2_index (b := b) (p := first) (o := 0)
        (by have := npte_pos; rw [← eight_mul_npte]; omega)
      rw [hl, if_pos rfl] at this
      rwa [h.va]
    have hfirst : first / npte < npte := by
      have := h.count
      rw [hcount, Nat.zero_add] at this
      exact Nat.div_lt_of_lt_mul (by omega)
    rw [Nat.mod_eq_of_lt hfirst] at hidx
    obtain ⟨f2, h2⟩ := mapL2_spec 0 (q := []) h.attr h.stop_lt
      (fun j _ => by simp [leafPath, hl]) npte (l2Idx64K c.va) first pa c c1 f h.tables hroot h.va
      (fun _ => by rw [hidx, Nat.zero_add]) (by rw [hidx]; exact hfirst.le)
        (Nat.le_add_left _ _) h.le
      (hcount ▸ h.le.trans h.count) h.aligned h.physical h.pte h.usable hc1
    rw [← hcount] at h2
    rw [mapL1_stop] at hrun
    · obtain rfl := Except.ok.inj hrun
      exact ⟨f2, h2⟩
    · rw [h2.va, Nat.min_eq_left h.count]
      exact Nat.lt_irrefl _
  · rw [mapL1_stop (by rwa [h.va, pageVa_lt_iff])] at hrun
    obtain rfl := Except.ok.inj hrun
    exact ⟨f, rangeMapped_done h.tables h.va h.pte h.le (h.le.trans h.count) fun hc => hlt hc.2⟩

end

end QnxStartup
