import QnxStartup.Mapped

/-! The tables that `aarch64_map_init` sets up. -/

namespace QnxStartup

variable [MmuHeader]
open MmuHeader

theorem MapState.Tables.tableBytes_disjoint {s : MapState} {f : FreeList} (hs : s.Tables f) :
    Disjoint s.tableBytes f.bytes :=
  Set.disjoint_left.mpr fun _ ⟨_, _, _, hp, ht, hx⟩ hf => Set.disjoint_left.mp
    (hs.owned hp ht) hx hf

theorem callocRam_undisturbed [SyspageHeader] {s : MapState} {r : RamState} {f : FreeList}
    {size k a : Nat} (hs : s.Tables f) (hpos : 0 < size) (hk : k < 32)
    (h : callocRam size (2 ^ k) s.ram = .ok (r, a)) (hn : a ≠ nullPaddr) :
    2 ^ k ∣ a ∧ bytes a size ⊆ f.bytes ∧
      Undisturbed s { s with ram := r } f (f.erase a (a + size)) := by
  rcases callocRam_fresh hs.fresh hpos hk h with ⟨hn', -⟩ | ⟨-, hd, hsub, hfresh, hmem, -⟩
  · exact absurd hn' hn
  · refine ⟨hd, hsub, .of_mem hfresh ?_ rfl rfl fun x hx => ?_⟩
    · rw [FreeList.bytes_erase_size]
      exact Set.sdiff_subset
    · change r.mem x = s.ram.mem x
      rw [hmem]
      exact memset_of_not_mem fun hx' => Set.disjoint_left.mp hs.tableBytes_disjoint hx (hsub hx')

theorem setEntry_undisturbed {s : MapState} {f : FreeList} {b : Bool} {p : List Nat} {t i : Nat}
    (e : Nat) (hs : s.Tables f) (hp : Place b p) (ht : s.forest.table b p = some t)
    (hlen : p.length < depth) (hi : i < npte) (hself : ¬ Place b (p ++ [i])) :
    Undisturbed s (s.setEntry t i e) f f where
  ttbr0 := rfl
  ttbr1 := rfl
  fresh := ⟨hs.fresh.holds, hs.fresh.physical, hs.fresh.zeroes⟩
  free := subset_rfl
  entry := fun {k q t' j} hq ht' hj hkind => by
    refine MapState.entry_eq fun o ho => writePtr_of_not_mem ?_
    by_cases heq : k = b ∧ q = p
    · obtain ⟨rfl, rfl⟩ := heq
      obtain rfl : t' = t := Option.some.inj (ht'.symm.trans ht)
      have hne : j ≠ i := by
        rintro rfl
        exact hkind.elim (fun h => by omega) hself
      omega
    · exact fun hc => Set.disjoint_left.mp (hs.disjoint hq hp ht' ht heq)
        (entry_bytes hj (by omega)) (entry_bytes hi hc)

theorem table_of_zero {s : MapState}
    (hzero : ∀ b, ∀ x ∈ bytes (s.forest.root b) pagesz, s.ram.mem x = 0) {b : Bool} {p : List Nat}
    (hp : Place b p) (hne : p ≠ []) : s.forest.table b p = none := by
  induction p using List.reverseRecOn with
  | nil => exact absurd rfl hne
  | append_singleton p i ih =>
    rw [TableForest.table_snoc]
    by_cases hnil : p = []
    · subst hnil
      have h0 : s.entry (s.forest.root b) i = 0 :=
        readPtr_of_zero fun o ho => hzero b _ (entry_bytes hp.lt (by omega))
      rw [TableForest.table_nil, Option.bind_some, MapState.forest_link, if_pos h0]
    · rw [ih (place_prefixClosed b p i hp) hnil]
      rfl

theorem eq_root_of_zero {s : MapState}
    (hzero : ∀ b, ∀ x ∈ bytes (s.forest.root b) pagesz, s.ram.mem x = 0) {b : Bool} {p : List Nat}
    {t : Nat} (hp : Place b p) (ht : s.forest.table b p = some t) :
    p = [] ∧ t = s.forest.root b := by
  by_cases hnil : p = []
  · subst hnil
    exact ⟨rfl, (Option.some.inj ht).symm⟩
  · rw [table_of_zero hzero hp hnil] at ht
    cases ht

theorem tableBytes_of_zero {s : MapState}
    (hzero : ∀ b, ∀ x ∈ bytes (s.forest.root b) pagesz, s.ram.mem x = 0) :
    s.tableBytes ⊆ bytes (s.forest.root false) pagesz ∪ bytes (s.forest.root true) pagesz := by
  rintro x ⟨b, p, t, hp, ht, hx⟩
  obtain ⟨-, rfl⟩ := eq_root_of_zero hzero hp ht
  cases b
  · exact .inl hx
  · exact .inr hx

theorem zeroRoots_tables {s : MapState} {f : FreeList} (hfresh : FreshRam s.ram f)
    (hal : ∀ b, pagesz ∣ s.forest.root b) (hne : s.forest.root false ≠ s.forest.root true)
    (hown : ∀ b, Disjoint (bytes (s.forest.root b) pagesz) f.bytes)
    (hzero : ∀ b, ∀ x ∈ bytes (s.forest.root b) pagesz, s.ram.mem x = 0) :
    s.Tables f ∧ ∀ b p, Place b (leafPath (p / npte)) → s.leaf b p = 0 := by
  refine ⟨⟨hfresh, ?_, ?_, ?_, ?_⟩, fun b p hp => ?_⟩
  · intro k p k' p' t hp hp' ht ht'
    obtain ⟨rfl, rfl⟩ := eq_root_of_zero hzero hp ht
    obtain ⟨rfl, heq⟩ := eq_root_of_zero hzero hp' ht'
    refine ⟨?_, rfl⟩
    cases k <;> cases k' <;> first | rfl | exact absurd heq hne | exact absurd heq.symm hne
  · intro b p t hp ht
    rw [(eq_root_of_zero hzero hp ht).2]
    exact hal b
  · intro b p t hp ht
    rw [(eq_root_of_zero hzero hp ht).2]
    exact hown b
  · intro b p i t hp ht
    obtain ⟨-, rfl⟩ := eq_root_of_zero hzero (place_prefixClosed b p i hp) ht
    exact .inl (readPtr_of_zero fun o ho => hzero b _ (entry_bytes hp.lt (by omega)))
  · refine MapState.Tables.leaf_eq_zero (table_of_zero hzero hp ?_)
    unfold leafPath
    split <;> simp

theorem le_npte : 512 ≤ npte := by
  rcases page_cases with ⟨-, -, hn, -⟩ | ⟨-, -, hn, -⟩ <;> rw [hn]
  decide

theorem not_place_l1L1 : ¬ Place true ([] ++ [l1L1Idx]) :=
  fun h => h.2.2 ⟨rfl, .inl (List.prefix_refl _)⟩

theorem place_l1L2 (hl : useLargePage = false) : Place true ([] ++ [l1L2Idx]) := by
  have hlt := l1_lt
  have hne := l1_ne
  have hle := le_npte
  refine ⟨by simp [depth, hl], fun i hi => ?_, fun ⟨_, h⟩ => ?_⟩
  · simp only [List.nil_append, List.mem_singleton] at hi
    omega
  · rcases h with h | ⟨-, h⟩
    · simp only [List.nil_append, List.cons_prefix_cons, List.nil_prefix, and_true] at h
      exact hne h
    · have := h.length_le
      simp at this

theorem not_place_l2L2 (hl : useLargePage = false) : ¬ Place true ([l1L2Idx] ++ [l2L2Idx]) :=
  fun h => h.2.2 ⟨rfl, .inr ⟨hl, List.prefix_refl _⟩⟩

/-- What `aarch64_map_init` needs of its first page. -/
structure ZeroPage (m : Mem) (f : FreeList) (a : Nat) : Prop where
  aligned : pagesz ∣ a
  taken : Disjoint (bytes a pagesz) f.bytes
  zero : ∀ x ∈ bytes a pagesz, m x = 0

theorem topTables_ok [SyspageHeader] {s s1 : MapState} {f : FreeList} {e : Nat}
    (hf : FreshRam s.ram f) (h0 : ZeroPage s.ram.mem f s.l1Ttbr0) (h : ptAlloc s = .ok (s1, e)) :
    s1 = { s with ram := s1.ram } ∧ ∃ f1, ({ s1 with l1Ttbr1 := ptpPaddr e } : MapState).Tables f1 ∧
      (∀ b p, Place b (leafPath (p / npte)) →
        ({ s1 with l1Ttbr1 := ptpPaddr e } : MapState).leaf b p = 0) ∧
      (∀ i < npte, s1.entry (ptpPaddr e) i = 0) ∧ f1.bytes ⊆ f.bytes ∧
      ({ s1 with l1Ttbr1 := ptpPaddr e } : MapState).tableBytes ⊆
        bytes s.l1Ttbr0 pagesz ∪ f.bytes := by
  obtain ⟨n, a, rfl, ha, -, hd, hsub, hfresh, hmem, -, hrest⟩ := ptAlloc_ok hf h
  have hin : n ∈ bytes n pagesz := mem_bytes.mpr ⟨le_rfl, by have := pagesz_pos; omega⟩
  rw [ha.ptpPaddr_add hd (hf.physical n (hsub hin))]
  have hroot : s1.l1Ttbr0 = s.l1Ttbr0 := by rw [hrest]
  have hdis : Disjoint (bytes s.l1Ttbr0 pagesz) (bytes n pagesz) := h0.taken.mono_right hsub
  have hzero : ∀ x ∈ bytes n pagesz, s1.ram.mem x = 0 := fun x hx => by
    rw [hmem]
    exact memset_of_mem hx
  have hroots : ∀ b, ∀ x ∈ bytes (({ s1 with l1Ttbr1 := n } : MapState).forest.root b) pagesz,
      s1.ram.mem x = 0 := by
    intro b x hx
    cases b
    · have hx0 : x ∈ bytes s.l1Ttbr0 pagesz := hroot ▸ hx
      rw [hmem, memset_of_not_mem fun hx' => Set.disjoint_left.mp hdis hx0 hx']
      exact h0.zero x hx0
    · exact hzero x hx
  have htables := @zeroRoots_tables _ { s1 with l1Ttbr1 := n } _ hfresh (fun b => ?_) (fun hc => ?_)
    (fun b => ?_) hroots
  · refine ⟨hrest, f.erase n (n + pagesz), htables.1, htables.2,
      fun i hi => readPtr_of_zero fun o ho => hzero _ (entry_bytes hi (by omega)), ?_, ?_⟩
    · rw [FreeList.bytes_erase_size]
      exact Set.sdiff_subset
    · refine (tableBytes_of_zero hroots).trans (Set.union_subset_union ?_ hsub)
      exact (congrArg (bytes · pagesz) hroot).subset
  · cases b
    · exact hroot ▸ h0.aligned
    · exact hd
  · have hc' : s.l1Ttbr0 = n := hroot ▸ hc
    exact Set.disjoint_left.mp hdis (hc' ▸ hin) hin
  · rw [FreeList.bytes_erase_size]
    cases b
    · exact hroot ▸ h0.taken.mono_right Set.sdiff_subset
    · exact Set.disjoint_sdiff_right

theorem l1_table {s : MapState} : s.forest.table true [] = some s.l1Ttbr1 := by
  rw [l1_root, if_pos rfl]

theorem depth_pos : 0 < depth := by
  unfold depth
  split <;> decide

theorem selfLink_ok {s : MapState} {f : FreeList} (e : Nat) (hs : s.Tables f) :
    Undisturbed s (s.setEntry s.l1Ttbr1 l1L1Idx e) f f := by
  have hidx := l1_lt
  have hle := le_npte
  exact setEntry_undisturbed e hs (place_nil true) l1_table depth_pos (by omega) not_place_l1L1

theorem startupTable_ok [SyspageHeader] {s s2 : MapState} {f : FreeList} {e2 : Nat} (e : Nat)
    (hl : useLargePage = false) (hs : s.Tables f) (hz : s.entry s.l1Ttbr1 l1L2Idx = 0)
    (h : ptAlloc s = .ok (s2, e2)) :
    ∃ f', ((s2.setEntry s2.l1Ttbr1 l1L2Idx e2).setEntry (ptpPaddr e2) l2L2Idx e).Tables f' ∧
      (∀ b p, Place b (leafPath (p / npte)) →
        ((s2.setEntry s2.l1Ttbr1 l1L2Idx e2).setEntry (ptpPaddr e2) l2L2Idx e).leaf b p =
          s.leaf b p) ∧
      SameCpus s s2 ∧ f'.bytes ⊆ f.bytes ∧
      ((s2.setEntry s2.l1Ttbr1 l1L2Idx e2).setEntry (ptpPaddr e2) l2L2Idx e).tableBytes ⊆
        s.tableBytes ∪ f.bytes := by
  have hidx := l1_lt
  have hle := le_npte
  have hplace := place_l1L2 hl
  obtain ⟨-, -, -, -, -, -, -, -, -, -, hrest⟩ := ptAlloc_ok hs.fresh h
  have hroot : s2.l1Ttbr1 = s.l1Ttbr1 := by rw [hrest]
  obtain ⟨f', hlink⟩ := ptAlloc_linked hs hplace l1_table hz h
  rw [hroot]
  have ht := hlink.tables hs
  have hund := setEntry_undisturbed e ht hplace (hlink.table_new hs) (by simp [depth, hl])
    (by omega : l2L2Idx < npte)
    (not_place_l2L2 hl)
  have hgrows := hlink.grows hs
  refine ⟨f', hund.tables ht, fun b p hp => ?_,
    by rw [hrest]; exact ⟨rfl, rfl, rfl⟩, hgrows.free, ?_⟩
  · rw [hund.leaf_eq hp, hlink.leaf_eq hs hp]
  · rw [hund.tableBytes_eq]
    exact hgrows.tables

theorem recursiveTables_ok [SyspageHeader] {s s' : MapState} {f : FreeList} {e : Nat}
    (hf : FreshRam s.ram f) (h0 : ZeroPage s.ram.mem f s.l1Ttbr0)
    (h : recursiveTables s = .ok (s', e)) :
    ∃ f', s'.Tables f' ∧ (∀ b p, Place b (leafPath (p / npte)) → s'.leaf b p = 0) ∧
      s'.freeVaddr = startupBase ∧ SameCpus s s' ∧ f'.bytes ⊆ f.bytes ∧
        s'.tableBytes ⊆ bytes s.l1Ttbr0 pagesz ∪ f.bytes := by
  obtain ⟨⟨s1, e1⟩, h1, h⟩ := bind_eq_ok.mp h
  obtain ⟨hrest1, f1, htA, hleafA, hzeroA, hfree1, hownA⟩ := topTables_ok hf h0 h1
  dsimp only at h
  generalize hsA : ({ s1 with l1Ttbr1 := ptpPaddr e1 } : MapState) = sA at htA hleafA hownA h
  have hrootA : sA.l1Ttbr1 = ptpPaddr e1 := by rw [← hsA]
  have hcpuA : SameCpus s sA := by
    rw [← hsA, hrest1]
    exact ⟨rfl, rfl, rfl⟩
  have hzeroA' : ∀ i < npte, sA.entry sA.l1Ttbr1 i = 0 := by
    rw [hrootA, ← hsA]
    exact hzeroA
  rw [← hrootA] at h
  have hundB := selfLink_ok e1 htA
  by_cases hl : useLargePage = true
  · rw [if_pos hl] at h
    obtain rfl := (Prod.mk.inj (Except.ok.inj h)).1
    have hsame : SameTables (sA.setEntry sA.l1Ttbr1 l1L1Idx e1)
        { sA.setEntry sA.l1Ttbr1 l1L1Idx e1 with freeVaddr := startupBase } := ⟨rfl, rfl, rfl⟩
    refine ⟨f1, hsame.tables (hundB.tables htA), fun b p hp => ?_, rfl,
      hcpuA.trans ⟨rfl, rfl, rfl⟩, hfree1, ?_⟩
    · rw [hsame.leaf, hundB.leaf_eq hp, hleafA b p hp]
    · rw [hsame.tableBytes, hundB.tableBytes_eq]
      exact hownA
  · have hl' : useLargePage = false := by simpa using hl
    rw [if_neg hl] at h
    obtain ⟨⟨s2, e2⟩, h2, h⟩ := bind_eq_ok.mp h
    have hplace := place_l1L2 hl'
    have hz : (sA.setEntry sA.l1Ttbr1 l1L1Idx e1).entry
        (sA.setEntry sA.l1Ttbr1 l1L1Idx e1).l1Ttbr1 l1L2Idx = 0 :=
      (hundB.entry (place_nil true) l1_table hplace.lt (.inr hplace)).trans (hzeroA' _ hplace.lt)
    obtain ⟨f2, ht2, hleaf2, hcpu2, hfree2, hown2⟩ := startupTable_ok e1 hl'
      (hundB.tables htA) hz h2
    obtain rfl := (Prod.mk.inj (Except.ok.inj h)).1
    have hsame : SameTables ((s2.setEntry s2.l1Ttbr1 l1L2Idx e2).setEntry (ptpPaddr e2) l2L2Idx e1)
        { (s2.setEntry s2.l1Ttbr1 l1L2Idx e2).setEntry (ptpPaddr e2) l2L2Idx e1 with
          freeVaddr := startupBase } :=
      ⟨rfl, rfl, rfl⟩
    refine ⟨f2, hsame.tables ht2, fun b p hp => ?_, rfl,
      hcpuA.trans ⟨hcpu2.virtualMode, hcpu2.numCpu, hcpu2.meltdownActive⟩, hfree2.trans hfree1, ?_⟩
    · rw [hsame.leaf, hleaf2 b p hp, hundB.leaf_eq hp, hleafA b p hp]
    · rw [hsame.tableBytes]
      rw [hundB.tableBytes_eq] at hown2
      exact hown2.trans (Set.union_subset hownA (hfree1.trans Set.subset_union_right))

theorem l0size_eq : roundpg (64 * processorsMax) = pagesz := by
  have hpg := pagesz_le
  have h := roundpg_spec (x := 64 * processorsMax) (by unfold processorsMax; omega)
  obtain ⟨k, hk⟩ := h.2.1
  rw [hk] at h ⊢
  unfold processorsMax at h
  rcases page_cases with ⟨-, hp, -⟩ | ⟨-, hp, -⟩ <;> rw [hp] at h ⊢ <;> omega

def l0Call (l0 : Nat) : MapCall :=
  ⟨anyVaddr, l0, roundpg (64 * processorsMax), protRead ||| protWrite⟩

theorem l0Call_len {l0 : Nat} (hd : pagesz ∣ l0) : (l0Call l0).len = pagesz := by
  have hpg := pagesz_le
  unfold MapCall.len l0Call
  dsimp only
  rw [l0size_eq, Nat.mod_eq_zero_of_dvd hd, Nat.add_zero]
  have h := roundpg_spec (x := pagesz) (by omega)
  obtain ⟨k, hk⟩ := h.2.1
  rw [hk] at h ⊢
  rcases page_cases with ⟨-, hp, -⟩ | ⟨-, hp, -⟩ <;> rw [hp] at h ⊢ <;> omega

omit [MmuHeader] in
theorem fillL0_frame (l0 e : Nat) (s : MapState) :
    ∃ m t, fillL0 l0 e s = { s.withMem m with ttbr1 := t } ∧ t 0 = l0 ∧
      ∀ x, ¬ (l0 ≤ x ∧ x < l0 + 64 * processorsMax) → m x = s.ram.mem x := by
  have h : ∀ (l : List Nat) (s : MapState), (∀ i ∈ l, i < processorsMax) →
      ∃ m t, l.foldl (fun s i => { s.setEntry (l0 + 64 * i) 1 e with
          ttbr1 := fun j => if j = i then l0 + 64 * i else s.ttbr1 j }) s =
            { s.withMem m with ttbr1 := t } ∧
        (∀ j, t j = if j ∈ l then l0 + 64 * j else s.ttbr1 j) ∧
        ∀ x, ¬ (l0 ≤ x ∧ x < l0 + 64 * processorsMax) → m x = s.ram.mem x := by
    intro l
    induction l with
    | nil => exact fun s _ => ⟨s.ram.mem, s.ttbr1, rfl, by simp, fun _ _ => rfl⟩
    | cons i l ih =>
      intro s hl
      obtain ⟨m, t, heq, ht, hm⟩ := ih { s.setEntry (l0 + 64 * i) 1 e with
        ttbr1 := fun j => if j = i then l0 + 64 * i else s.ttbr1 j } fun j hj => hl j (by simp [hj])
      refine ⟨m, t, heq, fun j => ?_, fun x hx => ?_⟩
      · rw [ht j]
        by_cases hj : j = i
        · simp [hj]
        · simp [hj]
      · have hi := hl i (by simp)
        rw [hm x hx]
        exact writePtr_of_not_mem (by omega)
  obtain ⟨m, t, heq, ht, hm⟩ := h (List.range processorsMax) s fun i hi => List.mem_range.mp hi
  exact ⟨m, t, heq, by rw [ht 0, if_pos (by decide), Nat.mul_zero, Nat.add_zero], hm⟩

/-- `aarch64_map_init` ends with the mapping of the processors' tables as the only one. -/
structure MapStart (s : MapState) (l0 : Nat) (before after : MapState)
    (f f' : FreeList) : Prop where
  mapped : CallMapped (l0Call l0) before after f f'
  aligned : pagesz ∣ l0
  physical : l0 + roundpg (64 * processorsMax) ≤ 2 ^ 48
  first : before.freeVaddr = startupBase
  unmapped : ∀ b p, Place b (leafPath (p / npte)) → before.leaf b p = 0
  undisturbed : Undisturbed after s f' f'
  next : s.freeVaddr = after.freeVaddr
  cpus : SameCpus before s
  virtualMode : s.virtualMode = true
  l0_eq : s.ttbr1 0 = l0

theorem startupBase_lt : startupBase < 2 ^ 64 := by
  have h := MmuHeader.startupBase_lt
  unfold startupBase
  split
  · exact h.2
  · exact h.1

theorem pagesz_pow : ∃ k < 32, pagesz = 2 ^ k := by
  rcases page_cases with ⟨-, hp, -⟩ | ⟨-, hp, -⟩
  · exact ⟨12, by decide, hp⟩
  · exact ⟨16, by decide, hp⟩

theorem firstTable_ok [SyspageHeader] {s s2 : MapState} {r1 : RamState} {f : FreeList}
    {a e l1 : Nat} (hf : FreshRam s.ram f) (h1 : callocRam pagesz pagesz s.ram = .ok (r1, a))
    (h2 : recursiveTables { s with ram := r1, ttbr0 := a, l1Ttbr0 := l1 } = .ok (s2, e)) :
    ZeroPage r1.mem (f.erase a (a + pagesz)) a ∧ FreshRam r1 (f.erase a (a + pagesz)) ∧
      ptpPaddr a = a ∧
      bytes a pagesz ⊆ f.bytes := by
  obtain ⟨k, hk, hpk⟩ := pagesz_pow
  have hpos := Nat.two_pow_pos k
  have hzero : ZeroPage r1.mem (f.erase a (a + pagesz)) a ∧ FreshRam r1 (f.erase a (a + pagesz)) ∧
      a < 2 ^ 48 ∧ bytes a pagesz ⊆ f.bytes := by
    rw [hpk] at h1 ⊢
    rcases callocRam_fresh hf hpos hk h1 with ⟨rfl, rfl⟩ | ⟨-, hd, hsub, hfresh, hmem, -⟩
    · obtain ⟨⟨s1, e1⟩, h1', -⟩ := bind_eq_ok.mp h2
      obtain ⟨⟨r, n⟩, hr, h1'⟩ := bind_eq_ok.mp h1'
      rw [hpk, h1] at hr
      obtain ⟨-, rfl⟩ := Prod.mk.inj (Except.ok.inj hr)
      dsimp only at h1'
      rw [if_pos rfl] at h1'
      cases h1'
    · refine ⟨⟨hpk ▸ hd, ?_, ?_⟩, hfresh, hf.physical a (hsub (mem_bytes.mpr ⟨le_rfl, by omega⟩)),
        hpk ▸ hsub⟩
      · rw [FreeList.bytes_erase_size, hpk]
        exact Set.disjoint_sdiff_right
      · intro x hx
        rw [hpk] at hx
        rw [hmem]
        exact memset_of_mem hx
  obtain ⟨hpage, hfresh, hlt, htaken⟩ := hzero
  have ha := isAttr_zero.ptpPaddr_add hpage.aligned hlt
  rw [Nat.add_zero] at ha
  exact ⟨hpage, hfresh, ha, htaken⟩

theorem fillL0_undisturbed {s : MapState} {f : FreeList} {l0 e v : Nat} (hs : s.Tables f)
    (hout : Disjoint s.tableBytes (bytes l0 pagesz)) :
    Undisturbed s (fillL0 l0 e { s with l0Vaddr := v }) f f := by
  obtain ⟨m, t, heq, -, hm⟩ := fillL0_frame l0 e { s with l0Vaddr := v }
  rw [heq]
  refine .of_mem ⟨hs.fresh.holds, hs.fresh.physical, hs.fresh.zeroes⟩ subset_rfl rfl rfl fun x hx =>
    hm x fun hx' => ?_
  have hle := (roundpg_spec (x := 64 * processorsMax)
    (by have := pagesz_le; unfold processorsMax; omega)).1
  rw [l0size_eq] at hle
  exact Set.disjoint_left.mp hout hx (mem_bytes.mpr ⟨hx'.1, by omega⟩)

theorem MapCall.chosen_cpus (c : MapCall) (s : MapState) (r : RamState) :
    SameCpus s { c.chosen s with ram := r } := by
  unfold MapCall.chosen
  split <;> exact ⟨rfl, rfl, rfl⟩

/-- The page for the processors' tables. -/
theorem l0Table_ok [SyspageHeader] {s : MapState} {r : RamState} {f : FreeList} {l0 : Nat}
    (hs : s.Tables f) (h : callocRam (roundpg (64 * processorsMax)) pagesz s.ram = .ok (r, l0))
    (hnull : l0 ≠ nullPaddr) :
    pagesz ∣ l0 ∧ bytes l0 pagesz ⊆ f.bytes ∧ l0 + roundpg (64 * processorsMax) ≤ 2 ^ 48 ∧
      Undisturbed s { s with ram := r } f (f.erase l0 (l0 + roundpg (64 * processorsMax))) := by
  obtain ⟨k, hk, hpk⟩ := pagesz_pow
  rw [hpk] at h
  obtain ⟨hd, hsub, hund⟩ := callocRam_undisturbed hs
    (by rw [l0size_eq]; exact pagesz_pos) hk h hnull
  rw [l0size_eq] at hsub
  refine ⟨hpk ▸ hd, hsub, ?_, hund⟩
  have hpos := pagesz_pos
  rw [l0size_eq]
  have := hs.fresh.physical (l0 + pagesz - 1) (hsub (mem_bytes.mpr (by omega)))
  omega

/-- Its mapping takes no page from it. -/
theorem l0Map_apart {s s3 s4 : MapState} {f f4 : FreeList} {l0 : Nat} (hs : s.Tables f)
    (hsub : bytes l0 pagesz ⊆ f.bytes)
    (hund : Undisturbed s s3 f (f.erase l0 (l0 + roundpg (64 * processorsMax))))
    (hmap : CallMapped (l0Call l0) s3 s4 (f.erase l0 (l0 + roundpg (64 * processorsMax))) f4) :
    Disjoint s4.tableBytes (bytes l0 pagesz) := by
  refine Set.disjoint_left.mpr fun x hx hx' => ?_
  rcases hmap.grows.tables hx with hx | hx
  · rw [((l0Call l0).chosen_same s3).tableBytes, hund.tableBytes_eq] at hx
    exact Set.disjoint_left.mp hs.tableBytes_disjoint hx (hsub hx')
  · rw [FreeList.bytes_erase_size, l0size_eq] at hx
    exact hx.2 hx'

theorem aarch64MapInit_ok [SyspageHeader] {s s' : MapState} {f : FreeList} (hf : FreshRam s.ram f)
    (hv : s.virtualMode = true)
    (hclear : ∀ x, truncpg startupBase ≤ x → x < truncpg startupBase + pagesz → ¬ RecursiveSlot x)
    (h : aarch64MapInit s = .ok s') :
    ∃ l0 before after f1 f2, MapStart s' l0 before after f1 f2 ∧ s'.tableBytes ⊆ f.bytes ∧
      f2.bytes ⊆ f.bytes := by
  obtain ⟨⟨r1, a⟩, h1, h⟩ := bind_eq_ok.mp h
  obtain ⟨⟨s2, e⟩, h2, h⟩ := bind_eq_ok.mp h
  obtain ⟨⟨r3, l0⟩, h3, h⟩ := bind_eq_ok.mp h
  obtain ⟨⟨s4, v⟩, h4, h⟩ := bind_eq_ok.mp h
  dsimp only at h2 h3 h4 h
  have hnull : l0 ≠ nullPaddr := by
    intro hn
    rw [if_pos hn] at h
    cases h
  rw [if_neg hnull] at h
  obtain ⟨hzero, hfresh1, ha, htaken⟩ := firstTable_ok hf h1 h2
  rw [ha] at h2
  obtain ⟨f2, ht2, hleaf2, hfree2, hcpu2, hsub2, hown2⟩ := recursiveTables_ok hfresh1 hzero h2
  have hsubf : f2.bytes ⊆ f.bytes :=
    hsub2.trans (by rw [FreeList.bytes_erase_size]; exact Set.sdiff_subset)
  have hownf : s2.tableBytes ⊆ f.bytes := hown2.trans (Set.union_subset htaken (by
    rw [FreeList.bytes_erase_size]
    exact Set.sdiff_subset))
  -- the processors' tables
  obtain ⟨hd3, hsub, hfit, hund3⟩ := l0Table_ok ht2 h3 hnull
  have hsame3 : ({ s2 with ram := r3 } : MapState).freeVaddr = startupBase := hfree2
  generalize hs3 : ({ s2 with ram := r3 } : MapState) = s3 at h4 hund3 hsame3
  have hv3 : s3.virtualMode = true := by
    rw [← hs3]
    exact hcpu2.virtualMode.trans hv
  have hstart : (l0Call l0).start s3 = truncpg startupBase := by
    unfold MapCall.start l0Call
    rw [if_pos rfl, hsame3]
  have hlen := l0Call_len hd3
  obtain ⟨f4, hmap⟩ := aarch64Map_ok (c := l0Call l0) (hund3.tables ht2) hv3 hfit
    (show anyVaddr < 2 ^ 64 by decide)
    (hsame3 ▸ startupBase_lt) (fun x h1 h2 => hclear x (hstart ▸ h1)
      (by rw [hstart, hlen] at h2; exact h2)) h4
  have hcpu4 : SameCpus s3 s4 := by
    rw [hmap.grows.rest]
    exact (l0Call l0).chosen_cpus s3 s4.ram
  have hund := fillL0_undisturbed (e := e) (v := v) hmap.tables
    (l0Map_apart ht2 hsub hund3 hmap)
  obtain ⟨m, t, heq, htt, -⟩ := fillL0_frame l0 e { s4 with l0Vaddr := v }
  obtain rfl := Except.ok.inj h
  rw [heq] at hund ⊢
  have hfree3 : (f2.erase l0 (l0 + roundpg (64 * processorsMax))).bytes ⊆ f.bytes :=
    hund3.free.trans hsubf
  refine ⟨l0, s3, s4, _, f4, ⟨hmap, hd3, hfit, hsame3, fun b p hp => ?_, hund, rfl,
    hcpu4.trans ⟨rfl, rfl, rfl⟩,
    hcpu4.virtualMode.trans hv3, htt⟩, ?_, hmap.grows.free.trans hfree3⟩
  · rw [hund3.leaf_eq hp, hleaf2 b p hp]
  · rw [hund.tableBytes_eq]
    refine hmap.grows.tables.trans (Set.union_subset ?_ hfree3)
    rw [((l0Call l0).chosen_same s3).tableBytes, hund3.tableBytes_eq]
    exact hownf

end QnxStartup
