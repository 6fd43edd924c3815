import QnxStartup.Translate

/-! A call of `aarch64_map` as an update of the map from pages to `L3` entries. -/

namespace QnxStartup

/-- The arguments of `aarch64_map`. -/
structure MapCall where
  vaddr : Nat
  paddr : Nat
  size : Nat
  flags : Nat

variable [MmuHeader]
open MmuHeader

def MapCall.len (c : MapCall) : Nat := roundpg (c.size + c.paddr % pagesz)

def MapCall.start (c : MapCall) (s : MapState) : Nat :=
  truncpg (if c.vaddr = anyVaddr then s.freeVaddr else c.vaddr)

def MapCall.chosen (c : MapCall) (s : MapState) : MapState :=
  if c.vaddr = anyVaddr then { s with freeVaddr := u64 (s.freeVaddr + c.len) } else s

theorem and_pagesz_sub_one (x : Nat) : x &&& (pagesz - 1) = x % pagesz := by
  rcases page_cases with ⟨-, hp, -⟩ | ⟨-, hp, -⟩ <;> rw [hp] <;>
    exact Nat.and_two_pow_sub_one_eq_mod x _

theorem roundpg_spec {x : Nat} (hx : x + pagesz ≤ 2 ^ 64) :
    x ≤ roundpg x ∧ pagesz ∣ roundpg x ∧ roundpg x < x + pagesz := by
  unfold roundpg
  rcases page_cases with ⟨-, hp, -⟩ | ⟨-, hp, -⟩ <;> rw [hp] at hx ⊢ <;>
    exact round_two_pow (by decide) hx

theorem truncpg_dvd {x : Nat} (hx : x < 2 ^ 64) : pagesz ∣ truncpg x := by
  rw [truncpg_eq hx]
  exact Dvd.intro_left _ rfl

/-- What the checks of `aarch64_map` leave. -/
structure MapCall.Accepted (c : MapCall) (s : MapState) : Prop where
  fits : c.start s + c.len < 2 ^ 64
  below : c.start s < userEnd → c.start s + c.len < userEnd
  above : ¬ c.start s < userEnd → startupBase ≤ c.start s

theorem pagesz_le : pagesz ≤ 2 ^ 16 := by
  rcases page_cases with ⟨-, hp, -⟩ | ⟨-, hp, -⟩ <;> rw [hp]
  decide

theorem MapCall.len_spec {c : MapCall} (hb : c.paddr + c.size ≤ 2 ^ 48) :
    pagesz ∣ c.len ∧ c.len < 2 ^ 49 ∧ truncpg c.paddr + c.len ≤ 2 ^ 48 := by
  have hpg := pagesz_le
  have hmod := Nat.mod_le c.paddr pagesz
  have hround := roundpg_spec (x := c.size + c.paddr % pagesz) (by omega)
  refine ⟨hround.2.1, by unfold MapCall.len; omega, ?_⟩
  have hdiv := Nat.div_add_mod c.paddr pagesz
  obtain ⟨k, hk⟩ := hround.2.1
  rw [truncpg_eq (by omega), MapCall.len, hk]
  rw [hk] at hround
  rcases page_cases with ⟨-, hp, -⟩ | ⟨-, hp, -⟩ <;> rw [hp] at hround hdiv ⊢ <;> omega

theorem aarch64Map_inv [SyspageHeader] {c : MapCall} {s s' : MapState} {r : Nat}
    (hv : s.virtualMode = true) (hb : c.paddr + c.size ≤ 2 ^ 48) (hva : c.vaddr < 2 ^ 64)
    (hfree : s.freeVaddr < 2 ^ 64) (h : aarch64Map c.vaddr c.paddr c.size c.flags s = .ok (s', r)) :
    c.Accepted s ∧ ∃ cur, mapL1 (if c.start s < userEnd then s.l1Ttbr0 else s.l1Ttbr1)
      (c.start s + c.len) npte
      (if useLargePage then 0 else l1Idx (c.start s))
      ⟨c.start s, setPte (truncpg c.paddr) c.flags s, c.chosen s⟩ = .ok cur ∧ cur.s = s' := by
  have hpg := pagesz_le
  have hlen := c.len_spec hb
  have hmod := Nat.mod_le c.paddr pagesz
  unfold aarch64Map at h
  rw [if_neg (by rw [hv]; decide)] at h
  simp only [and_pagesz_sub_one, and_compl64_pagesz c.paddr (by omega),
    u64_of_lt (by omega : c.size + c.paddr % pagesz < 2 ^ 64),
    ← truncpg_eq (by omega : c.paddr < 2 ^ 64)] at h
  rw [crash_ite_eq_ok] at h
  obtain ⟨-, h⟩ := h
  have hchosen :
      (if c.vaddr = anyVaddr then (s.freeVaddr, { s with freeVaddr := u64 (s.freeVaddr + c.len) })
        else (c.vaddr, s)) = (if c.vaddr = anyVaddr then s.freeVaddr else c.vaddr, c.chosen s) := by
    unfold MapCall.chosen
    split <;> rfl
  have hroots : (c.chosen s).l1Ttbr0 = s.l1Ttbr0 ∧ (c.chosen s).l1Ttbr1 = s.l1Ttbr1 := by
    unfold MapCall.chosen
    split <;> exact ⟨rfl, rfl⟩
  have hpte : setPte (truncpg c.paddr) c.flags (c.chosen s) =
      setPte (truncpg c.paddr) c.flags s := by
    unfold MapCall.chosen
    split
    · simp only [setPte]
    · rfl
  have hlt : (if c.vaddr = anyVaddr then s.freeVaddr else c.vaddr) < 2 ^ 64 := by
    split
    · exact hfree
    · exact hva
  have hstart : c.start s < 2 ^ 64 := by
    rw [MapCall.start, truncpg_eq hlt]
    exact (Nat.div_mul_le_self _ _).trans_lt hlt
  have hlen_eq : roundpg (c.size + c.paddr % pagesz) = c.len := rfl
  have hstart_eq : truncpg (if c.vaddr = anyVaddr then s.freeVaddr else c.vaddr) = c.start s := rfl
  rw [hlen_eq, hchosen] at h
  dsimp only at h
  rw [hstart_eq] at h
  rw [crash_ite_eq_ok, crash_ite_eq_ok, crash_ite_eq_ok] at h
  obtain ⟨hwrap, hbelow, habove, h⟩ := h
  have hfits : c.start s + c.len < 2 ^ 64 := by
    unfold u64 at hwrap
    omega
  rw [u64_of_lt hfits] at hbelow h
  obtain ⟨cur, hrun, h⟩ := bind_eq_ok.mp h
  rw [hroots.1, hroots.2, hpte] at hrun
  cases h
  exact ⟨⟨hfits, fun hs => by omega, fun hs => by omega⟩, cur, hrun, rfl⟩

theorem MapCall.Accepted.mappable {c : MapCall} {s : MapState} (h : c.Accepted s) :
    Mappable (c.start s) := by
  have hfits := h.fits
  by_cases hlt : c.start s < userEnd
  · exact .inl hlt
  · exact .inr ⟨h.above hlt, by omega⟩

theorem MapCall.Accepted.mappable_of_mem {c : MapCall} {s : MapState} (h : c.Accepted s) {x : Nat}
    (hx : c.start s ≤ x ∧ x < c.start s + c.len) : Mappable x ∧ treeOf x = treeOf (c.start s) := by
  have hfits := h.fits
  have hbelow := h.below
  have habove := h.above
  have hbase := startupBase_ge
  have huser := userEnd_le
  unfold Mappable treeOf
  by_cases hlt : c.start s < userEnd
  · have := hbelow hlt
    exact ⟨.inl (by omega), by simp [hlt, show x < userEnd by omega]⟩
  · have := habove hlt
    exact ⟨.inr ⟨by omega, by omega⟩, by simp [hlt, show ¬ x < userEnd by omega]⟩

theorem MapCall.Accepted.mem_iff {c : MapCall} {s : MapState} (h : c.Accepted s)
    (hd : pagesz ∣ c.start s) (hlen : pagesz ∣ c.len) {x : Nat} (hx : Mappable x) :
    (treeOf x = treeOf (c.start s) ∧ pageOf (c.start s) ≤ pageOf x ∧
      pageOf x < pageOf (c.start s) + c.len / pagesz) ↔
      c.start s ≤ x ∧ x < c.start s + c.len := by
  by_cases ht : treeOf x = treeOf (c.start s)
  · have h1 := (mappable_page hx).1
    have h2 := (mappable_page h.mappable).1
    have ho : x % pagesz < pagesz := Nat.mod_lt _ pagesz_pos
    obtain ⟨k, hk⟩ := hlen
    rw [Nat.mod_eq_zero_of_dvd hd, Nat.add_zero] at h2
    rw [ht] at h1
    simp only [ht, true_and]
    unfold pageVa at h1 h2
    rw [hk, Nat.mul_div_cancel_left k pagesz_pos]
    rcases page_cases with ⟨-, hp, -⟩ | ⟨-, hp, -⟩ <;> rw [hp] at h1 h2 ho ⊢ <;> omega
  · simp only [ht, false_and, false_iff]
    exact fun hm => ht (h.mappable_of_mem hm).2

structure CallMapped (c : MapCall) (s s' : MapState) (f f' : FreeList) : Prop where
  accepted : c.Accepted s
  tables : s'.Tables f'
  grows : Grows (c.chosen s) s' f f'
  leaves : ∀ k p, Place k (leafPath (p / npte)) →
    s'.leaf k p =
      if k = treeOf (c.start s) ∧ pageOf (c.start s) ≤ p ∧
        p < pageOf (c.start s) + c.len / pagesz then
        mappedPte (pteAttr c.flags s) (pageOf (c.start s)) (pageOf (c.start s) + c.len / pagesz)
          (truncpg c.paddr) p
      else s.leaf k p

theorem MapCall.chosen_same (c : MapCall) (s : MapState) : SameTables s (c.chosen s) := by
  unfold MapCall.chosen
  split <;> exact ⟨rfl, rfl, rfl⟩

theorem MapCall.start_aligned {c : MapCall} {s : MapState} (hva : c.vaddr < 2 ^ 64)
    (hfree : s.freeVaddr < 2 ^ 64) :
    pagesz ∣ c.start s := by
  unfold MapCall.start
  split
  · exact truncpg_dvd hfree
  · exact truncpg_dvd hva

theorem MapCall.Accepted.start_page {c : MapCall} {s : MapState} (hacc : c.Accepted s)
    (hstart : pagesz ∣ c.start s) :
    c.start s = pageVa (treeOf (c.start s)) (pageOf (c.start s)) := by
  have hpage := (mappable_page hacc.mappable).1
  rwa [Nat.mod_eq_zero_of_dvd hstart, Nat.add_zero] at hpage

theorem MapCall.Accepted.stop_page {c : MapCall} {s : MapState} (hacc : c.Accepted s)
    (hstart : pagesz ∣ c.start s) (hlen : pagesz ∣ c.len) :
    c.start s + c.len = pageVa (treeOf (c.start s)) (pageOf (c.start s) + c.len / pagesz) := by
  rw [pageVa_add, ← hacc.start_page hstart, Nat.div_mul_cancel hlen]

theorem MapCall.Accepted.count_le {c : MapCall} {s : MapState} (hacc : c.Accepted s)
    (hstart : pagesz ∣ c.start s) (hlen : pagesz ∣ c.len) :
    pageOf (c.start s) + c.len / pagesz ≤ pageCount := by
  have hstop := hacc.stop_page hstart hlen
  have hbelow := hacc.below
  have hfits := hacc.fits
  have huser := userEnd_le
  rw [hstop] at hbelow hfits
  unfold pageVa treeOf at hbelow hfits
  by_cases hlt : c.start s < userEnd
  · have hb := hbelow hlt
    simp only [hlt, not_true_eq_false, decide_false] at hb
    rcases page_geometry with ⟨-, hpg, -, hc, hvb⟩ | ⟨-, hpg, -, hc, hvb⟩ <;>
      rw [hvb, if_neg (by decide), hpg] at hb <;>
      rw [hpg, hc] <;> omega
  · simp only [hlt, not_false_eq_true, decide_true] at hfits
    rcases page_geometry with ⟨-, hpg, -, hc, hvb⟩ | ⟨-, hpg, -, hc, hvb⟩ <;>
      rw [hvb, if_pos rfl, hpg] at hfits <;>
      rw [hpg, hc] <;> omega

theorem MapCall.Accepted.place {c : MapCall} {s : MapState} {p : Nat} (hacc : c.Accepted s)
    (hstart : pagesz ∣ c.start s) (hlen : pagesz ∣ c.len)
    (hclear : ∀ x, c.start s ≤ x → x < c.start s + c.len → ¬ RecursiveSlot x)
    (hp : pageOf (c.start s) ≤ p) (hp' : p < pageOf (c.start s) + c.len / pagesz) :
    Place (treeOf (c.start s)) (leafPath (p / npte)) := by
  have hlo := pageVa_le (b := treeOf (c.start s)) hp
  have hhi := pageVa_lt_iff (b := treeOf (c.start s)).mpr hp'
  rw [← hacc.start_page hstart] at hlo
  rw [← hacc.stop_page hstart hlen] at hhi
  obtain ⟨hm, ht⟩ := hacc.mappable_of_mem ⟨hlo, hhi⟩
  have hpo : pageOf (pageVa (treeOf (c.start s)) p) = p := by
    rw [pageOf, ht, pageVa, Nat.add_sub_cancel_left, Nat.mul_div_cancel _ pagesz_pos]
  have hplace := mappable_place hm (hclear _ hlo hhi)
  rwa [ht, hpo] at hplace

theorem MapCall.Accepted.range {c : MapCall} {s : MapState} {f : FreeList} (hacc : c.Accepted s)
    (hs : s.Tables f) (hb : c.paddr + c.size ≤ 2 ^ 48) (hstart : pagesz ∣ c.start s)
    (hclear : ∀ x, c.start s ≤ x → x < c.start s + c.len → ¬ RecursiveSlot x) :
    MapRange (treeOf (c.start s)) (pteAttr c.flags s) (pageOf (c.start s))
      (pageOf (c.start s) + c.len / pagesz)
      (truncpg c.paddr) ⟨c.start s, setPte (truncpg c.paddr) c.flags s, c.chosen s⟩ f := by
  obtain ⟨hlen, -, hphys⟩ := c.len_spec hb
  exact
    { attr := isAttr_pteAttr c.flags s
      tables := (c.chosen_same s).tables hs
      va := hacc.start_page hstart
      le := Nat.le_add_right _ _
      count := hacc.count_le hstart hlen
      stop_lt := hacc.stop_page hstart hlen ▸ hacc.fits
      aligned := truncpg_dvd (by omega)
      physical := by rw [Nat.add_sub_cancel_left, Nat.div_mul_cancel hlen]; exact hphys
      pte := fun hlt => by
        have hpos : 0 < c.len / pagesz := by omega
        have hlen_pos : 0 < c.len := by
          by_contra h0
          rw [show c.len = 0 by omega, Nat.zero_div] at hpos
          omega
        rw [setPte_eq, (isAttr_pteAttr c.flags s).paddr_or (page_dvd.trans (truncpg_dvd (by omega)))
          (by omega)]
      usable := fun _ hp hp' => hacc.place hstart hlen hclear hp hp' }

theorem aarch64Map_ok [SyspageHeader] {c : MapCall} {s s' : MapState} {f : FreeList} {r : Nat}
    (hs : s.Tables f) (hv : s.virtualMode = true) (hb : c.paddr + c.size ≤ 2 ^ 48)
    (hva : c.vaddr < 2 ^ 64) (hfree : s.freeVaddr < 2 ^ 64)
    (hclear : ∀ x, c.start s ≤ x → x < c.start s + c.len → ¬ RecursiveSlot x)
    (h : aarch64Map c.vaddr c.paddr c.size c.flags s = .ok (s', r)) :
    ∃ f', CallMapped c s s' f f' := by
  obtain ⟨hacc, cur, hrun, rfl⟩ := aarch64Map_inv hv hb hva hfree h
  obtain ⟨hlen, -, -⟩ := c.len_spec hb
  have hstart := c.start_aligned (s := s) hva hfree
  have hpage := hacc.start_page hstart
  have hcount := (mappable_page hacc.mappable).2
  have hsame := c.chosen_same s
  have hrange := hacc.range hs hb hstart hclear
  have hroot : (c.chosen s).forest.table (treeOf (c.start s)) [] =
      some (if c.start s < userEnd then s.l1Ttbr0 else s.l1Ttbr1) := by
    rw [l1_root, hsame.ttbr0, hsame.ttbr1]
    simp only [treeOf, decide_eq_true_eq]
    split_ifs <;> rfl
  rw [hacc.stop_page hstart hlen] at hrun
  have hmapped : ∃ f', RangeMapped (treeOf (c.start s)) (pteAttr c.flags s) (pageOf (c.start s))
      (pageOf (c.start s) + c.len / pagesz) (truncpg c.paddr) pageCount
      ⟨c.start s, setPte (truncpg c.paddr) c.flags s, c.chosen s⟩ cur f f' := by
    by_cases hl : useLargePage = true
    · rw [if_pos hl] at hrun
      exact mapL1_large hl hrange hroot npte_pos hrun
    · have hl' : useLargePage = false := by simpa using hl
      have hidx := l1_index (b := treeOf (c.start s)) (o := 0) hl' hcount pagesz_pos
      rw [Nat.add_zero, ← hpage] at hidx
      rw [if_neg hl, hidx] at hrun
      have hlt : pageOf (c.start s) / npte / npte < npte :=
        leafPath_lt hcount (by simp [leafPath, hl'])
      exact mapL1_small hl' npte _ _ _ _ cur f hrange hroot (fun _ => rfl) hlt.le
        (Nat.le_add_left _ _) hrun
  obtain ⟨f', h'⟩ := hmapped
  have hcount' := hacc.count_le hstart hlen
  refine ⟨f', hacc, h'.tables, h'.grows, fun k p hp => ?_⟩
  rw [h'.leaves k p hp, hsame.leaf]
  have hiff : (k = treeOf (c.start s) ∧ pageOf (c.start s) ≤ p ∧
      p < pageOf (c.start s) + c.len / pagesz ∧ p < pageCount) ↔
      (k = treeOf (c.start s) ∧ pageOf (c.start s) ≤ p ∧ p < pageOf (c.start s) + c.len / pagesz) :=
    and_congr_right fun _ => by omega
  simp only [hiff]

end QnxStartup
