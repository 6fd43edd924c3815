import QnxStartup.PageMap

/-! Addresses, their trees and pages, and the software walk of `elf_vaddr_to_paddr` as a
look-up in the map from pages to `L3` entries. -/

namespace QnxStartup

theorem and_three (e : Nat) : e &&& 3 = e % 4 := Nat.and_two_pow_sub_one_eq_mod e 2

theorem and_ptpValid (e : Nat) : e &&& ptpValid = e % 2 := Nat.and_two_pow_sub_one_eq_mod e 1

variable [MmuHeader]
open MmuHeader

/-- The addresses that the tables can translate. -/
def Mappable (va : Nat) : Prop := va < userEnd ∨ startupBase ≤ va ∧ va < 2 ^ 64

/-- The addresses behind the slots through which `aarch64_map_init` links tables to themselves. -/
def RecursiveSlot (va : Nat) : Prop :=
  ¬ va < userEnd ∧
    if useLargePage then l2Idx64K va = l1L1Idx else l1Idx va = l1L1Idx ∨ l1Idx va = l1L2Idx ∧
      l2Idx va = l2L2Idx

def treeOf (va : Nat) : Bool := ¬ va < userEnd

def pageOf (va : Nat) : Nat := (va - vaBase (treeOf va)) / pagesz

theorem startupBase_ge : 2 ^ 64 - 2 ^ (if useLargePage then 42 else 39) ≤ startupBase := by
  unfold startupBase
  split
  · exact startupBase64K_ge
  · exact startupBase4K_ge

theorem mappable_page {va : Nat} (h : Mappable va) :
    va = pageVa (treeOf va) (pageOf va) + va % pagesz ∧ pageOf va < pageCount := by
  have hu := userEnd_le
  have hs := startupBase_ge
  unfold Mappable at h
  unfold pageVa pageOf treeOf
  by_cases hlt : va < userEnd
  · simp only [hlt, not_true_eq_false, decide_false]
    rcases page_geometry with ⟨hl, hpg, -, hc, hb⟩ | ⟨hl, hpg, -, hc, hb⟩ <;>
      rw [hpg, hc, hb, if_neg (by decide)] <;> omega
  · simp only [hlt, not_false_eq_true, decide_true]
    rcases page_geometry with ⟨hl, hpg, -, hc, hb⟩ | ⟨hl, hpg, -, hc, hb⟩ <;>
      rw [hpg, hc, hb, if_pos rfl] <;> simp only [hl, Bool.false_eq_true, if_false,
        if_true] at hs <;> omega

theorem pagesz_pos : 0 < pagesz := by
  rcases page_cases with ⟨-, hp, -⟩ | ⟨-, hp, -⟩ <;> rw [hp] <;> decide

/-- The indices that the walk of an address uses. -/
theorem mappable_index {va : Nat} (h : Mappable va) :
    (if useLargePage then l2Idx64K va else l2Idx va) = pageOf va / npte % npte ∧
      (if useLargePage then l3Idx64K va else l3Idx va) = pageOf va % npte ∧
      (useLargePage = false → l1Idx va = pageOf va / npte / npte) := by
  obtain ⟨hva, hp⟩ := mappable_page h
  have ho : va % pagesz < pagesz := Nat.mod_lt _ pagesz_pos
  have h2 := l2_index (b := treeOf va) (p := pageOf va) ho
  have h3 := l3_index (b := treeOf va) (p := pageOf va) ho
  rw [← hva] at h2 h3
  refine ⟨h2, h3, fun hl => ?_⟩
  have h1 := l1_index (b := treeOf va) hl hp ho
  rwa [← hva] at h1

theorem forest_root (s : MapState) (va : Nat) :
    (if va < userEnd then s.l1Ttbr0 else s.l1Ttbr1) = s.forest.root (treeOf va) := by
  simp only [MapState.forest, treeOf, decide_eq_true_eq]
  split_ifs <;> rfl

theorem leafPath_large (hl : useLargePage = true) (c : Nat) : leafPath c = [] ++ [c] := by
  simp [leafPath, hl]

theorem leafPath_div_mod (hl : useLargePage = false) (c : Nat) :
    leafPath c = [c / npte] ++ [c % npte] := by
  simp [leafPath, hl]

theorem leafPath_lt {p i : Nat} (hp : p < pageCount) (hi : i ∈ leafPath (p / npte)) : i < npte := by
  unfold leafPath at hi
  rcases page_geometry with ⟨hl, -, hn, hc, -⟩ | ⟨hl, -, hn, hc, -⟩ <;> rw [hc] at hp <;>
    rw [hl, hn] at hi <;> rw [hn]
  · simp only [Bool.false_eq_true, if_false, List.mem_cons, List.not_mem_nil, or_false] at hi
    omega
  · simp only [if_true, List.mem_singleton] at hi
    omega

theorem mappable_place {va : Nat} (h : Mappable va) (hr : ¬ RecursiveSlot va) :
    Place (treeOf va) (leafPath (pageOf va / npte)) := by
  have hp := (mappable_page h).2
  obtain ⟨h2, -, h1⟩ := mappable_index h
  refine ⟨(leafPath_length _).le, fun i hi => leafPath_lt hp hi,
    fun ⟨hb, hs⟩ => hr ⟨by simpa [treeOf] using hb, ?_⟩⟩
  by_cases hl : useLargePage = true
  · have hlt : pageOf va / npte < npte := leafPath_lt hp (by simp [leafPath, hl])
    rw [hl, if_pos rfl, Nat.mod_eq_of_lt hlt] at h2
    rw [hl, if_pos rfl, h2]
    simpa [leafPath, hl, eq_comm] using hs
  · have hl' : useLargePage = false := by simpa using hl
    rw [hl', if_neg (by decide)] at h2
    rw [hl', if_neg (by decide), h1 hl', h2]
    simpa [leafPath, hl', eq_comm] using hs

/-- The entry that the walk of an address reads from an `L3` table, when it gets there. -/
def l3Entry (vaddr : Nat) (s : MapState) : Option Nat :=
  let next (ptp : Nat) : Option Nat :=
    if ptp &&& ptpValid = 0 ∨ ptpType ptp = ptpBlock then none else some (ptpPaddr ptp)
  let l1 := if vaddr < userEnd then s.l1Ttbr0 else s.l1Ttbr1
  (if useLargePage then some l1 else next (s.entry l1 (l1Idx vaddr))).bind fun l2 =>
    (next (s.entry l2 (if useLargePage then l2Idx64K vaddr else l2Idx vaddr))).bind fun l3 =>
      some (s.entry l3 (if useLargePage then l3Idx64K vaddr else l3Idx vaddr))

theorem linked_next {e : Nat} (h : e = 0 ∨ e % 4 = 3) :
    (if e &&& ptpValid = 0 ∨ ptpType e = ptpBlock then none else some (ptpPaddr e)) =
      if e = 0 then none else some (ptpPaddr e) := by
  rw [and_ptpValid, ptpType, and_three, ptpBlock]
  split_ifs <;> first | rfl | omega

theorem linked_walk {α : Type} {e : Nat} (h : e = 0 ∨ e % 4 = 3) (x y : α) (g : Nat → α) :
    (if e &&& ptpValid = 0 then x else if ptpType e = ptpBlock then y else g (ptpPaddr e)) =
      (if e = 0 then none else some (ptpPaddr e)).elim x g := by
  rw [and_ptpValid, ptpType, and_three, ptpBlock]
  by_cases he : e = 0
  · rw [if_pos he, if_pos (by omega)]
    rfl
  · rw [if_neg he, if_neg (by omega), if_neg (by omega)]
    rfl

theorem l3Entry_eq {s : MapState} {f : FreeList} {va : Nat} (hs : s.Tables f) (h : Mappable va)
    (hr : ¬ RecursiveSlot va) :
    l3Entry va s = (s.forest.table (treeOf va) (leafPath (pageOf va / npte))).map
      (s.entry · (pageOf va % npte)) := by
  have hp := (mappable_page h).2
  obtain ⟨h2, h3, h1⟩ := mappable_index h
  have hplace := mappable_place h hr
  have hlink : ∀ {p i t}, Place (treeOf va) (p ++ [i]) → s.forest.table (treeOf va) p = some t →
      (if s.entry t i &&& ptpValid = 0 ∨ ptpType (s.entry t i) = ptpBlock then none
        else some (ptpPaddr (s.entry t i))) = s.forest.table (treeOf va) (p ++ [i]) := by
    intro p i t hp ht
    rw [linked_next (hs.linked hp ht), TableForest.table_snoc, ht, Option.bind_some,
      MapState.forest_link]
  unfold l3Entry
  dsimp only
  rw [h2, h3, forest_root]
  by_cases hl : useLargePage = true
  · have hlt : pageOf va / npte < npte := leafPath_lt hp (by simp [leafPath, hl])
    rw [leafPath_large hl] at hplace ⊢
    rw [hl, if_pos rfl, Nat.mod_eq_of_lt hlt, Option.bind_some, hlink hplace rfl]
    cases s.forest.table (treeOf va) ([] ++ [pageOf va / npte]) <;> rfl
  · have hl' : useLargePage = false := by simpa using hl
    rw [leafPath_div_mod hl'] at hplace ⊢
    have hplace1 : Place (treeOf va) ([] ++ [pageOf va / npte / npte]) :=
      place_prefixClosed _ _ _ hplace
    rw [hl', if_neg (by decide), h1 hl', hlink hplace1 rfl]
    cases ht : s.forest.table (treeOf va) ([] ++ [pageOf va / npte / npte]) with
    | none =>
      rw [TableForest.table_snoc, show [pageOf va / npte / npte] =
        [] ++ [pageOf va / npte / npte] from rfl, ht]; rfl
    | some l2 =>
      rw [Option.bind_some, hlink hplace ht]
      cases s.forest.table (treeOf va) ([pageOf va / npte / npte] ++ [pageOf va / npte % npte]) <;>
        rfl

theorem l3_offset (va : Nat) :
    (if useLargePage then l3Voff64K va else l3Voff va) = va % pagesz := by
  unfold l3Voff64K l3Voff
  rw [Nat.and_two_pow_sub_one_eq_mod, Nat.and_two_pow_sub_one_eq_mod]
  rcases page_cases with ⟨hl, hp, -⟩ | ⟨hl, hp, -⟩ <;> rw [hl, hp] <;> rfl

/-- What an `L3` entry translates an address to. -/
def pteTarget (pte va : Nat) : Nat :=
  if pte &&& pteValid ≠ pteValid then nullPaddr else ptpPaddr pte ||| va % pagesz

theorem elfVaddrToPaddr_eq {s : MapState} {f : FreeList} {va : Nat} (hs : s.Tables f)
    (h : Mappable va) (hr : ¬ RecursiveSlot va) :
    elfVaddrToPaddr va s = .ok ((l3Entry va s).elim nullPaddr (pteTarget · va)) := by
  have hp := (mappable_page h).2
  obtain ⟨h2, h3, h1⟩ := mappable_index h
  have hplace := mappable_place h hr
  have hlink : ∀ {p i t} (x y : Startup Nat) (g : Nat → Startup Nat), Place (treeOf va) (p ++ [i]) →
      s.forest.table (treeOf va) p = some t →
      (if s.entry t i &&& ptpValid = 0 then x else if ptpType (s.entry t i) = ptpBlock then y
        else g (ptpPaddr (s.entry t i))) = (s.forest.table (treeOf va) (p ++ [i])).elim x g := by
    intro p i t x y g hp ht
    rw [linked_walk (hs.linked hp ht), TableForest.table_snoc, ht, Option.bind_some,
      MapState.forest_link]
  have hbad : ¬ (¬ va < userEnd ∧ va < startupBase) := fun hc => by
    have := h.resolve_left hc.1
    omega
  rw [l3Entry_eq hs h hr]
  unfold elfVaddrToPaddr
  rw [if_neg hbad]
  dsimp only
  rw [h2, h3, forest_root, l3_offset]
  have hleaf : ∀ t, (if s.entry t (pageOf va % npte) &&& pteValid ≠ pteValid then .ok nullPaddr
      else .ok (ptpPaddr (s.entry t (pageOf va % npte)) ||| va % pagesz) : Startup Nat) =
      .ok (pteTarget (s.entry t (pageOf va % npte)) va) := by
    intro t
    unfold pteTarget
    split_ifs <;> rfl
  simp only [hleaf]
  by_cases hl : useLargePage = true
  · have hlt : pageOf va / npte < npte := leafPath_lt hp (by simp [leafPath, hl])
    rw [leafPath_large hl] at hplace ⊢
    rw [if_pos hl, Nat.mod_eq_of_lt hlt,
      hlink _ _ (fun t => .ok (pteTarget (s.entry t (pageOf va % npte)) va)) hplace rfl]
    cases s.forest.table (treeOf va) ([] ++ [pageOf va / npte]) <;> rfl
  · have hl' : useLargePage = false := by simpa using hl
    rw [leafPath_div_mod hl'] at hplace ⊢
    have hplace1 : Place (treeOf va) ([] ++ [pageOf va / npte / npte]) :=
      place_prefixClosed _ _ _ hplace
    rw [if_neg hl, h1 hl', hlink _ _ (fun l2 =>
      if s.entry l2 (pageOf va / npte % npte) &&& ptpValid = 0 then .ok nullPaddr
      else if ptpType (s.entry l2 (pageOf va / npte % npte)) = ptpBlock then
        .ok (ptpPaddr (s.entry l2 (pageOf va / npte % npte)) ||| if useLargePage then l2Voff64K va
          else l2Voff va)
      else .ok (pteTarget (s.entry (ptpPaddr (s.entry l2 (pageOf va / npte % npte)))
        (pageOf va % npte)) va))
      hplace1 rfl]
    cases ht : s.forest.table (treeOf va) ([] ++ [pageOf va / npte / npte]) with
    | none =>
      rw [TableForest.table_snoc, show [pageOf va / npte / npte] =
        [] ++ [pageOf va / npte / npte] from rfl, ht]
      rfl
    | some l2 =>
      rw [Option.elim_some,
        hlink _ _ (fun t => .ok (pteTarget (s.entry t (pageOf va % npte)) va)) hplace ht]
      cases s.forest.table (treeOf va) ([pageOf va / npte / npte] ++ [pageOf va / npte % npte]) <;>
        rfl

end QnxStartup
