import QnxStartup.PagesMapped

/-! The contiguous bit: its groups stay whole as long as no call covers a part of one. -/

namespace QnxStartup

section
variable [MmuHeader]
open MmuHeader

def contigSize : Nat := contigPages * pagesz

/-- Every `L3` entry with the contiguous bit belongs to an aligned group of entries that
all have it, with the same attributes, and map consecutive pages from an aligned address
on. -/
def ContigConsistent (s : MapState) : Prop :=
  ∀ x pte, Mappable x → ¬ RecursiveSlot x → l3Entry x s = some pte → pte &&& pteContig ≠ 0 →
    ∃ a pa, IsAttr a ∧ contigSize ∣ pa ∧
      ∀ i < contigPages, l3Entry (x / contigSize * contigSize + i * pagesz) s =
      some (pa + i * pagesz ||| a ||| pteContig)

/-- The call covers every group of contiguous entries as a whole or not at all. -/
def MapCall.WholeGroups (c : MapCall) (s : MapState) : Prop :=
  ∀ x pte, Mappable x → ¬ RecursiveSlot x → l3Entry x s = some pte → pte &&& pteContig ≠ 0 →
    ∀ y, y / contigSize = x / contigSize → (c.mapping s).Covers y → (c.mapping s).Covers x

omit [MmuHeader] in
theorem and_pteContig_of_room {v : Nat} (h : v / 2 ^ 52 % 2 = 0) : v &&& pteContig = 0 := by
  rw [pteContig, Nat.and_two_pow, Nat.testBit_eq_decide_div_mod_eq, h]
  rfl

omit [MmuHeader] in
theorem or_and_pteContig (v : Nat) : (v ||| pteContig) &&& pteContig ≠ 0 := by
  rw [Nat.and_or_distrib_right, Nat.and_self]
  intro h
  exact absurd (Nat.or_eq_zero_iff.mp h).2 (by decide)

def Mapping.Groups (e : Mapping) (x : Nat) : Prop :=
  Grouped (pageOf e.start) (pageOf e.start + e.call.len / pagesz) (truncpg e.call.paddr) (pageOf x)

theorem Mapping.Valid.groups_of_contig {e : Mapping} (h : e.Valid) {x : Nat} (hx : e.Covers x)
    (hc : e.pte x &&& pteContig ≠ 0) : e.Groups x := by
  obtain ⟨hd, hlt⟩ := h.physical_page hx
  by_contra hg
  apply hc
  unfold Mapping.Groups at hg
  rw [Mapping.pte, mappedPte, if_neg hg, Nat.add_zero]
  exact and_pteContig_of_room (h.attr.contig_room hd hlt).1

theorem contigSize_dvd_vaBase (b : Bool) : contigSize ∣ vaBase b := by
  unfold contigSize vaBase
  rcases page_cases with ⟨hl, hp, -, hc⟩ | ⟨hl, hp, -, hc⟩ <;> rw [hl, hp, hc] <;>
    cases b <;> decide

theorem contigPages_pos : 0 < contigPages := by
  rcases page_cases with ⟨-, -, -, hc⟩ | ⟨-, -, -, hc⟩ <;> rw [hc] <;> decide

theorem vaBase_le {x : Nat} (hx : Mappable x) : vaBase (treeOf x) ≤ x := by
  have h := (mappable_page hx).1
  generalize treeOf x = b at h ⊢
  rw [h, pageVa, Nat.add_assoc]
  exact Nat.le_add_right _ _

theorem group_va {x : Nat} (hx : Mappable x) :
    x / contigSize * contigSize = pageVa (treeOf x) (groupStart (pageOf x)) := by
  have hle := vaBase_le hx
  unfold pageVa groupStart pageOf
  obtain ⟨k, hk⟩ := contigSize_dvd_vaBase (treeOf x)
  rw [hk] at hle ⊢
  have hkx : k ≤ x / contigSize :=
    (Nat.le_div_iff_mul_le (Nat.mul_pos contigPages_pos pagesz_pos)).mpr (Nat.mul_comm k _ ▸ hle)
  have hdiv : (x - contigSize * k) / pagesz / contigPages = x / contigSize - k := by
    rw [Nat.div_div_eq_div_mul, Nat.mul_comm pagesz]
    exact Nat.sub_mul_div _ _ _
  rw [hdiv, Nat.mul_assoc]
  change _ = contigSize * k + (x / contigSize - k) * contigSize
  rw [Nat.sub_mul, Nat.mul_comm contigSize k, Nat.add_sub_cancel' (Nat.mul_le_mul_right _ hkx)]

theorem pageOf_pageVa {b : Bool} {p : Nat} (ht : treeOf (pageVa b p) = b) :
    pageOf (pageVa b p) = p := by
  rw [pageOf, ht, pageVa, Nat.add_sub_cancel_left, Nat.mul_div_cancel _ pagesz_pos]

theorem Mapping.Valid.covers_group {e : Mapping} (h : e.Valid) {x y : Nat} (hx : e.Covers x)
    (hgrp : e.Groups x) (hg : y / contigSize = x / contigSize) : e.Covers y := by
  have hstart : e.Covers e.start := ⟨le_rfl, by have := hx.1; have := hx.2; omega⟩
  have hva := (mappable_page (h.pages _ hstart).1).1
  rw [Nat.mod_eq_zero_of_dvd h.aligned, Nat.add_zero] at hva
  have hgroup := group_va (h.pages x hx).1
  rw [(h.pages x hx).2.1, ← hg] at hgroup
  have hpos : 0 < contigSize := Nat.mul_pos contigPages_pos pagesz_pos
  obtain ⟨hlo, hhi, -⟩ := hgrp
  have hlo' := pageVa_le (b := treeOf e.start) hlo
  have hhi' := pageVa_le (b := treeOf e.start) hhi
  rw [pageVa_add, pageVa_add, Nat.div_mul_cancel h.len, ← hva, ← hgroup] at hhi'
  rw [← hva, ← hgroup] at hlo'
  have hy := Nat.div_mul_le_self y contigSize
  have hy' := Nat.lt_div_mul_add hpos (a := y)
  exact ⟨by omega, by unfold contigSize at *; omega⟩

theorem groupStart_add {p i : Nat} (hi : i < contigPages) :
    groupStart (groupStart p + i) = groupStart p := by
  unfold groupStart
  rw [Nat.mul_comm (p / contigPages), Nat.mul_add_div contigPages_pos, Nat.div_eq_of_lt hi,
    Nat.add_zero, Nat.mul_comm]

/-- A group of contiguous entries comes from one mapping, no page of it mapped again. -/
def GroupsWhole (past : List Mapping) : Prop :=
  ∀ x, lastPte past x &&& pteContig ≠ 0 →
    ∃ e ∈ past, e.Covers x ∧ e.Groups x ∧ ∀ y, y / contigSize = x / contigSize → e.Shows past y

theorem Mapping.shows_cons_self {e : Mapping} {past : List Mapping} {x : Nat} (hx : e.Covers x) :
    e.Shows (e :: past) x :=
  shows_of_split hx (List.forall_mem_nil _)

theorem Mapping.Shows.cons {e m : Mapping} {past : List Mapping} {x : Nat} (h : e.Shows past x)
    (hm : ¬ m.Covers x) :
    e.Shows (m :: past) x :=
  ⟨h.1, by rw [List.find?_cons_of_neg (by simpa using hm), h.2]⟩

theorem GroupsWhole.cons {past : List Mapping} {m : Mapping} (h : GroupsWhole past) (hm : m.Valid)
    (hwhole : ∀ x, lastPte past x &&& pteContig ≠ 0 → ∀ y, y / contigSize = x / contigSize →
      m.Covers y → m.Covers x) :
    GroupsWhole (m :: past) := by
  intro x hx
  rw [lastPte_cons] at hx
  by_cases hc : m.Covers x
  · rw [if_pos hc] at hx
    have hg := hm.groups_of_contig hc hx
    exact ⟨m, by simp, hc, hg, fun y hy => Mapping.shows_cons_self (hm.covers_group hc hg hy)⟩
  · rw [if_neg hc] at hx
    obtain ⟨e, he, hcov, hg, hshow⟩ := h x hx
    exact ⟨e, by simp [he], hcov, hg, fun y hy => (hshow y hy).cons fun hcy =>
      hc (hwhole x hx y hy hcy)⟩

theorem MapInv.consistent {past : List Mapping} {s : MapState} (h : MapInv past s)
    (hg : GroupsWhole past) :
    ContigConsistent s := by
  intro x pte hx hr hpte hc
  have hlast : lastPte past x = pte := h.lastPte_of_l3Entry hx hr hpte
  obtain ⟨e, he, hcov, hgrp, hshow⟩ := hg x (hlast ▸ hc)
  have hv := h.valid e he
  have hd : contigSize ∣ truncpg e.call.paddr + (groupStart (pageOf x) - pageOf e.start) * pagesz :=
    hgrp.2.2
  refine ⟨e.attr, _, hv.attr, hd, fun i hi => ?_⟩
  have hlt : i * pagesz < contigSize := Nat.mul_lt_mul_of_pos_right hi pagesz_pos
  have hsame : (x / contigSize * contigSize + i * pagesz) / contigSize = x / contigSize := by
    rw [Nat.mul_comm, Nat.mul_add_div (by omega), Nat.div_eq_of_lt hlt, Nat.add_zero]
  have hs := hshow _ hsame
  have hva : x / contigSize * contigSize + i * pagesz =
      pageVa (treeOf e.start) (groupStart (pageOf x) + i) := by
    rw [group_va hx, pageVa_add, (hv.pages x hcov).2.1]
  rw [hva] at hs ⊢
  obtain ⟨hym, hyt, hyr⟩ := hv.pages _ hs.1
  have hpage := pageOf_pageVa hyt
  generalize pageVa (treeOf e.start) (groupStart (pageOf x) + i) = y at hs hym hyt hyr hpage ⊢
  have hlasty := lastPte_of_shows hs
  rw [h.l3Entry_of_ne_zero hym hyr (hlasty ▸ hv.pte_ne_zero y), hlasty]
  have hgy : Grouped (pageOf e.start) (pageOf e.start + e.call.len / pagesz) (truncpg e.call.paddr)
      (groupStart (pageOf x) + i) := by
    unfold Grouped
    rw [groupStart_add hi]
    exact hgrp
  obtain ⟨hdp, hlt48⟩ := hv.physical_page hs.1
  have hpa : truncpg e.call.paddr + (groupStart (pageOf x) - pageOf e.start) * pagesz + i * pagesz =
      truncpg e.call.paddr + (groupStart (pageOf x) + i - pageOf e.start) * pagesz := by
    rw [Nat.add_assoc, ← Nat.add_mul, ← Nat.sub_add_comm hgrp.1]
  rw [hpage] at hdp hlt48
  rw [hpa, hv.attr.paddr_or (page_dvd.trans hdp) hlt48,
    or_pteContig (hv.attr.contig_room hdp hlt48).1, Mapping.pte, hpage, mappedPte, if_pos hgy]

theorem groupsWhole_nil : GroupsWhole [] := fun _ hx => absurd (Nat.zero_and _) hx

end

section
variable [SyspageHeader] [MmuHeader]

theorem MapRun.groupsWhole {s₀ s : MapState} {f : FreeList} {past : List Mapping}
    (hf : FreshRam s₀.ram f) (hv : s₀.virtualMode = true)
    (h : MapRun (fun c s => c.WholeGroups s) s₀ past s) : GroupsWhole past := by
  induction h with
  | init clear h =>
    have hvalid := (mapInit_inv hf hv clear h).valid _ (List.mem_singleton.mpr rfl)
    exact groupsWhole_nil.cons hvalid fun x hx => absurd (Nat.zero_and _) hx
  | @map past s s' c r run allowed hwhole h ih =>
    have hinv := run.inv hf hv
    refine ih.cons ((hinv.step allowed h).valid _ (by simp)) fun x hx y hg hy => ?_
    have hne : lastPte past x ≠ 0 := fun hz => hx (by rw [hz, Nat.zero_and])
    obtain ⟨e, he, hcov, -⟩ := ih x hx
    obtain ⟨hm, -, hr⟩ := (hinv.valid e he).pages x hcov
    exact hwhole x _ hm hr (hinv.l3Entry_of_ne_zero hm hr hne) hx y hg hy
  | cpus run n m ih => exact ih

/-- As long as every call covers each group of contiguous entries as a whole or not at all,
the contiguous bit is only ever set on whole groups. -/
theorem contig_consistent {s₀ s : MapState} {f : FreeList} {past : List Mapping}
    (hf : FreshRam s₀.ram f) (hv : s₀.virtualMode = true)
    (h : MapRun (fun c s => c.WholeGroups s) s₀ past s) : ContigConsistent s :=
  (h.inv hf hv).consistent (h.groupsWhole hf hv)

end

theorem contig_consistent_example :
    let _ := qnxSyspageHeader
    let _ := smallPages
    ∃ past s, MapRun (fun c s => c.WholeGroups s) unmappedState past s ∧ past.length = 2 ∧
      ContigConsistent s := by
  intro _ _
  obtain ⟨f, hf⟩ := unmappedState_fresh
  have r0 : MapRun (fun c s => c.WholeGroups s) unmappedState _ _ :=
    .init (fun x h1 h2 => smallPages_clear
      (.inr ⟨le_trans (by decide) h1, h2.trans_le (by decide)⟩))
      (eq_ok_resultOr unmappedState (by decide +kernel))
  have r1 := r0.map (c := ⟨0x10000000, 0x90000000, 0x10000, protRead⟩)
    ⟨by decide, by decide, fun x h => smallPages_clear (.inl (h.2.trans_le (by decide)))⟩ ?_
    (eq_ok_resultOr (unmappedState, 0) (by decide +kernel))
  · exact ⟨_, _, r1, rfl, contig_consistent hf rfl r1⟩
  · -- one page makes no group
    intro x pte hx hr hpte hc
    obtain ⟨e, he, -, ⟨hlo, hhi, -⟩, -⟩ := r0.groupsWhole hf rfl x
      ((r0.inv hf rfl).lastPte_of_l3Entry hx hr hpte ▸ hc)
    obtain rfl := List.mem_singleton.mp he
    have hlen : contigPages = 16 ∧
        (initMapping (resultOr unmappedState (aarch64MapInit unmappedState))).call.len / pagesz =
        1 := by
      decide +kernel
    omega

/-- The sixth page of a group gets its own entry, and the others keep the contiguous bit. -/
theorem contig_group_split :
    let _ := qnxSyspageHeader
    let _ := smallPages
    ∃ past s, MapRun (fun _ _ => True) unmappedState past s ∧ ¬ ContigConsistent s := by
  intro _ _
  have r0 : MapRun (fun _ _ => True) unmappedState _ _ :=
    .init (fun x h1 h2 => smallPages_clear
      (.inr ⟨le_trans (by decide) h1, h2.trans_le (by decide)⟩))
      (eq_ok_resultOr unmappedState (by decide +kernel))
  have r1 := r0.map (c := ⟨0x10000000, 0x90000000, 0x10000, protRead⟩)
    ⟨by decide, by decide, fun x h => smallPages_clear (.inl (h.2.trans_le (by decide)))⟩ trivial
    (eq_ok_resultOr (unmappedState, 0) (by decide +kernel))
  have r2 := r1.map (c := ⟨0x10005000, 0x90005000, 0x1000, protRead ||| protExec⟩)
    ⟨by decide, by decide, fun x h => smallPages_clear (.inl (h.2.trans_le (by decide +kernel)))⟩
      trivial
    (eq_ok_resultOr (unmappedState, 0) (by decide +kernel))
  refine ⟨_, _, r2, fun hc => ?_⟩
  obtain ⟨a, pa, -, -, hgroup⟩ := hc 0x10000000 (0x90000000 + 0x78f + (2 ^ 54 + 2 ^ 53) + pteContig)
    (.inl (by decide))
    (smallPages_clear (.inl (by decide))) (by decide +kernel) (by decide)
  have hsplit := (hgroup 5 (by decide)).symm.trans
    (show _ = some (0x90005000 + 0x78f) from by decide +kernel)
  have hpte := Option.some.inj hsplit
  exact or_and_pteContig (pa + 5 * pagesz ||| a) (by rw [hpte]; decide)

end QnxStartup
