import QnxStartup.MapRun

/-! What a run of `aarch64_map` leaves to the walks of `elf_vaddr_to_paddr`. -/

namespace QnxStartup

def unmappedState : MapState where
  ram := { RamState.atBoot false fun _ => 0 with
    ramList := .ofEntries [⟨0x80000000, 0x100000⟩, ⟨0, 0⟩] }
  virtualMode := true
  numCpu := 4
  meltdownActive := 0
  ttbr0 := 0
  ttbr1 := fun _ => 0
  l1Ttbr0 := 0
  l1Ttbr1 := 0
  freeVaddr := 0
  l0Vaddr := 0

theorem unmappedState_fresh : ∃ f, FreshRam unmappedState.ram f := by
  refine ⟨⟨[⟨0x80000000, 0x100000⟩], by simp, by simp [Ranges.Separated, RamEntry.span]⟩,
    ⟨⟨0, 0⟩, rfl, rfl⟩, ?_, ?_⟩
  · intro x hx
    obtain ⟨r, hr, hlo, hhi⟩ := hx
    simp only [List.map_cons, List.map_nil, List.mem_singleton] at hr
    subst hr
    exact hhi.trans (by decide)
  · simp [unmappedState, RamState.atBoot]

theorem smallPages_clear {x : Nat} (h : x < 2 ^ 38 ∨ 2 ^ 64 - 2 ^ 39 ≤ x ∧ x < 2 ^ 64 - 2 ^ 31) :
    ¬ @RecursiveSlot smallPages x := by
  rintro ⟨hx, hslot⟩
  have hx' : ¬ x < 2 ^ 38 := hx
  have hidx : l1Idx x = x / 2 ^ 30 % 512 := by
    rw [l1Idx, Nat.shiftRight_eq_div_pow]
    exact Nat.and_two_pow_sub_one_eq_mod _ 9
  have hslot' : l1Idx x = 511 ∨ l1Idx x = 510 ∧ l2Idx x = 511 := hslot
  omega

section
variable [MmuHeader]
open MmuHeader

/-- The address lies in a page of `e` that no later mapping covers. -/
def Mapping.Shows (e : Mapping) (past : List Mapping) (x : Nat) : Prop :=
  e.Covers x ∧ past.find? (·.Covers x) = some e

theorem lastPte_of_shows {e : Mapping} {past : List Mapping} {x : Nat} (h : e.Shows past x) :
    lastPte past x = e.pte x := by
  rw [lastPte, h.2]
  rfl

theorem shows_of_split {newer older : List Mapping} {e : Mapping} {x : Nat} (hx : e.Covers x)
    (hn : ∀ e' ∈ newer, ¬ e'.Covers x) : e.Shows (newer ++ e :: older) x := by
  have hnone : newer.find? (·.Covers x) = none := List.find?_eq_none.mpr fun e' he' => by
    simpa using hn e' he'
  refine ⟨hx, ?_⟩
  rw [List.find?_append, hnone, Option.none_or, List.find?_cons_of_pos (by simpa using hx)]

theorem MapInv.l3Entry_of_ne_zero {past : List Mapping} {s : MapState} (h : MapInv past s) {x : Nat}
    (hx : Mappable x) (hr : ¬ RecursiveSlot x) (hne : lastPte past x ≠ 0) :
    l3Entry x s = some (lastPte past x) := by
  obtain ⟨f, hs⟩ := h.tables
  have hleaf := h.leaf x hx hr
  rw [l3Entry_eq hs hx hr]
  cases ht : s.forest.table (treeOf x) (leafPath (pageOf x / npte)) with
  | none =>
    rw [MapState.Tables.leaf_eq_zero ht] at hleaf
    exact absurd hleaf.symm hne
  | some t => rw [Option.map_some, ← hleaf, MapState.Tables.leaf_eq_entry ht]

theorem MapInv.lastPte_of_l3Entry {past : List Mapping} {s : MapState} (h : MapInv past s)
    {x pte : Nat} (hx : Mappable x) (hr : ¬ RecursiveSlot x) (hpte : l3Entry x s = some pte) :
    lastPte past x = pte := by
  obtain ⟨f, hs⟩ := h.tables
  rw [l3Entry_eq hs hx hr] at hpte
  obtain ⟨t, ht, hpte⟩ := Option.map_eq_some_iff.mp hpte
  rw [← h.leaf x hx hr, MapState.Tables.leaf_eq_entry ht, hpte]

theorem MapInv.walk_eq {past : List Mapping} {s : MapState} (h : MapInv past s) {x : Nat}
    (hx : Mappable x) (hr : ¬ RecursiveSlot x) :
    elfVaddrToPaddr x s = .ok (pteTarget (lastPte past x) x) := by
  obtain ⟨f, hs⟩ := h.tables
  have hleaf := h.leaf x hx hr
  rw [elfVaddrToPaddr_eq hs hx hr, l3Entry_eq hs hx hr]
  cases ht : s.forest.table (treeOf x) (leafPath (pageOf x / npte)) with
  | none =>
    rw [MapState.Tables.leaf_eq_zero ht] at hleaf
    rw [← hleaf]
    rfl
  | some t =>
    rw [MapState.Tables.leaf_eq_entry ht] at hleaf
    rw [← hleaf, Option.map_some, Option.elim_some]

theorem MapInv.walk_congr {past past' : List Mapping} {s s' : MapState} (h : MapInv past s)
    (h' : MapInv past' s') {x : Nat} (hx : x < 2 ^ 64) (hr : ¬ RecursiveSlot x)
    (heq : lastPte past' x = lastPte past x) :
    elfVaddrToPaddr x s' = elfVaddrToPaddr x s := by
  by_cases hm : Mappable x
  · rw [h'.walk_eq hm hr, h.walk_eq hm hr, heq]
  · have hbad : ¬ x < userEnd ∧ x < startupBase := by
      unfold Mappable at hm
      omega
    simp only [elfVaddrToPaddr, if_pos hbad]

theorem Mapping.Valid.pte_ne_zero {e : Mapping} (h : e.Valid) (x : Nat) : e.pte x ≠ 0 := by
  have htype := h.type
  rw [Mapping.pte, mappedPte]
  omega

/-- The entry that a walk finds for a page is that of the last mapping of the page. -/
theorem MapInv.shown {past : List Mapping} {s : MapState} (h : MapInv past s) {e : Mapping}
    (he : e ∈ past) {x : Nat} (hs : e.Shows past x) :
    elfVaddrToPaddr x s = .ok (truncpg e.call.paddr + (x - e.start)) ∧
      ∃ pa, pagesz ∣ pa ∧ truncpg e.call.paddr + (x - e.start) = pa + x % pagesz ∧
        (l3Entry x s = some (pa ||| e.attr) ∨
          l3Entry x s = some (pa ||| e.attr ||| pteContig)) := by
  have hvalid := h.valid e he
  obtain ⟨hx, -, hr⟩ := hvalid.pages x hs.1
  obtain ⟨pa, hd, hlt, hsum, hpte, htarget⟩ := hvalid.pte_spec hs.1
  have hlast := lastPte_of_shows hs
  have hne : lastPte past x ≠ 0 := hlast ▸ hvalid.pte_ne_zero x
  refine ⟨?_, pa, hd, hsum, ?_⟩
  · rw [h.walk_eq hx hr, hlast, htarget]
  · rw [h.l3Entry_of_ne_zero hx hr hne, hlast]
    rcases hpte with hpte | hpte
    · exact .inl (congrArg some hpte)
    · exact .inr (congrArg some hpte)

variable [SyspageHeader]

theorem MapInv.frame {past : List Mapping} {s s' : MapState} {c : MapCall} {r : Nat}
    (h : MapInv past s) (hc : c.Allowed s)
    (hrun : aarch64Map c.vaddr c.paddr c.size c.flags s = .ok (s', r)) {x : Nat} (hx : x < 2 ^ 64)
    (hout : ¬ (c.mapping s).Covers x) (hr : ¬ RecursiveSlot x) :
    elfVaddrToPaddr x s' = elfVaddrToPaddr x s :=
  h.walk_congr (h.step hc hrun) hx hr (by rw [lastPte_cons, if_neg hout])

/-- In every run, a page translates as the last call that covered it asked, through an entry
with that call's attributes; a call changes no other translation; and the calls that leave the
address open get disjoint ranges. -/
theorem pages_mapped {ok : MapCall → MapState → Prop} {s₀ s : MapState} {f : FreeList}
    {past : List Mapping} (hf : FreshRam s₀.ram f) (hv : s₀.virtualMode = true)
    (h : MapRun ok s₀ past s) :
    (∀ newer e older x, past = newer ++ e :: older → e.Covers x → (∀ e' ∈ newer, ¬ e'.Covers x) →
      elfVaddrToPaddr x s = .ok (truncpg e.call.paddr + (x - e.start)) ∧
        ∃ pa, pagesz ∣ pa ∧ truncpg e.call.paddr + (x - e.start) = pa + x % pagesz ∧
          (l3Entry x s = some (pa ||| e.attr) ∨ l3Entry x s = some (pa ||| e.attr ||| pteContig))) ∧
      (∀ (c : MapCall) (s' : MapState) (r : Nat), c.Allowed s →
        aarch64Map c.vaddr c.paddr c.size c.flags s = .ok (s', r) →
        ∀ x < 2 ^ 64, ¬ (c.mapping s).Covers x → ¬ RecursiveSlot x →
          elfVaddrToPaddr x s' = elfVaddrToPaddr x s) ∧
      past.Pairwise fun e e' => e.call.vaddr = anyVaddr → e'.call.vaddr = anyVaddr →
        Disjoint (bytes e.start e.call.len) (bytes e'.start e'.call.len) := by
  have hinv := h.inv hf hv
  refine ⟨?_, fun c s' r hc hrun x hx hout hr => hinv.frame hc hrun hx hout hr, hinv.apart⟩
  rintro newer e older x rfl hx hn
  exact hinv.shown (by simp) (shows_of_split hx hn)

end

theorem pages_mapped_example :
    let _ := qnxSyspageHeader
    let _ := smallPages
    ∃ e₀ e₁ e₂ s, MapRun (fun _ _ => True) unmappedState [e₂, e₁, e₀] s ∧ e₁.start = 0x10000000 ∧
      e₂.call.vaddr = anyVaddr ∧
      elfVaddrToPaddr 0x10000123 s = .ok 0x90000123 ∧
      Disjoint (bytes e₂.start e₂.call.len) (bytes e₀.start e₀.call.len) := by
  intro _ _
  obtain ⟨f, hf⟩ := unmappedState_fresh
  have r0 : MapRun (fun _ _ => True) unmappedState _ _ :=
    .init (fun x h1 h2 => smallPages_clear
      (.inr ⟨le_trans (by decide) h1, h2.trans_le (by decide)⟩))
    (eq_ok_resultOr unmappedState (by decide +kernel))
  have r1 := r0.map (c := ⟨0x10000000, 0x90000000, 0x21000, protRead⟩)
    ⟨by decide, by decide, fun x h => smallPages_clear (.inl (h.2.trans_le (by decide)))⟩ trivial
    (eq_ok_resultOr (unmappedState, 0) (by decide +kernel))
  have r2 := r1.map (c := ⟨anyVaddr, 0x80000000, 0x1000, protRead⟩)
    ⟨by decide, by decide, fun x h =>
      smallPages_clear (.inr ⟨le_trans (by decide +kernel) h.1,
        h.2.trans_le (by decide +kernel)⟩)⟩ trivial
    (eq_ok_resultOr (unmappedState, 0) (by decide +kernel))
  obtain ⟨hwalk, -, happart⟩ := pages_mapped hf rfl r2
  refine ⟨_, _, _, _, r2, by decide +kernel, rfl, ?_, ?_⟩
  · refine (hwalk [_] _ [_] 0x10000123 rfl (by decide +kernel) ?_).1.trans
      (congrArg _ (by decide +kernel))
    simp only [List.mem_singleton, forall_eq]
    decide +kernel
  · exact (List.pairwise_cons.mp happart).1 _ (by simp) rfl rfl

end QnxStartup
