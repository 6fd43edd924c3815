import QnxStartup.MapInit

/-! Runs of `aarch64_map` after `aarch64_map_init`: every address translates as the last
call that covered its page asked. -/

namespace QnxStartup

variable [MmuHeader]
open MmuHeader

/-- A mapping that was made: the call, the address of its first page, and the attribute bits
that `set_pte` derived from its flags at the time. -/
structure Mapping where
  call : MapCall
  start : Nat
  attr : Nat

def Mapping.Covers (e : Mapping) (x : Nat) : Prop := e.start ≤ x ∧ x < e.start + e.call.len

instance (e : Mapping) (x : Nat) : Decidable (e.Covers x) := inferInstanceAs (Decidable (_ ∧ _))

def MapCall.mapping (c : MapCall) (s : MapState) : Mapping := ⟨c, c.start s, pteAttr c.flags s⟩

def Mapping.pte (e : Mapping) (x : Nat) : Nat :=
  mappedPte e.attr (pageOf e.start) (pageOf e.start + e.call.len / pagesz)
    (truncpg e.call.paddr) (pageOf x)

/-- The entry for an address after the mappings of `past`, the last of them first. -/
def lastPte (past : List Mapping) (x : Nat) : Nat :=
  ((past.find? (·.Covers x)).map (·.pte x)).getD 0

/-- The mapping that `aarch64_map_init` leaves in `s`. -/
def initMapping (s : MapState) : Mapping :=
  ⟨l0Call (s.ttbr1 0), truncpg startupBase, pteAttr (protRead ||| protWrite) s⟩

/-- A call that the checks of `aarch64_map` may accept: its arguments are 64-bit values, it ends
below `2 ^ 48`, and it stays out of the recursive slots. -/
structure MapCall.Allowed (c : MapCall) (s : MapState) : Prop where
  vaddr : c.vaddr < 2 ^ 64
  physical : c.paddr + c.size < 2 ^ 48
  clear : ∀ x, (c.mapping s).Covers x → ¬ RecursiveSlot x

/-- What the checks of `aarch64_map` leave of a mapping. -/
structure Mapping.Valid (e : Mapping) : Prop where
  aligned : pagesz ∣ e.start
  len : pagesz ∣ e.call.len
  physical : truncpg e.call.paddr + e.call.len ≤ 2 ^ 48
  base : pagesz ∣ truncpg e.call.paddr
  attr : IsAttr e.attr
  type : e.attr % 4 = 3
  pages : ∀ x, e.Covers x → Mappable x ∧ treeOf x = treeOf e.start ∧ ¬ RecursiveSlot x

/-- What holds after every step of such a run. -/
structure MapInv (past : List Mapping) (s : MapState) : Prop where
  valid : ∀ e ∈ past, e.Valid
  tables : ∃ f, s.Tables f
  virtualMode : s.virtualMode = true
  free_lt : s.freeVaddr < 2 ^ 64
  leaf : ∀ x, Mappable x → ¬ RecursiveSlot x → s.leaf (treeOf x) (pageOf x) = lastPte past x
  chosen : ∀ e ∈ past, e.call.vaddr = anyVaddr → e.start + e.call.len ≤ truncpg s.freeVaddr
  apart : past.Pairwise fun e e' =>
    e.call.vaddr = anyVaddr → e'.call.vaddr = anyVaddr →
      Disjoint (bytes e.start e.call.len) (bytes e'.start e'.call.len)

theorem lastPte_cons (e : Mapping) (past : List Mapping) (x : Nat) :
    lastPte (e :: past) x = if e.Covers x then e.pte x else lastPte past x := by
  unfold lastPte
  by_cases h : e.Covers x
  · rw [if_pos h, List.find?_cons_of_pos (by simpa using h)]
    rfl
  · rw [if_neg h, List.find?_cons_of_neg (by simpa using h)]

theorem CallMapped.leaf_eq {c : MapCall} {s s' : MapState} {f f' : FreeList}
    (h : CallMapped c s s' f f') (hd : pagesz ∣ c.start s) (hlen : pagesz ∣ c.len) {x : Nat}
    (hx : Mappable x) (hr : ¬ RecursiveSlot x) :
    s'.leaf (treeOf x) (pageOf x) =
      if (c.mapping s).Covers x then (c.mapping s).pte x else s.leaf (treeOf x) (pageOf x) := by
  rw [h.leaves _ _ (mappable_place hx hr)]
  simp only [h.accepted.mem_iff hd hlen hx]
  rfl

theorem MapCall.start_dvd {c : MapCall} {s : MapState} (hva : c.vaddr < 2 ^ 64)
    (hfree : s.freeVaddr < 2 ^ 64) :
    pagesz ∣ c.start s := by
  unfold MapCall.start
  split
  · exact truncpg_dvd hfree
  · exact truncpg_dvd hva

theorem MapCall.Accepted.valid {c : MapCall} {s : MapState} (h : c.Accepted s)
    (hd : pagesz ∣ c.start s) (hb : c.paddr + c.size ≤ 2 ^ 48)
    (hclear : ∀ x, (c.mapping s).Covers x → ¬ RecursiveSlot x) :
    (c.mapping s).Valid where
  aligned := hd
  len := (c.len_spec hb).1
  physical := (c.len_spec hb).2.2
  base := truncpg_dvd (show c.paddr < 2 ^ 64 by omega)
  attr := isAttr_pteAttr _ _
  type := pteAttr_type _ _
  pages := fun x hx => ⟨(h.mappable_of_mem hx).1, (h.mappable_of_mem hx).2, hclear x hx⟩

theorem Mapping.Valid.offset {e : Mapping} (h : e.Valid) {x : Nat} (hx : e.Covers x) :
    (pageOf x - pageOf e.start) * pagesz + x % pagesz = x - e.start := by
  have hstart : e.Covers e.start := ⟨le_rfl, by have := hx.1; have := hx.2; omega⟩
  have h1 := (mappable_page (h.pages x hx).1).1
  have h2 := (mappable_page (h.pages _ hstart).1).1
  rw [(h.pages x hx).2.1, pageVa] at h1
  rw [Nat.mod_eq_zero_of_dvd h.aligned, Nat.add_zero, pageVa] at h2
  have hle : e.start ≤ x := hx.1
  have ho : x % pagesz < pagesz := Nat.mod_lt _ pagesz_pos
  generalize vaBase (treeOf e.start) = base at h1 h2
  generalize pageOf x = p at h1 ⊢
  generalize pageOf e.start = q at h2 ⊢
  rcases page_cases with ⟨-, hp, -⟩ | ⟨-, hp, -⟩ <;> rw [hp] at h1 h2 ho ⊢ <;> omega

theorem Mapping.Valid.physical_page {e : Mapping} (h : e.Valid) {x : Nat} (hx : e.Covers x) :
    pagesz ∣ truncpg e.call.paddr + (pageOf x - pageOf e.start) * pagesz ∧
      truncpg e.call.paddr + (pageOf x - pageOf e.start) * pagesz < 2 ^ 48 := by
  have hoff := h.offset hx
  have hphys := h.physical
  have hlo := hx.1
  have hhi := hx.2
  exact ⟨Nat.dvd_add h.base (Dvd.intro_left _ rfl), by omega⟩

theorem pteTarget_eq {a pa x c : Nat} (ha : IsAttr a) (ht : a % 4 = 3) (hd : pagesz ∣ pa)
    (hlt : pa < 2 ^ 48) (hc : c = 0 ∨ c = pteContig) :
    pteTarget (pa + a + c) x = pa + x % pagesz := by
  obtain ⟨q, rfl⟩ := hd
  have ho : x % pagesz < pagesz := Nat.mod_lt _ pagesz_pos
  have hlow := ha.low
  rw [pteContig] at hc
  have h4 : (pagesz * q + a + c) % 4 = 3 := by
    rcases hc with rfl | rfl <;> rcases page_cases
      with ⟨-, hp, -⟩ | ⟨-, hp, -⟩ <;> rw [hp] <;> omega
  have hpa : ptpPaddr (pagesz * q + a + c) = pagesz * q := by
    rw [ptpPaddr_eq]
    rcases hc with rfl | rfl <;> rcases page_cases with ⟨-, hp, -⟩ | ⟨-, hp, -⟩ <;>
      rw [hp] at hlt ⊢ <;> omega
  rw [pteTarget, pteValid, and_three, if_neg (not_not.mpr h4), hpa]
  rcases page_cases with ⟨-, hp, -⟩ | ⟨-, hp, -⟩ <;> rw [hp] at ho ⊢ <;>
    exact (Nat.two_pow_add_eq_or_of_lt ho q).symm

theorem Mapping.Valid.pte_spec {e : Mapping} (h : e.Valid) {x : Nat} (hx : e.Covers x) :
    ∃ pa, pagesz ∣ pa ∧ pa < 2 ^ 48 ∧ truncpg e.call.paddr + (x - e.start) = pa + x % pagesz ∧
      (e.pte x = (pa ||| e.attr) ∨ e.pte x = (pa ||| e.attr ||| pteContig)) ∧
      pteTarget (e.pte x) x = truncpg e.call.paddr + (x - e.start) := by
  have hoff := h.offset hx
  obtain ⟨hd, hlt⟩ := h.physical_page hx
  have hor := h.attr.paddr_or (page_dvd.trans hd) hlt
  refine ⟨_, hd, hlt, by omega, ?_, ?_⟩
  · rw [Mapping.pte, mappedPte, hor]
    split
    · exact .inr (or_pteContig (h.attr.contig_room hd hlt).1).symm
    · exact .inl rfl
  · rw [Mapping.pte, mappedPte, pteTarget_eq h.attr h.type hd hlt (by split <;> simp)]
    omega

theorem MapCall.Accepted.next {c : MapCall} {s : MapState} (h : c.Accepted s)
    (hlen : pagesz ∣ c.len) (hfree : s.freeVaddr < 2 ^ 64) :
    (c.chosen s).freeVaddr < 2 ^ 64 ∧ truncpg s.freeVaddr ≤ truncpg (c.chosen s).freeVaddr ∧
      (c.vaddr = anyVaddr → c.start s = truncpg s.freeVaddr ∧
        c.start s + c.len ≤ truncpg (c.chosen s).freeVaddr) := by
  unfold MapCall.chosen
  by_cases hany : c.vaddr = anyVaddr
  · have hstart : c.start s = truncpg s.freeVaddr := by rw [MapCall.start, if_pos hany]
    have hfits := h.fits
    obtain ⟨k, hk⟩ := hlen
    rw [hstart, truncpg_eq hfree, hk] at hfits
    have hlt : s.freeVaddr + c.len < 2 ^ 64 := by
      rw [hk]
      rcases page_cases with ⟨-, hp, -⟩ | ⟨-, hp, -⟩ <;> rw [hp] at hfits ⊢ <;> omega
    rw [if_pos hany, u64_of_lt hlt]
    dsimp only
    rw [hstart, truncpg_eq hfree, truncpg_eq hlt, hk]
    refine ⟨hk ▸ hlt, ?_, fun _ => ⟨rfl, ?_⟩⟩ <;>
      rcases page_cases with ⟨-, hp, -⟩ | ⟨-, hp, -⟩ <;> rw [hp] <;> omega
  · rw [if_neg hany]
    exact ⟨hfree, le_rfl, fun h => absurd h hany⟩

theorem MapStart.mapping_eq {s before after : MapState} {l0 : Nat} {f f' : FreeList}
    (h : MapStart s l0 before after f f') : (l0Call l0).mapping before = initMapping s := by
  have hstart : (l0Call l0).start before = truncpg startupBase := by
    unfold MapCall.start l0Call
    rw [if_pos rfl, h.first]
  have hattr : pteAttr (protRead ||| protWrite) before = pteAttr (protRead ||| protWrite) s :=
    (h.cpus.pteAttr _).symm
  simp only [MapCall.mapping, initMapping, hstart, h.l0_eq]
  rw [← hattr]
  simp only [l0Call]

theorem MapStart.inv {s before after : MapState} {l0 : Nat} {f f' : FreeList}
    (h : MapStart s l0 before after f f')
    (hclear : ∀ x, truncpg startupBase ≤ x → x < truncpg startupBase + pagesz → ¬ RecursiveSlot x) :
    MapInv [initMapping s] s := by
  have hmap := h.mapped
  have hd : pagesz ∣ (l0Call l0).start before :=
    MapCall.start_dvd (show anyVaddr < 2 ^ 64 by decide) (h.first ▸ startupBase_lt)
  have hlen : pagesz ∣ (l0Call l0).len := by rw [l0Call_len h.aligned]
  have hfree : s.freeVaddr = ((l0Call l0).chosen before).freeVaddr := by
    rw [h.next, hmap.grows.rest]
  obtain ⟨hlt, -, hchosen⟩ := hmap.accepted.next hlen (h.first ▸ startupBase_lt)
  have hvalid : (initMapping s).Valid := by
    rw [← h.mapping_eq]
    refine hmap.accepted.valid hd h.physical fun x hx => ?_
    rw [h.mapping_eq] at hx
    refine hclear x hx.1 ?_
    have := hx.2
    rwa [initMapping, l0Call_len (h.l0_eq ▸ h.aligned)] at this
  refine ⟨fun e he => List.mem_singleton.mp he ▸ hvalid, ⟨f', h.undisturbed.tables hmap.tables⟩,
    h.virtualMode, hfree ▸ hlt, fun x hx hr => ?_, fun e he hany => ?_, List.pairwise_singleton _ _⟩
  · have hplace := mappable_place hx hr
    rw [h.undisturbed.leaf_eq hplace, hmap.leaf_eq hd hlen hx hr, h.unmapped _ _ hplace,
      h.mapping_eq, lastPte_cons]
    rfl
  · obtain rfl := List.mem_singleton.mp he
    rw [hfree, ← h.mapping_eq]
    exact (hchosen rfl).2

variable [SyspageHeader]

/-- The runs of `aarch64_map` that begin with `aarch64_map_init` in `s₀`, with the mappings
they made; `ok` restricts their calls further. In between, startup may learn about more
processors or of `meltdown_active`. -/
inductive MapRun (ok : MapCall → MapState → Prop) (s₀ : MapState) : List Mapping → MapState → Prop
  | init {s : MapState} (clear : ∀ x, truncpg startupBase ≤ x → x < truncpg startupBase + pagesz →
      ¬ RecursiveSlot x)
      (h : aarch64MapInit s₀ = .ok s) : MapRun ok s₀ [initMapping s] s
  | map {past : List Mapping} {s s' : MapState} {c : MapCall} {r : Nat} (run : MapRun ok s₀ past s)
      (allowed : c.Allowed s) (hok : ok c s)
      (h : aarch64Map c.vaddr c.paddr c.size c.flags s = .ok (s', r)) :
      MapRun ok s₀ (c.mapping s :: past) s'
  | cpus {past : List Mapping} {s : MapState} (run : MapRun ok s₀ past s) (n : Nat) (m : Int) :
      MapRun ok s₀ past { s with numCpu := n, meltdownActive := m }

theorem MapInv.mapped {past : List Mapping} {s s' : MapState} {c : MapCall} {r : Nat}
    (h : MapInv past s) (hva : c.vaddr < 2 ^ 64) (hb : c.paddr + c.size ≤ 2 ^ 48)
    (hclear : ∀ x, (c.mapping s).Covers x → ¬ RecursiveSlot x)
    (hrun : aarch64Map c.vaddr c.paddr c.size c.flags s = .ok (s', r)) :
    ∃ f f', s.Tables f ∧ CallMapped c s s' f f' := by
  obtain ⟨f, hs⟩ := h.tables
  obtain ⟨f', hmap⟩ := aarch64Map_ok hs h.virtualMode hb hva h.free_lt
    (fun x h1 h2 => hclear x ⟨h1, h2⟩) hrun
  exact ⟨f, f', hs, hmap⟩

omit [SyspageHeader] in
theorem MapInv.of_mapped {past : List Mapping} {s s' : MapState} {c : MapCall} {f f' : FreeList}
    (h : MapInv past s) (hva : c.vaddr < 2 ^ 64) (hb : c.paddr + c.size ≤ 2 ^ 48)
    (hclear : ∀ x, (c.mapping s).Covers x → ¬ RecursiveSlot x) (hmap : CallMapped c s s' f f') :
    MapInv (c.mapping s :: past) s' := by
  obtain ⟨hlen, -, -⟩ := c.len_spec hb
  have hd := c.start_dvd (s := s) hva h.free_lt
  have hfree : s'.freeVaddr = (c.chosen s).freeVaddr := by rw [hmap.grows.rest]
  have hvirt : s'.virtualMode = (c.chosen s).virtualMode := by rw [hmap.grows.rest]
  obtain ⟨hlt, hmono, hchosen⟩ := hmap.accepted.next hlen h.free_lt
  refine ⟨List.forall_mem_cons.mpr ⟨hmap.accepted.valid hd hb hclear, h.valid⟩,
    ⟨f', hmap.tables⟩, ?_, hfree ▸ hlt, fun x hx hr => ?_, fun e he hany => ?_, ?_⟩
  · rw [hvirt]
    unfold MapCall.chosen
    split <;> exact h.virtualMode
  · rw [hmap.leaf_eq hd hlen hx hr, lastPte_cons, h.leaf x hx hr]
  · rw [hfree]
    rcases List.mem_cons.mp he with rfl | he
    · exact (hchosen hany).2
    · exact (h.chosen e he hany).trans hmono
  · refine List.pairwise_cons.mpr ⟨fun e he hany hany' => Set.disjoint_left.mpr fun x hx hx' => ?_,
      h.apart⟩
    have hend := h.chosen e he hany'
    have hstart := (hchosen hany).1
    change c.start s ≤ x ∧ _ at hx
    rw [mem_bytes] at hx'
    omega

theorem MapInv.step {past : List Mapping} {s s' : MapState} {c : MapCall} {r : Nat}
    (h : MapInv past s) (hc : c.Allowed s)
    (hrun : aarch64Map c.vaddr c.paddr c.size c.flags s = .ok (s', r)) :
    MapInv (c.mapping s :: past) s' := by
  obtain ⟨f, f', -, hmap⟩ := h.mapped hc.vaddr hc.physical.le hc.clear hrun
  exact h.of_mapped hc.vaddr hc.physical.le hc.clear hmap

theorem mapInit_inv {s₀ s : MapState} {f : FreeList} (hf : FreshRam s₀.ram f)
    (hv : s₀.virtualMode = true)
    (hclear : ∀ x, truncpg startupBase ≤ x → x < truncpg startupBase + pagesz → ¬ RecursiveSlot x)
    (h : aarch64MapInit s₀ = .ok s) : MapInv [initMapping s] s := by
  obtain ⟨l0, before, after, f1, f2, hstart, -⟩ := aarch64MapInit_ok hf hv hclear h
  exact hstart.inv hclear

theorem MapRun.inv {ok : MapCall → MapState → Prop} {s₀ s : MapState} {f : FreeList}
    {past : List Mapping} (hf : FreshRam s₀.ram f) (hv : s₀.virtualMode = true)
    (h : MapRun ok s₀ past s) : MapInv past s := by
  induction h with
  | init clear h => exact mapInit_inv hf hv clear h
  | map run allowed hok h ih => exact ih.step allowed h
  | @cpus past s run n m ih =>
    obtain ⟨f, hs⟩ := ih.tables
    have hsame : SameTables s { s with numCpu := n, meltdownActive := m } := ⟨rfl, rfl, rfl⟩
    exact ⟨ih.valid, ⟨f, hsame.tables hs⟩, ih.virtualMode, ih.free_lt, ih.leaf, ih.chosen,
      ih.apart⟩

end QnxStartup
