import QnxStartup.PagesMapped

/-! The address that `aarch64_map` returns, against the walks of `elf_vaddr_to_paddr`. -/

namespace QnxStartup

section
variable [MmuHeader]
open MmuHeader

theorem ptpPaddr_or {e va k : Nat} (hk : pagesz ∣ 2 ^ k) (hk' : k ≤ 30) :
    (ptpPaddr e ||| va &&& (2 ^ k - 1)) < 2 ^ 48 ∧ (ptpPaddr e ||| va &&& (2 ^ k - 1)) % pagesz =
      va % pagesz := by
  have hlt : ptpPaddr e < 2 ^ 48 ∧ ptpPaddr e % pagesz = 0 := by
    rw [ptpPaddr_eq]
    rcases page_cases with ⟨-, hp, -⟩ | ⟨-, hp, -⟩ <;> rw [hp] <;> omega
  rw [Nat.and_two_pow_sub_one_eq_mod]
  have hoff : va % 2 ^ k < 2 ^ 48 :=
    (Nat.mod_lt _ (Nat.two_pow_pos k)).trans_le (Nat.pow_le_pow_right (by decide) (by omega))
  refine ⟨Nat.or_lt_two_pow hlt.1 hoff, ?_⟩
  have hmod : va % 2 ^ k % pagesz = va % pagesz := Nat.mod_mod_of_dvd va hk
  obtain ⟨j, hj⟩ : ∃ j, pagesz = 2 ^ j := by
    rcases page_cases with ⟨-, hp, -⟩ | ⟨-, hp, -⟩
    · exact ⟨12, hp⟩
    · exact ⟨16, hp⟩
  rw [hj] at hlt hmod ⊢
  rw [Nat.or_mod_two_pow, hlt.2, Nat.zero_or, hmod]

theorem elfVaddrToPaddr_offset {va p : Nat} {s : MapState} (h : elfVaddrToPaddr va s = .ok p) :
    p = nullPaddr ∨ p < 2 ^ 48 ∧ p % pagesz = va % pagesz := by
  unfold elfVaddrToPaddr l1Voff l2Voff l3Voff l2Voff64K l3Voff64K at h
  rw [crash_ite_eq_ok] at h
  obtain ⟨-, h⟩ := h
  dsimp only at h
  generalize (if va < userEnd then s.l1Ttbr0 else s.l1Ttbr1) = l1 at h
  rcases page_cases with ⟨hl, hp, -⟩ | ⟨hl, hp, -⟩
  · simp only [hl, Bool.false_eq_true, if_false] at h
    split_ifs at h <;> obtain rfl := Except.ok.inj h
    · exact .inl rfl
    · exact .inr (ptpPaddr_or (hp ▸ pow_dvd_pow 2 (by decide)) le_rfl)
    · exact .inl rfl
    · exact .inr (ptpPaddr_or (hp ▸ pow_dvd_pow 2 (by decide)) (by decide))
    · exact .inl rfl
    · exact .inr (ptpPaddr_or (hp ▸ dvd_rfl) (by decide))
  · simp only [hl, if_true] at h
    split_ifs at h <;> obtain rfl := Except.ok.inj h
    · exact .inl rfl
    · exact .inr (ptpPaddr_or (hp ▸ pow_dvd_pow 2 (by decide)) (by decide))
    · exact .inl rfl
    · exact .inr (ptpPaddr_or (hp ▸ dvd_rfl) (by decide))

variable [SyspageHeader]

/-- The address that a call returns, and what it checked of an address it was given. -/
theorem aarch64Map_result {c : MapCall} {s s' : MapState} {r : Nat} (hv : s.virtualMode = true)
    (h : aarch64Map c.vaddr c.paddr c.size c.flags s = .ok (s', r)) :
    r = u64 ((if c.vaddr = anyVaddr then s.freeVaddr else c.vaddr) + c.paddr % pagesz) ∧
      (c.vaddr ≠ anyVaddr → c.vaddr % pagesz = c.paddr % pagesz) := by
  unfold aarch64Map at h
  rw [if_neg (by rw [hv]; decide)] at h
  simp only [and_pagesz_sub_one] at h
  rw [crash_ite_eq_ok, crash_ite_eq_ok, crash_ite_eq_ok, crash_ite_eq_ok] at h
  obtain ⟨hoff, -, -, -, h⟩ := h
  obtain ⟨cur, -, h⟩ := bind_eq_ok.mp h
  refine ⟨?_, fun hne => not_not.mp fun hc => hoff ⟨hne, hc⟩⟩
  obtain rfl := (Prod.mk.inj (Except.ok.inj h)).2
  split <;> rfl

omit [SyspageHeader] in
theorem MapCall.chosen_dvd {c : MapCall} {s : MapState} (h : pagesz ∣ s.freeVaddr) :
    pagesz ∣ (c.chosen s).freeVaddr := by
  have hlen : pagesz ∣ c.len := by
    unfold MapCall.len roundpg
    rcases page_cases with ⟨-, hp, -⟩ | ⟨-, hp, -⟩ <;> rw [hp] <;>
      exact two_pow_dvd_round (by decide) _
  have hspace : pagesz ∣ 2 ^ 64 := by
    rcases page_cases with ⟨-, hp, -⟩ | ⟨-, hp, -⟩ <;> rw [hp] <;> exact pow_dvd_pow 2 (by decide)
  unfold MapCall.chosen
  split
  · exact (Nat.dvd_mod_iff hspace).mpr (Nat.dvd_add h hlen)
  · exact h

theorem MapRun.freeVaddr_dvd {ok : MapCall → MapState → Prop} {s₀ s : MapState} {f : FreeList}
    {past : List Mapping} (hf : FreshRam s₀.ram f) (hv : s₀.virtualMode = true)
    (hbase : pagesz ∣ startupBase) (h : MapRun ok s₀ past s) :
    pagesz ∣ s.freeVaddr := by
  induction h with
  | init clear h =>
    obtain ⟨l0, before, after, f1, f2, hstart, -⟩ := aarch64MapInit_ok hf hv clear h
    rw [hstart.next, hstart.mapped.grows.rest]
    exact MapCall.chosen_dvd (hstart.first ▸ hbase)
  | map run allowed hok h ih =>
    obtain ⟨f1, f2, -, hmap⟩ := (run.inv hf hv).mapped allowed.vaddr
      allowed.physical.le allowed.clear h
    rw [hmap.grows.rest]
    exact MapCall.chosen_dvd ih
  | cpus run n m ih => exact ih

section
variable {ok : MapCall → MapState → Prop} {s₀ s s' : MapState} {f : FreeList}
  {past : List Mapping} {c : MapCall} {r : Nat}

/-- An address that translates to the object is within the 48 bits, and its offset counts once. -/
theorem MapCall.placed_of_maps (hv : s.virtualMode = true)
    (hpa : c.paddr + c.size < 2 ^ 64) (hsize : c.size ≠ 0)
    (h : aarch64Map c.vaddr c.paddr c.size c.flags s = .ok (s', r))
    (hall : ∀ i < c.size, elfVaddrToPaddr (u64 (r + i)) s' = .ok (c.paddr + i)) :
    c.paddr + c.size ≤ 2 ^ 48 ∧ (c.vaddr = anyVaddr ∨ pagesz ∣ c.paddr) := by
  obtain ⟨hr, hoff⟩ := aarch64Map_result hv h
  refine ⟨?_, ?_⟩
  · by_contra hc
    -- a byte past the 48 bits
    have hfar := hall (max c.paddr (2 ^ 48) - c.paddr) (by omega)
    rcases elfVaddrToPaddr_offset hfar with hp | ⟨hp, -⟩
    · have : nullPaddr = 2 ^ 64 - 1 := rfl
      omega
    · omega
  · by_contra hc
    rw [not_or] at hc
    obtain ⟨hne, hd⟩ := hc
    rw [if_neg hne, ← hoff hne] at hr
    rcases elfVaddrToPaddr_offset (hall 0 (by omega)) with hp | ⟨-, hp⟩
    · have : nullPaddr = 2 ^ 64 - 1 := rfl
      omega
    · -- the offset is counted twice
      rw [hr] at hp
      have hoff' := hoff hne
      unfold u64 at hp
      rcases page_cases with ⟨-, hpg, -⟩ | ⟨-, hpg, -⟩ <;> rw [hpg] at hp hoff' hd <;> omega

theorem MapCall.result_eq (hf : FreshRam s₀.ram f) (hv : s₀.virtualMode = true)
    (hbase : pagesz ∣ startupBase) (hrun : MapRun ok s₀ past s) (hva : c.vaddr < 2 ^ 64)
    (hplace : c.vaddr = anyVaddr ∨ pagesz ∣ c.paddr) (hfits : c.start s + c.len < 2 ^ 64)
    (hlen : c.paddr % pagesz < c.len)
    (h : aarch64Map c.vaddr c.paddr c.size c.flags s = .ok (s', r)) :
    r = c.start s + c.paddr % pagesz := by
  have hinv := hrun.inv hf hv
  obtain ⟨hr, hoff⟩ := aarch64Map_result hinv.virtualMode h
  have hstart : (if c.vaddr = anyVaddr then s.freeVaddr else c.vaddr) = c.start s := by
    unfold MapCall.start
    split_ifs with hany
    · rw [truncpg_eq hinv.free_lt, Nat.div_mul_cancel (hrun.freeVaddr_dvd hf hv hbase)]
    · have hzero := (hoff hany).trans (Nat.mod_eq_zero_of_dvd (hplace.resolve_left hany))
      rw [truncpg_eq hva, Nat.div_mul_cancel (Nat.dvd_of_mod_eq_zero hzero)]
  have hsum : c.start s + c.paddr % pagesz < 2 ^ 64 := by omega
  rw [hr, hstart, u64_of_lt hsum]

/-- The returned address is that of the object exactly when the address was chosen, or when the
object is page aligned, within the 48 bits of an output address. -/
theorem returned_address_maps {ok : MapCall → MapState → Prop} {s₀ s s' : MapState} {f : FreeList}
    {past : List Mapping} {c : MapCall} {r : Nat} (hf : FreshRam s₀.ram f)
    (hv : s₀.virtualMode = true) (hbase : pagesz ∣ startupBase) (hrun : MapRun ok s₀ past s)
    (hva : c.vaddr < 2 ^ 64) (hpa : c.paddr + c.size < 2 ^ 64)
    (hclear : ∀ x, (c.mapping s).Covers x → ¬ RecursiveSlot x)
    (h : aarch64Map c.vaddr c.paddr c.size c.flags s = .ok (s', r)) :
    (∀ i < c.size, elfVaddrToPaddr (u64 (r + i)) s' = .ok (c.paddr + i)) ↔
      c.size = 0 ∨ c.paddr + c.size ≤ 2 ^ 48 ∧ (c.vaddr = anyVaddr ∨ pagesz ∣ c.paddr) := by
  have hinv := hrun.inv hf hv
  constructor
  · intro hall
    by_cases hsize : c.size = 0
    · exact .inl hsize
    · exact .inr (MapCall.placed_of_maps hinv.virtualMode hpa hsize h hall)
  · rintro (hsize | ⟨hb, hplace⟩) i hi
    · omega
    obtain ⟨f1, f2, -, hmap⟩ := hinv.mapped hva hb hclear h
    have hinv' := hinv.of_mapped hva hb hclear hmap
    have hfits := hmap.accepted.fits
    have hlen : c.size + c.paddr % pagesz ≤ c.len := by
      have hmod := Nat.mod_le c.paddr pagesz
      have hpg := pagesz_le
      exact (roundpg_spec (by omega)).1
    have hx : u64 (r + i) = c.start s + (c.paddr % pagesz + i) := by
      rw [MapCall.result_eq hf hv hbase hrun hva hplace hfits (by omega) h,
        u64_of_lt (by omega), Nat.add_assoc]
    have hcov : (c.mapping s).Covers (u64 (r + i)) := by
      rw [hx]
      exact ⟨Nat.le_add_right _ _,
        Nat.add_lt_add_left (show c.paddr % pagesz + i < c.len by omega) _⟩
    have hshow : (c.mapping s).Shows (c.mapping s :: past) (u64 (r + i)) :=
      @shows_of_split _ [] past _ _ hcov (by simp)
    have hpage := Nat.div_add_mod' c.paddr pagesz
    rw [(hinv'.shown (by simp) hshow).1, hx]
    change Except.ok (truncpg c.paddr + (c.start s + (c.paddr % pagesz + i) - c.start s)) = _
    rw [truncpg_eq (by omega), Nat.add_sub_cancel_left, ← Nat.add_assoc, hpage]

end

end

theorem returned_address_maps_example :
    let _ := qnxSyspageHeader
    let _ := smallPages
    ∃ s s' r, MapRun (fun _ _ => True) unmappedState [initMapping s] s ∧
      aarch64Map anyVaddr 0x90000123 0x2000 protRead s = .ok (s', r) ∧
      elfVaddrToPaddr (u64 (r + 0x1fff)) s' = .ok 0x90002122 := by
  intro _ _
  obtain ⟨f, hf⟩ := unmappedState_fresh
  have r0 : MapRun (fun _ _ => True) unmappedState _ _ :=
    .init (fun x h1 h2 => smallPages_clear
      (.inr ⟨le_trans (by decide) h1, h2.trans_le (by decide)⟩))
    (eq_ok_resultOr unmappedState (by decide +kernel))
  have h := eq_ok_resultOr (unmappedState, 0)
    (x := aarch64Map anyVaddr 0x90000123 0x2000 protRead
      (resultOr unmappedState (aarch64MapInit unmappedState))) (by decide +kernel)
  have hmaps := (returned_address_maps (c := ⟨anyVaddr, 0x90000123, 0x2000, protRead⟩) hf rfl
    (by decide) r0 (by decide) (by decide)
    (fun x hx => smallPages_clear (.inr ⟨le_trans (by decide +kernel) hx.1,
      hx.2.trans_le (by decide +kernel)⟩)) h).mpr
    (.inr ⟨by decide, .inl rfl⟩)
  exact ⟨_, _, _, r0, h, hmaps 0x1fff (by decide)⟩

/-- An explicit address with an offset in its page comes back with the offset added once more. -/
theorem explicit_address_shifted :
    let _ := qnxSyspageHeader
    let _ := smallPages
    ∃ s s' r, MapRun (fun _ _ => True) unmappedState [initMapping s] s ∧
      aarch64Map 0x10000100 0x90000100 0x1000 protRead s = .ok (s', r) ∧ r = 0x10000200 ∧
      elfVaddrToPaddr r s' = .ok 0x90000200 := by
  intro _ _
  have r0 : MapRun (fun _ _ => True) unmappedState _ _ :=
    .init (fun x h1 h2 => smallPages_clear
      (.inr ⟨le_trans (by decide) h1, h2.trans_le (by decide)⟩))
    (eq_ok_resultOr unmappedState (by decide +kernel))
  have h := eq_ok_resultOr (unmappedState, 0)
    (x := aarch64Map 0x10000100 0x90000100 0x1000 protRead
      (resultOr unmappedState (aarch64MapInit unmappedState))) (by decide +kernel)
  exact ⟨_, _, _, r0, h, by decide +kernel, by decide +kernel⟩

end QnxStartup
