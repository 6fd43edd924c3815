import QnxStartup.FreeRam

/-! What `calloc_ram` promises: an aligned, zeroed block out of the free list. -/

namespace QnxStartup

/-- Free RAM that `calloc_ram` can hand out zeroed. A secure system zeroes through
a 32-bit address. -/
structure FreshRam (s : RamState) (f : FreeList) : Prop where
  holds : s.ramList.Holds f
  physical : ∀ x ∈ f.bytes, x < 2 ^ 48
  zeroes : s.secureSystem = true → ∀ x ∈ f.bytes, x < 2 ^ 32

structure SameRam (s s' : RamState) : Prop where
  avoidList : s'.avoidList = s.avoidList
  secureSystem : s'.secureSystem = s.secureSystem

theorem SameRam.refl (s : RamState) : SameRam s s := ⟨rfl, rfl⟩

theorem SameRam.trans {s s' s'' : RamState} (h : SameRam s s') (h' : SameRam s' s'') :
    SameRam s s'' :=
  ⟨h'.avoidList.trans h.avoidList, h'.secureSystem.trans h.secureSystem⟩

theorem takeRam_ok [SyspageHeader] {s s' : RamState} {f : FreeList} {addr size a : Nat}
    (hf : s.ramList.Holds f) (hb : addr + size < 2 ^ 64) (h : takeRam addr size s = .ok (s', a)) :
    a = addr ∧ s'.ramList.Holds (f.erase addr (addr + size)) ∧ s'.mem = s.mem ∧ SameRam s s' := by
  unfold takeRam at h
  simp only [u64_of_lt hb] at h
  obtain ⟨l, hl, h⟩ := bind_eq_ok.mp h
  have hl' : l.Holds (f.erase addr (addr + size)) := by
    rcases allocScan_holds addr size hf with ⟨l', hl', hh⟩ | hc
    · rw [hl] at hl'
      cases hl'
      exact hh
    · rw [hl] at hc
      cases hc
  split at h
  · obtain ⟨t, -, h⟩ := bind_eq_ok.mp h
    cases h
    exact ⟨rfl, hl', rfl, ⟨rfl, rfl⟩⟩
  · cases h
    exact ⟨rfl, hl', rfl, ⟨rfl, rfl⟩⟩

theorem allocRam_found [SyspageHeader] {s s' : RamState} {f : FreeList} {size align a : Nat}
    (hf : s.ramList.Holds f) (h : allocRam nullPaddr size align s = .ok (s', a)) :
    a = findRam size align 0 0 s ∧ (a = nullPaddr ∧ s' = s ∨
      a ≠ nullPaddr ∧ s'.ramList.Holds (f.erase a (a + size)) ∧ SameRam s s' ∧
        s'.mem = if s.secureSystem then memset s.mem (u32 a) 0 size else s.mem) := by
  unfold allocRam at h
  simp only [if_true] at h
  by_cases hn : findRam size align 0 0 s = nullPaddr
  · rw [if_pos hn] at h
    cases h
    exact ⟨hn.symm, .inl ⟨rfl, rfl⟩⟩
  · rw [if_neg hn] at h
    have hbound := findRam_bound hf hn
    by_cases hsec : s.secureSystem = true
    · rw [if_pos hsec] at h
      have hholds : ({ s with mem := memset s.mem (u32 (findRam size align 0 0 s)) 0 size } :
          RamState).ramList.Holds f := hf
      obtain ⟨rfl, hl, hm, hsame⟩ := takeRam_ok hholds hbound h
      exact ⟨rfl, .inr ⟨hn, hl, ⟨hsame.avoidList, hsame.secureSystem⟩, by rw [hm, if_pos hsec]⟩⟩
    · rw [if_neg hsec] at h
      obtain ⟨rfl, hl, hm, hsame⟩ := takeRam_ok hf hbound h
      exact ⟨rfl, .inr ⟨hn, hl, hsame, by rw [hm, if_neg hsec]⟩⟩

theorem FreshRam.erase {s s' : RamState} {f : FreeList} {addr size : Nat} (h : FreshRam s f)
    (hl : s'.ramList.Holds (f.erase addr (addr + size))) (hs : SameRam s s') :
    FreshRam s' (f.erase addr (addr + size)) := by
  have hsub : (f.erase addr (addr + size)).bytes ⊆ f.bytes := by
    rw [FreeList.bytes_erase_size]
    exact Set.sdiff_subset
  exact ⟨hl, fun x hx => h.physical x (hsub hx),
    fun hsec x hx => h.zeroes (hs.secureSystem ▸ hsec) x (hsub hx)⟩

/-- `alloc_ram` without an address fails and leaves everything alone, or takes an aligned block
out of the free list. -/
theorem allocRam_fresh [SyspageHeader] {s s' : RamState} {f : FreeList} {size k a : Nat}
    (h : FreshRam s f) (hpos : 0 < size) (hk : k < 32)
    (hs' : allocRam nullPaddr size (2 ^ k) s = .ok (s', a)) :
    a = nullPaddr ∧ s' = s ∨
      a ≠ nullPaddr ∧ 2 ^ k ∣ a ∧ bytes a size ⊆ f.bytes ∧ FreshRam s' (f.erase a (a + size)) ∧
        s'.mem = (if s.secureSystem then memset s.mem a 0 size else s.mem) ∧ SameRam s s' := by
  obtain ⟨ha, ⟨hn, rfl⟩ | ⟨hn, hl, hsame, hmem⟩⟩ := allocRam_found h.holds hs'
  · exact .inl ⟨hn, rfl⟩
  · have hk' : 2 ^ k < 2 ^ 32 := Nat.pow_lt_pow_right (by decide) hk
    rw [ha] at hn
    obtain ⟨hd, hsub⟩ := findRam_free h.holds (by omega)
      (fun x hx => by have := h.physical x hx; omega) hn
    rw [← ha] at hn hd hsub
    refine .inr ⟨hn, hd, hsub, h.erase hl hsame, ?_, hsame⟩
    rw [hmem]
    by_cases hsec : s.secureSystem = true
    · rw [if_pos hsec, if_pos hsec,
        u32_of_lt (h.zeroes hsec _ (hsub (mem_bytes.mpr ⟨le_rfl, by omega⟩)))]
    · rw [if_neg hsec, if_neg hsec]

theorem callocRam_fresh [SyspageHeader] {s s' : RamState} {f : FreeList} {size k a : Nat}
    (h : FreshRam s f) (hpos : 0 < size) (hk : k < 32)
    (hs' : callocRam size (2 ^ k) s = .ok (s', a)) :
    a = nullPaddr ∧ s' = s ∨
      a ≠ nullPaddr ∧ 2 ^ k ∣ a ∧ bytes a size ⊆ f.bytes ∧ FreshRam s' (f.erase a (a + size)) ∧
        s'.mem = memset s.mem a 0 size ∧ SameRam s s' := by
  obtain ⟨⟨r, b⟩, hr, hr'⟩ := bind_eq_ok.mp hs'
  dsimp only at hr'
  rcases allocRam_fresh h hpos hk hr with ⟨rfl, rfl⟩ | ⟨hn, hd, hsub, hfresh, hmem, hsame⟩
  · rw [if_neg fun hc => hc.1 rfl] at hr'
    cases hr'
    exact .inl ⟨rfl, rfl⟩
  · right
    by_cases hsec : r.secureSystem = false
    · rw [if_pos ⟨hn, hsec⟩] at hr'
      cases hr'
      refine ⟨hn, hd, hsub, ⟨hfresh.holds, hfresh.physical, hfresh.zeroes⟩, ?_,
        ⟨hsame.avoidList, hsame.secureSystem⟩⟩
      rw [hmem, if_neg (by rw [← hsame.secureSystem, hsec]; decide)]
    · rw [if_neg fun hc => hsec hc.2] at hr'
      cases hr'
      refine ⟨hn, hd, hsub, hfresh, ?_, hsame⟩
      rw [hmem, if_pos (by rw [← hsame.secureSystem]; simpa using hsec)]

end QnxStartup
