import QnxStartup.Syspage

/-! The system page under construction as what it is for: independent byte arrays
that only grow, with owners that are places in them. The code keeps the arrays
back to back in one block and moves them about. -/

namespace QnxStartup

/-- How a section has been used. -/
inductive SectKind where
  | fresh | fixed | growable
  deriving DecidableEq, Repr

structure Store (ι : Type) where
  size : ι → Nat
  content : ι → Mem
  kind : ι → SectKind
  /-- section, offset and patch data -/
  owners : List (ι × Nat × Nat)

variable {ι : Type} [DecidableEq ι]

def Store.extend (s : ι) (n : Nat) (a : Store ι) : Store ι :=
  { a with
    size := Function.update a.size s (a.size s + n)
    content := Function.update a.content s fun k => if k < a.size s then a.content s k else 0 }

def Store.mark (s : ι) (k : SectKind) (a : Store ι) : Store ι :=
  { a with kind := Function.update a.kind s k }

def Store.poke (s : ι) (off : Nat) (b : UInt8) (a : Store ι) : Store ι :=
  { a with content := Function.update a.content s (pokeByte (a.content s) off b) }

def Store.register (patcher : Nat → Bool) (s : ι) (off data : Nat) (a : Store ι) : Store ι :=
  let rtn := readPtr (a.content s) off
  if data ≠ 0 ∧ rtn ≠ 0 ∧ patcher rtn then
    if a.owners.any (fun o => o.1 = s ∧ o.2.1 = off) then a
    else { a with owners := (s, off, data) :: a.owners }
  else a

theorem Store.sum_extend [Fintype ι] (s : ι) (n : Nat) (a : Store ι) :
    ∑ t, (a.extend s n).size t = ∑ t, a.size t + n := by
  have he : ∑ t ∈ Finset.univ.erase s, (a.extend s n).size t = ∑ t ∈ Finset.univ.erase s,
      a.size t :=
    Finset.sum_congr rfl fun t ht => Function.update_of_ne (Finset.ne_of_mem_erase ht) _ _
  have hs : (a.extend s n).size s = a.size s + n := Function.update_self ..
  rw [← Finset.add_sum_erase Finset.univ (fun t => (a.extend s n).size t) (Finset.mem_univ s),
    ← Finset.add_sum_erase Finset.univ (fun t => a.size t) (Finset.mem_univ s), he, hs]
  omega

/-- Where the block keeps the arrays. -/
structure Layout (c : Syspage) (a : Store SectionId) : Prop where
  size : ∀ s, (c.sects s).size = a.size s
  apart : ∀ s t, s ≠ t → (c.sects s).stop ≤ (c.sects t).p ∨ (c.sects t).stop ≤ (c.sects s).p
  inside : ∀ s, c.base ≤ (c.sects s).p ∧ (c.sects s).stop ≤ c.base + c.totalSize
  total : c.totalSize = ∑ s, a.size s
  total_lt : c.totalSize < 2 ^ 32
  bytes : ∀ s, s ≠ .syspage → ∀ k < a.size s, c.mem ((c.sects s).p + k) = a.content s k
  owners : c.patchData = a.owners.map fun o => ⟨(c.sects o.1).p + o.2.1, o.2.2⟩
  owned : ∀ o ∈ a.owners, o.1 ≠ .syspage ∧ o.2.1 < a.size o.1

theorem growSection_p (s t : SectionId) (add : Nat) (c : Syspage) :
    ((growSection s add c).sects t).p =
      if t ≠ s ∧ (c.sects t).p ≥ (c.sects s).stop then (c.sects t).p + add else (c.sects t).p := by
  simp only [growSection]
  split
  · rfl
  · split <;> rfl

theorem growSection_size (s t : SectionId) (add : Nat) (c : Syspage) :
    ((growSection s add c).sects t).size =
      if t = s then u32 ((c.sects t).size + add) else (c.sects t).size := by
  simp only [growSection]
  split
  · next h => rw [if_neg h.1]
  · split <;> rfl

theorem growSection_base {s : SectionId} (add : Nat) {c : Syspage} (h : c.base < (c.sects s).stop) :
    (growSection s add c).base = c.base := by
  have hp : (c.sects .syspage).p = c.base := rfl
  rw [Syspage.base, growSection_p, if_neg (by omega), hp]

/-- The bytes behind the section move up, and zeros come between. -/
theorem growSection_mem (s : SectionId) (add : Nat) (c : Syspage) (x : Nat) :
    (growSection s add c).mem x =
      if x < (c.sects s).stop then c.mem x
      else if x < (c.sects s).stop + add then 0
      else if x < (c.sects s).stop + add + u32 (c.totalSize - ((c.sects s).stop - c.base))
        then c.mem (x - add)
      else c.mem x := by
  simp only [growSection, memset, memmove]
  by_cases h1 : x < (c.sects s).stop
  · rw [if_neg (by omega), if_neg (by omega), if_pos h1]
  rw [if_neg h1]
  by_cases h2 : x < (c.sects s).stop + add
  · rw [if_pos (by omega), if_pos h2]
  rw [if_neg (by omega), if_neg h2]
  by_cases h3 : x < (c.sects s).stop + add + u32 (c.totalSize - ((c.sects s).stop - c.base))
  · rw [if_pos (by omega), if_pos h3]
    congr 1
    omega
  · rw [if_neg (by omega), if_neg h3]

theorem growSection_cases {c : Syspage} {a : Store SectionId} {s : SectionId} {add : Nat}
    (h : Layout c a) (hadd : c.totalSize + add < 2 ^ 32) (t : SectionId) :
    (t = s ∧ ((growSection s add c).sects t).p = (c.sects t).p ∧
      ((growSection s add c).sects t).stop = (c.sects t).stop + add) ∨
    (t ≠ s ∧ (c.sects s).stop ≤ (c.sects t).p ∧ ((growSection s add c).sects t).p =
      (c.sects t).p + add ∧
      ((growSection s add c).sects t).stop = (c.sects t).stop + add) ∨
    (t ≠ s ∧ (c.sects t).p < (c.sects s).stop ∧ (c.sects t).stop ≤ (c.sects s).p ∧
      ((growSection s add c).sects t).p = (c.sects t).p ∧
      ((growSection s add c).sects t).stop = (c.sects t).stop) := by
  have hp := growSection_p s t add c
  have hsz := growSection_size s t add c
  have hstop : ((growSection s add c).sects t).stop =
    ((growSection s add c).sects t).p + ((growSection s add c).sects t).size := rfl
  have hstop' : (c.sects t).stop = (c.sects t).p + (c.sects t).size := rfl
  by_cases ht : t = s
  · have hin := h.inside t
    rw [if_neg (fun hh => hh.1 ht)] at hp
    rw [if_pos ht, u32_of_lt (by omega)] at hsz
    exact .inl ⟨ht, hp, by omega⟩
  · rw [if_neg ht] at hsz
    by_cases hb : (c.sects s).stop ≤ (c.sects t).p
    · rw [if_pos ⟨ht, hb⟩] at hp
      exact .inr (.inl ⟨ht, hb, hp, by omega⟩)
    · rw [if_neg (fun hh => hb hh.2)] at hp
      exact .inr (.inr ⟨ht, not_le.mp hb, (h.apart t s ht).resolve_right hb, hp, by omega⟩)

theorem Layout.stop_eq {c : Syspage} {a : Store SectionId} (h : Layout c a) (t : SectionId) :
    (c.sects t).stop = (c.sects t).p + a.size t := by
  rw [Sect.stop, h.size]

theorem Store.extend_size (a : Store ι) (s t : ι) (n : Nat) :
    (a.extend s n).size t = if t = s then a.size t + n else a.size t := by
  by_cases ht : t = s
  · subst ht
    simp [Store.extend]
  · simp [Store.extend, ht]

theorem growSection_apart {c : Syspage} {a : Store SectionId} {s t u : SectionId} {add : Nat}
    (h : Layout c a) (hadd : c.totalSize + add < 2 ^ 32) (htu : t ≠ u) :
    ((growSection s add c).sects t).stop ≤ ((growSection s add c).sects u).p ∨
      ((growSection s add c).sects u).stop ≤ ((growSection s add c).sects t).p := by
  have h1 := h.apart t u htu
  have h2 := h.stop_eq t
  have h3 := h.stop_eq u
  have h6 := h.stop_eq s
  rcases growSection_cases h hadd t (s := s) with ⟨ht, h4⟩ | ⟨ht, h4⟩ | ⟨ht, h4⟩ <;>
    rcases growSection_cases h hadd u (s := s) with ⟨hu, h5⟩ | ⟨hu, h5⟩ | ⟨hu, h5⟩
  · exact absurd (ht.trans hu.symm) htu
  all_goals try subst ht
  all_goals try subst hu
  all_goals omega

theorem growSection_bytes {c : Syspage} {a : Store SectionId} {s t : SectionId} {add k : Nat}
    (h : Layout c a) (hadd : c.totalSize + add < 2 ^ 32) (ht : t ≠ .syspage)
    (hk : k < (a.extend s add).size t) :
    (growSection s add c).mem (((growSection s add c).sects t).p + k) =
      (a.extend s add).content t k := by
  have hlen : u32 (c.totalSize - ((c.sects s).stop - c.base)) =
      c.totalSize - ((c.sects s).stop - c.base) := by
    have := h.total_lt
    exact u32_of_lt (by omega)
  have hins := h.inside s
  have h1 := h.inside t
  have h2 := h.stop_eq t
  have h3 := h.stop_eq s
  have hb := h.bytes t ht k
  rw [Store.extend_size] at hk
  rw [growSection_mem, hlen]
  rcases growSection_cases h hadd t (s := s)
    with ⟨rfl, hp, -⟩ | ⟨hts, hle, hp, -⟩ | ⟨hts, -, hle, hp, -⟩
  · rw [if_pos rfl] at hk
    rw [hp]
    simp only [Store.extend, Function.update_self]
    by_cases hks : k < a.size t
    · rw [if_pos (by omega), if_pos hks]
      exact hb hks
    · rw [if_neg (by omega), if_pos (by omega), if_neg hks]
  · rw [if_neg hts] at hk
    rw [hp, if_neg (by omega), if_neg (by omega), if_pos (by omega)]
    simp only [Store.extend, Function.update_of_ne hts]
    rw [← hb hk]
    congr 1
    omega
  · rw [if_neg hts] at hk
    rw [hp, if_pos (by omega)]
    simp only [Store.extend, Function.update_of_ne hts]
    exact hb hk

theorem growSection_owners {c : Syspage} {a : Store SectionId} {s : SectionId} {add : Nat}
    (h : Layout c a) (hs : c.base < (c.sects s).stop) (hadd : c.totalSize + add < 2 ^ 32) :
    (growSection s add c).patchData =
      a.owners.map fun o => ⟨((growSection s add c).sects o.1).p + o.2.1, o.2.2⟩ := by
  have hlen : u32 (c.totalSize - ((c.sects s).stop - c.base)) =
      c.totalSize - ((c.sects s).stop - c.base) := by
    have := h.total_lt
    exact u32_of_lt (by omega)
  have hins := h.inside s
  simp only [growSection, calloutRelocData, hlen]
  rw [h.owners, List.map_map]
  refine List.map_congr_left fun o ho => ?_
  have ho' := h.owned o ho
  have h1 := h.inside o.1
  have h2 := h.stop_eq o.1
  have hp : ((growSection s add c).sects o.1).p = (c.sects o.1).p ∧
      (c.sects o.1).p + o.2.1 < (c.sects s).stop ∨
      ((growSection s add c).sects o.1).p = (c.sects o.1).p + add ∧
      (c.sects s).stop ≤ (c.sects o.1).p := by
    have h4 := h.stop_eq s
    rcases growSection_cases h hadd o.1 (s := s)
      with ⟨heq, hp, -⟩ | ⟨-, hle, hp, -⟩ | ⟨-, -, hle, hp, -⟩
    · rw [heq] at ho' h2 ⊢
      rw [heq] at hp
      exact .inl ⟨hp, by omega⟩
    · exact .inr ⟨hp, hle⟩
    · exact .inl ⟨hp, by omega⟩
  simp only [growSection] at hp
  simp only [Function.comp_apply]
  rcases hp with ⟨hp, hlt⟩ | ⟨hp, hle⟩
  · rw [hp, if_neg (by omega)]
  · rw [hp, if_pos (by omega)]
    simp only [CoInfo.mk.injEq, and_true]
    omega

theorem growSection_layout {c : Syspage} {a : Store SectionId} {s : SectionId} {add : Nat}
    (h : Layout c a) (hs : c.base < (c.sects s).stop) (hadd : c.totalSize + add < 2 ^ 32) :
    Layout (growSection s add c) (a.extend s add) := by
  have hbase := growSection_base add hs
  have hcases := growSection_cases h hadd (s := s)
  have htotal : (growSection s add c).totalSize = c.totalSize + add := u32_of_lt hadd
  refine ⟨fun t => ?_, fun t u htu => growSection_apart h hadd htu, fun t => ?_, ?_,
    by rw [htotal]; exact hadd,
    fun t ht k hk => growSection_bytes h hadd ht hk, growSection_owners (a := a) h hs hadd,
    fun o ho => ?_⟩
  · have hu : ((growSection s add c).sects t).stop =
        ((growSection s add c).sects t).p + ((growSection s add c).sects t).size := rfl
    rw [Store.extend_size]
    have h2 := h.stop_eq t
    rcases hcases t with ⟨ht, h1⟩ | ⟨ht, h1⟩ | ⟨ht, h1⟩
    · rw [if_pos ht]
      omega
    · rw [if_neg ht]
      omega
    · rw [if_neg ht]
      omega
  · have h1 := h.inside t
    have hins := h.inside s
    have h3 := h.stop_eq t
    rw [hbase, htotal]
    rcases hcases t with ⟨-, h2⟩ | ⟨-, h2⟩ | ⟨-, h2⟩ <;> omega
  · rw [htotal, Store.sum_extend, h.total]
  · refine ⟨(h.owned o ho).1, ?_⟩
    have := (h.owned o ho).2
    rw [Store.extend_size]
    split <;> omega

/-- An empty section may be put down at any place that no section has in its inside. -/
theorem placeSection_layout {c : Syspage} {a : Store SectionId} {s : SectionId} (h : Layout c a)
    (n : Nat) (hs : s ≠ .syspage) (hempty : a.size s = 0) (hle : c.fixedSize ≤ c.totalSize)
    (hb : ∀ t, (c.sects t).stop ≤ c.base + c.fixedSize ∨ c.base + c.fixedSize ≤ (c.sects t).p) :
    Layout (placeSection s n c) a := by
  have hbase : (placeSection s n c).base = c.base := by
    rw [Syspage.base]
    simp only [placeSection, if_neg hs.symm]
    rfl
  have hp : ((placeSection s n c).sects s).p = c.base + c.fixedSize := by simp [placeSection]
  have hsz : ((placeSection s n c).sects s).size = 0 := by simp [placeSection, h.size, hempty]
  have hother : ∀ t, t ≠ s → (placeSection s n c).sects t = c.sects t := fun t ht => by
    simp [placeSection, ht]
  have hstop : ((placeSection s n c).sects s).stop = c.base + c.fixedSize := by
    rw [Sect.stop, hp, hsz]; rfl
  refine ⟨fun t => ?_, fun t u htu => ?_, fun t => ?_, h.total, h.total_lt,
    fun t ht k hk => ?_, ?_, h.owned⟩
  · by_cases ht : t = s
    · rw [ht, hsz, hempty]
    · rw [hother t ht, h.size]
  · by_cases ht : t = s
    · subst ht
      rw [hstop, hp, hother u htu.symm]
      exact (hb u).symm
    · by_cases hu : u = s
      · subst hu
        rw [hstop, hp, hother t ht]
        exact hb t
      · rw [hother t ht, hother u hu]
        exact h.apart t u htu
  · rw [hbase]
    by_cases ht : t = s
    · subst ht
      rw [hstop, hp]
      exact ⟨Nat.le_add_right _ _, Nat.add_le_add_left hle _⟩
    · rw [hother t ht]
      exact h.inside t
  · have hne : t ≠ s := by
      rintro rfl
      omega
    rw [hother t hne]
    exact h.bytes t ht k hk
  · simp only [placeSection]
    rw [h.owners]
    refine List.map_congr_left fun o ho => ?_
    have hne : o.1 ≠ s := by
      intro heq
      have := (h.owned o ho).2
      rw [heq, hempty] at this
      omega
    rw [if_neg hne]

theorem relocSyspageMemory_layout {c : Syspage} {a : Store SectionId} (h : Layout c a)
    (base maxSize : Nat) :
    Layout (relocSyspageMemory base maxSize c) a := by
  have hp : ∀ t, ((relocSyspageMemory base maxSize c).sects t).p =
      (c.sects t).p - c.base + base := by
    intro t
    have := (h.inside t).1
    simp only [relocSyspageMemory]
    omega
  have hbase : (relocSyspageMemory base maxSize c).base = base := by
    rw [Syspage.base, hp, Syspage.base]
    omega
  have hsize : ∀ t, ((relocSyspageMemory base maxSize c).sects t).size = (c.sects t).size :=
    fun _ => rfl
  refine ⟨fun t => (hsize t).trans (h.size t), fun t u htu => ?_, fun t => ?_, h.total, h.total_lt,
    fun t ht k hk => ?_, ?_, h.owned⟩
  · have h1 := h.apart t u htu
    have h2 := h.inside t
    have h3 := h.inside u
    simp only [Sect.stop, hp, hsize] at h1 h2 h3 ⊢
    omega
  · have h2 := h.inside t
    have htotal : (relocSyspageMemory base maxSize c).totalSize = c.totalSize := rfl
    rw [hbase, htotal]
    simp only [Sect.stop, hp, hsize] at h2 ⊢
    omega
  · have h2 := h.inside t
    have h3 := h.size t
    simp only [Sect.stop] at h2
    rw [hp, ← h.bytes t ht k hk]
    simp only [relocSyspageMemory]
    rw [memmove_of_mem (by omega)]
    congr 1
    omega
  · simp only [relocSyspageMemory, calloutRelocData]
    rw [h.owners, List.map_map]
    refine List.map_congr_left fun o ho => ?_
    have h1 := h.owned o ho
    have h2 := h.inside o.1
    have h3 := h.size o.1
    simp only [Sect.stop] at h2
    simp only [Function.comp_apply]
    rw [if_pos (by omega)]
    simp only [CoInfo.mk.injEq, and_true]
    omega

end QnxStartup
