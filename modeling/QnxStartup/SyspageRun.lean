import Mathlib.Algebra.BigOperators.Group.Finset.Piecewise
import QnxStartup.SectionStore

/-! Runs over the system page: the block refines the store of independent sections as
long as no request wraps the 32-bit total. -/

namespace QnxStartup

inductive SectionOp where
  | set (s : SectionId) (size : Nat)
  | grow (s : SectionId) (add : Nat)
  | write (s : SectionId) (off : Nat) (b : UInt8)
  | register (s : SectionId) (off data : Nat)
  | reloc (base maxSize : Nat)

namespace SectionOp

def run (patcher : Nat → Bool) : SectionOp → Syspage → Startup Syspage
  | set s size, c => setSyspageSection s size c
  | grow s add, c => growSyspageSection s add c
  | write s off b, c => .ok { c with mem := pokeByte c.mem ((c.sects s).p + off) b }
  | register s off data, c => .ok (calloutRegisterData patcher ((c.sects s).p + off) data c)
  | reloc base maxSize, c => .ok (relocSyspageMemory base maxSize c)

def apply (patcher : Nat → Bool) : SectionOp → Store SectionId → Store SectionId
  | set s size, a => (a.extend s (u32 (round size 8))).mark s .fixed
  | grow s add, a => (a.extend s (u32 (round add 8))).mark s .growable
  | write s off b, a => a.poke s off b
  | register s off data, a => a.register patcher s off data
  | reloc _ _, a => a

/-- How the callers use the section store: a section is either set, once and first, or
grown; writes and owners lie inside a section; the block moves to another place. -/
def Allowed (c : Syspage) (a : Store SectionId) : SectionOp → Prop
  | set s size => a.kind s = .fresh ∧ size < 2 ^ 32
  | grow s add => a.kind s ≠ .fixed ∧ add < 2 ^ 32
  | write s off _ => s ≠ .syspage ∧ off < a.size s
  | register s off _ => s ≠ .syspage ∧ off + 8 ≤ a.size s
  | reloc base _ => Disjoint (bytes base c.totalSize) (bytes c.base c.totalSize)

/-- The new total of a request fits its 32 bits. -/
def NoWrap (c : Syspage) : SectionOp → Prop
  | set _ size => c.totalSize + u32 (round size 8) < 2 ^ 32
  | grow _ add => c.totalSize + u32 (round add 8) < 2 ^ 32
  | _ => True

end SectionOp

/-- The block keeps the sections: the fixed ones first, then all that can still grow. -/
structure Refines (header : Nat) (c : Syspage) (a : Store SectionId) : Prop extends Layout c a where
  fixed_le : c.fixedSize ≤ c.totalSize
  boundary : ∀ s, (c.sects s).stop ≤ c.base + c.fixedSize ∨ c.base + c.fixedSize ≤ (c.sects s).p
  behind : ∀ s, a.kind s ≠ .fixed → c.base + c.fixedSize ≤ (c.sects s).p
  fresh : ∀ s, a.kind s = .fresh → a.size s = 0
  header_kind : a.kind .syspage = .fixed
  header_size : a.size .syspage = header
  header_le : header ≤ c.fixedSize

theorem Layout.mark {c : Syspage} {a : Store SectionId} (h : Layout c a) (s : SectionId)
    (k : SectKind) :
    Layout c (a.mark s k) :=
  ⟨h.size, h.apart, h.inside, h.total, h.total_lt, h.bytes, h.owners, h.owned⟩

theorem mark_kind (a : Store SectionId) (s t : SectionId) (k : SectKind) :
    (a.mark s k).kind t = if t = s then k else a.kind t := Function.update_apply ..

theorem extend_size (a : Store SectionId) (s t : SectionId) (n : Nat) :
    (a.extend s n).size t = if t = s then a.size s + n else a.size t := Function.update_apply ..

theorem growSection_zero {c : Syspage} {a : Store SectionId} (h : Layout c a) (s : SectionId) :
    growSection s 0 c = c := by
  have hsects : (growSection s 0 c).sects = c.sects := by
    funext t
    have hin := h.inside t
    have hlt := h.total_lt
    have hu : u32 ((c.sects t).size + 0) = (c.sects t).size := u32_of_lt (by
      simp only [Sect.stop] at hin
      omega)
    have hp := growSection_p s t 0 c
    have hsz := growSection_size s t 0 c
    rw [hu, ite_self] at hsz
    rw [Nat.add_zero, ite_self] at hp
    exact congrArg₂ Sect.mk hp hsz
  have hmem : (growSection s 0 c).mem = c.mem := by
    funext x
    rw [growSection_mem]
    split
    · rfl
    · rw [if_neg (by omega), Nat.sub_zero, ite_self]
  have hpatch : (growSection s 0 c).patchData = c.patchData := by
    simp [growSection, calloutRelocData]
  have htotal : (growSection s 0 c).totalSize = c.totalSize := u32_of_lt h.total_lt
  calc growSection s 0 c
    _ = { c with
          sects := (growSection s 0 c).sects
          totalSize := (growSection s 0 c).totalSize
          patchData := (growSection s 0 c).patchData
          mem := (growSection s 0 c).mem } := rfl
    _ = c := by rw [hsects, hmem, hpatch, htotal]

theorem growSyspageSection_eq {s : SectionId} {add : Nat} {c c' : Syspage} {a : Store SectionId}
    (hc : Layout c a) (h : growSyspageSection s add c = .ok c') :
    c' = growSection s (u32 (round add 8)) c := by
  unfold growSyspageSection at h
  by_cases ha : add > 0
  · rw [if_pos ha, crash_ite_eq_ok] at h
    exact (Except.ok.inj h.2).symm
  · obtain rfl : add = 0 := by omega
    rw [if_neg ha] at h
    rw [show u32 (round 0 8) = 0 by decide, growSection_zero hc]
    exact (Except.ok.inj h).symm

theorem Refines.grow {header : Nat} {c : Syspage} {a : Store SectionId} {s : SectionId} {n : Nat}
    (h : Refines header c a) (hpos : 0 < header) (hk : a.kind s ≠ .fixed)
    (hn : c.totalSize + n < 2 ^ 32) :
    Refines header (growSection s n c) ((a.extend s n).mark s .growable) := by
  have hbehind := h.behind s hk
  have hle := h.header_le
  have hlow : c.base < (c.sects s).stop := by
    rw [Sect.stop]
    omega
  have hne : SectionId.syspage ≠ s := by
    rintro rfl
    exact hk h.header_kind
  have hbase := growSection_base n hlow
  have htotal : (growSection s n c).totalSize = c.totalSize + n := u32_of_lt hn
  have hfixed : (growSection s n c).fixedSize = c.fixedSize := rfl
  have hcases := growSection_cases h.toLayout hn (s := s)
  refine ⟨(growSection_layout h.toLayout hlow hn).mark s _, ?_, fun t => ?_,
    fun t ht => ?_, fun t ht => ?_, ?_, ?_, hle⟩
  · rw [htotal, hfixed]
    exact h.fixed_le.trans (Nat.le_add_right _ _)
  · have hb := h.boundary t
    rw [hbase, hfixed]
    rcases hcases t with ⟨rfl, h1, -⟩ | ⟨-, h1, h2, -⟩ | ⟨-, -, -, h1, h2⟩
    · omega
    · simp only [Sect.stop] at hb h1 hlow
      omega
    · omega
  · rw [hbase, hfixed]
    rw [mark_kind] at ht
    rcases hcases t with ⟨rfl, h1, -⟩ | ⟨hts, h1, h2, -⟩ | ⟨hts, -, -, h1, -⟩
    · omega
    · rw [if_neg hts] at ht
      have := h.behind t ht
      omega
    · rw [if_neg hts] at ht
      have := h.behind t ht
      omega
  · rw [mark_kind] at ht
    split at ht
    · cases ht
    · next hts =>
      change (a.extend s n).size t = 0
      rw [extend_size, if_neg hts]
      exact h.fresh t ht
  · rw [mark_kind, if_neg hne]
    exact h.header_kind
  · change (a.extend s n).size .syspage = header
    rw [extend_size, if_neg hne]
    exact h.header_size

theorem Refines.place {header : Nat} {c : Syspage} {a : Store SectionId} {s : SectionId} {n : Nat}
    (h : Refines header c a) (hpos : 0 < header) (hk : a.kind s = .fresh)
    (hn : c.totalSize + n < 2 ^ 32) :
    Refines header (growSection s n (placeSection s n c)) ((a.extend s n).mark s .fixed) := by
  have hle := h.header_le
  have hfl := h.fixed_le
  have hne : s ≠ SectionId.syspage := by
    rintro rfl
    rw [h.header_kind] at hk
    cases hk
  have hlay := placeSection_layout h.toLayout n hne (h.fresh s hk) hfl h.boundary
  set c1 := placeSection s n c with hc1
  have hb1 : c1.base = c.base := by simp [Syspage.base, hc1, placeSection, hne.symm]
  have hp1 : (c1.sects s).p = c.base + c.fixedSize := by simp [hc1, placeSection]
  have hs1 : (c1.sects s).stop = c.base + c.fixedSize := by
    rw [Sect.stop, hp1, hlay.size, h.fresh s hk]
    rfl
  have hother : ∀ t, t ≠ s → c1.sects t = c.sects t := fun t ht => by simp [hc1, placeSection, ht]
  have hfixed : (growSection s n c1).fixedSize = c.fixedSize + n := u32_of_lt (by omega)
  have hlow : c1.base < (c1.sects s).stop := by omega
  have hbase := growSection_base n hlow
  have htotal : (growSection s n c1).totalSize = c.totalSize + n := u32_of_lt hn
  have hcases := growSection_cases hlay hn (s := s)
  refine ⟨(growSection_layout hlay hlow hn).mark s _, by omega, fun t => ?_,
    fun t ht => ?_, fun t ht => ?_, ?_, ?_, by omega⟩
  · rw [hbase, hb1, hfixed]
    rcases hcases t with ⟨rfl, -, h1⟩ | ⟨-, h1, h2, -⟩ | ⟨-, -, h1, -, h2⟩ <;> omega
  · rw [mark_kind] at ht
    split at ht
    · exact absurd rfl ht
    · next hts =>
      have hb := h.behind t ht
      rw [← hother t hts] at hb
      rw [hbase, hb1, hfixed]
      rcases hcases t with ⟨hh, -⟩ | ⟨-, h1, h2, -⟩ | ⟨-, h1, -⟩
      · exact absurd hh hts
      · omega
      · omega
  · rw [mark_kind] at ht
    split at ht
    · cases ht
    · next hts =>
      change (a.extend s n).size t = 0
      rw [extend_size, if_neg hts]
      exact h.fresh t ht
  · rw [mark_kind, if_neg hne.symm]
    exact h.header_kind
  · change (a.extend s n).size .syspage = header
    rw [extend_size, if_neg hne.symm]
    exact h.header_size

theorem round_round_eight {n : Nat} (h : n < 2 ^ 32) :
    round (u32 (round n 8)) 8 = u32 (round n 8) := by
  obtain ⟨-, hd, -⟩ := round_two_pow (k := 3) (by decide) (x := n) (by omega)
  have hlt := u32_lt (round n 8)
  refine round_eq_self (k := 3) (by decide) (by omega) ?_
  change 8 ∣ round n 8 % 2 ^ 32
  change 8 ∣ round n 8 at hd
  omega

theorem setSyspageSection_eq {header : Nat} {s : SectionId} {size : Nat} {c c' : Syspage}
    {a : Store SectionId} (hc : Refines header c a) (hk : a.kind s = .fresh) (hsize : size < 2 ^ 32)
    (h : setSyspageSection s size c = .ok c') :
    c' = growSection s (u32 (round size 8)) (placeSection s (u32 (round size 8)) c) := by
  have hne : s ≠ SectionId.syspage := by
    rintro rfl
    rw [hc.header_kind] at hk
    cases hk
  have hlay := placeSection_layout hc.toLayout (u32 (round size 8)) hne
    (hc.fresh s hk) hc.fixed_le hc.boundary
  have hh := growSyspageSection_eq hlay h
  rw [round_round_eight hsize, u32_of_lt (u32_lt _)] at hh
  exact hh

theorem Refines.write {header : Nat} {c : Syspage} {a : Store SectionId} {s : SectionId} {off : Nat}
    (b : UInt8) (h : Refines header c a) (hs : s ≠ .syspage) (hoff : off < a.size s) :
    Refines header { c with mem := pokeByte c.mem ((c.sects s).p + off) b } (a.poke s off b) := by
  refine ⟨⟨h.size, h.apart, h.inside, h.total, h.total_lt, fun t ht k hk => ?_, h.owners, h.owned⟩,
    h.fixed_le, h.boundary, h.behind, h.fresh, h.header_kind, h.header_size, h.header_le⟩
  have hb := h.bytes t ht k hk
  by_cases hts : t = s
  · subst hts
    simp only [Store.poke, Function.update_self, pokeByte, Nat.add_right_inj, hb]
  · have hap := h.apart t s hts
    simp only [Sect.stop, h.size] at hap
    have hk' : k < a.size t := hk
    simp only [Store.poke, Function.update_of_ne hts, pokeByte]
    rw [if_neg (by omega), hb]

theorem Layout.place_inj {c : Syspage} {a : Store SectionId} (h : Layout c a) {s t : SectionId}
    {j k : Nat} (hj : j < a.size s) (hk : k < a.size t)
    (heq : (c.sects s).p + j = (c.sects t).p + k) : s = t ∧ j = k := by
  by_cases hst : s = t
  · subst hst
    exact ⟨rfl, by omega⟩
  · have hap := h.apart s t hst
    simp only [Sect.stop, h.size] at hap
    omega

theorem Refines.register {header : Nat} {c : Syspage} {a : Store SectionId} {s : SectionId}
    {off : Nat} (patcher : Nat → Bool) (data : Nat) (h : Refines header c a) (hs : s ≠ .syspage)
    (hoff : off + 8 ≤ a.size s) :
    Refines header (calloutRegisterData patcher ((c.sects s).p + off) data c)
      (a.register patcher s off data) := by
  have hread : readPtr c.mem ((c.sects s).p + off) = readPtr (a.content s) off :=
    readPtr_congr fun i hi => by
      rw [Nat.add_assoc]
      exact h.bytes s hs (off + i) (by omega)
  have hany : c.patchData.any (fun pd => pd.owner = (c.sects s).p + off) =
      a.owners.any (fun o => o.1 = s ∧ o.2.1 = off) := by
    rw [h.owners, List.any_map, Bool.eq_iff_iff, List.any_eq_true, List.any_eq_true]
    refine exists_congr fun o => and_congr_right fun ho => ?_
    simp only [Function.comp_apply, decide_eq_true_eq]
    constructor
    · exact fun heq => h.place_inj (h.owned o ho).2 (by omega) heq
    · rintro ⟨rfl, rfl⟩
      rfl
  unfold calloutRegisterData Store.register
  simp only [hread, hany]
  split
  · split
    · exact h
    · refine ⟨⟨h.size, h.apart, h.inside, h.total, h.total_lt, h.bytes, ?_, ?_⟩,
        h.fixed_le, h.boundary, h.behind, h.fresh, h.header_kind, h.header_size, h.header_le⟩
      · simp [h.owners]
      · intro o ho
        rcases List.mem_cons.mp ho with rfl | ho
        · exact ⟨hs, by simp only; omega⟩
        · exact h.owned o ho
  · exact h

theorem Refines.reloc {header : Nat} {c : Syspage} {a : Store SectionId} (h : Refines header c a)
    (base maxSize : Nat) : Refines header (relocSyspageMemory base maxSize c) a := by
  have hp : ∀ t, ((relocSyspageMemory base maxSize c).sects t).p =
      (c.sects t).p - c.base + base := by
    intro t
    have := (h.inside t).1
    simp only [relocSyspageMemory]
    omega
  have hbase : (relocSyspageMemory base maxSize c).base = base := by
    rw [Syspage.base, hp, Syspage.base]
    omega
  have hsize : ∀ t, ((relocSyspageMemory base maxSize c).sects t).size = (c.sects t).size :=
    fun _ => rfl
  have hfixed : (relocSyspageMemory base maxSize c).fixedSize = c.fixedSize := rfl
  refine ⟨relocSyspageMemory_layout h.toLayout base maxSize, h.fixed_le, fun t => ?_,
    fun t ht => ?_, h.fresh, h.header_kind, h.header_size, h.header_le⟩
  · have h1 := h.boundary t
    have h2 := (h.inside t).1
    rw [hbase, hfixed]
    simp only [Sect.stop, hp, hsize] at h1 ⊢
    omega
  · have h1 := h.behind t ht
    rw [hbase, hfixed, hp]
    omega

theorem Refines.step {header : Nat} {patcher : Nat → Bool} {op : SectionOp} {c c' : Syspage}
    {a : Store SectionId} (h : Refines header c a) (hpos : 0 < header) (hop : op.Allowed c a)
    (hwrap : op.NoWrap c) (hrun : op.run patcher c = .ok c') :
    Refines header c' (op.apply patcher a) := by
  cases op with
  | set s size =>
    rw [setSyspageSection_eq h hop.1 hop.2 hrun]
    exact h.place hpos hop.1 hwrap
  | grow s add =>
    rw [growSyspageSection_eq h.toLayout hrun]
    exact h.grow hpos hop.1 hwrap
  | write s off b =>
    cases hrun
    exact h.write b hop.1 hop.2
  | register s off data =>
    cases hrun
    exact h.register patcher data hop.1 hop.2
  | reloc base maxSize =>
    cases hrun
    exact h.reloc base maxSize

def Store.header (n : Nat) : Store SectionId where
  size := fun s => if s = .syspage then n else 0
  content := fun _ _ => 0
  kind := fun s => if s = .syspage then .fixed else .fresh
  owners := []

def SyspageSizes.header (sz : SyspageSizes) : Nat := u32 (round sz.syspage 8)

theorem SyspageSizes.header_bounds (sz : SyspageSizes) : 0 < sz.header ∧ sz.header < 2 ^ 17 := by
  have hlt := sz.syspage_lt
  have hpos := sz.syspage_pos
  obtain ⟨h1, -, h3⟩ := round_two_pow (k := 3) (by decide) (x := sz.syspage) (by omega)
  change sz.syspage ≤ round sz.syspage 8 at h1
  change round sz.syspage 8 < sz.syspage + 8 at h3
  rw [header, u32_of_lt (by omega)]
  omega

theorem emptySyspage_refines (sz : SyspageSizes) (base maxSize : Nat) (mem : Mem) :
    Refines sz.header (emptySyspage sz base maxSize mem) (.header sz.header) := by
  have hlt := sz.header_bounds
  set c := emptySyspage sz base maxSize mem with hc
  have hbase : c.base = base := rfl
  have htotal : c.totalSize = sz.header := rfl
  have hfixed : c.fixedSize = sz.header := rfl
  have hsects : ∀ s, c.sects s = if s = .syspage then ⟨base, sz.header⟩
      else ⟨base + sz.header, 0⟩ := fun _ => rfl
  have hhead : c.sects .syspage = ⟨base, sz.header⟩ := rfl
  have hother : ∀ s, s ≠ .syspage → c.sects s = ⟨base + sz.header, 0⟩ := fun s hs => by
    rw [hsects, if_neg hs]
  refine ⟨⟨fun s => ?_, fun s t hst => ?_, fun s => ?_, ?_,
    by rw [htotal]; omega, fun s hs k hk => ?_, rfl,
    by simp [Store.header]⟩, le_rfl, fun s => ?_, fun s hs => ?_, fun s hs => ?_, rfl, rfl, le_rfl⟩
  · by_cases hs : s = .syspage
    · rw [hs, hhead]
      rfl
    · rw [hother s hs]
      simp [Store.header, hs]
  · by_cases hs : s = .syspage
    · rw [hs, hhead, hother t (fun ht => hst (hs.trans ht.symm))]
      exact .inl le_rfl
    · rw [hother s hs]
      by_cases ht : t = .syspage
      · rw [ht, hhead]
        exact .inr le_rfl
      · rw [hother t ht]
        exact .inl le_rfl
  · rw [hsects, hbase, htotal]
    split <;> simp [Sect.stop]
  · rw [htotal]
    simp [Store.header]
  · simp [Store.header, hs] at hk
  · rw [hsects, hbase, hfixed]
    split <;> simp [Sect.stop]
  · have hne : s ≠ .syspage := fun hh => hs (by simp [Store.header, hh])
    rw [hother s hne, hbase, hfixed]
  · have hne : s ≠ .syspage := fun hh => by simp [Store.header, hh] at hs
    simp [Store.header, hne]

def SyspageSizes.initOps (sz : SyspageSizes) : List SectionOp :=
  [.set .callout sz.callout, .grow .typedStrings 4, .grow .strings 1, .grow .hwinfo sz.hwiPrefix,
    .set .aarch64GicMap (8 * processorsMax)]

def SyspageSizes.initStore (patcher : Nat → Bool) (sz : SyspageSizes) : Store SectionId :=
  sz.initOps.foldl (fun a op => op.apply patcher a) (.header sz.header)

theorem u32_round_eight_lt {n : Nat} (h : n < 2 ^ 16) : u32 (round n 8) < 2 ^ 17 := by
  obtain ⟨-, -, h3⟩ := round_two_pow (k := 3) (by decide) (x := n) (by omega)
  change round n 8 < n + 8 at h3
  rw [u32_of_lt (by omega)]
  omega

theorem Refines.small_step (patcher : Nat → Bool) {header : Nat} {s : SectionId} {n T : Nat}
    {c c' : Syspage} {a : Store SectionId} (h : Refines header c a) (hpos : 0 < header)
    (hn : n < 2 ^ 16) (hT : c.totalSize + 2 ^ 17 ≤ T) (hlt : T < 2 ^ 32) :
    (a.kind s = .fresh → setSyspageSection s n c = .ok c' →
      Refines header c' ((SectionOp.set s n).apply patcher a) ∧ c'.totalSize ≤ T) ∧
    (a.kind s ≠ .fixed → growSyspageSection s n c = .ok c' →
      Refines header c' ((SectionOp.grow s n).apply patcher a) ∧ c'.totalSize ≤ T) := by
  have hr := u32_round_eight_lt hn
  have hwrap : c.totalSize + u32 (round n 8) < 2 ^ 32 := by omega
  refine ⟨fun hk hrun => ?_, fun hk hrun => ?_⟩
  · rw [setSyspageSection_eq h hk (by omega) hrun]
    refine ⟨h.place hpos hk hwrap, ?_⟩
    change u32 (c.totalSize + u32 (round n 8)) ≤ T
    rw [u32_of_lt hwrap]
    omega
  · rw [growSyspageSection_eq h.toLayout hrun]
    refine ⟨h.grow hpos hk hwrap, ?_⟩
    change u32 (c.totalSize + u32 (round n 8)) ≤ T
    rw [u32_of_lt hwrap]
    omega

theorem initSyspageMemory_refines {patcher : Nat → Bool} {sz : SyspageSizes} {base maxSize : Nat}
    {mem : Mem} {c : Syspage} (h : initSyspageMemory sz base maxSize mem = .ok c) :
    Refines sz.header c (sz.initStore patcher) := by
  have hpos := sz.header_bounds
  obtain ⟨c1, h1, h⟩ := bind_eq_ok.mp h
  obtain ⟨c2, h2, h⟩ := bind_eq_ok.mp h
  obtain ⟨c3, h3, h⟩ := bind_eq_ok.mp h
  obtain ⟨c4, h4, h5⟩ := bind_eq_ok.mp h
  have r0 := emptySyspage_refines sz base maxSize mem
  have ht0 : (emptySyspage sz base maxSize mem).totalSize = sz.header := rfl
  obtain ⟨r1, t1⟩ := (r0.small_step (T := 2 ^ 18) patcher hpos.1 sz.callout_lt (by omega)
    (by omega)).1 rfl h1
  obtain ⟨r2, t2⟩ := (r1.small_step (T := 2 ^ 19) patcher hpos.1 (by omega) (by omega)
    (by omega)).2 (fun hk => SectKind.noConfusion hk) h2
  obtain ⟨r3, t3⟩ := (r2.small_step (T := 2 ^ 20) patcher hpos.1 (by omega) (by omega)
    (by omega)).2 (fun hk => SectKind.noConfusion hk) h3
  obtain ⟨r4, t4⟩ := (r3.small_step (T := 2 ^ 21) patcher hpos.1 sz.hwiPrefix_lt (by omega)
    (by omega)).2 (fun hk => SectKind.noConfusion hk) h4
  exact ((r4.small_step (T := 2 ^ 22) patcher hpos.1 (by decide) (by omega) (by omega)).1 rfl h5).1

/-- The runs that begin with `init_syspage_memory`, with the sections they build; `ok`
restricts the steps. -/
inductive SectionRun (patcher : Nat → Bool) (sz : SyspageSizes) (base maxSize : Nat) (mem : Mem)
    (ok : SectionOp → Syspage → Prop) : Syspage → Store SectionId → Prop
  | init {c : Syspage} (h : initSyspageMemory sz base maxSize mem = .ok c) :
      SectionRun patcher sz base maxSize mem ok c (sz.initStore patcher)
  | step {c c' : Syspage} {a : Store SectionId} {op : SectionOp}
      (run : SectionRun patcher sz base maxSize mem ok c a) (allowed : op.Allowed c a)
      (hok : ok op c)
      (h : op.run patcher c = .ok c') :
      SectionRun patcher sz base maxSize mem ok c' (op.apply patcher a)

theorem sectionRun_refines {patcher : Nat → Bool} {sz : SyspageSizes} {base maxSize : Nat}
    {mem : Mem} {c : Syspage} {a : Store SectionId}
    (run : SectionRun patcher sz base maxSize mem (fun op c => op.NoWrap c) c a) :
    Refines sz.header c a := by
  induction run with
  | init h => exact initSyspageMemory_refines h
  | step _ allowed hok h ih => exact ih.step sz.header_bounds.1 allowed hok h

/-- As long as no request wraps the total, the sections are disjoint ranges of the block
that account for its size, hold what was written to them and zeros elsewhere, and every
registered owner is the place it was registered for. -/
theorem sections_kept {patcher : Nat → Bool} {sz : SyspageSizes} {base maxSize : Nat} {mem : Mem}
    {c : Syspage} {a : Store SectionId}
    (run : SectionRun patcher sz base maxSize mem (fun op c => op.NoWrap c) c a) :
    (∀ s t, s ≠ t → Disjoint (bytes (c.sects s).p (c.sects s).size) (bytes (c.sects t).p
      (c.sects t).size)) ∧
      (∀ s, c.base ≤ (c.sects s).p ∧ (c.sects s).stop ≤ c.base + c.totalSize) ∧
      c.totalSize = sz.header + ∑ s ∈ Finset.univ.erase .syspage, (c.sects s).size ∧
      (∀ s, (c.sects s).size = a.size s) ∧
      (∀ s, s ≠ .syspage → ∀ k < a.size s, c.mem ((c.sects s).p + k) = a.content s k) ∧
      c.patchData = a.owners.map (fun o => ⟨(c.sects o.1).p + o.2.1, o.2.2⟩) ∧
      ∀ o ∈ a.owners, o.2.1 < (c.sects o.1).size := by
  have h := sectionRun_refines run
  refine ⟨fun s t hst => ?_, h.inside, ?_, h.size, h.bytes, h.owners, fun o ho => ?_⟩
  · have hap := h.apart s t hst
    simp only [Sect.stop] at hap
    refine Set.disjoint_left.mpr fun x hx hx' => ?_
    rw [mem_bytes] at hx hx'
    omega
  · have hsum := Finset.add_sum_erase Finset.univ (fun s => a.size s)
      (Finset.mem_univ SectionId.syspage)
    simp only [h.size]
    rw [h.total, ← hsum, h.header_size]
  · rw [h.size]
    exact (h.owned o ho).2

def exampleSizes : SyspageSizes where
  syspage := 512
  callout := 256
  hwiPrefix := 4
  syspage_pos := by decide
  syspage_lt := by decide
  callout_lt := by decide
  hwiPrefix_lt := by decide

theorem sections_kept_example :
    ∃ c a, SectionRun (fun _ => true) exampleSizes 0x1000 0x600 (fun _ => 0)
      (fun op c => op.NoWrap c) c a ∧
      a.size .qtime = 80 ∧ a.size .asinfo = 24 ∧ a.content .asinfo 3 = 0x5a ∧
      a.owners = [(.asinfo, 0, 0x77)] ∧
      (∀ s t, s ≠ t → Disjoint (bytes (c.sects s).p (c.sects s).size) (bytes (c.sects t).p
        (c.sects t).size)) ∧
      (∀ s, c.base ≤ (c.sects s).p ∧ (c.sects s).stop ≤ c.base + c.totalSize) ∧
      c.totalSize = exampleSizes.header + ∑ s ∈ Finset.univ.erase .syspage, (c.sects s).size ∧
      (∀ s, (c.sects s).size = a.size s) ∧
      (∀ s, s ≠ .syspage → ∀ k < a.size s, c.mem ((c.sects s).p + k) = a.content s k) ∧
      c.patchData = a.owners.map (fun o => ⟨(c.sects o.1).p + o.2.1, o.2.2⟩) ∧
      ∀ o ∈ a.owners, o.2.1 < (c.sects o.1).size := by
  let d := emptySyspage exampleSizes 0x1000 0x600 fun _ => 0
  have r0 : SectionRun (fun _ => true) exampleSizes 0x1000 0x600 _ (fun op c => op.NoWrap c) _ _ :=
    .init
    (eq_ok_resultOr d (x := initSyspageMemory exampleSizes 0x1000 0x600 fun _ => 0) (by decide))
  have r1 := r0.step (show (SectionOp.set .qtime 80).Allowed _ _ by constructor <;> decide)
    (by simp only [SectionOp.NoWrap]; decide) (eq_ok_resultOr d (by decide))
  have r2 := r1.step (show (SectionOp.grow .asinfo 24).Allowed _ _ by constructor <;> decide)
    (by simp only [SectionOp.NoWrap]; decide) (eq_ok_resultOr d (by decide))
  have r3 := r2.step (show (SectionOp.write .asinfo 3 0x5a).Allowed _ _ by
    constructor <;> decide) trivial
    (eq_ok_resultOr d (by decide))
  have r4 := r3.step (show (SectionOp.register .asinfo 0 0x77).Allowed _ _ by
    constructor <;> decide) trivial
    (eq_ok_resultOr d (by decide))
  have r5 := r4.step (show (SectionOp.reloc 0x20000 0x2000).Allowed _ _ by
    refine Set.disjoint_left.mpr fun x hx hx' => ?_
    exact absurd (hx.1.trans_lt hx'.2) (by decide)) trivial (eq_ok_resultOr d (by decide))
  exact ⟨_, _, r5, by decide, by decide, by decide, by decide, sections_kept r5⟩

/-- A request for `2 ^ 32 - 8` bytes wraps the new total past the check. -/
theorem sections_lost : 
    ∃ c a, SectionRun (fun _ => false) exampleSizes 0x1000 0x600 (fun _ => 0)
      (fun _ _ => True) c a ∧
      ¬ (c.sects .asinfo).stop ≤ c.base + c.totalSize := by
  let d := emptySyspage exampleSizes 0x1000 0x600 fun _ => 0
  have r0 : SectionRun (fun _ => false) exampleSizes 0x1000 0x600 _ (fun _ _ => True) _ _ := .init
    (eq_ok_resultOr d (x := initSyspageMemory exampleSizes 0x1000 0x600 fun _ => 0) (by decide))
  have r1 := r0.step (show (SectionOp.grow .asinfo 0xfffffff8).Allowed _ _ by
    constructor <;> decide) trivial
    (eq_ok_resultOr d (by decide))
  exact ⟨_, _, r1, by decide⟩

end QnxStartup
