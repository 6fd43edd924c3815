import QnxStartup.Bytes
import QnxStartup.PagesMapped
import QnxStartup.RamImport

/-! `elf64.c`: how `load_elf64` maps or copies one segment. -/

namespace QnxStartup

def ptLoad : Nat := 1
def pfX : Nat := 1
def pfW : Nat := 2
def pfR : Nat := 4

/-- The fields of an `Elf64_Phdr` that the loader reads. -/
structure Elf64Phdr where
  pType : Nat
  pFlags : Nat
  pOffset : Nat
  pVaddr : Nat
  pPaddr : Nat
  pFilesz : Nat
  pMemsz : Nat
  deriving DecidableEq, Repr

def sizeofElf64Phdr : Nat := 56

def readPhdr (m : Mem) (phdr : Nat) : Elf64Phdr where
  pType := read32 m phdr
  pFlags := read32 m (phdr + 4)
  pOffset := readPtr m (phdr + 8)
  pVaddr := readPtr m (phdr + 16)
  pPaddr := readPtr m (phdr + 24)
  pFilesz := readPtr m (phdr + 32)
  pMemsz := readPtr m (phdr + 40)

/-- The mappings, with `boot_vaddr_base` and `boot_vaddr_end`. -/
structure ElfState where
  map : MapState
  bootVaddrBase : Nat
  bootVaddrEnd : Nat

section
variable [SyspageHeader] [MmuHeader]
open MmuHeader

def elfProt (flags : Nat) : Nat :=
  (if flags &&& pfR ≠ 0 then protRead else 0) ||| (if flags &&& pfW ≠ 0 then protWrite else 0) |||
    (if flags &&& pfX ≠ 0 then protExec else 0)

def elfMap (vaddr paddr size flags : Nat) (s : MapState) : Startup MapState :=
  (aarch64Map vaddr paddr size (elfProt flags) s).bind fun (s, _) => .ok s

/-- `daddr = calloc_ram(size, __PAGESIZE)`, then `len` bytes of `src` are copied there. -/
def callocCopy (size len : Nat) (src : Mem → Nat) (s : MapState) : Startup (MapState × Nat) :=
  (callocRam size pagesz s.ram).bind fun (r, daddr) =>
    (copyMemory daddr (src r.mem) len r.mem).bind fun m =>
      .ok ({ s with ram := { r with mem := m } }, daddr)

/-- A round of `load_elf64mmu`. The header at `phdr` is read in memory each time. -/
def loadSegment (addr phdr : Nat) (s : ElfState) : Startup ElfState :=
  let p := readPhdr s.map.ram.mem phdr
  if p.pType = ptLoad then
    let memsz := u64 (p.pMemsz + (p.pVaddr &&& (pagesz - 1)))
    let filesz := u64 (p.pFilesz + (p.pVaddr &&& (pagesz - 1)))
    let vaddr := p.pVaddr &&& compl64 (pagesz - 1)
    let paddr := p.pPaddr &&& compl64 (pagesz - 1)
    let base := if s.bootVaddrBase = 0 ∨ s.bootVaddrBase > vaddr then vaddr else s.bootVaddrBase
    let stop := if s.bootVaddrEnd < u64 (vaddr + memsz) then u64 (vaddr + memsz) else s.bootVaddrEnd
    let (filesz, memsz) :=
      if p.pFlags &&& pfW = 0 ∧ memsz = filesz then (roundpg filesz, roundpg filesz)
        else (filesz, memsz)
    (if p.pPaddr ≠ 0 then
      let (filesz, memsz) := if p.pMemsz = p.pFilesz then (roundpg filesz, roundpg filesz)
        else (filesz, memsz)
      let whole := filesz &&& compl64 (pagesz - 1)
      (elfMap vaddr paddr whole p.pFlags s.map).bind fun m =>
        let memsz := roundpg (sub64 memsz whole)
        if memsz ≠ 0 then
          (callocCopy memsz (filesz &&& (pagesz - 1)) (fun _ => u64 (paddr + whole)) m).bind
            fun (m, daddr) =>
              elfMap (u64 (vaddr + whole)) daddr memsz (readPhdr m.ram.mem phdr).pFlags m
        else .ok m
    else
      (callocCopy (roundpg memsz) filesz (fun m => sub64 (u64 (addr + (readPhdr m phdr).pOffset))
          ((readPhdr m phdr).pVaddr &&& (pagesz - 1))) s.map).bind fun (m, daddr) =>
        elfMap vaddr daddr memsz (readPhdr m.ram.mem phdr).pFlags m).bind fun m =>
          .ok ⟨m, base, stop⟩
  else .ok s

end

theorem read32_congr {m m' : Mem} {a : Nat} (h : ∀ i < 4, m' (a + i) = m (a + i)) :
    read32 m' a = read32 m a := by
  have h0 := h 0 (by decide)
  rw [Nat.add_zero] at h0
  rw [read32, read32, h0, h 1 (by decide), h 2 (by decide), h 3 (by decide)]

theorem readPhdr_congr {m m' : Mem} {a : Nat} (h : ∀ x ∈ bytes a sizeofElf64Phdr, m' x = m x) :
    readPhdr m' a = readPhdr m a := by
  have hword : ∀ o, o + 4 ≤ sizeofElf64Phdr → read32 m' (a + o) = read32 m (a + o) := fun o ho =>
    read32_congr fun i hi => h _ (by rw [mem_bytes]; omega)
  have hlong : ∀ o, o + 8 ≤ sizeofElf64Phdr → readPtr m' (a + o) = readPtr m (a + o) := fun o ho =>
    readPtr_congr fun i hi => h _ (by rw [mem_bytes]; omega)
  have htype := hword 0 (by decide)
  rw [Nat.add_zero] at htype
  simp only [readPhdr, htype, hword 4 (by decide), hlong 8 (by decide), hlong 16 (by decide),
    hlong 24 (by decide), hlong 32 (by decide), hlong 40 (by decide)]

section
variable [MmuHeader]
open MmuHeader

theorem roundpg_eq {x y : Nat} (hx : x + pagesz ≤ 2 ^ 64) (hd : pagesz ∣ y) (hle : x ≤ y)
    (hlt : y < x + pagesz) :
    roundpg x = y := by
  obtain ⟨h1, ⟨a, ha⟩, h2⟩ := roundpg_spec hx
  obtain ⟨b, rfl⟩ := hd
  rw [ha] at h1 h2 ⊢
  rcases page_cases with ⟨-, hp, -⟩ | ⟨-, hp, -⟩ <;> rw [hp] at hle hlt h1 h2 ⊢ <;> omega

theorem anyVaddr_not_dvd : ¬ pagesz ∣ anyVaddr := by
  intro h
  exact absurd (page_dvd.trans h) (by decide)

/-- The memory that neither the allocator nor the page tables may touch. -/
def MapState.reserved (s : MapState) : Set Nat := {x | x ∉ s.ram.free ∧ x ∉ s.tableBytes}

/-- A step leaves reserved memory alone, and the translation of all addresses outside `V`. -/
structure Keeps (s s' : MapState) (V : Set Nat) : Prop where
  free : s'.ram.free ⊆ s.ram.free
  reserved : s.reserved ⊆ s'.reserved
  mem : ∀ x ∈ s.reserved, s'.ram.mem x = s.ram.mem x
  walk : ∀ x < 2 ^ 64, x ∉ V → ¬ RecursiveSlot x → elfVaddrToPaddr x s' = elfVaddrToPaddr x s

theorem Keeps.refl (s : MapState) (V : Set Nat) : Keeps s s V :=
  ⟨subset_rfl, subset_rfl, fun _ _ => rfl, fun _ _ _ _ => rfl⟩

theorem Keeps.trans {s s' s'' : MapState} {V W : Set Nat} (h : Keeps s s' V) (h' : Keeps s' s'' W) :
    Keeps s s'' (V ∪ W) where
  free := h'.free.trans h.free
  reserved := h.reserved.trans h'.reserved
  mem := fun x hx => (h'.mem x (h.reserved hx)).trans (h.mem x hx)
  walk := fun x hx hout hr =>
    (h'.walk x hx (fun hw => hout (.inr hw)) hr).trans (h.walk x hx (fun hv => hout (.inl hv)) hr)

theorem Keeps.mono {s s' : MapState} {V W : Set Nat} (h : Keeps s s' V) (hsub : V ⊆ W) :
    Keeps s s' W :=
  ⟨h.free, h.reserved, h.mem, fun x hx hout hr => h.walk x hx (fun hv => hout (hsub hv)) hr⟩

theorem Keeps.of_grows {s s' : MapState} {f f' : FreeList} {V : Set Nat}
    (hf : s.ram.ramList.Holds f) (hf' : s'.ram.ramList.Holds f') (h : Grows s s' f f')
    (hwalk : ∀ x < 2 ^ 64, x ∉ V → ¬ RecursiveSlot x → elfVaddrToPaddr x s' = elfVaddrToPaddr x s) :
    Keeps s s' V := by
  have hout : ∀ x ∈ s.reserved, x ∉ s.tableBytes ∪ f.bytes := fun x hx hc =>
    hc.elim hx.2 fun hc => hx.1 (RamState.free_eq hf ▸ hc)
  refine ⟨?_, fun x hx => ⟨fun hc => ?_, fun hc => hout x hx (h.tables hc)⟩,
    fun x hx => h.mem x (hout x hx), hwalk⟩
  · rw [RamState.free_eq hf, RamState.free_eq hf']
    exact h.free
  · rw [RamState.free_eq hf'] at hc
    exact hout x hx (.inr (h.free hc))

theorem MapInv.undisturbed {past : List Mapping} {s s' : MapState} {f f' : FreeList}
    (h : MapInv past s) (hs : s.Tables f) (hu : Undisturbed s s' f f')
    (hv : s'.virtualMode = s.virtualMode) (hfree : s'.freeVaddr = s.freeVaddr) :
    MapInv past s' where
  valid := h.valid
  tables := ⟨f', hu.tables hs⟩
  virtualMode := hv.trans h.virtualMode
  free_lt := hfree ▸ h.free_lt
  leaf := fun x hx hr => (hu.leaf_eq (mappable_place hx hr)).trans (h.leaf x hx hr)
  chosen := fun e he hany => hfree ▸ h.chosen e he hany
  apart := h.apart

theorem pagesz_two_pow : ∃ k < 32, 12 ≤ k ∧ pagesz = 2 ^ k := by
  rcases page_cases with ⟨-, hp, -⟩ | ⟨-, hp, -⟩
  · exact ⟨12, by decide, le_rfl, hp⟩
  · exact ⟨16, by decide, by decide, hp⟩

def Elf64Phdr.pages (p : Elf64Phdr) : Set Nat :=
  bytes (truncpg p.pVaddr) (roundpg (p.pMemsz + p.pVaddr % pagesz))

/-- A segment as the loader expects it. Its bytes of `file` are in reserved memory: in the copy
of the file at `addr`, or already at `p_paddr`. -/
structure Elf64Phdr.WellFormed (p : Elf64Phdr) (addr : Nat) (file : Nat → UInt8)
    (s : MapState) : Prop where
  memsz_pos : 0 < p.pMemsz
  filesz_le : p.pFilesz ≤ p.pMemsz
  memsz_lt : p.pMemsz < 2 ^ 32
  congruent : p.pVaddr % pagesz = p.pOffset % pagesz
  inMemory : addr + p.pOffset + p.pFilesz ≤ 2 ^ 48
  clear : ∀ x ∈ p.pages, ¬ RecursiveSlot x
  copied : p.pPaddr = 0 → ∀ k < p.pFilesz,
    addr + p.pOffset + k ∈ s.reserved ∧ s.ram.mem (addr + p.pOffset + k) = file (p.pOffset + k)
  inPlace : p.pPaddr ≠ 0 → p.pVaddr % pagesz = p.pPaddr % pagesz ∧ p.pPaddr + p.pFilesz ≤ 2 ^ 48 ∧
    ∀ k < p.pFilesz, p.pPaddr + k ∈ s.reserved ∧ s.ram.mem (p.pPaddr + k) = file (p.pOffset + k)

/-- `pa` is byte `k` of the segment's file bytes, used in place. -/
def Elf64Phdr.InPlace (p : Elf64Phdr) (k pa : Nat) : Prop :=
  p.pPaddr ≠ 0 ∧ k < p.pFilesz ∧ pa = p.pPaddr + k

/-- The segment is loaded; `block` is the RAM allocated for it. -/
def Elf64Phdr.Loaded (p : Elf64Phdr) (file : Nat → UInt8) (block : Set Nat) (s : MapState) : Prop :=
  ∀ k < p.pMemsz, ∃ pa, elfVaddrToPaddr (p.pVaddr + k) s = .ok pa ∧
    s.ram.mem pa = (if k < p.pFilesz then file (p.pOffset + k) else 0) ∧
    (pa ∈ block ∨ p.InPlace k pa)

/-- What loading a segment does. -/
structure SegmentLoaded (p : Elf64Phdr) (file : Nat → UInt8) (block : Set Nat)
    (s s' : MapState) : Prop where
  inv : ∃ past, MapInv past s'
  keeps : Keeps s s' p.pages
  fits : ∀ x ∈ p.pages, x < 2 ^ 64
  taken : block ⊆ s.ram.free
  owned : block ⊆ s'.reserved
  loaded : p.Loaded file block s'

theorem Elf64Phdr.sizes {p : Elf64Phdr} (hlt : p.pMemsz < 2 ^ 32) :
    pagesz ≤ 2 ^ 16 ∧ p.pVaddr % pagesz < pagesz ∧ p.pMemsz + p.pVaddr % pagesz ≤
      roundpg (p.pMemsz + p.pVaddr % pagesz) ∧
      pagesz ∣ roundpg (p.pMemsz + p.pVaddr % pagesz) ∧
      roundpg (p.pMemsz + p.pVaddr % pagesz) < p.pMemsz + p.pVaddr % pagesz + pagesz := by
  have hpg := pagesz_le
  have hoff := Nat.mod_lt p.pVaddr pagesz_pos
  have hround := roundpg_spec (x := p.pMemsz + p.pVaddr % pagesz) (by omega)
  exact ⟨hpg, hoff, hround.1, hround.2.1, hround.2.2⟩

theorem roundpg_self {x : Nat} (hx : x + pagesz ≤ 2 ^ 64) (hd : pagesz ∣ x) : roundpg x = x :=
  roundpg_eq hx hd le_rfl (Nat.lt_add_of_pos_right pagesz_pos)

theorem truncpg_add_mod {x : Nat} (hx : x < 2 ^ 64) : truncpg x + x % pagesz = x := by
  rw [truncpg_eq hx, Nat.mul_comm, Nat.div_add_mod]

end

section
variable [SyspageHeader] [MmuHeader]
open MmuHeader

theorem MapRun.owned {ok : MapCall → MapState → Prop} {s₀ s : MapState} {f : FreeList}
    {past : List Mapping} (hf : FreshRam s₀.ram f) (hv : s₀.virtualMode = true)
    (h : MapRun ok s₀ past s) :
    s.tableBytes ⊆ f.bytes ∧ s.ram.free ⊆ f.bytes := by
  induction h with
  | init clear h =>
    obtain ⟨l0, before, after, f1, f2, hstart, hown, hfree⟩ := aarch64MapInit_ok hf hv clear h
    refine ⟨hown, ?_⟩
    rw [RamState.free_eq hstart.undisturbed.fresh.holds]
    exact hfree
  | map run allowed hok h ih =>
    obtain ⟨f1, f2, hs, hmap⟩ :=
      (run.inv hf hv).mapped allowed.vaddr allowed.physical.le allowed.clear h
    have hfree := RamState.free_eq hs.fresh.holds
    rw [RamState.free_eq hmap.tables.fresh.holds]
    rw [hfree] at ih
    have htables := hmap.grows.tables
    rw [(MapCall.chosen_same _ _).tableBytes] at htables
    exact ⟨htables.trans (Set.union_subset ih.1 ih.2), hmap.grows.free.trans ih.2⟩
  | @cpus past s run n m ih =>
    have hsame : SameTables s { s with numCpu := n, meltdownActive := m } := ⟨rfl, rfl, rfl⟩
    exact ⟨hsame.tableBytes ▸ ih.1, ih.2⟩

theorem MapRun.reserved {ok : MapCall → MapState → Prop} {s₀ s : MapState} {f : FreeList}
    {past : List Mapping} (hf : FreshRam s₀.ram f) (hv : s₀.virtualMode = true)
    (h : MapRun ok s₀ past s) {x : Nat} (hx : x ∉ f.bytes) :
    x ∈ s.reserved :=
  ⟨fun hc => hx ((h.owned hf hv).2 hc), fun hc => hx ((h.owned hf hv).1 hc)⟩

section
variable {past : List Mapping} {s s' : MapState}

theorem elfMap_aligned {vaddr paddr size flags : Nat} (hv : s.virtualMode = true)
    (hd : pagesz ∣ vaddr) (h : elfMap vaddr paddr size flags s = .ok s') : pagesz ∣ paddr := by
  obtain ⟨⟨s1, r⟩, h, -⟩ := bind_eq_ok.mp h
  unfold aarch64Map at h
  rw [if_neg (by rw [hv]; decide)] at h
  simp only [and_pagesz_sub_one] at h
  rw [crash_ite_eq_ok] at h
  have hne : vaddr ≠ anyVaddr := fun hc => anyVaddr_not_dvd (hc ▸ hd)
  have hoff : ¬ vaddr % pagesz ≠ paddr % pagesz := fun hc => h.1 ⟨hne, hc⟩
  rw [Nat.mod_eq_zero_of_dvd hd] at hoff
  exact Nat.dvd_of_mod_eq_zero (not_not.mp hoff).symm

theorem MapInv.elfMap {vaddr paddr size flags : Nat} (h : MapInv past s) (hd : pagesz ∣ vaddr)
    (hva : vaddr < 2 ^ 64) (hb : paddr + size ≤ 2 ^ 48)
    (hclear : ∀ x ∈ bytes vaddr (roundpg size), ¬ RecursiveSlot x)
    (hrun : QnxStartup.elfMap vaddr paddr size flags s = .ok s') :
    (∃ e, MapInv (e :: past) s') ∧ Keeps s s' (bytes vaddr (roundpg size)) ∧
      vaddr + roundpg size < 2 ^ 64 ∧
      ∀ x ∈ bytes vaddr (roundpg size), elfVaddrToPaddr x s' = .ok (paddr + (x - vaddr)) := by
  have hdp := elfMap_aligned h.virtualMode hd hrun
  obtain ⟨⟨s1, r⟩, hcall, hs1⟩ := bind_eq_ok.mp hrun
  obtain rfl := Except.ok.inj hs1
  have hne : vaddr ≠ anyVaddr := fun hc => anyVaddr_not_dvd (hc ▸ hd)
  let c : MapCall := ⟨vaddr, paddr, size, elfProt flags⟩
  have htrunc : ∀ {x}, pagesz ∣ x → x < 2 ^ 64 → truncpg x = x := fun hx hlt => by
    rw [truncpg_eq hlt, Nat.div_mul_cancel hx]
  have hstart : c.start s = vaddr := by
    rw [MapCall.start, if_neg hne, htrunc hd hva]
  have hlen : c.len = roundpg size := by
    rw [MapCall.len, Nat.mod_eq_zero_of_dvd hdp, Nat.add_zero]
  have hcov : ∀ x, (c.mapping s).Covers x ↔ x ∈ bytes vaddr (roundpg size) := fun x => by
    rw [mem_bytes, ← hstart, ← hlen]
    rfl
  have hclear' : ∀ x, (c.mapping s).Covers x → ¬ RecursiveSlot x :=
    fun x hx => hclear x ((hcov x).mp hx)
  obtain ⟨f, f', hs, hmap⟩ := h.mapped (c := c) hva hb hclear' hcall
  have hinv := h.of_mapped hva hb hclear' hmap
  have hgrows := hmap.grows
  rw [MapCall.chosen, if_neg hne] at hgrows
  refine ⟨⟨_, hinv⟩, .of_grows hs.fresh.holds hmap.tables.fresh.holds hgrows fun x hx hout hr => ?_,
    ?_, fun x hx => ?_⟩
  · exact h.walk_congr hinv hx hr (by rw [lastPte_cons, if_neg fun hc => hout ((hcov x).mp hc)])
  · rw [← hlen, ← hstart]
    exact hmap.accepted.fits
  · have hc := (hcov x).mpr hx
    have hshow := (hinv.shown (e := c.mapping s) (by simp)
      ⟨hc, by rw [List.find?_cons_of_pos (by simpa using hc)]⟩).1
    rw [hshow]
    change Except.ok (truncpg paddr + (x - c.start s)) = _
    rw [hstart, htrunc hdp (by omega)]

theorem MapInv.callocCopy {size len a d : Nat} {src : Mem → Nat} (h : MapInv past s)
    (hsize : 0 < size) (hlen : len ≤ size)
    (hsrc : ∀ m : Mem, (∀ x ∈ s.reserved, m x = s.ram.mem x) → src m = a) (ha : a + len < 2 ^ 64)
    (hn : d ≠ nullPaddr) (hrun : QnxStartup.callocCopy size len src s = .ok (s', d)) :
    MapInv past s' ∧ Keeps s s' ∅ ∧ d + size ≤ 2 ^ 48 ∧ bytes d size ⊆ s.ram.free ∧
      bytes d size ⊆ s'.reserved ∧
      (∀ j < len, a + j ∈ s.reserved → s'.ram.mem (d + j) = s.ram.mem (a + j)) ∧
      ∀ j < size, len ≤ j → s'.ram.mem (d + j) = 0 := by
  obtain ⟨f, hs⟩ := h.tables
  obtain ⟨k, hk, -, hpk⟩ := pagesz_two_pow
  obtain ⟨⟨r, d'⟩, hr, hrun⟩ := bind_eq_ok.mp hrun
  obtain ⟨m, hm, hrun⟩ := bind_eq_ok.mp hrun
  obtain ⟨rfl, rfl⟩ := Prod.mk.inj (Except.ok.inj hrun)
  rw [hpk] at hr
  obtain ⟨hn', -⟩ | ⟨-, -, hsub, hfresh, hmem, -⟩ := callocRam_fresh hs.fresh hsize hk hr
  · exact absurd hn' hn
  have hfree := RamState.free_eq hs.fresh.holds
  have hnot : ∀ x ∈ s.reserved, x ∉ bytes d' size := fun x hx hc => hx.1 (hfree ▸ hsub hc)
  have hkept : ∀ x ∈ s.reserved, r.mem x = s.ram.mem x := fun x hx => by
    rw [hmem]
    exact memset_of_not_mem (hnot x hx)
  rw [hsrc r.mem hkept] at hm
  obtain ⟨hout, hin⟩ := copyMemory_ok ha hm
  have hbytes : (f.erase d' (d' + size)).bytes = f.bytes \ bytes d' size := f.bytes_erase_size ..
  have hfree' : ({ s with ram := { r with mem := m } } : MapState).ram.free =
      f.bytes \ bytes d' size :=
    (RamState.free_eq hfresh.holds).trans hbytes
  have hchanged : ∀ x ∉ bytes d' size, m x = s.ram.mem x := fun x hx => by
    rw [hout x fun hc => hx (bytes_mono hlen hc), hmem]
    exact memset_of_not_mem hx
  have hu : Undisturbed s { s with ram := { r with mem := m } } f (f.erase d' (d' + size)) := by
    refine .of_mem ⟨hfresh.holds, hfresh.physical, hfresh.zeroes⟩ ?_ rfl rfl fun x hx =>
      hchanged x fun hc => ?_
    · rw [hbytes]
      exact Set.sdiff_subset
    · exact Set.disjoint_left.mp hs.tableBytes_disjoint hx (hsub hc)
  have hinv := h.undisturbed hs hu rfl rfl
  have hlast := hs.fresh.physical (d' + (size - 1)) (hsub (by rw [mem_bytes]; omega))
  refine ⟨hinv, ⟨?_, fun x hx => ⟨fun hc => ?_, fun hc => ?_⟩, fun x hx => hchanged x (hnot x hx),
    fun x hx _ hr' => ?_⟩,
    by omega, hfree ▸ hsub, fun x hx => ⟨fun hc => ?_,
      fun hc => ?_⟩, fun j hj hres => ?_, fun j hj hle => ?_⟩
  · rw [hfree', hfree]
    exact Set.sdiff_subset
  · rw [hfree'] at hc
    exact hx.1 (hfree ▸ hc.1)
  · rw [hu.tableBytes_eq] at hc
    exact hx.2 hc
  · exact h.walk_congr hinv hx hr' rfl
  · rw [hfree'] at hc
    exact hc.2 hx
  · rw [hu.tableBytes_eq] at hc
    exact Set.disjoint_left.mp hs.tableBytes_disjoint hc (hsub hx)
  · rw [← hkept _ hres]
    exact hin j hj fun hc => hnot _ hres (bytes_mono hlen hc)
  · change m (d' + j) = 0
    rw [hout _ (by rw [mem_bytes]; omega), hmem]
    exact memset_of_mem (by omega)

end

theorem callocCopy_virtualMode {size len d : Nat} {src : Mem → Nat} {s s' : MapState}
    (h : callocCopy size len src s = .ok (s', d)) : s'.virtualMode = s.virtualMode := by
  obtain ⟨⟨r, d'⟩, -, h⟩ := bind_eq_ok.mp h
  obtain ⟨m, -, h⟩ := bind_eq_ok.mp h
  obtain ⟨rfl, -⟩ := Prod.mk.inj (Except.ok.inj h)
  rfl

/-- The pages from `v` on lead to a block of their own, with `len` bytes from `a` in it. -/
structure PagesCopied (v size len a : Nat) (s s' : MapState) (d : Nat) : Prop where
  inv : ∃ past, MapInv past s'
  keeps : Keeps s s' (bytes v size)
  fits : v + size < 2 ^ 64
  taken : bytes d size ⊆ s.ram.free
  owned : bytes d size ⊆ s'.reserved
  walk : ∀ j < size, elfVaddrToPaddr (v + j) s' = .ok (d + j)
  copied : ∀ j < len, a + j ∈ s.reserved → s'.ram.mem (d + j) = s.ram.mem (a + j)
  zero : ∀ j < size, len ≤ j → s'.ram.mem (d + j) = 0

theorem MapInv.copyPages {past : List Mapping} {s s' : MapState} {size len memsz v a : Nat}
    {src : Mem → Nat} {g : MapState → Nat} (h : MapInv past s) (hd : pagesz ∣ v) (hv : v < 2 ^ 64)
    (hsize : 0 < size) (hlen : len ≤ size) (hround : roundpg memsz = size) (hmemsz : memsz ≤ size)
    (hsrc : ∀ m : Mem, (∀ x ∈ s.reserved, m x = s.ram.mem x) → src m = a) (ha : a + len < 2 ^ 64)
    (hclear : ∀ x ∈ bytes v size, ¬ RecursiveSlot x)
    (hrun : ((QnxStartup.callocCopy size len src s).bind fun (m, daddr) =>
      QnxStartup.elfMap v daddr memsz (g m) m) = .ok s') :
    ∃ d, PagesCopied v size len a s s' d := by
  obtain ⟨⟨s1, d⟩, hcopy, hmap⟩ := bind_eq_ok.mp hrun
  dsimp only at hmap
  have hdd := elfMap_aligned ((callocCopy_virtualMode hcopy).trans h.virtualMode) hd hmap
  have hn : d ≠ nullPaddr := fun hc => anyVaddr_not_dvd (show pagesz ∣ nullPaddr from hc ▸ hdd)
  obtain ⟨hinv1, hkeep1, hphys, htaken, howned, hcopied, hzero⟩ :=
    h.callocCopy hsize hlen hsrc ha hn hcopy
  obtain ⟨⟨e, hinv2⟩, hkeep2, hfits, hwalk⟩ := hinv1.elfMap hd hv (by omega)
    (by rw [hround]; exact hclear) hmap
  rw [hround] at hkeep2 hfits hwalk
  have hblock : ∀ j < size, d + j ∈ bytes d size := fun j hj => mem_bytes.mpr (by omega)
  refine ⟨d, ⟨_, hinv2⟩, ?_, hfits, htaken, howned.trans hkeep2.reserved, fun j hj => ?_,
    fun j hj hres => ?_, fun j hj hle => ?_⟩
  · exact (hkeep1.trans hkeep2).mono (Set.union_subset (Set.empty_subset _) subset_rfl)
  · rw [hwalk (v + j) (mem_bytes.mpr (by omega)), Nat.add_sub_cancel_left]
  · rw [hkeep2.mem _ (howned (hblock j (by omega)))]
    exact hcopied j hj hres
  · rw [hkeep2.mem _ (howned (hblock j hj))]
    exact hzero j hj hle

section
variable {past : List Mapping} {s s' : MapState} {p : Elf64Phdr} {addr phdr : Nat}
  {file : Nat → UInt8}

omit [SyspageHeader] in
/-- The sizes with which a segment is copied: as they are, or both rounded up. -/
theorem Elf64Phdr.copy_sizes {filesz memsz : Nat} (hlt : p.pMemsz < 2 ^ 32)
    (hle : p.pFilesz ≤ p.pMemsz)
    (hsizes : filesz = p.pFilesz + p.pVaddr % pagesz ∧ memsz = p.pMemsz + p.pVaddr % pagesz ∨
      p.pMemsz = p.pFilesz ∧ filesz = roundpg (p.pMemsz + p.pVaddr % pagesz) ∧
        memsz = roundpg (p.pMemsz + p.pVaddr % pagesz)) :
    roundpg memsz = roundpg (p.pMemsz + p.pVaddr % pagesz) ∧ filesz ≤ roundpg memsz ∧
      memsz ≤ roundpg memsz ∧ p.pFilesz + p.pVaddr % pagesz ≤ filesz ∧
      (p.pFilesz < p.pMemsz → filesz = p.pFilesz + p.pVaddr % pagesz) := by
  obtain ⟨hpg, hoff, hfull, hdvd, hfull_lt⟩ := p.sizes hlt
  rcases hsizes with ⟨rfl, rfl⟩ | ⟨heq, rfl, rfl⟩
  · exact ⟨rfl, by omega, hfull, le_rfl, fun _ => rfl⟩
  · have hself := roundpg_self (x := roundpg (p.pMemsz + p.pVaddr % pagesz)) (by omega) hdvd
    rw [hself]
    exact ⟨rfl, le_rfl, le_rfl, by omega, fun hc => absurd hc (by omega)⟩

theorem copySegment_ok {filesz memsz : Nat} {g : MapState → Nat} (h : MapInv past s)
    (hva : p.pVaddr < 2 ^ 64) (hp : p.WellFormed addr file s)
    (hpaddr : p.pPaddr = 0) (hphdr : readPhdr s.ram.mem phdr = p)
    (hres : bytes phdr sizeofElf64Phdr ⊆ s.reserved)
    (hsizes : filesz = p.pFilesz + p.pVaddr % pagesz ∧ memsz = p.pMemsz + p.pVaddr % pagesz ∨
      p.pMemsz = p.pFilesz ∧ filesz = roundpg (p.pMemsz + p.pVaddr % pagesz) ∧
        memsz = roundpg (p.pMemsz + p.pVaddr % pagesz))
    (hrun :
      ((callocCopy (roundpg memsz) filesz (fun m => sub64 (u64 (addr + (readPhdr m phdr).pOffset))
          ((readPhdr m phdr).pVaddr % pagesz)) s).bind fun (m, daddr) =>
        elfMap (truncpg p.pVaddr) daddr memsz (g m) m) = .ok s') :
    ∃ block, SegmentLoaded p file block s s' := by
  obtain ⟨hpg, hoff, hfull, hdvd, hfull_lt⟩ := p.sizes hp.memsz_lt
  have hlt := hp.memsz_lt
  have hle := hp.filesz_le
  have hpos := hp.memsz_pos
  have hsplit := truncpg_add_mod hva
  obtain ⟨hround, hfile_le, hmem_le, hfile_ge, hfile_eq⟩ := p.copy_sizes hlt hle hsizes
  generalize hoffset : p.pVaddr % pagesz = off at *
  generalize hrounded : roundpg (p.pMemsz + off) = full at *
  -- the file's page offset is that of the address
  have hinfile : off ≤ addr + p.pOffset := by
    have := Nat.mod_le p.pOffset pagesz
    have := hp.congruent
    omega
  have hmem := hp.inMemory
  rw [hround] at hrun hfile_le hmem_le
  have hsrc : ∀ m : Mem, (∀ x ∈ s.reserved, m x = s.ram.mem x) →
      sub64 (u64 (addr + (readPhdr m phdr).pOffset)) ((readPhdr m phdr).pVaddr % pagesz) =
      addr + p.pOffset - off :=
    fun m hm => by
      rw [readPhdr_congr fun x hx => hm x (hres hx), hphdr, u64_of_lt (by omega), hoffset,
        sub64_of_le (by omega) hinfile]
  have hpages : p.pages = bytes (truncpg p.pVaddr) full := by
    rw [Elf64Phdr.pages, hoffset, hrounded]
  obtain ⟨d, hc⟩ := h.copyPages (truncpg_dvd hva) (by omega) (by omega) hfile_le hround hmem_le hsrc
    (by omega)
    (hpages ▸ hp.clear) hrun
  have hfits := hc.fits
  refine ⟨bytes d full, hc.inv, hpages ▸ hc.keeps, fun x hx => ?_, hc.taken,
    hc.owned, fun k hk => ?_⟩
  · rw [hpages, mem_bytes] at hx
    omega
  · refine ⟨d + (off + k), ?_, ?_, .inl (mem_bytes.mpr (by omega))⟩
    · rw [← hc.walk (off + k) (by omega)]
      exact congrArg (elfVaddrToPaddr · s') (by omega)
    · by_cases hkf : k < p.pFilesz
      · have hfrom : addr + p.pOffset - off + (off + k) = addr + p.pOffset + k := by omega
        have hread := hc.copied (off + k) (by omega)
        rw [hfrom] at hread
        obtain ⟨hres', hbyte⟩ := hp.copied hpaddr k hkf
        rw [if_pos hkf, hread hres', hbyte]
      · rw [if_neg hkf]
        exact hc.zero _ (by omega) (by rw [hfile_eq (by omega)]; omega)

theorem mapInPlace_ok {whole flags : Nat} (h : MapInv past s) (hva : p.pVaddr < 2 ^ 64)
    (hpa : p.pPaddr < 2 ^ 64) (hp : p.WellFormed addr file s) (hpaddr : p.pPaddr ≠ 0)
    (hwhole : pagesz ∣ whole) (hle : whole ≤ roundpg (p.pMemsz + p.pVaddr % pagesz))
    (hfile : whole < p.pFilesz + p.pVaddr % pagesz + pagesz)
    (hrun : elfMap (truncpg p.pVaddr) (truncpg p.pPaddr) whole flags s = .ok s') :
    (∃ e, MapInv (e :: past) s') ∧ Keeps s s' (bytes (truncpg p.pVaddr) whole) ∧
      truncpg p.pVaddr + whole < 2 ^ 64 ∧
      ∀ k < p.pFilesz, p.pVaddr % pagesz + k < whole →
        elfVaddrToPaddr (p.pVaddr + k) s' = .ok (p.pPaddr + k) := by
  obtain ⟨hpg, hoff, hfull, hdvd, hfull_lt⟩ := p.sizes hp.memsz_lt
  obtain ⟨hcong, hphys, -⟩ := hp.inPlace hpaddr
  have hlt := hp.memsz_lt
  have hsplit := truncpg_add_mod hva
  have hsplit' := truncpg_add_mod hpa
  have hdp : pagesz ∣ truncpg p.pPaddr := truncpg_dvd hpa
  have hround : roundpg whole = whole := roundpg_self (by omega) hwhole
  have hb : truncpg p.pPaddr + whole ≤ 2 ^ 48 := by
    obtain ⟨a, ha⟩ := hdp
    obtain ⟨b, rfl⟩ := hwhole
    rw [← hcong] at hsplit'
    rw [ha] at hsplit' ⊢
    rcases page_cases with ⟨-, hq, -⟩ | ⟨-, hq, -⟩ <;> rw [hq] at hfile hoff hsplit' ⊢ <;> omega
  obtain ⟨hinv, hkeep, hfits, hwalk⟩ := h.elfMap (truncpg_dvd hva) (by omega) hb
    (fun x hx => hp.clear x (bytes_mono (by rw [hround]; exact hle) hx)) hrun
  rw [hround] at hkeep hfits hwalk
  refine ⟨hinv, hkeep, hfits, fun k _ hk => ?_⟩
  rw [hwalk _ (by rw [mem_bytes]; omega)]
  exact congrArg _ (by omega)

omit [SyspageHeader] in
/-- A byte in the pages that are used in place stays where it is when the rest is copied. -/
theorem inPlace_front {whole size len a d k : Nat} {s₁ : MapState} (hp : p.WellFormed addr file s)
    (hpaddr : p.pPaddr ≠ 0) (hkeep : Keeps s s₁ (bytes (truncpg p.pVaddr) whole))
    (hwalk : elfVaddrToPaddr (p.pVaddr + k) s₁ = .ok (p.pPaddr + k))
    (hc : PagesCopied (truncpg p.pVaddr + whole) size len a s₁ s' d) (hk : k < p.pFilesz)
    (hlt : p.pVaddr + k < 2 ^ 64) (hx : p.pVaddr + k ∈ p.pages)
    (hout : p.pVaddr + k ∉ bytes (truncpg p.pVaddr + whole) size) :
    elfVaddrToPaddr (p.pVaddr + k) s' = .ok (p.pPaddr + k) ∧
      s'.ram.mem (p.pPaddr + k) = file (p.pOffset + k) := by
  obtain ⟨-, -, hbytes⟩ := hp.inPlace hpaddr
  obtain ⟨hin, hsame⟩ := hbytes k hk
  constructor
  · rw [hc.keeps.walk _ hlt hout (hp.clear _ hx), hwalk]
  · rw [(hkeep.trans hc.keeps).mem _ hin, hsame]

omit [SyspageHeader] in
/-- A byte in the pages behind them leads to the copy. -/
theorem inPlace_back {whole size len d j k : Nat} {s₁ : MapState} (hp : p.WellFormed addr file s)
    (hva : p.pVaddr < 2 ^ 64) (hpa : p.pPaddr < 2 ^ 64) (hpaddr : p.pPaddr ≠ 0)
    (hkeep : Keeps s s₁ (bytes (truncpg p.pVaddr) whole))
    (hc : PagesCopied (truncpg p.pVaddr + whole) size len (truncpg p.pPaddr + whole) s₁ s' d)
    (hj : p.pVaddr % pagesz + k = whole + j) (hsize : j < size)
    (hlen : p.pFilesz + p.pVaddr % pagesz = whole + len) :
    elfVaddrToPaddr (p.pVaddr + k) s' = .ok (d + j) ∧
      s'.ram.mem (d + j) = if k < p.pFilesz then file (p.pOffset + k) else 0 := by
  obtain ⟨hcong, -, hbytes⟩ := hp.inPlace hpaddr
  have hsplit := truncpg_add_mod hva
  have hsplit' := truncpg_add_mod hpa
  constructor
  · rw [← hc.walk j hsize]
    exact congrArg (elfVaddrToPaddr · s') (by omega)
  · by_cases hk : k < p.pFilesz
    · obtain ⟨hin, hsame⟩ := hbytes k hk
      have hfrom : truncpg p.pPaddr + whole + j = p.pPaddr + k := by omega
      have hread := hc.copied j (by omega)
      rw [hfrom] at hread
      rw [if_pos hk, hread (hkeep.reserved hin), hkeep.mem _ hin, hsame]
    · rw [if_neg hk]
      exact hc.zero _ hsize (by omega)

/-- The file bytes end before the memory does. The pages that they fill are used in place, and the
rest of the segment is copied. -/
theorem inPlaceSegment_part {whole flags : Nat} {s₁ : MapState} {g : MapState → Nat}
    (h : MapInv past s) (hva : p.pVaddr < 2 ^ 64) (hpa : p.pPaddr < 2 ^ 64)
    (hp : p.WellFormed addr file s) (hpaddr : p.pPaddr ≠ 0) (hne : p.pMemsz ≠ p.pFilesz)
    (hw : (p.pFilesz + p.pVaddr % pagesz) / pagesz * pagesz = whole)
    (hfirst : elfMap (truncpg p.pVaddr) (truncpg p.pPaddr) whole flags s = .ok s₁)
    (hrun :
      ((callocCopy (roundpg (p.pMemsz + p.pVaddr % pagesz) - whole)
          ((p.pFilesz + p.pVaddr % pagesz) % pagesz)
          (fun _ => u64 (truncpg p.pPaddr + whole)) s₁).bind fun (m, daddr) =>
        elfMap (u64 (truncpg p.pVaddr + whole)) daddr
          (roundpg (p.pMemsz + p.pVaddr % pagesz) - whole) (g m) m) = .ok s') :
    ∃ block, SegmentLoaded p file block s s' := by
  obtain ⟨hpg, hoff, hfull, hdvd, hfull_lt⟩ := p.sizes hp.memsz_lt
  obtain ⟨hcong, hphys, hbytes⟩ := hp.inPlace hpaddr
  have hlt := hp.memsz_lt
  have hle := hp.filesz_le
  have hsplit := truncpg_add_mod hva
  have hsplit' := truncpg_add_mod hpa
  rw [← hcong] at hsplit'
  have hrem := Nat.div_add_mod (p.pFilesz + p.pVaddr % pagesz) pagesz
  have hrem_lt := Nat.mod_lt (p.pFilesz + p.pVaddr % pagesz) pagesz_pos
  rw [Nat.mul_comm, hw] at hrem
  have hwhole : pagesz ∣ whole := hw ▸ Dvd.intro_left _ rfl
  have hpages : p.pages = bytes (truncpg p.pVaddr) (roundpg (p.pMemsz + p.pVaddr % pagesz)) := rfl
  generalize hrounded : roundpg (p.pMemsz + p.pVaddr % pagesz) = full at *
  obtain ⟨⟨e, hinv1⟩, hkeep1, hfits1, hwalk1⟩ := mapInPlace_ok h hva hpa hp hpaddr hwhole
    (by omega) (by omega) hfirst
  rw [u64_of_lt hfits1] at hrun
  have hclear : ∀ x ∈ bytes (truncpg p.pVaddr + whole) (full - whole), ¬ RecursiveSlot x :=
    fun x hx => by
    rw [mem_bytes] at hx
    exact hp.clear x (by rw [hpages, mem_bytes]; omega)
  obtain ⟨d, hc⟩ := hinv1.copyPages (Nat.dvd_add (truncpg_dvd hva) hwhole) hfits1
    (by omega) (by omega)
    (roundpg_self (by omega) (Nat.dvd_sub hdvd hwhole)) le_rfl (fun _ _ => u64_of_lt (by omega))
      (by omega) hclear hrun
  have hfits := hc.fits
  refine ⟨bytes d (full - whole), hc.inv, ?_, fun x hx => ?_, hc.taken.trans hkeep1.free,
    hc.owned, fun k hk => ?_⟩
  · refine (hkeep1.trans hc.keeps).mono fun x hx => ?_
    rw [hpages, mem_bytes]
    rcases hx with hx | hx <;> rw [mem_bytes] at hx <;> omega
  · rw [hpages, mem_bytes] at hx
    omega
  · have hx : p.pVaddr + k ∈ p.pages := by
      rw [hpages, mem_bytes]
      omega
    by_cases hk' : p.pVaddr % pagesz + k < whole
    · have hkf : k < p.pFilesz := by omega
      have hout : p.pVaddr + k ∉ bytes (truncpg p.pVaddr + whole) (full - whole) := by
        rw [mem_bytes]
        omega
      obtain ⟨hwalk, hmem⟩ :=
        inPlace_front hp hpaddr hkeep1 (hwalk1 k hkf hk') hc hkf (by omega) hx hout
      exact ⟨p.pPaddr + k, hwalk, by rw [if_pos hkf, hmem], .inr ⟨hpaddr, hkf, rfl⟩⟩
    · obtain ⟨j, hj⟩ := Nat.exists_eq_add_of_le (not_lt.mp hk')
      obtain ⟨hwalk, hmem⟩ := inPlace_back hp hva hpa hpaddr hkeep1 hc hj (by omega) (by omega)
      exact ⟨d + j, hwalk, hmem, .inl (mem_bytes.mpr (by omega))⟩

/-- The file bytes fill the memory. -/
theorem inPlaceSegment_whole {flags : Nat} (h : MapInv past s) (hva : p.pVaddr < 2 ^ 64)
    (hpa : p.pPaddr < 2 ^ 64) (hp : p.WellFormed addr file s) (hpaddr : p.pPaddr ≠ 0)
    (heq : p.pMemsz = p.pFilesz)
    (hrun : elfMap (truncpg p.pVaddr) (truncpg p.pPaddr)
      (roundpg (p.pMemsz + p.pVaddr % pagesz)) flags s = .ok s') :
    ∃ block, SegmentLoaded p file block s s' := by
  obtain ⟨-, -, hfull, hdvd, hfull_lt⟩ := p.sizes hp.memsz_lt
  obtain ⟨-, -, hbytes⟩ := hp.inPlace hpaddr
  have hsplit := truncpg_add_mod hva
  have hpages : p.pages = bytes (truncpg p.pVaddr) (roundpg (p.pMemsz + p.pVaddr % pagesz)) := rfl
  obtain ⟨⟨e, hinv⟩, hkeep, hfits, hwalk⟩ := mapInPlace_ok h hva hpa hp hpaddr hdvd le_rfl
    (by omega) hrun
  refine ⟨∅, ⟨_, hinv⟩, hkeep, fun x hx => ?_, Set.empty_subset _,
    Set.empty_subset _, fun k hk => ?_⟩
  · rw [hpages, mem_bytes] at hx
    omega
  · have hkf : k < p.pFilesz := by omega
    obtain ⟨hin, hsame⟩ := hbytes k hkf
    refine ⟨p.pPaddr + k, hwalk k hkf (by omega), ?_, .inr ⟨hpaddr, hkf, rfl⟩⟩
    rw [hkeep.mem _ hin, if_pos hkf, hsame]

/-- A segment with `p_paddr` is used in place, but for the page in which its file bytes end
before its memory does. -/
theorem inPlaceSegment_ok {filesz memsz flags : Nat} {g : MapState → Nat} (h : MapInv past s)
    (hva : p.pVaddr < 2 ^ 64)
    (hpa : p.pPaddr < 2 ^ 64) (hp : p.WellFormed addr file s) (hpaddr : p.pPaddr ≠ 0)
    (hsizes : p.pMemsz ≠ p.pFilesz ∧ filesz = p.pFilesz + p.pVaddr % pagesz ∧
      memsz = p.pMemsz + p.pVaddr % pagesz ∨
      p.pMemsz = p.pFilesz ∧ filesz = roundpg (p.pMemsz + p.pVaddr % pagesz) ∧
        memsz = roundpg (p.pMemsz + p.pVaddr % pagesz))
    (hrun :
      ((elfMap (truncpg p.pVaddr) (truncpg p.pPaddr) (filesz / pagesz * pagesz) flags s).bind
        fun m =>
          if roundpg (sub64 memsz (filesz / pagesz * pagesz)) ≠ 0 then
            (callocCopy (roundpg (sub64 memsz (filesz / pagesz * pagesz))) (filesz % pagesz)
                (fun _ => u64 (truncpg p.pPaddr + filesz / pagesz * pagesz)) m).bind
              fun (m, daddr) =>
                elfMap (u64 (truncpg p.pVaddr + filesz / pagesz * pagesz)) daddr
                  (roundpg (sub64 memsz (filesz / pagesz * pagesz))) (g m) m
          else .ok m) = .ok s') :
    ∃ block, SegmentLoaded p file block s s' := by
  obtain ⟨hpg, hoff, hfull, hdvd, hfull_lt⟩ := p.sizes hp.memsz_lt
  have hlt := hp.memsz_lt
  have hle := hp.filesz_le
  obtain ⟨s₁, hfirst, hrun⟩ := bind_eq_ok.mp hrun
  rcases hsizes with ⟨hne, rfl, rfl⟩ | ⟨heq, rfl, rfl⟩
  · have hfloor := Nat.div_mul_le_self (p.pFilesz + p.pVaddr % pagesz) pagesz
    have hwhole : pagesz ∣ (p.pFilesz + p.pVaddr % pagesz) / pagesz * pagesz := Dvd.intro_left _ rfl
    generalize hw : (p.pFilesz + p.pVaddr % pagesz) / pagesz * pagesz =
      whole at hfloor hwhole hfirst hrun
    have hrest : roundpg (sub64 (p.pMemsz + p.pVaddr % pagesz) whole) =
        roundpg (p.pMemsz + p.pVaddr % pagesz) - whole := by
      rw [sub64_of_le (by omega) (by omega)]
      exact roundpg_eq (by omega) (Nat.dvd_sub hdvd hwhole) (by omega) (by omega)
    rw [hrest, if_pos (by omega)] at hrun
    exact inPlaceSegment_part h hva hpa hp hpaddr hne hw hfirst hrun
  · rw [Nat.div_mul_cancel hdvd] at hfirst hrun
    have hzero : roundpg (sub64 (roundpg (p.pMemsz + p.pVaddr % pagesz))
        (roundpg (p.pMemsz + p.pVaddr % pagesz))) = 0 := by
      rw [sub64_of_le (by omega) le_rfl, Nat.sub_self]
      exact roundpg_self (by omega) (Nat.dvd_zero _)
    rw [hzero, if_neg (by simp)] at hrun
    obtain rfl := Except.ok.inj hrun
    exact inPlaceSegment_whole h hva hpa hp hpaddr heq hfirst

theorem loadSegment_ok {s s' : ElfState} (h : MapInv past s.map)
    (hphdr : readPhdr s.map.ram.mem phdr = p) (hload : p.pType = ptLoad)
    (hp : p.WellFormed addr file s.map) (hres : bytes phdr sizeofElf64Phdr ⊆ s.map.reserved)
    (hrun : loadSegment addr phdr s = .ok s') :
    ∃ block, SegmentLoaded p file block s.map s'.map := by
  have hva : p.pVaddr < 2 ^ 64 := hphdr ▸ readPtr_lt _ _
  have hpa : p.pPaddr < 2 ^ 64 := hphdr ▸ readPtr_lt _ _
  obtain ⟨hpg, hoff, hfull, hdvd, hfull_lt⟩ := p.sizes hp.memsz_lt
  have hlt := hp.memsz_lt
  have hle := hp.filesz_le
  have hself : roundpg (roundpg (p.pMemsz + p.pVaddr % pagesz)) =
      roundpg (p.pMemsz + p.pVaddr % pagesz) :=
    roundpg_self (by omega) hdvd
  simp only [loadSegment, hphdr, if_pos hload, and_pagesz_sub_one,
    u64_of_lt (show p.pMemsz + p.pVaddr % pagesz < 2 ^ 64 by omega),
    u64_of_lt (show p.pFilesz + p.pVaddr % pagesz < 2 ^ 64 by omega), and_compl64_pagesz _ hva,
    and_compl64_pagesz _ hpa, ← truncpg_eq hva, ← truncpg_eq hpa] at hrun
  generalize hsizes :
    (if p.pFlags &&& pfW = 0 ∧ p.pMemsz + p.pVaddr % pagesz = p.pFilesz + p.pVaddr % pagesz then
        (roundpg (p.pFilesz + p.pVaddr % pagesz), roundpg (p.pFilesz + p.pVaddr % pagesz))
      else (p.pFilesz + p.pVaddr % pagesz, p.pMemsz + p.pVaddr % pagesz)) = sizes at hrun
  obtain ⟨filesz, memsz⟩ := sizes
  obtain ⟨m, hm, hs'⟩ := bind_eq_ok.mp hrun
  obtain rfl := Except.ok.inj hs'
  have hcases : filesz = p.pFilesz + p.pVaddr % pagesz ∧ memsz = p.pMemsz + p.pVaddr % pagesz ∨
      p.pMemsz = p.pFilesz ∧ filesz = roundpg (p.pMemsz + p.pVaddr % pagesz) ∧
        memsz = roundpg (p.pMemsz + p.pVaddr % pagesz) := by
    split_ifs at hsizes with hc
    · obtain ⟨rfl, rfl⟩ := Prod.mk.inj hsizes
      have heq : p.pMemsz = p.pFilesz := by omega
      exact .inr ⟨heq, by rw [heq], by rw [heq]⟩
    · obtain ⟨rfl, rfl⟩ := Prod.mk.inj hsizes
      exact .inl ⟨rfl, rfl⟩
  by_cases hpaddr : p.pPaddr = 0
  · rw [if_neg (not_not.mpr hpaddr)] at hm
    exact copySegment_ok (g := fun m => (readPhdr m.ram.mem phdr).pFlags) h hva hp hpaddr
      hphdr hres hcases hm
  · rw [if_pos hpaddr] at hm
    have hfile_lt : filesz < 2 ^ 64 := by
      rcases hcases with ⟨rfl, -⟩ | ⟨-, rfl, -⟩ <;> omega
    by_cases heq : p.pMemsz = p.pFilesz
    · have hround : roundpg filesz = roundpg (p.pMemsz + p.pVaddr % pagesz) := by
        rcases hcases with ⟨rfl, -⟩ | ⟨-, rfl, -⟩
        · rw [heq]
        · exact hself
      simp only [if_pos heq, hround,
        and_compl64_pagesz _ (show roundpg (p.pMemsz + p.pVaddr % pagesz) < 2 ^ 64 by omega)] at hm
      exact inPlaceSegment_ok (g := fun m => (readPhdr m.ram.mem phdr).pFlags) h hva hpa hp hpaddr
        (.inr ⟨heq, rfl, rfl⟩) hm
    · obtain ⟨rfl, rfl⟩ | ⟨hc, -⟩ := hcases
      · simp only [if_neg heq, and_compl64_pagesz _ hfile_lt] at hm
        exact inPlaceSegment_ok (g := fun m => (readPhdr m.ram.mem phdr).pFlags) h hva hpa hp hpaddr
          (.inl ⟨heq, rfl, rfl⟩) hm
      · exact absurd hc heq

end

end

end QnxStartup
