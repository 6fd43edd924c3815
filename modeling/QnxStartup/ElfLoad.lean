import QnxStartup.ElfSegment

/-! `load_elf64`: all segments of a file, and what the addresses of the loaded program
translate to. -/

namespace QnxStartup

def elfMag : List UInt8 := [0x7f, 0x45, 0x4c, 0x46]
def elfClass64 : UInt8 := 2
def elfDataNative : UInt8 := 1
def emNative : Nat := 183

/-- The fields of the `Elf64_Ehdr` that are used behind its checks. -/
structure Elf64Ehdr where
  eEntry : Nat
  ePhoff : Nat
  ePhnum : Nat
  deriving DecidableEq, Repr

/-- `elf64_phdr`: the copy of the header, when it is accepted. -/
def elf64Ehdr (m : Mem) (addr : Nat) : Option Elf64Ehdr :=
  if ¬ Holds m addr elfMag ∨ m (addr + 5) ≠ elfDataNative ∨ m (addr + 4) ≠ elfClass64 ∨
    read16 m (addr + 18) ≠ emNative ∨
      read16 m (addr + 56) = 0 ∨ read16 m (addr + 54) ≠ sizeofElf64Phdr then none
  else some ⟨readPtr m (addr + 24), readPtr m (addr + 32), read16 m (addr + 56)⟩

/-- The program headers of a table of `n`. -/
def phdrs (m : Mem) : Nat → Nat → List Elf64Phdr
  | 0, _ => []
  | n + 1, phdr => readPhdr m phdr :: phdrs m n (phdr + sizeofElf64Phdr)

/-- The `PT_LOAD` segments of an accepted file. -/
def elfSegments (m : Mem) (addr : Nat) : List Elf64Phdr :=
  match elf64Ehdr m addr with
  | none => []
  | some hdr => (phdrs m hdr.ePhnum (addr + hdr.ePhoff)).filter (·.pType = ptLoad)

section
variable [SyspageHeader] [MmuHeader]
open MmuHeader

def loadElf64mmu (addr : Nat) : Nat → Nat → ElfState → Startup ElfState
  | 0, _, s => .ok s
  | n + 1, phdr, s => (loadSegment addr phdr s).bind (loadElf64mmu addr n (phdr + sizeofElf64Phdr))

/-- The loop for a processor without an MMU. -/
def loadElf64Physical (addr : Nat) : Nat → Nat → ElfState → Startup ElfState
  | 0, _, s => .ok s
  | n + 1, phdr, s =>
    let p := readPhdr s.map.ram.mem phdr
    (if p.pType = ptLoad ∧ p.pPaddr ≠ p.pVaddr then
      (allocRam p.pVaddr p.pMemsz 1 s.map.ram).bind fun (r, _) =>
        let p := readPhdr r.mem phdr
        let m := memmove r.mem p.pVaddr (u64 (addr + p.pOffset)) p.pFilesz
        let p := readPhdr m phdr
        let m := memset m (u64 (p.pVaddr + p.pFilesz)) 0 (sub64 p.pMemsz p.pFilesz)
        .ok { s with map := { s.map with ram := { r with mem := m } } }
    else .ok s).bind (loadElf64Physical addr n (phdr + sizeofElf64Phdr))

/-- `load_elf64`, with the entry point; `~0` when the file is refused. -/
def loadElf64 (addr : Nat) (s : ElfState) : Startup (ElfState × Nat) :=
  match elf64Ehdr s.map.ram.mem addr with
  | none => .ok (s, 2 ^ 64 - 1)
  | some hdr =>
    (if s.map.virtualMode = false then loadElf64Physical addr hdr.ePhnum (addr + hdr.ePhoff) s
    else loadElf64mmu addr hdr.ePhnum (addr + hdr.ePhoff) s).bind fun s => .ok (s, hdr.eEntry)

end

theorem phdrs_congr {m m' : Mem} {n phdr : Nat}
    (h : ∀ x ∈ bytes phdr (n * sizeofElf64Phdr), m' x = m x) :
    phdrs m' n phdr = phdrs m n phdr := by
  induction n generalizing phdr with
  | zero => rfl
  | succ n ih =>
    rw [Nat.succ_mul] at h
    rw [phdrs, phdrs, readPhdr_congr fun x hx => h x (by rw [mem_bytes] at hx ⊢; omega),
      ih fun x hx => h x (by rw [mem_bytes] at hx ⊢; omega)]

section
variable [MmuHeader] {addr : Nat} {file : Nat → UInt8}

def allPages (segs : List Elf64Phdr) : Set Nat := {x | ∃ p ∈ segs, x ∈ p.pages}

theorem allPages_cons (p : Elf64Phdr) (segs : List Elf64Phdr) :
    allPages (p :: segs) = p.pages ∪ allPages segs := by
  ext x
  simp [allPages]

/-- Two segments share a byte only where both use their file bytes in place. -/
def ShareInPlace (s : MapState) (p q : Elf64Phdr) : Prop :=
  ∀ k < p.pMemsz, ∀ l < q.pMemsz, ∀ pa, elfVaddrToPaddr (p.pVaddr + k) s = .ok pa →
    elfVaddrToPaddr (q.pVaddr + l) s = .ok pa → p.InPlace k pa ∧ q.InPlace l pa

theorem Elf64Phdr.WellFormed.keeps {p : Elf64Phdr} {s s' : MapState} {V : Set Nat}
    (h : p.WellFormed addr file s) (hk : Keeps s s' V) : p.WellFormed addr file s' where
  memsz_pos := h.memsz_pos
  filesz_le := h.filesz_le
  memsz_lt := h.memsz_lt
  congruent := h.congruent
  inMemory := h.inMemory
  clear := h.clear
  copied := fun hp k hf => by
    obtain ⟨hres, hbyte⟩ := h.copied hp k hf
    exact ⟨hk.reserved hres, (hk.mem _ hres).trans hbyte⟩
  inPlace := fun hp => by
    obtain ⟨hcong, hphys, hbytes⟩ := h.inPlace hp
    refine ⟨hcong, hphys, fun k hf => ?_⟩
    obtain ⟨hres, hbyte⟩ := hbytes k hf
    exact ⟨hk.reserved hres, (hk.mem _ hres).trans hbyte⟩

theorem Elf64Phdr.WellFormed.inPlace_reserved {p : Elf64Phdr} {s : MapState} {k pa : Nat}
    (h : p.WellFormed addr file s) (hin : p.InPlace k pa) : pa ∈ s.reserved := by
  obtain ⟨hp, hk, rfl⟩ := hin
  exact ((h.inPlace hp).2.2 k hk).1

theorem Elf64Phdr.mem_pages {p : Elf64Phdr} {k : Nat} (hva : p.pVaddr < 2 ^ 64)
    (hlt : p.pMemsz < 2 ^ 32) (hk : k < p.pMemsz) :
    p.pVaddr + k ∈ p.pages := by
  have hsplit := truncpg_add_mod hva
  obtain ⟨-, -, hfull, -⟩ := p.sizes hlt
  rw [Elf64Phdr.pages, mem_bytes]
  omega

theorem SegmentLoaded.kept {p : Elf64Phdr} {block V : Set Nat} {s s' s'' : MapState}
    (h : SegmentLoaded p file block s s') (hva : p.pVaddr < 2 ^ 64) (hp : p.WellFormed addr file s)
    (hk : Keeps s' s'' V) (hV : Disjoint p.pages V) :
    p.Loaded file block s'' := by
  intro k hkm
  have hx := p.mem_pages hva hp.memsz_lt hkm
  obtain ⟨pa, hwalk, hmem, hplace⟩ := h.loaded k hkm
  have hres : pa ∈ s'.reserved := hplace.elim (fun hb => h.owned hb) fun hin =>
    h.keeps.reserved (hp.inPlace_reserved hin)
  refine ⟨pa, ?_, (hk.mem _ hres).trans hmem, hplace⟩
  rw [hk.walk _ (h.fits _ hx) (Set.disjoint_left.mp hV hx) (hp.clear _ hx), hwalk]

theorem shareInPlace_of_loaded {p q : Elf64Phdr} {block block' : Set Nat} {s s1 s' : MapState}
    (hp : p.Loaded file block s') (hq : q.Loaded file block' s') (hfree : block ⊆ s.ram.free)
    (hown : block ⊆ s1.reserved) (hfree' : block' ⊆ s1.ram.free)
    (hres : ∀ k pa, p.InPlace k pa → pa ∈ s1.reserved)
    (hres' : ∀ l pa, q.InPlace l pa → pa ∈ s.reserved) : ShareInPlace s' p q := by
  intro k hk l hl pa hpa hpa'
  obtain ⟨a, ha, -, hplace⟩ := hp k hk
  obtain ⟨b, hb, -, hplace'⟩ := hq l hl
  obtain rfl := Except.ok.inj (ha.symm.trans hpa)
  obtain rfl := Except.ok.inj (hb.symm.trans hpa')
  rcases hplace with hin | hin <;> rcases hplace' with hin' | hin'
  · exact absurd (hfree' hin') (hown hin).1
  · exact absurd (hfree hin) (hres' l _ hin').1
  · exact absurd (hfree' hin') (hres k _ hin).1
  · exact ⟨hin, hin'⟩

/-- A segment, and those that are loaded after it. -/
theorem SegmentLoaded.cons {p : Elf64Phdr} {rest : List Elf64Phdr} {block : Set Nat}
    {s s1 s' : MapState} (hseg : SegmentLoaded p file block s s1) (hva : p.pVaddr < 2 ^ 64)
    (hp : p.WellFormed addr file s) (hrest : ∀ q ∈ rest, q.WellFormed addr file s)
    (hhead : ∀ q ∈ rest, Disjoint p.pages q.pages) (hkeep : Keeps s1 s' (allPages rest))
    (hloaded : ∀ q ∈ rest, ∃ block ⊆ s1.ram.free, q.Loaded file block s')
    (hshare : rest.Pairwise (ShareInPlace s')) :
    Keeps s s' (allPages (p :: rest)) ∧
      (∀ q ∈ p :: rest, ∃ block ⊆ s.ram.free, q.Loaded file block s') ∧
      (p :: rest).Pairwise (ShareInPlace s') := by
  have hpages : Disjoint p.pages (allPages rest) := by
    refine Set.disjoint_left.mpr ?_
    rintro x hx ⟨q, hq, hxq⟩
    exact Set.disjoint_left.mp (hhead q hq) hx hxq
  have hfinal := hseg.kept hva hp hkeep hpages
  refine ⟨?_, ?_, List.pairwise_cons.mpr ⟨fun q hq => ?_, hshare⟩⟩
  · rw [allPages_cons]
    exact hseg.keeps.trans hkeep
  · intro q hq
    rcases List.mem_cons.mp hq with rfl | hq
    · exact ⟨block, hseg.taken, hfinal⟩
    · obtain ⟨block', hsub, hl⟩ := hloaded q hq
      exact ⟨block', hsub.trans hseg.keeps.free, hl⟩
  · obtain ⟨block', hsub, hl⟩ := hloaded q hq
    exact shareInPlace_of_loaded hfinal hl hseg.taken hseg.owned hsub
      (fun k pa hin => hseg.keeps.reserved (hp.inPlace_reserved hin))
      fun l pa hin => (hrest q hq).inPlace_reserved hin

end

section
variable [SyspageHeader] [MmuHeader] {addr : Nat} {file : Nat → UInt8}
open MmuHeader

/-- The loop over the program headers, which lie in reserved memory. -/
theorem loadElf64mmu_ok {past : List Mapping} {n phdr : Nat} {s s' : ElfState}
    (h : MapInv past s.map)
    (hres : bytes phdr (n * sizeofElf64Phdr) ⊆ s.map.reserved)
    (hwf : ∀ p ∈ (phdrs s.map.ram.mem n phdr).filter (·.pType = ptLoad),
      p.WellFormed addr file s.map)
    (hdisj : ((phdrs s.map.ram.mem n phdr).filter (·.pType = ptLoad)).Pairwise fun p q =>
      Disjoint p.pages q.pages)
    (hrun : loadElf64mmu addr n phdr s = .ok s') :
    Keeps s.map s'.map (allPages ((phdrs s.map.ram.mem n phdr).filter (·.pType = ptLoad))) ∧
      (∀ p ∈ (phdrs s.map.ram.mem n phdr).filter (·.pType = ptLoad),
        ∃ block ⊆ s.map.ram.free, p.Loaded file block s'.map) ∧
      ((phdrs s.map.ram.mem n phdr).filter (·.pType = ptLoad)).Pairwise (ShareInPlace s'.map) := by
  induction n generalizing phdr s past with
  | zero =>
    obtain rfl := Except.ok.inj hrun
    exact ⟨.refl _ _, by simp [phdrs], by simp [phdrs]⟩
  | succ n ih =>
    obtain ⟨s1, hone, hrest⟩ := bind_eq_ok.mp hrun
    rw [Nat.succ_mul] at hres
    have hfirst : bytes phdr sizeofElf64Phdr ⊆ s.map.reserved := (bytes_mono (by omega)).trans hres
    have hnext : bytes (phdr + sizeofElf64Phdr) (n * sizeofElf64Phdr) ⊆ s.map.reserved := by
      intro x hx
      rw [mem_bytes] at hx
      exact hres (mem_bytes.mpr (by omega))
    rw [phdrs] at hwf hdisj ⊢
    by_cases hload : (readPhdr s.map.ram.mem phdr).pType = ptLoad
    · rw [List.filter_cons_of_pos (by simpa using hload)] at hwf hdisj ⊢
      generalize hp : readPhdr s.map.ram.mem phdr = p at *
      obtain ⟨hhead, htail⟩ := List.pairwise_cons.mp hdisj
      have hwfp := hwf p (by simp)
      have hva : p.pVaddr < 2 ^ 64 := hp ▸ readPtr_lt _ _
      obtain ⟨block, hseg⟩ := loadSegment_ok h hp hload hwfp hfirst hone
      obtain ⟨past', hinv⟩ := hseg.inv
      have hkept := hseg.keeps
      have hsame : phdrs s1.map.ram.mem n (phdr + sizeofElf64Phdr) =
          phdrs s.map.ram.mem n (phdr + sizeofElf64Phdr) :=
        phdrs_congr fun x hx => hkept.mem x (hnext hx)
      rw [← hsame] at hwf htail hhead ⊢
      obtain ⟨hkeep, hloaded, hshare⟩ := ih hinv (hnext.trans hkept.reserved)
        (fun q hq => (hwf q (by simp [hq])).keeps hkept) htail hrest
      exact hseg.cons hva hwfp (fun q hq => hwf q (by simp [hq])) hhead hkeep hloaded hshare
    · rw [List.filter_cons_of_neg (by simpa using hload)] at hwf hdisj ⊢
      simp only [loadSegment, if_neg hload] at hone
      obtain rfl := Except.ok.inj hone
      exact ih h hnext hwf hdisj hrest

/-- The file at `addr` can be loaded: it is accepted, its program headers lie in reserved memory,
its segments are well formed and have no page in common. -/
structure ElfLoadable (addr : Nat) (file : Nat → UInt8) (s : MapState) : Prop where
  accepted : (elf64Ehdr s.ram.mem addr).isSome
  headers : ∀ hdr, elf64Ehdr s.ram.mem addr = some hdr →
    bytes (addr + hdr.ePhoff) (hdr.ePhnum * sizeofElf64Phdr) ⊆ s.reserved
  segments : ∀ p ∈ elfSegments s.ram.mem addr, p.WellFormed addr file s
  apart : (elfSegments s.ram.mem addr).Pairwise fun p q => Disjoint p.pages q.pages

/-- Every address of the loaded program translates to its byte of the file, or to zero, and
two segments share no byte of memory that was copied or cleared for one of them. -/
theorem load_elf64_faithful {ok : MapCall → MapState → Prop} {s₀ : MapState} {s s' : ElfState}
    {f : FreeList} {past : List Mapping} {entry : Nat} (hf : FreshRam s₀.ram f)
    (hv : s₀.virtualMode = true) (h : MapRun ok s₀ past s.map) (hfile : ElfLoadable addr file s.map)
    (hrun : loadElf64 addr s = .ok (s', entry)) :
    (∀ p ∈ elfSegments s.map.ram.mem addr, ∀ k < p.pMemsz, ∃ pa,
      elfVaddrToPaddr (p.pVaddr + k) s'.map = .ok pa ∧
      s'.map.ram.mem pa = if k < p.pFilesz then file (p.pOffset + k) else 0) ∧
      (elfSegments s.map.ram.mem addr).Pairwise (ShareInPlace s'.map) := by
  have hinv := h.inv hf hv
  obtain ⟨hdr, hhdr⟩ := Option.isSome_iff_exists.mp hfile.accepted
  have hsegs := hfile.segments
  have hapart := hfile.apart
  simp only [elfSegments, hhdr] at hsegs hapart ⊢
  rw [loadElf64, hhdr] at hrun
  obtain ⟨s1, hload, hs'⟩ := bind_eq_ok.mp hrun
  obtain ⟨rfl, -⟩ := Prod.mk.inj (Except.ok.inj hs')
  rw [if_neg (by rw [hinv.virtualMode]; decide)] at hload
  obtain ⟨-, hloaded, hshare⟩ := loadElf64mmu_ok hinv (hfile.headers hdr hhdr) hsegs hapart hload
  refine ⟨fun p hp k hk => ?_, hshare⟩
  obtain ⟨block, -, hl⟩ := hloaded p hp
  obtain ⟨pa, hwalk, hmem, -⟩ := hl k hk
  exact ⟨pa, hwalk, hmem⟩

end

def elf64Phdr (flags offset vaddr paddr filesz memsz : Nat) : List UInt8 :=
  le32 ptLoad ++ le32 flags ++ [offset, vaddr, paddr, filesz, memsz, pagesz4K].flatMap fun n =>
    le32 n ++ le32 0
where pagesz4K := 0x1000

/-- One segment to copy, and two that use the same page of the file in place. -/
def sharedElf : List UInt8 :=
  elfMag ++ [elfClass64, elfDataNative] ++ List.replicate 12 0 ++ [183, 0] ++ List.replicate 4 0 ++
    [0x10000000, 64].flatMap (fun n => le32 n ++ le32 0) ++ List.replicate 14 0 ++ [56, 0, 3, 0] ++
    List.replicate 6 0 ++
    elf64Phdr (pfR ||| pfW) 0x1000 0x10000000 0 4 8 ++
    elf64Phdr pfR 0x2000 0x20000000 0x40002000 4 4 ++ elf64Phdr pfR 0x2000 0x30000000 0x40002000 4 4

def sharedElfMem : Mem :=
  writeBytes (writeBytes (writeBytes (fun _ => 0) 0x40000000 sharedElf) 0x40001000 [1, 2, 3, 4])
    0x40002000 [5, 6, 7, 8]

def sharedElfState : MapState :=
  { unmappedState with ram := { unmappedState.ram with mem := sharedElfMem } }

def sharedElfRam : FreeList :=
  ⟨[⟨0x80000000, 0x100000⟩], by simp, by simp [Ranges.Separated, RamEntry.span]⟩

theorem mem_sharedElfRam {x : Nat} :
    x ∈ sharedElfRam.bytes ↔ 0x80000000 ≤ x ∧ x < 0x80000000 + 0x100000 := by
  rw [FreeList.mem_bytes]
  exact ⟨fun ⟨r, hr, h⟩ => by rwa [List.mem_singleton.mp hr] at h,
    fun h => ⟨_, List.mem_singleton_self _, h⟩⟩

theorem sharedElf_fresh : FreshRam sharedElfState.ram sharedElfRam :=
  ⟨⟨⟨0, 0⟩, rfl, rfl⟩, fun _ hx => (mem_sharedElfRam.mp hx).2.trans (by decide),
    by simp [sharedElfState, unmappedState, RamState.atBoot]⟩

/-- A segment at `vaddr` that uses the last page of the file in place. -/
theorem sharedElf_inPlace {vaddr : Nat} {s : MapState} :
    let _ := smallPages
    vaddr % pagesz = 0 → truncpg vaddr + roundpg (4 + vaddr % pagesz) ≤ 2 ^ 38 →
      (∀ k < 4, 0x40002000 + k ∈ s.reserved ∧
        s.ram.mem (0x40002000 + k) = sharedElfMem (0x40000000 + (0x2000 + k))) →
      Elf64Phdr.WellFormed ⟨ptLoad, 4, 0x2000, vaddr, 0x40002000, 4, 4⟩ 0x40000000
        (fun o => sharedElfMem (0x40000000 + o)) s := by
  intro _ hd hend hbytes
  refine ⟨Nat.succ_pos 3, le_rfl, (by decide : 4 < 2 ^ 32),
    hd.trans (by decide : 0 = 0x2000 % pagesz), (by decide : 0x40000000 + 0x2000 + 4 ≤ 2 ^ 48),
    fun x hx => ?_, fun h => ?_, fun _ => ⟨?_, (by decide : 0x40002000 + 4 ≤ 2 ^ 48), hbytes⟩⟩
  · exact smallPages_clear (.inl (hx.2.trans_le hend))
  · exact absurd h (by decide : (0x40002000 : Nat) ≠ 0)
  · exact hd.trans (by decide : 0 = 0x40002000 % pagesz)

theorem sharedElf_loadable :
    let _ := qnxSyspageHeader
    let _ := smallPages
    ∃ f past s, FreshRam sharedElfState.ram f ∧ MapRun (fun _ _ => True) sharedElfState past s ∧
      ElfLoadable 0x40000000 (fun o => sharedElfMem (0x40000000 + o)) s ∧
      s = resultOr sharedElfState (aarch64MapInit sharedElfState) ∧
      elfSegments s.ram.mem 0x40000000 = [⟨ptLoad, 6, 0x1000, 0x10000000, 0, 4, 8⟩,
        ⟨ptLoad, 4, 0x2000, 0x20000000, 0x40002000, 4, 4⟩,
        ⟨ptLoad, 4, 0x2000, 0x30000000, 0x40002000, 4, 4⟩] := by
  intro _ _
  have run : MapRun (fun _ _ => True) sharedElfState _ _ :=
    .init (fun x h1 h2 => smallPages_clear
      (.inr ⟨le_trans (by decide) h1, h2.trans_le (by decide)⟩))
      (eq_ok_resultOr sharedElfState (by decide +kernel))
  have hlow := fun {x} (hx : x < 0x80000000) =>
    run.reserved sharedElf_fresh rfl fun hc => absurd hx (not_lt.mpr (mem_sharedElfRam.mp hc).1)
  have hhdr :
      elf64Ehdr (resultOr sharedElfState (aarch64MapInit sharedElfState)).ram.mem 0x40000000 =
      some ⟨0x10000000, 64, 3⟩ := by decide +kernel
  have hsegs :
      elfSegments (resultOr sharedElfState (aarch64MapInit sharedElfState)).ram.mem 0x40000000 =
      [⟨ptLoad, 6, 0x1000, 0x10000000, 0, 4, 8⟩, ⟨ptLoad, 4, 0x2000, 0x20000000, 0x40002000, 4, 4⟩,
        ⟨ptLoad, 4, 0x2000, 0x30000000, 0x40002000, 4, 4⟩] := by decide +kernel
  have hbytes : ∀ k < 4, (resultOr sharedElfState (aarch64MapInit sharedElfState)).ram.mem
      (0x40001000 + k) = sharedElfMem (0x40000000 + (0x1000 + k)) ∧
      (resultOr sharedElfState (aarch64MapInit sharedElfState)).ram.mem (0x40002000 + k) =
        sharedElfMem (0x40000000 + (0x2000 + k)) := by decide +kernel
  have hfile := fun k (hk : k < 4) =>
    And.intro (hlow (show 0x40002000 + k < 0x80000000 by omega)) (hbytes k hk).2
  refine ⟨_, _, _, sharedElf_fresh, run, ⟨by rw [hhdr]; rfl, fun hdr h => ?_, ?_, ?_⟩, rfl, hsegs⟩
  · obtain rfl := Option.some.inj (hhdr.symm.trans h)
    exact fun x hx => hlow (hx.2.trans_le (by decide))
  · rw [hsegs]
    simp only [List.forall_mem_cons, List.not_mem_nil, false_implies, implies_true, and_true]
    refine ⟨⟨by decide, by decide, by decide, by decide, by decide, fun x hx => ?_,
      fun _ k hk => ⟨hlow ?_, (hbytes k hk).1⟩, fun h => absurd rfl h⟩,
      sharedElf_inPlace (by decide) (by decide) hfile,
      sharedElf_inPlace (by decide) (by decide) hfile⟩
    · exact smallPages_clear (.inl (hx.2.trans_le (by decide)))
    · change 0x40000000 + 0x1000 + k < 0x80000000
      have : k < 4 := hk
      omega
  · rw [hsegs]
    have hlt : ∀ {p q : Elf64Phdr},
        truncpg p.pVaddr + roundpg (p.pMemsz + p.pVaddr % pagesz) ≤ truncpg q.pVaddr →
        Disjoint p.pages q.pages := fun h => Set.disjoint_left.mpr fun x hx hx' =>
      absurd (hx.2.trans_le h) (not_lt.mpr hx'.1)
    refine List.pairwise_cons.mpr ⟨?_, List.pairwise_cons.mpr ⟨?_, List.pairwise_singleton ..⟩⟩
    · simp only [List.forall_mem_cons, List.not_mem_nil, false_implies, implies_true, and_true]
      exact ⟨hlt (by decide), hlt (by decide)⟩
    · simp only [List.forall_mem_cons, List.not_mem_nil, false_implies, implies_true, and_true]
      exact hlt (by decide)

theorem sharedElf_run :
    let _ := qnxSyspageHeader
    let _ := smallPages
    ∃ s', loadElf64 0x40000000 ⟨resultOr sharedElfState (aarch64MapInit sharedElfState), 0, 0⟩ =
      .ok (s', 0x10000000) ∧
      elfVaddrToPaddr 0x20000000 s'.map = .ok 0x40002000 ∧
      elfVaddrToPaddr 0x30000000 s'.map = .ok 0x40002000 := by
  intro _ _
  have h :
      (loadElf64 0x40000000
          ⟨resultOr sharedElfState (aarch64MapInit sharedElfState), 0, 0⟩).bind (fun (s', entry) =>
        .ok (entry, elfVaddrToPaddr 0x20000000 s'.map, elfVaddrToPaddr 0x30000000 s'.map)) =
      .ok (0x10000000, .ok 0x40002000, .ok 0x40002000) := by decide +kernel
  obtain ⟨⟨s', entry⟩, hrun, heq⟩ := bind_eq_ok.mp h
  simp only [Except.ok.injEq, Prod.mk.injEq] at heq
  obtain ⟨rfl, h2, h3⟩ := heq
  exact ⟨s', hrun, h2, h3⟩

theorem load_elf64_faithful_example :
    let _ := qnxSyspageHeader
    let _ := smallPages
    ∃ s s', loadElf64 0x40000000 ⟨s, 0, 0⟩ = .ok (s', 0x10000000) ∧
      ∃ pa, elfVaddrToPaddr 0x10000003 s'.map = .ok pa ∧ s'.map.ram.mem pa = 4 := by
  intro _ _
  obtain ⟨f, past, s, hf, run, hfile, hs, hsegs⟩ := sharedElf_loadable
  obtain ⟨s', hrun, -⟩ := sharedElf_run
  rw [← hs] at hrun
  have hseg : ⟨ptLoad, 6, 0x1000, 0x10000000, 0, 4, 8⟩ ∈ elfSegments s.ram.mem 0x40000000 := by
    rw [hsegs]
    exact List.mem_cons_self
  exact ⟨s, s', hrun, (load_elf64_faithful (s := ⟨s, 0, 0⟩) hf rfl run hfile hrun).1 _ hseg 3
    (by decide)⟩

/-- Two segments that use the same bytes of the file in place share them. -/
theorem in_place_shared :
    let _ := qnxSyspageHeader
    let _ := smallPages
    ∃ f past s s', FreshRam sharedElfState.ram f ∧ MapRun (fun _ _ => True) sharedElfState past s ∧
      ElfLoadable 0x40000000 (fun o => sharedElfMem (0x40000000 + o)) s ∧
      loadElf64 0x40000000 ⟨s, 0, 0⟩ = .ok (s', 0x10000000) ∧
      ¬ (elfSegments s.ram.mem 0x40000000).Pairwise fun p q => ∀ k < p.pMemsz, ∀ l < q.pMemsz, ∀ pa,
        elfVaddrToPaddr (p.pVaddr + k) s'.map = .ok pa →
        elfVaddrToPaddr (q.pVaddr + l) s'.map ≠ .ok pa := by
  intro _ _
  obtain ⟨f, past, s, hf, run, hfile, hs, hsegs⟩ := sharedElf_loadable
  obtain ⟨s', hrun, h2, h3⟩ := sharedElf_run
  rw [← hs] at hrun
  refine ⟨f, past, s, s', hf, run, hfile, hrun, fun hpair => ?_⟩
  rw [hsegs] at hpair
  obtain ⟨-, hpair⟩ := List.pairwise_cons.mp hpair
  exact (List.pairwise_cons.mp hpair).1 _ (List.mem_singleton_self _) 0 (by decide) 0
    (by decide) _ h2 h3

end QnxStartup
