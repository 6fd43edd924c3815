import QnxStartup.RestoreInfo

/-! `rifs_restore_ifs`: a boot puts back what the system that ran before it has changed. -/

namespace QnxStartup

def BootImage.ifsPaddr (img : BootImage) : Nat := u64 (img.fullImagePaddr + img.startupSize)

section
variable [SyspageHeader] [ImageHeader] [RestoreLayout]
open ImageHeader RestoreLayout

/-- The calls of `load_bootstraps`, for the offsets of the bootstrap executables in their order. -/
def saveBootstraps (img : BootImage) : Nat → List Nat → RestoreState → Startup RestoreState
  | _, [], s => .ok s
  | i, offset :: offsets, s =>
    (rifsSaveElf32data img (u64 (img.fullImagePaddr + img.startupSize + offset)) offset i s).bind
      fun (s, status) =>
      if status = -1 then crash "Unable to save boot process elf data\n"
        else saveBootstraps img (i + 1) offsets s

/-- What a boot that has loaded its image does for the next one. -/
def coldBoot (img : BootImage) (offsets : List Nat) (ram : RamState) : Startup RestoreState :=
  (allocRam nullPaddr sizeofRestoreIfsInfo 8 ram).bind fun (ram, info) =>
    (rifsInit ⟨ram, info⟩).bind fun s => (saveBootstraps img 0 offsets s).bind
      (rifsSetCksum img.ifsPaddr)

/-- A turn of the loop of `rifs_restore_ifs`. -/
def restoreEntry (img : BootImage) (rifsInfo i : Nat) (m : Mem) : Startup Mem :=
  let offset := read32 m (elfinfo rifsInfo i)
  let dst := u64 (img.fullImagePaddr + img.startupSize + offset)
  let size := read32 m (elfinfo rifsInfo i + 4)
  if img.compressed then copyMemory dst (readPtr m (elfinfo rifsInfo i + 8)) size m
  else copyMemory dst (u64 (img.fullImagefsPaddr + offset)) size m

def restoreEntries (img : BootImage) (rifsInfo : Nat) : Nat → Nat → Mem → Startup Mem
  | 0, _, _ => .error .noReturn
  | fuel + 1, i, m =>
    if i < read32 m (numbootAt rifsInfo) then
      (restoreEntry img rifsInfo i m).bind fun m => restoreEntries img rifsInfo fuel (i + 1) m
    else .ok m

/-- Behind the two signatures. -/
def restoreImage (img : BootImage) (rifsFlag ifsPaddr rifsInfo : Nat)
    (m : Mem) : Startup (Mem × Int) :=
  (restoreEntries img rifsInfo (2 ^ 32) 0 m).bind fun m =>
    if rifsFlag &&& rifsFlagCksum ≠ 0 ∧ rifsChecksum m ifsPaddr (read32 m (rifsInfo + 12)) ≠ 0 then
      .ok (m, -1) else .ok (m, 0)

def rifsRestoreIfs (img : BootImage) (rifsFlag ifsPaddr : Nat) (ram : RamState) :
    Startup (RestoreState × Int) :=
  (allocRam nullPaddr sizeofRestoreIfsInfo 8 ram).bind fun (ram, info) =>
    (if checkIfsSignature ram.mem ifsPaddr = 0 ∧ checkRifsSignature ram.mem info = 0 then
        restoreImage img rifsFlag ifsPaddr info ram.mem
      else .ok (ram.mem, -1)).bind fun (m, status) =>
        (rifsInit ⟨{ ram with mem := m }, info⟩).bind fun s => .ok (s, status)

end

/-! ### The segments of an executable -/

def writableLoad64 (m : Mem) (phdr : Nat) : Option (Nat × Nat) :=
  let p := readPhdr m phdr
  if p.pType = ptLoad ∧ p.pFlags &&& pfW ≠ 0 then some (p.pOffset, p.pFilesz) else none

def programTable (m : Mem) (addr : Nat) : Nat × Nat × Nat :=
  if m (addr + 4) = elfClass64 then
    (readPtr m (addr + 32), read16 m (addr + 56), read16 m (addr + 54))
  else (read32 m (addr + 28), read16 m (addr + 44), read16 m (addr + 42))

def writableLoads (m : Mem) (addr : Nat) : List (Nat × Nat) :=
  let (off, num, size) := programTable m addr
  ((List.range num).map fun i => addr + (off + i * size)).filterMap
    (if m (addr + 4) = elfClass64 then writableLoad64 m else rwSegment32 m)

def headerSizes (m : Mem) (addr : Nat) : Nat × Nat :=
  if m (addr + 4) = elfClass64 then (64, 56) else (52, 32)

/-- An ELF file whose parts lie in its first `limit` bytes. -/
structure ElfFile (m : Mem) (addr limit : Nat) : Prop where
  magic : Holds m addr elfMag
  header : (headerSizes m addr).1 ≤ limit
  entsize : 0 < (programTable m addr).2.1 → (headerSizes m addr).2 ≤ (programTable m addr).2.2
  table : (programTable m addr).1 + (programTable m addr).2.1 * (programTable m addr).2.2 ≤ limit
  segments : ∀ r ∈ writableLoads m addr, r.1 + r.2 ≤ limit

theorem findRwSegment_eq (segment : Nat → Option (Nat × Nat)) (ptr size : Nat) {num off : Nat}
    (h : off + num * size < 2 ^ 32) :
    findRwSegment segment ptr size num off =
      ((List.range num).map fun i => ptr + (off + i * size)).findSome? segment := by
  induction num generalizing off with
  | zero => rfl
  | succ num ih =>
    have hlen : off + size + num * size < 2 ^ 32 := by
      rw [Nat.add_mul] at h
      omega
    have hshift : ∀ i, off + size + i * size = off + (i + 1) * size := fun i => by
      rw [Nat.add_mul]
      omega
    rw [findRwSegment, List.range_succ_eq_map, List.map_cons, List.findSome?_cons,
      Nat.zero_mul, Nat.add_zero]
    cases segment (ptr + off) with
    | some r => rfl
    | none =>
      have hnum : off + size < 2 ^ 32 := by omega
      rw [Option.orElse_none, u32_of_lt hnum, ih hlen, List.map_map]
      simp only [hshift, Function.comp_def]

theorem rwSegment64_eq (m : Mem) :
    rwSegment64 m = Option.map (fun r => (u32 r.1, u32 r.2)) ∘ writableLoad64 m := by
  funext phdr
  unfold rwSegment64 writableLoad64
  dsimp only [Function.comp_apply]
  split <;> rfl

theorem ElfFile.rifsReadelf_eq {m : Mem} {addr limit : Nat} (h : ElfFile m addr limit)
    (hlimit : limit < 2 ^ 32) :
    rifsReadelf m addr = (writableLoads m addr).head? := by
  have htable := h.table
  have hsegments := h.segments
  unfold writableLoads programTable at *
  rw [rifsReadelf, if_neg (not_not.mpr h.magic)]
  by_cases hc : m (addr + 4) = elfClass64
  · simp only [hc, if_true] at htable hsegments ⊢
    rw [u32_of_lt (by omega), findRwSegment_eq _ _ _ (by omega), List.head?_filterMap]
    generalize (List.range (read16 m (addr + 56))).map
      (fun i => addr + (readPtr m (addr + 32) + i * read16 m (addr + 54))) = phdrs at *
    rw [rwSegment64_eq, ← List.map_findSome?]
    cases hfirst : phdrs.findSome? (writableLoad64 m) with
    | none => rfl
    | some r =>
      have hmem : r.1 + r.2 ≤ limit := by
        obtain ⟨a, ha, har⟩ := List.exists_of_findSome?_eq_some hfirst
        exact hsegments r (List.mem_filterMap.mpr ⟨a, ha, har⟩)
      rw [Option.map_some, u32_of_lt (by omega), u32_of_lt (by omega)]
  · simp only [hc, if_false] at htable hsegments ⊢
    rw [findRwSegment_eq _ _ _ (by omega), List.head?_filterMap]

section
variable {m m' : Mem} {addr limit : Nat}

theorem headerSizes_congr (hbyte : m' (addr + 4) = m (addr + 4)) :
    headerSizes m' addr = headerSizes m addr := by
  unfold headerSizes
  rw [hbyte]

theorem ElfFile.header_le (h : ElfFile m addr limit) : 52 ≤ limit := by
  have := h.header
  unfold headerSizes at this
  split at this <;> omega

theorem ElfFile.programTable_congr (h : ElfFile m addr limit)
    (heq : ∀ x ∈ bytes addr limit, m' x = m x) : programTable m' addr = programTable m addr := by
  have hheader := h.header_le
  have hclass : m' (addr + 4) = m (addr + 4) := heq _ (mem_bytes.mpr (by omega))
  unfold programTable
  rw [hclass]
  by_cases hc : m (addr + 4) = elfClass64
  · have hlimit : 64 ≤ limit := by
      have := h.header
      rw [headerSizes, if_pos hc] at this
      exact this
    have hword : ∀ a, a + 2 ≤ 64 → read16 m' (addr + a) = read16 m (addr + a) := fun a ha =>
      read16_congr (heq _ (mem_bytes.mpr (by omega))) (heq _ (mem_bytes.mpr (by omega)))
    rw [if_pos hc, if_pos hc, hword 56 (by decide), hword 54 (by decide)]
    rw [readPtr_congr fun i hi => heq _ (mem_bytes.mpr (by omega))]
  · have hword : ∀ a, a + 2 ≤ 52 → read16 m' (addr + a) = read16 m (addr + a) := fun a ha =>
      read16_congr (heq _ (mem_bytes.mpr (by omega))) (heq _ (mem_bytes.mpr (by omega)))
    rw [if_neg hc, if_neg hc, hword 44 (by decide), hword 42 (by decide)]
    rw [read32_congr fun i hi => heq _ (mem_bytes.mpr (by omega))]

theorem ElfFile.writableLoads_congr (h : ElfFile m addr limit)
    (heq : ∀ x ∈ bytes addr limit, m' x = m x) : writableLoads m' addr = writableLoads m addr := by
  have hheader := h.header_le
  have hclass : m' (addr + 4) = m (addr + 4) := heq _ (mem_bytes.mpr (by omega))
  unfold writableLoads
  rw [h.programTable_congr heq, hclass]
  have htab := h.table
  have hent := h.entsize
  unfold headerSizes at hent
  generalize programTable m addr = table at htab hent ⊢
  obtain ⟨off, num, size⟩ := table
  dsimp only at htab hent ⊢
  refine List.filterMap_congr fun phdr hphdr => ?_
  obtain ⟨i, hi, rfl⟩ := List.mem_map.mp hphdr
  have hi := List.mem_range.mp hi
  -- the entry lies inside the table
  have hnext : i * size + size ≤ num * size := by
    rw [← Nat.succ_mul]
    exact Nat.mul_le_mul_right size hi
  by_cases hc : m (addr + 4) = elfClass64
  · rw [if_pos hc] at hent
    have hsize := hent (by omega)
    rw [if_pos hc, if_pos hc, writableLoad64, writableLoad64, readPhdr_congr fun x hx => heq x ?_]
    rw [mem_bytes] at hx ⊢
    unfold sizeofElf64Phdr at hx
    omega
  · rw [if_neg hc] at hent
    have hsize := hent (by omega)
    have hword : ∀ a, a + 4 ≤ 32 → read32 m' (addr + (off + i * size) + a) =
        read32 m (addr + (off + i * size) + a) := fun a ha =>
      read32_congr fun j hj => heq _ (mem_bytes.mpr (by omega))
    have hword0 := hword 0 (by decide)
    rw [Nat.add_zero] at hword0
    rw [if_neg hc, if_neg hc, rwSegment32, rwSegment32, hword0, hword 24 (by decide),
      hword 4 (by decide), hword 16 (by decide)]

theorem ElfFile.congr (h : ElfFile m addr limit) (heq : ∀ x ∈ bytes addr limit, m' x = m x) :
    ElfFile m' addr limit ∧ writableLoads m' addr = writableLoads m addr := by
  have hheader := h.header_le
  have hsizes : headerSizes m' addr = headerSizes m addr :=
    headerSizes_congr (heq _ (mem_bytes.mpr (by omega)))
  have htable := h.programTable_congr heq
  have hloads := h.writableLoads_congr heq
  refine ⟨⟨h.magic.congr fun k hk => heq _ (mem_bytes.mpr ?_), hsizes ▸ h.header, ?_,
    htable ▸ h.table, hloads ▸ h.segments⟩, hloads⟩
  · have : elfMag.length = 4 := rfl
    omega
  · rw [hsizes, htable]
    exact h.entsize

end

/-! ### Copies in memory -/

structure MemCopy where
  dst : Nat
  src : Nat
  len : Nat

def MemCopy.run (m : Mem) (c : MemCopy) : Mem := memmove m c.dst c.src c.len

/-- Where the byte comes from that lies at `x` after the copies. -/
def origin : List MemCopy → Nat → Nat
  | [], x => x
  | c :: cs, x =>
    let y := origin cs x
    if c.dst ≤ y ∧ y < c.dst + c.len then c.src + (y - c.dst) else y

theorem run_origin (cs : List MemCopy) (m : Mem) (x : Nat) :
    cs.foldl MemCopy.run m x = m (origin cs x) := by
  induction cs generalizing m with
  | nil => rfl
  | cons c cs ih =>
    rw [List.foldl_cons, ih, origin]
    by_cases hx : c.dst ≤ origin cs x ∧ origin cs x < c.dst + c.len
    · rw [if_pos hx, MemCopy.run, memmove_of_mem hx]
    · rw [if_neg hx, MemCopy.run, memmove_of_not_mem hx]

theorem origin_of_not_mem {cs : List MemCopy} {x : Nat} (h : ∀ c ∈ cs, x ∉ bytes c.dst c.len) :
    origin cs x = x := by
  induction cs with
  | nil => rfl
  | cons c cs ih =>
    rw [origin, ih fun c' hc' => h c' (List.mem_cons_of_mem c hc')]
    exact if_neg (h c List.mem_cons_self)

theorem origin_of_mem {cs : List MemCopy} {x : Nat}
    (hap : ∀ c ∈ cs, ∀ c' ∈ cs, Disjoint (bytes c.src c.len) (bytes c'.dst c'.len))
    (h : ∃ c ∈ cs, x ∈ bytes c.dst c.len) :
    ∃ c ∈ cs, x ∈ bytes c.dst c.len ∧ origin cs x = c.src + (x - c.dst) := by
  induction cs with
  | nil =>
    obtain ⟨c, hc, -⟩ := h
    cases hc
  | cons c cs ih =>
    rw [origin]
    by_cases hlater : ∃ c' ∈ cs, x ∈ bytes c'.dst c'.len
    · obtain ⟨c', hc', hx, heq⟩ := ih (fun a ha b hb => hap a (.tail _ ha) b (.tail _ hb)) hlater
      refine ⟨c', .tail _ hc', hx, ?_⟩
      have hsrc : c'.src + (x - c'.dst) ∈ bytes c'.src c'.len := by
        rw [mem_bytes] at hx ⊢
        omega
      rw [heq]
      exact if_neg (Set.disjoint_left.mp (hap c' (.tail _ hc') c (.head _)) hsrc)
    · rw [origin_of_not_mem fun c' hc' hx => hlater ⟨c', hc', hx⟩]
      obtain ⟨c', hc', hx⟩ := h
      obtain rfl | hc' := List.mem_cons.mp hc'
      · exact ⟨c', .head _, hx, if_pos hx⟩
      · exact absurd ⟨c', hc', hx⟩ hlater

/-! ### What a boot saves -/

/-- The first writable segment of each executable, with its offset in the image. -/
def firstSegments (img : BootImage) (offsets : List Nat) (m : Mem) : List (Nat × Nat) :=
  offsets.filterMap fun offset => (writableLoads m (img.ifsPaddr + offset)).head?.map fun r =>
    (offset + r.1, r.2)

/-- `x` lies in one of the ranges, which count from `base`. -/
def InRanges (base : Nat) (l : List (Nat × Nat)) (x : Nat) : Prop :=
  ∃ r ∈ l, base + r.1 ≤ x ∧ x < base + r.1 + r.2

instance (base : Nat) (l : List (Nat × Nat)) (x : Nat) : Decidable (InRanges base l x) :=
  inferInstanceAs (Decidable (∃ r ∈ l, _))

section
variable [SyspageHeader] [ImageHeader] [RestoreLayout]
open ImageHeader RestoreLayout

def imageSize (img : BootImage) (m : Mem) : Nat := read32 m (img.ifsPaddr + imageSizeOff)

/-- An image in its place, with bootstrap executables at the offsets. -/
structure BootableImage (img : BootImage) (offsets : List Nat) (m : Mem) : Prop where
  room : img.fullImagePaddr + img.startupSize + imageSize img m < 2 ^ 64
  header : imageSizeOff + 4 ≤ imageSize img m
  signature : Holds m img.ifsPaddr ImageHeader.signature
  signature_le : ImageHeader.signature.length ≤ imageSize img m
  files : ∀ offset ∈ offsets, ImageHeader.signature.length ≤ offset ∧ offset ≤ imageSize img m ∧
    ElfFile m (img.ifsPaddr + offset) (imageSize img m - offset)

structure EntrySaved (img : BootImage) (m0 m : Mem) (info : Nat) (free : Set Nat) (i : Nat)
    (r : Nat × Nat) : Prop where
  offset : read32 m (elfinfo info i) = r.1
  size : read32 m (elfinfo info i + 4) = r.2
  apart : img.compressed = true → Disjoint (bytes (readPtr m (elfinfo info i + 8)) r.2)
    (free ∪ bytes info sizeofRestoreIfsInfo ∪ bytes img.ifsPaddr (imageSize img m0))
  data : img.compressed = true →
    ∀ j < r.2, m (readPtr m (elfinfo info i + 8) + j) = m0 (img.ifsPaddr + r.1 + j)

structure EntriesSaved (img : BootImage) (m0 m : Mem) (info : Nat) (free : Set Nat)
    (l : List (Nat × Nat)) : Prop where
  count : read32 m (numbootAt info) = l.length
  bound : l.length ≤ rifsMaxBootable
  entries : ∀ i r, l[i]? = some r → EntrySaved img m0 m info free i r

omit [SyspageHeader] in
theorem EntrySaved.congr {img : BootImage} {m0 m m' : Mem} {info i : Nat} {free free' : Set Nat}
    {r : Nat × Nat} (h : EntrySaved img m0 m info free i r) (hfree : free' ⊆ free)
    (hentry : ∀ x ∈ bytes (elfinfo info i) 16, m' x = m x)
    (hdata : img.compressed = true → ∀ x ∈ bytes (readPtr m (elfinfo info i + 8)) r.2, m' x = m x) :
    EntrySaved img m0 m' info free' i r := by
  have hptr : readPtr m' (elfinfo info i + 8) = readPtr m (elfinfo info i + 8) :=
    readPtr_congr fun k hk => hentry _ (mem_bytes.mpr (by omega))
  refine ⟨?_, ?_, fun hc => ?_, fun hc j hj => ?_⟩
  · rw [read32_congr fun k hk => hentry _ (mem_bytes.mpr (by omega))]
    exact h.offset
  · rw [read32_congr fun k hk => hentry _ (mem_bytes.mpr (by omega))]
    exact h.size
  · rw [hptr]
    exact (h.apart hc).mono_right (Set.union_subset_union_left _
      (Set.union_subset_union_left _ hfree))
  · rw [hptr, hdata hc _ (mem_bytes.mpr (by omega))]
    exact h.data hc j hj

/-- The image during the saves: untouched, and apart from the block and from free RAM. -/
structure ImageKept (img : BootImage) (m0 : Mem) (s : RestoreState) (f : FreeList) : Prop where
  same : ∀ x ∈ bytes img.ifsPaddr (imageSize img m0), s.ram.mem x = m0 x
  free : Disjoint (bytes img.ifsPaddr (imageSize img m0)) f.bytes
  block : Disjoint (bytes img.ifsPaddr (imageSize img m0)) (bytes s.rifsInfo sizeofRestoreIfsInfo)

omit [SyspageHeader] in
theorem ImageKept.saved {img : BootImage} {m0 : Mem} {s s' : RestoreState} {f f' : FreeList}
    {offset size i : Nat} (h : ImageKept img m0 s f)
    (hs : SegmentSaved img offset size i s s' f f') : ImageKept img m0 s' f' := by
  refine ⟨fun x hx => ?_, h.free.mono_right hs.shrunk, by rw [hs.info]; exact h.block⟩
  rw [hs.elsewhere x (Set.disjoint_left.mp h.block hx) (Set.disjoint_left.mp h.free hx)]
  exact h.same x hx

omit [SyspageHeader] in
theorem EntriesSaved.snoc {img : BootImage} {m0 : Mem} {s s' : RestoreState} {f f' : FreeList}
    {offset size : Nat} {l : List (Nat × Nat)}
    (h : EntriesSaved img m0 s.ram.mem s.rifsInfo f.bytes l) (hk : ImageKept img m0 s f)
    (hb : BlockInv s f) (hs : SegmentSaved img offset size l.length s s' f f')
    (hl : l.length < rifsMaxBootable)
    (hdst : u64 (img.fullImagePaddr + img.startupSize + offset) = img.ifsPaddr + offset)
    (hrange : bytes (img.ifsPaddr + offset) size ⊆ bytes img.ifsPaddr (imageSize img m0)) :
    EntriesSaved img m0 s'.ram.mem s'.rifsInfo f'.bytes (l ++ [(offset, size)]) := by
  obtain ⟨n, hn, hsize⟩ := restoreInfo_words
  rw [hs.info]
  unfold rifsMaxBootable at hl
  have hout : ∀ x ∈ bytes img.ifsPaddr (imageSize img m0),
      x ∉ bytes s.rifsInfo sizeofRestoreIfsInfo ∧ x ∉ f.bytes :=
    fun x hx => ⟨Set.disjoint_left.mp hk.block hx, Set.disjoint_left.mp hk.free hx⟩
  refine ⟨?_, ?_, fun i r hi => ?_⟩
  · rw [hs.count, h.count, List.length_append, List.length_singleton, u32_of_lt (by omega)]
  · rw [List.length_append, List.length_singleton]
    exact hl
  · by_cases hlt : i < l.length
    · rw [List.getElem?_append_left hlt] at hi
      refine (h.entries i r hi).congr hs.shrunk (fun x hx => hs.block x ?_ ?_) fun hc x hx => ?_
      · rw [mem_bytes] at hx ⊢
        unfold elfinfo at hx
        omega
      · rw [mem_bytes] at hx ⊢
        unfold elfinfo at hx ⊢
        omega
      · have hap := Set.disjoint_left.mp ((h.entries i r hi).apart hc) hx
        exact hs.elsewhere x (fun hx' => hap (.inl (.inr hx'))) fun hx' => hap (.inl (.inl hx'))
    · rw [List.getElem?_append_right (by omega), List.getElem?_singleton] at hi
      split_ifs at hi with hi0
      obtain rfl := Option.some.inj hi
      obtain rfl : i = l.length := by omega
      refine ⟨hs.entryOffset, hs.entrySize, fun hc => ?_, fun hc j hj => ?_⟩
      · have hsub := (hs.data hc).1
        refine Set.disjoint_left.mpr fun x hx hx' => ?_
        obtain (hx' | hx') | hx' := hx'
        · exact (hsub hx).2 hx'
        · exact Set.disjoint_left.mp hb.taken hx' (hsub hx).1
        · exact (hout x hx').2 (hsub hx).1
      · have hx : img.ifsPaddr + offset + j ∈ bytes img.ifsPaddr (imageSize img m0) :=
          hrange (mem_bytes.mpr (by omega))
        rw [(hs.data hc).2 j hj _ rfl (by rw [hdst]; exact (hout _ hx).1)
          (by rw [hdst]; exact (hout _ hx).2), hdst]
        exact hk.same _ hx

omit [SyspageHeader] in
theorem EntriesSaved.congr {img : BootImage} {m0 m m' : Mem} {info : Nat} {free free' : Set Nat}
    {l : List (Nat × Nat)} (h : EntriesSaved img m0 m info free l) (hfree : free' ⊆ free)
    (hblock : ∀ x ∈ bytes (info + 16) 84, m' x = m x)
    (hdata : img.compressed = true → ∀ i r, l[i]? = some r →
      ∀ x ∈ bytes (readPtr m (elfinfo info i + 8)) r.2, m' x = m x) :
    EntriesSaved img m0 m' info free' l := by
  have hbound := h.bound
  unfold rifsMaxBootable at hbound
  refine ⟨?_, h.bound, fun i r hi =>
    (h.entries i r hi).congr hfree (fun x hx => hblock x ?_) fun hc => hdata hc i r hi⟩
  · rw [read32_congr fun k hk => hblock _ (mem_bytes.mpr (by unfold numbootAt; omega))]
    exact h.count
  · have hlt : i < l.length := (List.getElem?_eq_some_iff.mp hi).1
    rw [mem_bytes] at hx ⊢
    unfold elfinfo at hx
    omega

omit [SyspageHeader] [RestoreLayout] in
theorem BootableImage.ifs_eq {img : BootImage} {offsets : List Nat} {m : Mem}
    (h : BootableImage img offsets m) :
    img.ifsPaddr = img.fullImagePaddr + img.startupSize := u64_of_lt (by have := h.room; omega)

omit [SyspageHeader] [RestoreLayout] in
theorem BootableImage.tail {img : BootImage} {offset : Nat} {offsets : List Nat} {m : Mem}
    (h : BootableImage img (offset :: offsets) m) : BootableImage img offsets m :=
  ⟨h.room, h.header, h.signature, h.signature_le, fun o ho => h.files o (.tail _ ho)⟩

omit [SyspageHeader] [RestoreLayout] in
theorem BootableImage.address {img : BootImage} {offsets : List Nat} {m : Mem}
    (h : BootableImage img offsets m) {offset : Nat} (ho : offset ≤ imageSize img m) :
    u64 (img.fullImagePaddr + img.startupSize + offset) = img.ifsPaddr + offset := by
  have := h.room
  rw [h.ifs_eq, u64_of_lt (by omega)]

theorem saveBootstraps_ok {img : BootImage} {offsets : List Nat} {l : List (Nat × Nat)} {i : Nat}
    {m0 : Mem} {s s' : RestoreState} {f : FreeList} (himg : BootableImage img offsets m0)
    (hk : ImageKept img m0 s f) (hb : BlockInv s f)
    (he : EntriesSaved img m0 s.ram.mem s.rifsInfo f.bytes l) (hi : i = l.length)
    (h : saveBootstraps img i offsets s = .ok s') :
    s'.rifsInfo = s.rifsInfo ∧ ∃ f', BlockInv s' f' ∧ ImageKept img m0 s' f' ∧
      EntriesSaved img m0 s'.ram.mem s'.rifsInfo f'.bytes (l ++ firstSegments img offsets m0) := by
  induction offsets generalizing i s f l with
  | nil =>
    obtain rfl := Except.ok.inj h
    exact ⟨rfl, f, hb, hk, by simpa [firstSegments] using he⟩
  | cons offset offsets ih =>
    obtain ⟨⟨s1, status⟩, hone, hrest⟩ := bind_eq_ok.mp h
    obtain ⟨hstatus, hrest⟩ := crash_ite_eq_ok.mp hrest
    obtain ⟨-, hin, helf⟩ := himg.files offset (.head _)
    rw [himg.address hin] at hone
    obtain ⟨rfl, -⟩ | ⟨-, hmax, off, size, f1, hread, hs⟩ :=
      rifsSaveElf32data_ok hb.fresh hb.taken hone
    · exact absurd rfl hstatus
    have hlimit := read32_lt m0 (img.ifsPaddr + imageSizeOff)
    change imageSize img m0 < 2 ^ 32 at hlimit
    have hsame : ∀ x ∈ bytes (img.ifsPaddr + offset) (imageSize img m0 - offset),
        s.ram.mem x = m0 x := fun x hx =>
      hk.same x (by rw [mem_bytes] at hx ⊢; omega)
    obtain ⟨helf', hloads⟩ := helf.congr hsame
    rw [helf'.rifsReadelf_eq (by omega), hloads] at hread
    have hsegment := helf.segments (off, size) (List.mem_of_mem_head? hread)
    dsimp only at hsegment
    rw [u32_of_lt (by omega)] at hs
    subst hi
    have hstep := he.snoc hk hb hs hmax (himg.address (by omega)) fun x hx => by
      rw [mem_bytes] at hx ⊢
      omega
    obtain ⟨hinfo, f', hb', hk', he'⟩ := ih himg.tail (hk.saved hs)
      (hb.saved hs) hstep (by simp) hrest
    refine ⟨hinfo.trans hs.info, f', hb', hk', ?_⟩
    have hfirst : firstSegments img (offset :: offsets) m0 =
        (offset + off, size) :: firstSegments img offsets m0 := by
      rw [firstSegments, List.filterMap_cons_some (by rw [hread]; rfl)]
      rfl
    rw [hfirst, List.append_cons]
    exact he'

/-- What the next boot finds when nobody has changed it. -/
structure ColdBooted (img : BootImage) (offsets : List Nat) (ram : RamState) (f : FreeList)
    (s : RestoreState) : Prop where
  place : s.rifsInfo = findRam sizeofRestoreIfsInfo 8 0 0 ram
  found : s.rifsInfo ≠ nullPaddr
  block : bytes s.rifsInfo sizeofRestoreIfsInfo ⊆ f.bytes
  image : ∀ x ∈ bytes img.ifsPaddr (imageSize img ram.mem), s.ram.mem x = ram.mem x
  sealed : Sealed s.ram.mem s.rifsInfo sizeofRestoreIfsInfo
  size : read32 s.ram.mem (s.rifsInfo + 12) = imageSize img ram.mem
  saved : EntriesSaved img ram.mem s.ram.mem s.rifsInfo ∅ (firstSegments img offsets ram.mem)

/-- The block that is handed out and initialised has no segment yet. -/
theorem blockInit_ok {img : BootImage} {ram ram1 : RamState} {f : FreeList} {info : Nat}
    {s1 : RestoreState} (hf : FreshRam ram f)
    (hown : Disjoint (bytes img.ifsPaddr (imageSize img ram.mem)) f.bytes)
    (halloc : allocRam nullPaddr sizeofRestoreIfsInfo 8 ram = .ok (ram1, info))
    (hinit : rifsInit ⟨ram1, info⟩ = .ok s1) :
    s1.rifsInfo = info ∧ info ≠ nullPaddr ∧ bytes info sizeofRestoreIfsInfo ⊆ f.bytes ∧
      ∃ f', BlockInv s1 f' ∧ ImageKept img ram.mem s1 f' ∧
        EntriesSaved img ram.mem s1.ram.mem info f'.bytes [] := by
  obtain ⟨n, hn, hsize⟩ := restoreInfo_words
  obtain ⟨hfit, -⟩ := access_eq_ok.mp hinit
  dsimp only at hfit
  obtain ⟨hnull, -⟩ | ⟨hne, -, hsub, hfresh, hmem, -⟩ := allocRam_fresh (k := 3) hf
    (by omega) (by decide) halloc
  · omega
  have hap : Disjoint (bytes img.ifsPaddr (imageSize img ram.mem))
      (bytes info sizeofRestoreIfsInfo) := hown.mono_right hsub
  have herase : (f.erase info (info + sizeofRestoreIfsInfo)).bytes ⊆ f.bytes := by
    rw [FreeList.bytes_erase_size]
    exact Set.sdiff_subset
  obtain ⟨m, rfl, hun, hcount, hrest⟩ := rifsInit_ok hinit
  dsimp only at hun hcount hrest
  refine ⟨rfl, hne, hsub, f.erase info (info + sizeofRestoreIfsInfo),
    ⟨⟨hfresh.holds, hfresh.physical, hfresh.zeroes⟩, ?_, hun⟩,
    ⟨fun x hx => ?_, hown.mono_right herase, hap⟩,
    ⟨hcount, Nat.zero_le _, fun i r hi => by simp at hi⟩⟩
  · rw [FreeList.bytes_erase_size]
    exact Set.disjoint_sdiff_right
  · have hout := Set.disjoint_left.mp hap hx
    refine (hrest x hout).trans ?_
    rw [hmem]
    split
    · exact memset_of_not_mem fun hc => hout (mem_bytes.mpr hc)
    · rfl

theorem coldBoot_ok {img : BootImage} {offsets : List Nat} {ram : RamState} {f : FreeList}
    {s : RestoreState} (hf : FreshRam ram f) (himg : BootableImage img offsets ram.mem)
    (hown : Disjoint (bytes img.ifsPaddr (imageSize img ram.mem)) f.bytes)
    (h : coldBoot img offsets ram = .ok s) :
    ColdBooted img offsets ram f s := by
  obtain ⟨n, hn, hsize⟩ := restoreInfo_words
  obtain ⟨⟨ram1, info⟩, halloc, h⟩ := bind_eq_ok.mp h
  obtain ⟨s1, hinit, h⟩ := bind_eq_ok.mp h
  obtain ⟨s2, hsaves, hseal⟩ := bind_eq_ok.mp h
  have hplace := (allocRam_found hf.holds halloc).1
  obtain ⟨rfl, hne, hsub, f1, hb, hk, he⟩ := blockInit_ok hf hown halloc hinit
  obtain ⟨hinfo, f', hb', hk', he'⟩ := saveBootstraps_ok himg hk hb he rfl hsaves
  obtain ⟨hinfo', hsealed, hword, hkept⟩ := rifsSetCksum_sealed hb'.unsealed hseal
  rw [List.nil_append] at he'
  have himage : ∀ x ∈ bytes img.ifsPaddr (imageSize img ram.mem), s.ram.mem x = s2.ram.mem x :=
    fun x hx => by
    refine hkept x fun hc => Set.disjoint_left.mp hk'.block hx ?_
    rw [mem_bytes] at hc ⊢
    omega
  rw [hinfo] at hinfo' hsealed hword hkept he'
  refine ⟨hinfo'.trans hplace, hinfo' ▸ hne, hinfo' ▸ hsub,
    fun x hx => (himage x hx).trans (hk'.same x hx), hinfo' ▸ hsealed, ?_, ?_⟩
  · rw [hinfo', hword]
    exact read32_congr fun i hi => hk'.same _ (mem_bytes.mpr (by have := himg.header; omega))
  · rw [hinfo']
    refine he'.congr (Set.empty_subset _) (fun x hx => hkept x ?_) fun hc i r hi x hx =>
      hkept x fun hx' => ?_
    · rw [mem_bytes] at hx ⊢
      omega
    · refine Set.disjoint_left.mp ((he'.entries i r hi).apart hc) hx (.inl (.inr ?_))
      rw [mem_bytes] at hx' ⊢
      omega

/-! ### What the next boot puts back -/

/-- What the system that runs in between may do to the image, to the block and to the copies. -/
structure SystemRan (img : BootImage) (offsets : List Nat) (m0 : Mem) (s : RestoreState)
    (m : Mem) : Prop where
  image : ∀ x ∈ bytes img.ifsPaddr (imageSize img m0), m x ≠ s.ram.mem x →
    ∃ offset ∈ offsets, ∃ r ∈ writableLoads m0 (img.ifsPaddr + offset),
    x ∈ bytes (img.ifsPaddr + offset + r.1) r.2
  block : ∀ x ∈ bytes s.rifsInfo sizeofRestoreIfsInfo, m x = s.ram.mem x
  copies : img.compressed = true → ∀ i < offsets.length,
    ∀ x ∈ bytes (readPtr s.ram.mem (elfinfo s.rifsInfo i + 8)) (read32 s.ram.mem
      (elfinfo s.rifsInfo i + 4)), m x = s.ram.mem x

/-- The copies out of the source of an uncompressed image. -/
def sourceCopies (img : BootImage) (l : List (Nat × Nat)) : List MemCopy :=
  l.map fun r => ⟨img.ifsPaddr + r.1, u64 (img.fullImagefsPaddr + r.1), r.2⟩

/-- The memory `m` with the ranges `l` put back as they were in `m0`, or as the source has them. -/
def mended (img : BootImage) (l : List (Nat × Nat)) (m0 m : Mem) : Mem := fun x =>
  if img.compressed then if InRanges img.ifsPaddr l x then m0 x else m x
  else m (origin (sourceCopies img l) x)

structure Mendable (img : BootImage) (l : List (Nat × Nat)) (m0 m : Mem) : Prop where
  outside : ∀ x ∈ bytes img.ifsPaddr (imageSize img m0), ¬ InRanges img.ifsPaddr l x → m x = m0 x
  source : img.compressed = false → ∀ x ∈ bytes img.ifsPaddr (imageSize img m0),
    InRanges img.ifsPaddr l x → m (origin (sourceCopies img l) x) = m0 x

omit [SyspageHeader] [ImageHeader] [RestoreLayout] in
theorem mended_of_not_mem {img : BootImage} {l : List (Nat × Nat)} {m0 m : Mem} {x : Nat}
    (h : ¬ InRanges img.ifsPaddr l x) :
    mended img l m0 m x = m x := by
  unfold mended
  by_cases hc : img.compressed = true
  · rw [if_pos hc, if_neg h]
  · rw [if_neg hc]
    refine congrArg m (origin_of_not_mem fun c hc hx => h ?_)
    obtain ⟨r, hr, rfl⟩ := List.mem_map.mp hc
    exact ⟨r, hr, mem_bytes.mp hx⟩

omit [SyspageHeader] [RestoreLayout] in
theorem mended_eq_iff {img : BootImage} {l : List (Nat × Nat)} {m0 m : Mem} :
    (∀ x ∈ bytes img.ifsPaddr (imageSize img m0), mended img l m0 m x = m0 x) ↔
      Mendable img l m0 m := by
  constructor
  · intro h
    refine ⟨fun x hx hout => (mended_of_not_mem hout).symm.trans (h x hx), fun hc x hx _ => ?_⟩
    have hx' := h x hx
    rwa [mended, if_neg (by rw [hc]; decide)] at hx'
  · intro h x hx
    by_cases hin : InRanges img.ifsPaddr l x
    · unfold mended
      by_cases hc : img.compressed = true
      · rw [if_pos hc, if_pos hin]
      · rw [if_neg hc]
        exact h.source (Bool.eq_false_iff.mpr hc) x hx hin
    · rw [mended_of_not_mem hin]
      exact h.outside x hx hin

/-- The arguments of the copy for `elfinfo[i]`. -/
def entryCopy (img : BootImage) (info : Nat) (m : Mem) (i : Nat) : MemCopy where
  dst := u64 (img.fullImagePaddr + img.startupSize + read32 m (elfinfo info i))
  src := if img.compressed then readPtr m (elfinfo info i + 8)
    else u64 (img.fullImagefsPaddr + read32 m (elfinfo info i))
  len := read32 m (elfinfo info i + 4)

omit [SyspageHeader] [ImageHeader] [RestoreLayout] in
theorem restoreEntry_ok {img : BootImage} {info i : Nat} {m m' : Mem}
    (h : restoreEntry img info i m = .ok m') :
    m' = (entryCopy img info m i).run m := by
  unfold restoreEntry at h
  dsimp only at h
  unfold entryCopy MemCopy.run
  split at h <;> rename_i hc <;> rw [copyMemory_eq _ (read32_lt _ _)] at h <;> obtain ⟨-, h⟩ :=
    access_eq_ok.mp h
  · rw [if_pos hc]
    exact (Except.ok.inj h).symm
  · rw [if_neg hc]
    exact (Except.ok.inj h).symm

omit [SyspageHeader] [ImageHeader] in
theorem restoreEntries_ok {img : BootImage} {info fuel i : Nat} {m m' : Mem}
    (hbound : read32 m (numbootAt info) ≤ rifsMaxBootable)
    (hap : ∀ j < read32 m (numbootAt info),
      Disjoint (bytes (entryCopy img info m j).dst (entryCopy img info m j).len)
      (bytes info sizeofRestoreIfsInfo))
    (h : restoreEntries img info fuel i m = .ok m') :
    m' = ((List.range' i (read32 m (numbootAt info) - i)).map
      (entryCopy img info m)).foldl MemCopy.run m := by
  obtain ⟨n, hn, hsize⟩ := restoreInfo_words
  induction fuel generalizing i m with
  | zero => cases h
  | succ fuel ih =>
    rw [restoreEntries] at h
    by_cases hi : i < read32 m (numbootAt info)
    · rw [if_pos hi] at h
      obtain ⟨m1, hone, hrest⟩ := bind_eq_ok.mp h
      obtain rfl := restoreEntry_ok hone
      have hblock : ∀ x ∈ bytes info sizeofRestoreIfsInfo, (entryCopy img info m i).run m x = m x :=
        fun x hx =>
        memmove_of_not_mem fun hc => Set.disjoint_left.mp (hap i hi) (mem_bytes.mpr hc) hx
      generalize hm1 : (entryCopy img info m i).run m = m1 at hrest hblock
      have hword : ∀ a, info ≤ a → a + 4 ≤ info + 100 → read32 m1 a = read32 m a := fun a hlo hhi =>
        read32_congr fun k hk => hblock _ (mem_bytes.mpr (by omega))
      have hcount : read32 m1 (numbootAt info) = read32 m (numbootAt info) :=
        hword _ (by unfold numbootAt; omega) (by unfold numbootAt; omega)
      have hentry : ∀ j < read32 m (numbootAt info),
          entryCopy img info m1 j = entryCopy img info m j := fun j hj => by
        unfold rifsMaxBootable at hbound
        have hptr : readPtr m1 (elfinfo info j + 8) = readPtr m (elfinfo info j + 8) :=
          readPtr_congr fun k hk => hblock _ (mem_bytes.mpr (by unfold elfinfo; omega))
        unfold entryCopy
        rw [hptr, hword (elfinfo info j) (by unfold elfinfo; omega) (by unfold elfinfo; omega),
          hword (elfinfo info j + 4) (by unfold elfinfo; omega) (by unfold elfinfo; omega)]
      have hturn := ih (hcount ▸ hbound)
        (fun j hj => by rw [hentry j (hcount ▸ hj)]; exact hap j (hcount ▸ hj)) hrest
      obtain ⟨k, hk⟩ : ∃ k, read32 m (numbootAt info) - i = k + 1 :=
        ⟨read32 m (numbootAt info) - i - 1, by omega⟩
      rw [hturn, hcount, hk, show read32 m (numbootAt info) - (i + 1) = k by
        omega, List.range'_succ, List.map_cons, List.foldl_cons, hm1]
      refine congrArg (fun cs => List.foldl MemCopy.run m1 cs)
        (List.map_congr_left fun j hj => hentry j ?_)
      rw [List.mem_range'_1] at hj
      omega
    · rw [if_neg hi] at h
      rw [show read32 m (numbootAt info) - i = 0 by omega]
      exact (Except.ok.inj h).symm

omit [SyspageHeader] in
theorem EntrySaved.entryCopy_eq {img : BootImage} {offsets : List Nat} {m0 m : Mem} {info i : Nat}
    {free : Set Nat} {r : Nat × Nat} (h : EntrySaved img m0 m info free i r)
    (himg : BootableImage img offsets m0) (hr : r.1 ≤ imageSize img m0) :
    entryCopy img info m i =
      ⟨img.ifsPaddr + r.1, if img.compressed then readPtr m (elfinfo info i + 8)
        else u64 (img.fullImagefsPaddr + r.1), r.2⟩ := by
  unfold entryCopy
  rw [h.offset, h.size, himg.address hr]

/-- The copies that the entries for `l` stand for. -/
structure EntryCopies (img : BootImage) (l : List (Nat × Nat)) (src : Nat → Nat × Nat → Nat)
    (cs : List MemCopy) : Prop where
  length : cs.length = l.length
  copy : ∀ i r, l[i]? = some r → cs[i]? = some (MemCopy.mk (img.ifsPaddr + r.1) (src i r) r.2)

omit [SyspageHeader] [ImageHeader] [RestoreLayout] in
theorem EntryCopies.exists {img : BootImage} {l : List (Nat × Nat)} {src : Nat → Nat × Nat → Nat}
    {cs : List MemCopy} (h : EntryCopies img l src cs) {c : MemCopy} (hc : c ∈ cs) :
    ∃ i r, l[i]? = some r ∧ c = ⟨img.ifsPaddr + r.1, src i r, r.2⟩ := by
  obtain ⟨i, hi, rfl⟩ := List.getElem_of_mem hc
  have hlt : i < l.length := h.length ▸ hi
  have hcopy := h.copy i l[i] (List.getElem?_eq_getElem hlt)
  rw [List.getElem?_eq_getElem hi] at hcopy
  exact ⟨i, l[i], List.getElem?_eq_getElem hlt, Option.some.inj hcopy⟩

omit [SyspageHeader] in
theorem origin_mended {img : BootImage} {l : List (Nat × Nat)} {m0 m : Mem} {info : Nat}
    {cs : List MemCopy} (hc : img.compressed = true) (he : EntriesSaved img m0 m info ∅ l)
    (hl : ∀ r ∈ l, r.1 + r.2 ≤ imageSize img m0)
    (hcs : EntryCopies img l (fun i _ => readPtr m (elfinfo info i + 8)) cs) (x : Nat) :
    m (origin cs x) = mended img l m0 m x := by
  rw [mended, if_pos hc]
  by_cases hin : InRanges img.ifsPaddr l x
  · rw [if_pos hin]
    have hsources : ∀ c ∈ cs, ∀ c' ∈ cs, Disjoint (bytes c.src c.len) (bytes c'.dst c'.len) := by
      intro c hc1 c' hc2
      obtain ⟨i, r, hi, rfl⟩ := hcs.exists hc1
      obtain ⟨j, r', hj, rfl⟩ := hcs.exists hc2
      refine ((he.entries i r hi).apart hc).mono_right fun y hy => .inr ?_
      have := hl r' (List.mem_of_getElem? hj)
      rw [mem_bytes] at hy ⊢
      dsimp only at hy
      omega
    have hhit : ∃ c ∈ cs, x ∈ bytes c.dst c.len := by
      obtain ⟨r, hr, hx⟩ := hin
      obtain ⟨i, hi, rfl⟩ := List.getElem_of_mem hr
      exact ⟨_, List.mem_of_getElem? (hcs.copy i l[i] (List.getElem?_eq_getElem hi)),
        mem_bytes.mpr hx⟩
    obtain ⟨c, hcmem, hx, horigin⟩ := origin_of_mem hsources hhit
    obtain ⟨i, r, hi, rfl⟩ := hcs.exists hcmem
    rw [mem_bytes] at hx
    dsimp only at hx horigin
    rw [horigin, (he.entries i r hi).data hc _ (by omega), Nat.add_sub_cancel' hx.1]
  · rw [if_neg hin]
    refine congrArg m (origin_of_not_mem fun c hcmem hx => hin ?_)
    obtain ⟨i, r, hi, rfl⟩ := hcs.exists hcmem
    exact ⟨r, List.mem_of_getElem? hi, mem_bytes.mp hx⟩

omit [SyspageHeader] in
/-- The loop mends the memory it finds. -/
theorem restoreEntries_mended {img : BootImage} {offsets : List Nat} {l : List (Nat × Nat)}
    {m0 m m' : Mem} {info fuel : Nat} (himg : BootableImage img offsets m0)
    (he : EntriesSaved img m0 m info ∅ l) (hl : ∀ r ∈ l, r.1 + r.2 ≤ imageSize img m0)
    (hap : Disjoint (bytes img.ifsPaddr (imageSize img m0)) (bytes info sizeofRestoreIfsInfo))
    (h : restoreEntries img info fuel 0 m = .ok m') : m' = mended img l m0 m := by
  have hcopy : ∀ i r, l[i]? = some r → entryCopy img info m i =
      ⟨img.ifsPaddr + r.1, if img.compressed then readPtr m (elfinfo info i + 8)
        else u64 (img.fullImagefsPaddr + r.1), r.2⟩ :=
    fun i r hi => (he.entries i r hi).entryCopy_eq himg
      (by have := hl r (List.mem_of_getElem? hi); omega)
  have hrun := restoreEntries_ok (by rw [he.count]; exact he.bound) (fun j hj => by
    rw [he.count] at hj
    have := hl l[j] (List.getElem_mem hj)
    rw [hcopy j l[j] (List.getElem?_eq_getElem hj)]
    refine hap.mono_left fun x hx => ?_
    rw [mem_bytes] at hx ⊢
    dsimp only at hx
    omega) h
  rw [he.count, Nat.sub_zero] at hrun
  funext x
  rw [hrun, run_origin]
  by_cases hc : img.compressed = true
  · refine origin_mended hc he hl ⟨by simp, fun i r hi => ?_⟩ x
    have hlt := (List.getElem?_eq_some_iff.mp hi).1
    rw [List.getElem?_map, List.getElem?_range' hlt, Option.map_some, Nat.zero_add, Nat.one_mul,
      hcopy i r hi, if_pos hc]
  · rw [mended, if_neg hc]
    have hsame : (List.range' 0 l.length).map (entryCopy img info m) = sourceCopies img l := by
      rw [sourceCopies]
      refine List.ext_getElem (by simp) fun i hi hi' => ?_
      rw [List.length_map, List.length_range'] at hi
      rw [List.getElem_map, List.getElem_map, List.getElem_range', Nat.zero_add, Nat.one_mul,
        hcopy i l[i] (List.getElem?_eq_getElem hi), if_neg hc]
    rw [hsame]

omit [SyspageHeader] [RestoreLayout] in
theorem BootableImage.first_mem {img : BootImage} {offsets : List Nat} {m : Mem}
    (h : BootableImage img offsets m) :
    ∀ r ∈ firstSegments img offsets m, r.1 + r.2 ≤ imageSize img m := by
  intro r hr
  obtain ⟨offset, ho, hr⟩ := List.mem_filterMap.mp hr
  obtain ⟨q, hq, rfl⟩ := Option.map_eq_some_iff.mp hr
  obtain ⟨-, hin, helf⟩ := h.files offset ho
  have := helf.segments q (List.mem_of_mem_head? hq)
  dsimp only
  omega

omit [SyspageHeader] in
theorem SystemRan.signature {img : BootImage} {offsets : List Nat} {m0 m : Mem} {s : RestoreState}
    (h : SystemRan img offsets m0 s m) (himg : BootableImage img offsets m0)
    (hsame : ∀ x ∈ bytes img.ifsPaddr (imageSize img m0), s.ram.mem x = m0 x) :
    Holds m img.ifsPaddr ImageHeader.signature := by
  refine himg.signature.congr fun k hk => ?_
  have hlen := himg.signature_le
  have hx : img.ifsPaddr + k ∈ bytes img.ifsPaddr (imageSize img m0) := mem_bytes.mpr (by omega)
  by_contra hne
  rw [← hsame _ hx] at hne
  obtain ⟨offset, ho, r, -, hr⟩ := h.image _ hx hne
  have hfile := (himg.files offset ho).1
  rw [mem_bytes] at hr
  omega

omit [SyspageHeader] [ImageHeader] in
theorem Sealed.congr {m m' : Mem} {p : Nat} (h : Sealed m p sizeofRestoreIfsInfo)
    (heq : ∀ x ∈ bytes p sizeofRestoreIfsInfo, m' x = m x) : Sealed m' p sizeofRestoreIfsInfo := by
  obtain ⟨n, hn, hsize⟩ := restoreInfo_words
  have hlen : rifsSignature.length = 8 := rfl
  refine ⟨h.1.congr fun k hk => heq _ (mem_bytes.mpr (by omega)), ?_⟩
  have hsum := h.2
  rw [hsize, rifsChecksum_words] at hsum ⊢
  rw [← hsum]
  refine congrArg u32 (Finset.sum_congr rfl fun i hi => read32_congr fun k hk => heq _
    (mem_bytes.mpr ?_))
  have := Finset.mem_range.mp hi
  omega

section
variable {img : BootImage} {offsets : List Nat} {ram : RamState} {f : FreeList}
  {s : RestoreState} {m : Mem}

omit [SyspageHeader] [ImageHeader] in
theorem checkRifsSignature_zeroed (m : Mem) (info : Nat) :
    ¬ checkRifsSignature (memset m info 0 sizeofRestoreIfsInfo) info = 0 := by
  obtain ⟨n, hn, hsize⟩ := restoreInfo_words
  intro h0
  have hsig := (checkRifsSignature_eq_zero.mp h0).1.1
  rw [memset_of_mem (by omega)] at hsig
  exact absurd hsig (by decide)

omit [SyspageHeader] in
theorem ColdBooted.saved_after (hc : ColdBooted img offsets ram f s)
    (hran : SystemRan img offsets ram.mem s m) :
    EntriesSaved img ram.mem m s.rifsInfo ∅ (firstSegments img offsets ram.mem) := by
  obtain ⟨n, hn, hsize⟩ := restoreInfo_words
  refine hc.saved.congr subset_rfl (fun x hx => hran.block x ?_) fun hcomp i r hi x hx =>
    hran.copies hcomp i ?_ x ?_
  · rw [mem_bytes] at hx ⊢
    omega
  · have hlt := (List.getElem?_eq_some_iff.mp hi).1
    exact Nat.lt_of_lt_of_le hlt (List.length_filterMap_le _ _)
  · rw [(hc.saved.entries i r hi).size]
    exact hx

omit [SyspageHeader] in
theorem ColdBooted.size_mended (hc : ColdBooted img offsets ram f s)
    (hran : SystemRan img offsets ram.mem s m) (himg : BootableImage img offsets ram.mem)
    (hap : Disjoint (bytes img.ifsPaddr (imageSize img ram.mem))
      (bytes s.rifsInfo sizeofRestoreIfsInfo)) :
    read32 (mended img (firstSegments img offsets ram.mem) ram.mem m) (s.rifsInfo + 12) =
      imageSize img ram.mem := by
  obtain ⟨n, hn, hsize⟩ := restoreInfo_words
  rw [← hc.size]
  apply read32_congr
  intro i hi
  have hx : s.rifsInfo + 12 + i ∈ bytes s.rifsInfo sizeofRestoreIfsInfo := mem_bytes.mpr (by omega)
  rw [mended_of_not_mem, hran.block _ hx]
  rintro ⟨r, hr, hin⟩
  have hr' := himg.first_mem r hr
  exact Set.disjoint_right.mp hap hx (mem_bytes.mpr (by omega))

/-- A secure system that finds the block below 4 GiB zeroes it before it looks at it. -/
theorem rifsRestoreIfs_secure {rifsFlag ifsPaddr : Nat} {s' : RestoreState} {status : Int}
    (hlist : ram.ramList.Holds f) (hsec : ram.secureSystem = true)
    (hlow : findRam sizeofRestoreIfsInfo 8 0 0 ram < 2 ^ 32)
    (h : rifsRestoreIfs img rifsFlag ifsPaddr ram = .ok (s', status)) : status = -1 := by
  obtain ⟨⟨ram1, info⟩, halloc, h⟩ := bind_eq_ok.mp h
  obtain ⟨hinfo, ⟨hnull, -⟩ | ⟨-, -, -, hmem⟩⟩ := allocRam_found hlist halloc
  · rw [← hinfo, hnull] at hlow
    exact absurd hlow (by decide)
  rw [if_pos hsec, u32_of_lt (hinfo ▸ hlow)] at hmem
  dsimp only at hmem h
  have hzero : ¬ checkRifsSignature ram1.mem info = 0 :=
    hmem ▸ checkRifsSignature_zeroed ram.mem info
  rw [if_neg fun hboth => hzero hboth.2] at h
  obtain ⟨⟨m', st⟩, hstatus, h⟩ := bind_eq_ok.mp h
  obtain ⟨s3, -, hlast⟩ := bind_eq_ok.mp h
  obtain ⟨rfl, rfl⟩ := Prod.mk.inj (Except.ok.inj hstatus)
  exact (Prod.mk.inj (Except.ok.inj hlast)).2.symm

end

/-- The next boot of a system that is not secure finds the block, puts the first segments back and
looks at the checksum. -/
theorem ColdBooted.restore {img : BootImage} {offsets : List Nat} {ram : RamState} {f : FreeList}
    {s s' : RestoreState} {m : Mem} {rifsFlag : Nat} {status : Int} (hf : FreshRam ram f)
    (hsec : ¬ ram.secureSystem = true) (hc : ColdBooted img offsets ram f s)
    (himg : BootableImage img offsets ram.mem)
    (hap : Disjoint (bytes img.ifsPaddr (imageSize img ram.mem))
      (bytes s.rifsInfo sizeofRestoreIfsInfo)) (hran : SystemRan img offsets ram.mem s m)
    (hwarm : rifsRestoreIfs img rifsFlag img.ifsPaddr { ram with mem := m } = .ok (s', status)) :
    (status = if rifsFlag &&& rifsFlagCksum ≠ 0 ∧
        rifsChecksum (mended img (firstSegments img offsets ram.mem) ram.mem m) img.ifsPaddr
          (imageSize img ram.mem) ≠ 0 then -1 else 0) ∧
      (status = 0 → ∀ x ∈ bytes img.ifsPaddr (imageSize img ram.mem),
        s'.ram.mem x = mended img (firstSegments img offsets ram.mem) ram.mem m x) := by
  obtain ⟨n, hn, hsize⟩ := restoreInfo_words
  obtain ⟨⟨ram1, info⟩, halloc, h⟩ := bind_eq_ok.mp hwarm
  have hf' : FreshRam { ram with mem := m } f := ⟨hf.holds, hf.physical, hf.zeroes⟩
  obtain rfl : info = s.rifsInfo := (allocRam_found hf'.holds halloc).1.trans hc.place.symm
  obtain ⟨hnull, -⟩ | ⟨-, -, -, -, hmem, -⟩ := allocRam_fresh (k := 3) hf'
    (by omega) (by decide) halloc
  · exact absurd hnull hc.found
  dsimp only at hmem h
  rw [if_neg hsec] at hmem
  have hsig : checkIfsSignature m img.ifsPaddr = 0 := if_pos (hran.signature himg hc.image)
  have hseal : checkRifsSignature m s.rifsInfo = 0 :=
    checkRifsSignature_eq_zero.mpr (hc.sealed.congr hran.block)
  rw [hmem, if_pos ⟨hsig, hseal⟩] at h
  obtain ⟨⟨m', st⟩, hrestore, h⟩ := bind_eq_ok.mp h
  obtain ⟨s3, hinit, hlast⟩ := bind_eq_ok.mp h
  obtain ⟨rfl, rfl⟩ := Prod.mk.inj (Except.ok.inj hlast)
  obtain ⟨m3, hloop, hcheck⟩ := bind_eq_ok.mp hrestore
  obtain ⟨m4, rfl, -, -, hrest⟩ := rifsInit_ok hinit
  obtain rfl := restoreEntries_mended himg (hc.saved_after hran) himg.first_mem hap hloop
  rw [hc.size_mended hran himg hap] at hcheck
  split at hcheck
  · next hbad =>
    obtain ⟨-, rfl⟩ := Prod.mk.inj (Except.ok.inj hcheck)
    exact ⟨(if_pos hbad).symm, fun h0 => absurd (show (-1 : Int) = 0 from h0) (by decide)⟩
  · next hgood =>
    obtain ⟨rfl, rfl⟩ := Prod.mk.inj (Except.ok.inj hcheck)
    exact ⟨(if_neg hgood).symm, fun _ x hx => hrest x (Set.disjoint_left.mp hap hx)⟩

/-- A boot after a system that ran returns -1 or has the image of the cold boot, exactly when it
zeroes the block itself, or the checksum tells it, or everything that has changed can be mended. -/
theorem warm_boot_restores {img : BootImage} {offsets : List Nat} {ram : RamState} {f : FreeList}
    {s s' : RestoreState} {m : Mem} {rifsFlag : Nat} {status : Int} (hlist : ram.ramList.Holds f)
    (hphysical : ∀ x ∈ f.bytes, x < 2 ^ 48)
    (hlow : ram.secureSystem = true → findRam sizeofRestoreIfsInfo 8 0 0 ram < 2 ^ 32)
    (himg : BootableImage img offsets ram.mem)
    (hown : Disjoint (bytes img.ifsPaddr (imageSize img ram.mem)) f.bytes)
    (hcold : coldBoot img offsets ram = .ok s) (hran : SystemRan img offsets ram.mem s m)
    (hwarm : rifsRestoreIfs img rifsFlag img.ifsPaddr { ram with mem := m } = .ok (s', status)) :
    (status = -1 ∨ ∀ x ∈ bytes img.ifsPaddr (imageSize img ram.mem), s'.ram.mem x = s.ram.mem x) ↔
      ram.secureSystem = true ∨
        (rifsFlag &&& rifsFlagCksum ≠ 0 ∧
          rifsChecksum (mended img (firstSegments img offsets ram.mem) ram.mem m) img.ifsPaddr
            (imageSize img ram.mem) ≠ 0) ∨
        Mendable img (firstSegments img offsets ram.mem) ram.mem m := by
  by_cases hsec : ram.secureSystem = true
  · have hlist' : ({ ram with mem := m } : RamState).ramList.Holds f := hlist
    have hfail : status = -1 := rifsRestoreIfs_secure hlist' hsec (hlow hsec) hwarm
    exact iff_of_true (.inl hfail) (.inl hsec)
  · have hf : FreshRam ram f := ⟨hlist, hphysical, fun h => absurd h hsec⟩
    have hc := coldBoot_ok hf himg hown hcold
    obtain ⟨hstatus, hmended⟩ :=
      hc.restore hf hsec himg (hown.mono_right hc.block) hran hwarm
    by_cases hbad : rifsFlag &&& rifsFlagCksum ≠ 0 ∧
        rifsChecksum (mended img (firstSegments img offsets ram.mem) ram.mem m) img.ifsPaddr
          (imageSize img ram.mem) ≠ 0
    · rw [if_pos hbad] at hstatus
      exact iff_of_true (.inl hstatus) (.inr (.inl hbad))
    · rw [if_neg hbad] at hstatus
      have himage : (∀ x ∈ bytes img.ifsPaddr (imageSize img ram.mem),
          s'.ram.mem x = s.ram.mem x) ↔
            Mendable img (firstSegments img offsets ram.mem) ram.mem m := by
        rw [← mended_eq_iff]
        refine forall₂_congr fun x hx => ?_
        rw [hmended hstatus x hx, hc.image x hx]
      rw [himage, hstatus]
      simp [hsec, hbad]

end

def bootableMem : Mem :=
  writeBytes (writeBytes (fun _ => 0) 0x70030000 ([0x69, 0x6d, 0x61, 0x67, 0x65, 0x66, 0x73, 0] ++
    le32 0x200)) 0x70030100
    (elfMag ++ [1] ++ List.replicate 23 0 ++ le32 52 ++ List.replicate 8 0 ++ le16 52 ++ le16 32 ++
      le16 2 ++ List.replicate 6 0 ++
      [1, 0x80, 0, 0, 16, 16, 6, 0].flatMap le32 ++ [1, 0x90, 0, 0, 16, 16, 6, 0].flatMap le32)

def bootableRam : RamState := { elf32Ram with mem := bootableMem }

theorem bootableMem_bootable :
    let _ := qnxImageHeader
    BootableImage packedImage [0x100] bootableMem := by
  intro _
  refine ⟨by decide +kernel, by decide +kernel, by decide +kernel, by decide +kernel, ?_⟩
  intro offset ho
  obtain rfl := List.mem_singleton.mp ho
  exact ⟨by decide +kernel, by decide +kernel, by decide +kernel, by decide +kernel, by
    decide +kernel, by decide +kernel, by decide +kernel⟩

def bootedState : RestoreState :=
  let _ := qnxSyspageHeader
  let _ := qnxImageHeader
  let _ := paddedLayout
  resultOr ⟨bootableRam, 0⟩ (coldBoot packedImage [0x100] bootableRam)

theorem bootedState_eq :
    let _ := qnxSyspageHeader
    let _ := qnxImageHeader
    let _ := paddedLayout
    coldBoot packedImage [0x100] bootableRam = .ok bootedState :=
  eq_ok_resultOr (RestoreState.mk bootableRam 0) (by decide +kernel)

theorem bootedState_ran (a : Nat) (b : UInt8) (ha : 0x70030180 ≤ a ∧ a < 0x700301a0) :
    let _ := qnxImageHeader
    let _ := paddedLayout
    SystemRan packedImage [0x100] bootableMem bootedState
      (writeBytes bootedState.ram.mem a [b]) := by
  intro _ _
  have hout : ∀ x, x ≠ a → writeBytes bootedState.ram.mem a [b] x = bootedState.ram.mem x :=
    fun x hx =>
    writeBytes_of_not_mem (by rw [List.length_singleton]; omega)
  refine ⟨fun x hx hne => ?_, fun x hx => hout x ?_, fun _ i hi x hx => hout x ?_⟩
  · have hxa : x = a := by_contra fun hne' => hne (hout x hne')
    refine ⟨0x100, List.mem_singleton_self _, ?_⟩
    by_cases hfirst : a < 0x70030190
    · exact ⟨(0x80, 16), by decide +kernel, by
        rw [mem_bytes]; change 0x70030180 ≤ x ∧ x < 0x70030190; omega⟩
    · exact ⟨(0x90, 16), by decide +kernel, by
        rw [mem_bytes]; change 0x70030190 ≤ x ∧ x < 0x700301a0; omega⟩
  · have hinfo : bootedState.rifsInfo = 0x80000000 := by decide +kernel
    rw [hinfo, mem_bytes] at hx
    omega
  · obtain rfl : i = 0 := by simpa using hi
    have hdata : readPtr bootedState.ram.mem (elfinfo bootedState.rifsInfo 0 + 8) = 0x80000068 := by
      decide +kernel
    rw [hdata, mem_bytes] at hx
    omega

theorem warm_boot_restores_example :
    let _ := qnxSyspageHeader
    let _ := qnxImageHeader
    let _ := paddedLayout
    ∃ s status, rifsRestoreIfs packedImage rifsFlagEnable packedImage.ifsPaddr
        { bootableRam with mem := writeBytes bootedState.ram.mem 0x70030188 [7] } =
        .ok (s, status) ∧
      (status = -1 ∨ ∀ x ∈ bytes packedImage.ifsPaddr (imageSize packedImage bootableMem),
        s.ram.mem x = bootedState.ram.mem x) := by
  intro _ _ _
  obtain ⟨f, hf, hbytes⟩ := elf32Ram_fresh bootableMem
  have hown :
      Disjoint (bytes packedImage.ifsPaddr (imageSize packedImage bootableMem)) f.bytes := by
    have hifs : packedImage.ifsPaddr = 0x70030000 := by decide +kernel
    have hsize : imageSize packedImage bootableMem = 0x200 := by decide +kernel
    rw [hbytes, hifs, hsize]
    refine Set.disjoint_left.mpr fun x hx hx' => ?_
    rw [mem_bytes] at hx hx'
    omega
  have hwarm := eq_ok_pair_resultOr (bootedState, 7) (x :=
    rifsRestoreIfs packedImage rifsFlagEnable packedImage.ifsPaddr
    { bootableRam with mem := writeBytes bootedState.ram.mem 0x70030188 [7] }) (by decide +kernel)
  have hfirst : firstSegments packedImage [0x100] bootableMem = [(0x180, 16)] := by decide +kernel
  have hmend : Mendable packedImage (firstSegments packedImage [0x100] bootableMem) bootableMem
      (writeBytes bootedState.ram.mem 0x70030188 [7]) := by
    refine ⟨fun x hx hout => ?_, fun hc => absurd hc (by decide)⟩
    rw [writeBytes_of_not_mem, (coldBoot_ok hf bootableMem_bootable hown bootedState_eq).image x hx]
    rintro ⟨hlo, hhi⟩
    refine hout ⟨(0x180, 16), by rw [hfirst]; exact List.mem_singleton_self _, ?_⟩
    have hifs : packedImage.ifsPaddr = 0x70030000 := by decide +kernel
    rw [hifs]
    rw [List.length_singleton] at hhi
    dsimp only
    omega
  exact ⟨_, _, hwarm, (warm_boot_restores hf.holds hf.physical
    (fun hsec => absurd hsec (by decide)) bootableMem_bootable hown bootedState_eq
      (bootedState_ran _ _ (by decide)) hwarm).mpr
    (.inr (.inr hmend))⟩

/-- What the system wrote into the second segment is still there. -/
theorem warm_boot_keeps_stale :
    let _ := qnxSyspageHeader
    let _ := qnxImageHeader
    let _ := paddedLayout
    BootableImage packedImage [0x100] bootableMem ∧ coldBoot packedImage [0x100] bootableRam =
      .ok bootedState ∧
      SystemRan packedImage [0x100] bootableMem bootedState
        (writeBytes bootedState.ram.mem 0x70030198 [7]) ∧
      ∃ s, rifsRestoreIfs packedImage rifsFlagEnable packedImage.ifsPaddr
          { bootableRam with mem := writeBytes bootedState.ram.mem 0x70030198 [7] } = .ok (s, 0) ∧
        ∃ x ∈ bytes packedImage.ifsPaddr (imageSize packedImage bootableMem),
        s.ram.mem x ≠ bootedState.ram.mem x := by
  intro _ _ _
  refine ⟨bootableMem_bootable, bootedState_eq, bootedState_ran _ _ (by decide), ?_⟩
  have hwarm := eq_ok_pair_resultOr (bootedState, 7)
    (x := rifsRestoreIfs packedImage rifsFlagEnable packedImage.ifsPaddr
      { bootableRam with mem := writeBytes bootedState.ram.mem 0x70030198 [7] }) (by decide +kernel)
  have hzero :
      (resultOr (bootedState, 7) (rifsRestoreIfs packedImage rifsFlagEnable packedImage.ifsPaddr
        { bootableRam with mem := writeBytes bootedState.ram.mem 0x70030198 [7] })).2 = 0 := by
    decide +kernel
  rw [hzero] at hwarm
  exact ⟨_, hwarm, 0x70030198, by rw [mem_bytes]; decide +kernel, by decide +kernel⟩

end QnxStartup
