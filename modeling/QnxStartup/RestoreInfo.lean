import Mathlib.Algebra.BigOperators.Group.Finset.Basic
import QnxStartup.ElfLoad
import QnxStartup.Rifs

/-! `struct restore_ifs_info`: how `restore_ifs.c` fills, seals and checks it. -/

namespace QnxStartup

def rifsMaxBootable : Nat := 5

/-- `sizeof(struct restore_ifs_info)`; the packing of the header decides about the padding. -/
class RestoreLayout where
  sizeofRestoreIfsInfo : Nat
  size_eq : sizeofRestoreIfsInfo = 100 ∨ sizeofRestoreIfsInfo = 104

abbrev paddedLayout : RestoreLayout := ⟨104, .inr rfl⟩

/-- `*(uint32_t *)a = v`. -/
def write32 (m : Mem) (a v : Nat) : Mem := writeBytes m a (le32 v)

/-- The variables of `restore_ifs.c` for the boot image, with the allocator's. -/
structure RestoreState where
  ram : RamState
  rifsInfo : Nat

def RestoreState.withMem (s : RestoreState) (m : Mem) : RestoreState :=
  { s with ram := { s.ram with mem := m } }

/-! ### `restore_ifs.c` for the boot image -/

/-- Whether a program header is a writable `PT_LOAD`, and then its offset and file size. -/
def rwSegment64 (m : Mem) (phdr : Nat) : Option (Nat × Nat) :=
  let p := readPhdr m phdr
  if p.pType = ptLoad ∧ p.pFlags &&& pfW ≠ 0 then some (u32 p.pOffset, u32 p.pFilesz) else none

def rwSegment32 (m : Mem) (phdr : Nat) : Option (Nat × Nat) :=
  if read32 m phdr = ptLoad ∧ read32 m (phdr + 24) &&& pfW ≠ 0 then
    some (read32 m (phdr + 4), read32 m (phdr + 16)) else none

/-- The loop of `rifs_readelf`; `off` is an `Elf32_Off` for both classes. -/
def findRwSegment (segment : Nat → Option (Nat × Nat)) (ptr size : Nat) :
    Nat → Nat → Option (Nat × Nat)
  | 0, _ => none
  | num + 1, off => (segment (ptr + off)).orElse fun _ =>
    findRwSegment segment ptr size num (u32 (off + size))

def rifsReadelf (m : Mem) (paddr : Nat) : Option (Nat × Nat) :=
  if ¬ Holds m paddr elfMag then none
  else if m (paddr + 4) = elfClass64 then
    findRwSegment (rwSegment64 m) paddr (read16 m (paddr + 54)) (read16 m (paddr + 56))
      (u32 (readPtr m (paddr + 32)))
  else findRwSegment (rwSegment32 m) paddr (read16 m (paddr + 42)) (read16 m (paddr + 44))
    (read32 m (paddr + 28))

def elfinfo (rifsInfo i : Nat) : Nat := rifsInfo + 16 + 16 * i

def numbootAt (rifsInfo : Nat) : Nat := rifsInfo + 96

def clearElfinfo (rifsInfo : Nat) : Nat → Mem → Mem
  | 0, m => m
  | i + 1, m =>
    let m := clearElfinfo rifsInfo i m
    writePtr (write32 (write32 m (elfinfo rifsInfo i) 0) (elfinfo rifsInfo i + 4) 0)
      (elfinfo rifsInfo i + 8) 0

section
variable [SyspageHeader] [ImageHeader] [RestoreLayout]
open ImageHeader RestoreLayout

def rifsInit (s : RestoreState) : Startup RestoreState :=
  access s.rifsInfo sizeofRestoreIfsInfo (
    let m := writeBytes s.ram.mem s.rifsInfo rifsSignature
    let m := write32 m (s.rifsInfo + 8) 0
    let m := write32 m (numbootAt s.rifsInfo) 0
    let m := write32 m (s.rifsInfo + 12) 0
    .ok (s.withMem (clearElfinfo s.rifsInfo rifsMaxBootable m)))

/-- `rifs_save_elf32data` for the file at `addr` whose directory entry says `dirOffset`. -/
def rifsSaveElf32data (img : BootImage) (addr dirOffset numboot : Nat) (s : RestoreState) :
    Startup (RestoreState × Int) :=
  if numboot ≥ rifsMaxBootable then .ok (s, -1)
  else
    match rifsReadelf s.ram.mem addr with
    | none => .ok (s, -1)
    | some (off, size) =>
      let elf := elfinfo s.rifsInfo numboot
      access s.rifsInfo sizeofRestoreIfsInfo (
        let m := s.ram.mem
        let m := write32 m (numbootAt s.rifsInfo) (u32 (read32 m (numbootAt s.rifsInfo) + 1))
        let m := write32 m elf (u32 (dirOffset + off))
        let m := write32 m (elf + 4) size
        if img.compressed then
          (allocRam nullPaddr (read32 m (elf + 4)) 8 { s.ram with mem := m }).bind
            fun (ram, data) =>
            let m := writePtr ram.mem (elf + 8) data
            (copyMemory (readPtr m (elf + 8))
              (u64 (img.fullImagePaddr + img.startupSize + read32 m elf))
              (read32 m (elf + 4)) m).bind
              fun m => .ok ({ s with ram := { ram with mem := m } }, 0)
        else .ok (s.withMem m, 0))

def rifsSetCksum (ifsHdr : Nat) (s : RestoreState) : Startup RestoreState :=
  access s.rifsInfo sizeofRestoreIfsInfo (
    let m := write32 s.ram.mem (s.rifsInfo + 12) (read32 s.ram.mem (ifsHdr + imageSizeOff))
    .ok (s.withMem (write32 m (s.rifsInfo + 8)
      (sub32 0 (rifsChecksum m s.rifsInfo sizeofRestoreIfsInfo)))))

def checkRifsSignature (m : Mem) (rifsInfo : Nat) : Int :=
  if ¬ Holds m rifsInfo rifsSignature then -1
  else if rifsChecksum m rifsInfo sizeofRestoreIfsInfo ≠ 0 then -1
  else 0

structure SaveCall where
  addr : Nat
  dirOffset : Nat
  numboot : Nat

def saveAll (img : BootImage) : List SaveCall → RestoreState → Startup RestoreState
  | [], s => .ok s
  | c :: calls, s =>
    (rifsSaveElf32data img c.addr c.dirOffset c.numboot s).bind fun (s, _) => saveAll img calls s

/-- What a boot writes into the block that it has allocated. -/
def writeInfo (img : BootImage) (calls : List SaveCall) (ifsHdr : Nat)
    (ram : RamState) : Startup RestoreState :=
  (allocRam nullPaddr sizeofRestoreIfsInfo 8 ram).bind fun (ram, info) =>
    (rifsInit ⟨ram, info⟩).bind fun s => (saveAll img calls s).bind (rifsSetCksum ifsHdr)

end

/-! ### The checksum -/

theorem write32_of_not_mem {m : Mem} {a v x : Nat} (h : ¬ (a ≤ x ∧ x < a + 4)) :
    write32 m a v x = m x :=
  writeBytes_of_not_mem h

theorem read32_write32 (m : Mem) (a : Nat) {v : Nat} (hv : v < 2 ^ 32) :
    read32 (write32 m a v) a = v :=
  (holds_writeBytes m a (le32 v)).read32 hv

theorem read32_write32_apart {m : Mem} {a b v : Nat} (h : b + 4 ≤ a ∨ a + 4 ≤ b) :
    read32 (write32 m a v) b = read32 m b :=
  read32_congr fun i hi => write32_of_not_mem (by omega)

theorem sumWords_lt {m : Mem} {n p sum : Nat} (h : sum < 2 ^ 32) : sumWords m n p sum < 2 ^ 32 := by
  induction n generalizing p sum with
  | zero => exact h
  | succ n ih => exact ih (u32_lt _)

theorem u32_sumWords (m : Mem) (n p sum : Nat) :
    u32 (sumWords m n p sum) = u32 (sum + ∑ i ∈ Finset.range n, read32 m (p + 4 * i)) := by
  induction n generalizing p sum with
  | zero => simp [sumWords]
  | succ n ih =>
    have hshift : ∀ i, p + 4 + 4 * i = p + 4 * (i + 1) := fun i => by omega
    rw [sumWords, ih, Finset.sum_range_succ']
    simp only [hshift, Nat.mul_zero, Nat.add_zero]
    unfold u32
    omega

theorem rifsChecksum_words (m : Mem) (p n : Nat) :
    rifsChecksum m p (4 * n) = u32 (∑ i ∈ Finset.range n, read32 m (p + 4 * i)) := by
  have h := u32_sumWords m n p 0
  rw [Nat.zero_add] at h
  rw [rifsChecksum, show (4 * n + 3) / 4 = n by omega, ← h, u32_of_lt (sumWords_lt (by decide))]

theorem rifsChecksum_lt (m : Mem) (p len : Nat) : rifsChecksum m p len < 2 ^ 32 :=
  sumWords_lt (by decide)

theorem rifsChecksum_write32 {m : Mem} {p n j v : Nat} (hj : j < n) (hv : v < 2 ^ 32) :
    u32 (rifsChecksum (write32 m (p + 4 * j) v) p (4 * n) + read32 m (p + 4 * j)) =
      u32 (rifsChecksum m p (4 * n) + v) := by
  have hmem : j ∈ Finset.range n := Finset.mem_range.mpr hj
  have hrest : ∑ i ∈ (Finset.range n).erase j, read32 (write32 m (p + 4 * j) v) (p + 4 * i) =
      ∑ i ∈ (Finset.range n).erase j, read32 m (p + 4 * i) := by
    refine Finset.sum_congr rfl fun i hi => read32_write32_apart ?_
    have := Finset.ne_of_mem_erase hi
    omega
  have h1 := Finset.add_sum_erase _ (fun i => read32 (write32 m (p + 4 * j) v) (p + 4 * i)) hmem
  have h2 := Finset.add_sum_erase _ (fun i => read32 m (p + 4 * i)) hmem
  rw [hrest, read32_write32 m _ hv] at h1
  rw [rifsChecksum_words, rifsChecksum_words, ← h1, ← h2]
  unfold u32
  omega

/-! ### The seal -/

/-- The acceptance rule for a block of `n` bytes. -/
def Sealed (m : Mem) (p n : Nat) : Prop := Holds m p rifsSignature ∧ rifsChecksum m p n = 0

def Unsealed (m : Mem) (p : Nat) : Prop := Holds m p rifsSignature ∧ read32 m (p + 8) = 0

theorem Unsealed.congr {m m' : Mem} {p : Nat} (h : Unsealed m p)
    (heq : ∀ x ∈ bytes p 12, m' x = m x) : Unsealed m' p := by
  refine ⟨h.1.congr fun k hk => heq _ (mem_bytes.mpr ⟨by omega, ?_⟩), ?_⟩
  · have : rifsSignature.length = 8 := rfl
    omega
  · rw [read32_congr fun i hi => heq _ (mem_bytes.mpr ⟨by omega, by omega⟩)]
    exact h.2

theorem clearElfinfo_of_not_mem {rifsInfo n x : Nat} {m : Mem}
    (h : ¬ (rifsInfo + 16 ≤ x ∧ x < rifsInfo + 16 + 16 * n)) :
    clearElfinfo rifsInfo n m x = m x := by
  induction n with
  | zero => rfl
  | succ n ih =>
    rw [clearElfinfo]
    unfold elfinfo
    rw [writePtr_of_not_mem (by omega), write32_of_not_mem (by omega),
      write32_of_not_mem (by omega)]
    exact ih (by omega)

section
variable [SyspageHeader] [ImageHeader] [RestoreLayout]
open ImageHeader RestoreLayout

omit [ImageHeader] [RestoreLayout] in
theorem allocRam_apart {s s' : RamState} {f : FreeList} {size k a : Nat} (h : FreshRam s f)
    (hk : k < 32) (hs' : allocRam nullPaddr size (2 ^ k) s = .ok (s', a)) :
    a < 2 ^ 64 ∧ (a = nullPaddr ∨ bytes a size ⊆ f.bytes) ∧ (∀ x ∉ f.bytes, s'.mem x = s.mem x) ∧
      ∃ f', FreshRam s' f' ∧ f'.bytes ⊆ f.bytes ∧ Disjoint (bytes a size) f'.bytes := by
  have hfound := allocRam_found h.holds hs'
  have hlt : a < 2 ^ 64 := by
    by_cases hn : a = nullPaddr
    · rw [hn]
      decide
    · have hb := findRam_bound h.holds (hfound.1 ▸ hn)
      rw [← hfound.1] at hb
      omega
  refine ⟨hlt, ?_⟩
  have herase : (f.erase a (a + size)).bytes ⊆ f.bytes ∧
      Disjoint (bytes a size) (f.erase a (a + size)).bytes := by
    rw [FreeList.bytes_erase_size]
    exact ⟨Set.sdiff_subset, Set.disjoint_sdiff_right⟩
  by_cases hpos : 0 < size
  · obtain ⟨rfl, rfl⟩ | ⟨-, -, hsub, hfresh, hmem, -⟩ := allocRam_fresh h hpos hk hs'
    · exact ⟨.inl rfl, fun _ _ => rfl, f, h, subset_rfl, disjoint_nullPaddr f size⟩
    · refine ⟨.inr hsub, fun x hx => ?_, _, hfresh, herase⟩
      rw [hmem]
      split
      · exact memset_of_not_mem fun hc => hx (hsub (mem_bytes.mpr hc))
      · rfl
  · obtain rfl : size = 0 := by omega
    obtain ⟨-, ⟨hn, rfl⟩ | ⟨-, hl, hsame, hmem⟩⟩ := hfound
    · exact ⟨.inl hn, fun _ _ => rfl, f, h, subset_rfl,
        by rw [bytes_zero]; exact Set.empty_disjoint _⟩
    · refine ⟨.inr (by rw [bytes_zero]; exact Set.empty_subset _), fun x _ => ?_, _,
        h.erase hl hsame, herase⟩
      rw [hmem]
      split
      · exact memset_of_not_mem (by omega)
      · rfl

omit [SyspageHeader] [ImageHeader] in
theorem restoreInfo_words : ∃ n, 25 ≤ n ∧ sizeofRestoreIfsInfo = 4 * n := by
  rcases size_eq with h | h
  · exact ⟨25, le_rfl, h⟩
  · exact ⟨26, by decide, h⟩

/-- A saved segment: the block has a new entry, and for a compressed image a part of the free RAM
has the data. -/
structure SegmentSaved (img : BootImage) (offset size numboot : Nat) (s s' : RestoreState)
    (f f' : FreeList) : Prop where
  info : s'.rifsInfo = s.rifsInfo
  fresh : FreshRam s'.ram f'
  shrunk : f'.bytes ⊆ f.bytes
  count : read32 s'.ram.mem (numbootAt s.rifsInfo) =
    u32 (read32 s.ram.mem (numbootAt s.rifsInfo) + 1)
  entryOffset : read32 s'.ram.mem (elfinfo s.rifsInfo numboot) = offset
  entrySize : read32 s'.ram.mem (elfinfo s.rifsInfo numboot + 4) = size
  block : ∀ x ∈ bytes s.rifsInfo 96, x ∉ bytes (elfinfo s.rifsInfo numboot) 16 →
    s'.ram.mem x = s.ram.mem x
  elsewhere : ∀ x ∉ bytes s.rifsInfo sizeofRestoreIfsInfo, x ∉ f.bytes → s'.ram.mem x = s.ram.mem x
  data : img.compressed = true →
    bytes (readPtr s'.ram.mem (elfinfo s.rifsInfo numboot + 8)) size ⊆ f.bytes \ f'.bytes ∧
      ∀ j < size, ∀ src, src = u64 (img.fullImagePaddr + img.startupSize + offset) + j →
        src ∉ bytes s.rifsInfo sizeofRestoreIfsInfo → src ∉ f.bytes →
          s'.ram.mem (readPtr s'.ram.mem (elfinfo s.rifsInfo numboot + 8) + j) = s.ram.mem src

omit [SyspageHeader] [ImageHeader] [RestoreLayout] in
theorem findRwSegment_lt {segment : Nat → Option (Nat × Nat)}
    (hseg : ∀ a off size, segment a = some (off, size) → size < 2 ^ 32)
    {ptr entsize num o off size : Nat}
    (h : findRwSegment segment ptr entsize num o = some (off, size)) : size < 2 ^ 32 := by
  induction num generalizing o with
  | zero => cases h
  | succ num ih =>
    rw [findRwSegment] at h
    cases hs : segment (ptr + o) with
    | none =>
      rw [hs] at h
      exact ih h
    | some r =>
      rw [hs] at h
      exact hseg _ off size (hs.trans h)

omit [SyspageHeader] [ImageHeader] [RestoreLayout] in
theorem rifsReadelf_lt {m : Mem} {paddr off size : Nat}
    (h : rifsReadelf m paddr = some (off, size)) : size < 2 ^ 32 := by
  unfold rifsReadelf at h
  split_ifs at h
  · refine findRwSegment_lt (fun a off size hs => ?_) h
    unfold rwSegment64 at hs
    dsimp only at hs
    split_ifs at hs
    obtain ⟨-, rfl⟩ := Prod.mk.inj (Option.some.inj hs)
    exact u32_lt _
  · refine findRwSegment_lt (fun a off size hs => ?_) h
    unfold rwSegment32 at hs
    split_ifs at hs
    obtain ⟨-, rfl⟩ := Prod.mk.inj (Option.some.inj hs)
    exact read32_lt _ _

/-- The memory behind the stores into the entry `numboot` of the block at `info`. -/
structure EntryWritten (info numboot offset size : Nat) (m0 m : Mem) : Prop where
  count : read32 m (numbootAt info) = u32 (read32 m0 (numbootAt info) + 1)
  offset : read32 m (elfinfo info numboot) = offset
  size : read32 m (elfinfo info numboot + 4) = size
  block : ∀ x ∈ bytes info 96, x ∉ bytes (elfinfo info numboot) 16 → m x = m0 x
  elsewhere : ∀ x ∉ bytes info sizeofRestoreIfsInfo, m x = m0 x

omit [SyspageHeader] [ImageHeader] in
theorem entryWritten {info numboot offset size : Nat} (m0 : Mem) (hboot : numboot < 5)
    (hoff : offset < 2 ^ 32) (hlt : size < 2 ^ 32) :
    EntryWritten info numboot offset size m0
      (write32 (write32 (write32 m0 (numbootAt info) (u32 (read32 m0 (numbootAt info) + 1)))
        (elfinfo info numboot) offset)
        (elfinfo info numboot + 4) size) := by
  obtain ⟨n, hn, hsize⟩ := restoreInfo_words
  constructor
  · unfold numbootAt elfinfo
    rw [read32_write32_apart (by omega), read32_write32_apart (by omega),
      read32_write32 _ _ (u32_lt _)]
  · rw [read32_write32_apart (by omega), read32_write32 _ _ hoff]
  · rw [read32_write32 _ _ hlt]
  · intro x hx hout
    rw [mem_bytes] at hx hout
    unfold numbootAt elfinfo at *
    rw [write32_of_not_mem (by omega), write32_of_not_mem (by omega), write32_of_not_mem (by omega)]
  · intro x hx
    rw [mem_bytes, hsize] at hx
    unfold numbootAt elfinfo at *
    rw [write32_of_not_mem (by omega), write32_of_not_mem (by omega), write32_of_not_mem (by omega)]

section
variable {img : BootImage} {offset size numboot : Nat} {s : RestoreState} {f : FreeList} {m : Mem}

omit [SyspageHeader] [ImageHeader] in
theorem EntryWritten.plain (h : EntryWritten s.rifsInfo numboot offset size s.ram.mem m)
    (hf : FreshRam s.ram f) (hc : ¬ img.compressed = true) :
    SegmentSaved img offset size numboot s (s.withMem m) f f where
  info := rfl
  fresh := ⟨hf.holds, hf.physical, hf.zeroes⟩
  shrunk := subset_rfl
  count := h.count
  entryOffset := h.offset
  entrySize := h.size
  block := h.block
  elsewhere := fun x hx _ => h.elsewhere x hx
  data := fun hcomp => absurd hcomp hc

/-- The memory behind the copy of a segment, whose address is in the entry `numboot`. -/
structure SegmentCopied (info numboot size data src : Nat) (f f' : FreeList) (m m' : Mem) :
    Prop where
  within : bytes data size ⊆ f.bytes
  apart : Disjoint (bytes data size) f'.bytes
  pointer : readPtr m' (elfinfo info numboot + 8) = data
  same : ∀ x ∉ bytes (elfinfo info numboot + 8) 8, x ∉ f.bytes → m' x = m x
  copied : ∀ j < size, src + j ∉ bytes (elfinfo info numboot + 8) 8 → src + j ∉ f.bytes →
    m' (data + j) = m (src + j)

omit [ImageHeader] in
theorem EntryWritten.copy {ram : RamState} {data : Nat} {m' : Mem}
    (h : EntryWritten s.rifsInfo numboot offset size s.ram.mem m)
    (hf : FreshRam s.ram f) (htaken : Disjoint (bytes s.rifsInfo sizeofRestoreIfsInfo) f.bytes)
    (hboot : numboot < 5) (hlt : size < 2 ^ 32)
    (halloc : allocRam nullPaddr (read32 m (elfinfo s.rifsInfo numboot + 4)) 8
      { s.ram with mem := m } = .ok (ram, data))
    (hcopy : copyMemory (readPtr (writePtr ram.mem (elfinfo s.rifsInfo numboot + 8) data)
      (elfinfo s.rifsInfo numboot + 8))
      (u64 (img.fullImagePaddr + img.startupSize + read32
        (writePtr ram.mem (elfinfo s.rifsInfo numboot + 8) data)
        (elfinfo s.rifsInfo numboot)))
      (read32 (writePtr ram.mem (elfinfo s.rifsInfo numboot + 8) data)
        (elfinfo s.rifsInfo numboot + 4))
      (writePtr ram.mem (elfinfo s.rifsInfo numboot + 8) data) = .ok m') :
    ∃ f', FreshRam ram f' ∧ f'.bytes ⊆ f.bytes ∧ SegmentCopied s.rifsInfo numboot size data
      (u64 (img.fullImagePaddr + img.startupSize + offset)) f f' m m' := by
  obtain ⟨n, hn, hsize⟩ := restoreInfo_words
  obtain ⟨hdlt, hdata, hmem, f', hfresh, hsub, hapart⟩ := allocRam_apart (k := 3)
    (show FreshRam { s.ram with mem := m } f from ⟨hf.holds, hf.physical, hf.zeroes⟩)
      (by decide) halloc
  rw [h.size] at hdata hapart
  have hfree : ∀ x ∈ bytes s.rifsInfo sizeofRestoreIfsInfo, x ∉ f.bytes :=
    fun x hx => Set.disjoint_left.mp htaken hx
  generalize hw : writePtr ram.mem (elfinfo s.rifsInfo numboot + 8) data = w at hcopy
  have hwrest : ∀ x ∉ bytes (elfinfo s.rifsInfo numboot + 8) 8, x ∉ f.bytes → w x = m x :=
    fun x hx hxf => by
    rw [mem_bytes] at hx
    rw [← hw, writePtr_of_not_mem (by omega), hmem x hxf]
  have hwords : read32 w (elfinfo s.rifsInfo numboot + 4) = size ∧
      read32 w (elfinfo s.rifsInfo numboot) = offset := by
    rw [← h.size, ← h.offset]
    constructor <;>
      exact read32_congr fun i hi => hwrest _ (by rw [mem_bytes]; omega)
        (hfree _ (by rw [mem_bytes]; unfold elfinfo; omega))
  have hptr : readPtr w (elfinfo s.rifsInfo numboot + 8) = data := by
    rw [← hw, readPtr_writePtr_self _ _ hdlt]
  rw [hptr, hwords.1, hwords.2, copyMemory_eq _ hlt] at hcopy
  obtain ⟨hfit, hcopy⟩ := access_eq_ok.mp hcopy
  obtain rfl := Except.ok.inj hcopy
  have hin : bytes data size ⊆ f.bytes := by
    rcases hdata with rfl | hdata
    · obtain rfl : size = 0 := by omega
      rw [bytes_zero]
      exact Set.empty_subset _
    · exact hdata
  -- Behind the store of the pointer only free RAM is written.
  have hout : ∀ x ∉ f.bytes,
      memmove w data (u64 (img.fullImagePaddr + img.startupSize + offset)) size x = w x :=
    fun x hx => memmove_of_not_mem fun hc => hx (hin (mem_bytes.mpr hc))
  generalize hm' : memmove w data (u64 (img.fullImagePaddr + img.startupSize + offset)) size =
    m' at hout
  refine ⟨f', hfresh, hsub, hin, hapart, ?_, fun x hx hxf => (hout x hxf).trans (hwrest x hx hxf),
    fun j hj hslot hxf => ?_⟩
  · rw [← hptr]
    exact readPtr_congr fun i hi => hout _ (hfree _ (mem_bytes.mpr (by unfold elfinfo; omega)))
  · rw [← hm', memmove_of_mem (by omega), Nat.add_sub_cancel_left]
    exact hwrest _ hslot hxf

omit [SyspageHeader] [ImageHeader] in
theorem SegmentCopied.saved {ram : RamState} {data : Nat} {f' : FreeList} {m' : Mem}
    (hc : SegmentCopied s.rifsInfo numboot size data
      (u64 (img.fullImagePaddr + img.startupSize + offset)) f f' m m')
    (h : EntryWritten s.rifsInfo numboot offset size s.ram.mem m) (hfresh : FreshRam ram f')
    (hsub : f'.bytes ⊆ f.bytes) (htaken : Disjoint (bytes s.rifsInfo sizeofRestoreIfsInfo) f.bytes)
    (hboot : numboot < 5) :
    SegmentSaved img offset size numboot s { s with ram := { ram with mem := m' } } f f' := by
  obtain ⟨n, hn, hsize⟩ := restoreInfo_words
  have hfree : ∀ x ∈ bytes s.rifsInfo sizeofRestoreIfsInfo, x ∉ f.bytes :=
    fun x hx => Set.disjoint_left.mp htaken hx
  have hread : ∀ a, s.rifsInfo ≤ a → a + 4 ≤ s.rifsInfo + sizeofRestoreIfsInfo →
      a + 4 ≤ elfinfo s.rifsInfo numboot + 8 ∨ elfinfo s.rifsInfo numboot + 16 ≤ a →
      read32 m' a = read32 m a :=
    fun a hlo hhi hap => read32_congr fun i hi =>
      hc.same _ (by rw [mem_bytes]; omega) (hfree _ (mem_bytes.mpr (by omega)))
  have hslot : ∀ x ∉ bytes s.rifsInfo sizeofRestoreIfsInfo,
      x ∉ bytes (elfinfo s.rifsInfo numboot + 8) 8 := by
    intro x hx hmem
    rw [mem_bytes] at hx hmem
    unfold elfinfo at hmem
    omega
  refine ⟨rfl, ⟨hfresh.holds, hfresh.physical, hfresh.zeroes⟩, hsub, ?_, ?_, ?_, ?_, ?_, ?_⟩
  · exact (hread (numbootAt s.rifsInfo) (by unfold numbootAt; omega) (by unfold numbootAt; omega)
      (by unfold numbootAt elfinfo; omega)).trans h.count
  · exact (hread (elfinfo s.rifsInfo numboot) (by unfold elfinfo; omega) (by unfold elfinfo; omega)
      (by omega)).trans h.offset
  · exact (hread (elfinfo s.rifsInfo numboot + 4) (by unfold elfinfo; omega)
      (by unfold elfinfo; omega) (by omega)).trans h.size
  · intro x hx hentry
    have hxb : x ∈ bytes s.rifsInfo sizeofRestoreIfsInfo := by
      rw [mem_bytes] at hx ⊢
      omega
    refine (hc.same x (fun hmem => hentry ?_) (hfree x hxb)).trans (h.block x hx hentry)
    rw [mem_bytes] at hmem ⊢
    omega
  · exact fun x hx hxf => (hc.same x (hslot x hx) hxf).trans (h.elsewhere x hx)
  · intro _
    dsimp only
    rw [hc.pointer]
    refine ⟨fun x hx => ⟨hc.within hx, Set.disjoint_left.mp hc.apart hx⟩,
      fun j hj src hsrc hblk hxf => ?_⟩
    subst hsrc
    exact (hc.copied j hj (hslot _ hblk) hxf).trans (h.elsewhere _ hblk)

end

omit [ImageHeader] in
theorem rifsSaveElf32data_ok {img : BootImage} {addr dirOffset numboot : Nat} {s s' : RestoreState}
    {f : FreeList} {status : Int} (hf : FreshRam s.ram f)
    (htaken : Disjoint (bytes s.rifsInfo sizeofRestoreIfsInfo) f.bytes)
    (hrun : rifsSaveElf32data img addr dirOffset numboot s = .ok (s', status)) :
    status = -1 ∧ s' = s ∨
      status = 0 ∧ numboot < rifsMaxBootable ∧
        ∃ off size f', rifsReadelf s.ram.mem addr = some (off, size) ∧
        SegmentSaved img (u32 (dirOffset + off)) size numboot s s' f f' := by
  rw [rifsSaveElf32data] at hrun
  by_cases hmax : numboot ≥ rifsMaxBootable
  · rw [if_pos hmax] at hrun
    obtain ⟨rfl, rfl⟩ := Prod.mk.inj (Except.ok.inj hrun)
    exact .inl ⟨rfl, rfl⟩
  rw [if_neg hmax] at hrun
  have hboot : numboot < 5 := Nat.lt_of_not_le hmax
  cases helf : rifsReadelf s.ram.mem addr with
  | none =>
    simp only [helf] at hrun
    obtain ⟨rfl, rfl⟩ := Prod.mk.inj (Except.ok.inj hrun)
    exact .inl ⟨rfl, rfl⟩
  | some segment =>
    obtain ⟨off, size⟩ := segment
    simp only [helf] at hrun
    obtain ⟨-, hrun⟩ := access_eq_ok.mp hrun
    have hlt : size < 2 ^ 32 := rifsReadelf_lt helf
    have hwritten : EntryWritten s.rifsInfo numboot (u32 (dirOffset + off)) size s.ram.mem _ :=
      entryWritten s.ram.mem hboot (u32_lt _) hlt
    refine .inr ?_
    by_cases hc : img.compressed = true
    · rw [if_pos hc] at hrun
      obtain ⟨⟨ram, data⟩, halloc, hrun⟩ := bind_eq_ok.mp hrun
      obtain ⟨m', hcopy, hrun⟩ := bind_eq_ok.mp hrun
      obtain ⟨rfl, rfl⟩ := Prod.mk.inj (Except.ok.inj hrun)
      obtain ⟨f', hfresh, hsub, hcopied⟩ := hwritten.copy hf htaken hboot hlt halloc hcopy
      have hsaved := hcopied.saved hwritten hfresh hsub htaken hboot
      exact ⟨rfl, hboot, off, size, f', rfl, hsaved⟩
    · rw [if_neg hc] at hrun
      obtain ⟨rfl, rfl⟩ := Prod.mk.inj (Except.ok.inj hrun)
      exact ⟨rfl, hboot, off, size, f, rfl, hwritten.plain hf hc⟩

structure BlockInv (s : RestoreState) (f : FreeList) : Prop where
  fresh : FreshRam s.ram f
  taken : Disjoint (bytes s.rifsInfo sizeofRestoreIfsInfo) f.bytes
  unsealed : Unsealed s.ram.mem s.rifsInfo

omit [SyspageHeader] [ImageHeader] in
theorem BlockInv.saved {img : BootImage} {offset size numboot : Nat} {s s' : RestoreState}
    {f f' : FreeList} (h : BlockInv s f) (hs : SegmentSaved img offset size numboot s s' f f') :
    BlockInv s' f' := by
  refine ⟨hs.fresh, ?_, ?_⟩
  · rw [hs.info]
    exact h.taken.mono_right hs.shrunk
  · rw [hs.info]
    refine h.unsealed.congr fun x hx => hs.block x ?_ ?_
    · rw [mem_bytes] at hx ⊢
      omega
    · rw [mem_bytes] at hx ⊢
      unfold elfinfo
      omega

omit [ImageHeader] in
theorem BlockInv.save {img : BootImage} {addr dirOffset numboot : Nat} {s s' : RestoreState}
    {f : FreeList} {status : Int} (h : BlockInv s f)
    (hrun : rifsSaveElf32data img addr dirOffset numboot s = .ok (s', status)) :
    ∃ f', BlockInv s' f' := by
  obtain ⟨-, rfl⟩ | ⟨-, -, off, size, f', -, hs⟩ := rifsSaveElf32data_ok h.fresh h.taken hrun
  · exact ⟨f, h⟩
  · exact ⟨f', h.saved hs⟩

omit [ImageHeader] in
theorem BlockInv.saveAll {img : BootImage} {calls : List SaveCall} {s s' : RestoreState}
    {f : FreeList} (h : BlockInv s f) (hrun : saveAll img calls s = .ok s') :
    ∃ f', BlockInv s' f' := by
  induction calls generalizing s f with
  | nil =>
    obtain rfl := Except.ok.inj hrun
    exact ⟨f, h⟩
  | cons c calls ih =>
    obtain ⟨⟨s1, status⟩, hone, hrest⟩ := bind_eq_ok.mp hrun
    obtain ⟨f1, h1⟩ := h.save hone
    exact ih h1 hrest

omit [SyspageHeader] [ImageHeader] in
theorem rifsInit_ok {s s' : RestoreState} (h : rifsInit s = .ok s') :
    ∃ m, s' = s.withMem m ∧ Unsealed m s.rifsInfo ∧ read32 m (numbootAt s.rifsInfo) = 0 ∧
      ∀ x ∉ bytes s.rifsInfo sizeofRestoreIfsInfo, m x = s.ram.mem x := by
  obtain ⟨n, hn, hsize⟩ := restoreInfo_words
  obtain ⟨-, h⟩ := access_eq_ok.mp h
  obtain rfl := Except.ok.inj h
  have hlen : rifsSignature.length = 8 := rfl
  refine ⟨_, rfl, ?_, ?_, fun x hx => ?_⟩
  · generalize hm : write32 (writeBytes s.ram.mem s.rifsInfo rifsSignature) (s.rifsInfo + 8) 0 = m
    have hun : Unsealed m s.rifsInfo := by
      rw [← hm]
      exact ⟨(holds_writeBytes _ _ _).writeBytes_apart (.inl (by omega)),
        read32_write32 _ _ (by decide)⟩
    refine hun.congr fun x hx => ?_
    have hx := mem_bytes.mp hx
    unfold numbootAt
    rw [clearElfinfo_of_not_mem (by omega), write32_of_not_mem (by omega),
      write32_of_not_mem (by omega)]
  · have hclear : ∀ m i, i < 4 →
        clearElfinfo s.rifsInfo rifsMaxBootable m (numbootAt s.rifsInfo + i) =
        m (numbootAt s.rifsInfo + i) :=
      fun m i hi => clearElfinfo_of_not_mem (by unfold numbootAt rifsMaxBootable; omega)
    rw [read32_congr (hclear _), read32_write32_apart (by unfold numbootAt; omega),
      read32_write32 _ _ (by decide)]
  · rw [mem_bytes, hsize] at hx
    unfold numbootAt
    rw [clearElfinfo_of_not_mem (by unfold rifsMaxBootable; omega), write32_of_not_mem (by omega),
      write32_of_not_mem (by omega),
      write32_of_not_mem (by omega), writeBytes_of_not_mem (by omega)]

omit [SyspageHeader] in
theorem rifsSetCksum_sealed {ifsHdr : Nat} {s s' : RestoreState}
    (hun : Unsealed s.ram.mem s.rifsInfo) (h : rifsSetCksum ifsHdr s = .ok s') :
    s'.rifsInfo = s.rifsInfo ∧ Sealed s'.ram.mem s.rifsInfo sizeofRestoreIfsInfo ∧
      read32 s'.ram.mem (s.rifsInfo + 12) = read32 s.ram.mem (ifsHdr + imageSizeOff) ∧
      ∀ x ∉ bytes (s.rifsInfo + 8) 8, s'.ram.mem x = s.ram.mem x := by
  obtain ⟨n, hn, hsize⟩ := restoreInfo_words
  obtain ⟨-, h⟩ := access_eq_ok.mp h
  obtain rfl := Except.ok.inj h
  have hv := read32_lt s.ram.mem (ifsHdr + imageSizeOff)
  generalize read32 s.ram.mem (ifsHdr + imageSizeOff) = v at hv
  have hun' : Unsealed (write32 s.ram.mem (s.rifsInfo + 12) v) s.rifsInfo := hun.congr fun x hx =>
    write32_of_not_mem (by have := mem_bytes.mp hx; omega)
  have hword : read32 (write32 s.ram.mem (s.rifsInfo + 12) v) (s.rifsInfo + 12) = v :=
    read32_write32 _ _ hv
  have hrest : ∀ x ∉ bytes (s.rifsInfo + 8) 8,
      write32 s.ram.mem (s.rifsInfo + 12) v x = s.ram.mem x := fun x hx =>
    write32_of_not_mem (by rw [mem_bytes] at hx; omega)
  generalize write32 s.ram.mem (s.rifsInfo + 12) v = m at hun' hword hrest
  refine ⟨rfl, ⟨hun'.1.writeBytes_apart (.inl (show s.rifsInfo + 8 ≤ s.rifsInfo + 8 from le_rfl)),
    ?_⟩, ?_, fun x hx => ?_⟩
  · have hlt : sub32 0 (rifsChecksum m s.rifsInfo (4 * n)) < 2 ^ 32 := u32_lt _
    have hsum := rifsChecksum_write32 (m := m) (p := s.rifsInfo) (show 2 < n by omega) hlt
    rw [show s.rifsInfo + 4 * 2 = s.rifsInfo + 8 from rfl, hun'.2, Nat.add_zero,
      u32_of_lt (rifsChecksum_lt _ _ _)] at hsum
    rw [hsize]
    change rifsChecksum (write32 m (s.rifsInfo + 8) _) _ _ = 0
    rw [hsum]
    have hold := rifsChecksum_lt m s.rifsInfo (4 * n)
    unfold sub32 u32
    omega
  · exact (read32_write32_apart (.inr (by omega))).trans hword
  · refine Eq.trans (write32_of_not_mem ?_) (hrest x hx)
    rw [mem_bytes] at hx
    omega

omit [SyspageHeader] [ImageHeader] in
theorem checkRifsSignature_eq_zero {m : Mem} {p : Nat} :
    checkRifsSignature m p = 0 ↔ Sealed m p sizeofRestoreIfsInfo := by
  unfold checkRifsSignature Sealed
  split_ifs <;> simp_all

/-- The seal verifies, and shows the change of any word. -/
theorem restore_info_seal {img : BootImage} {calls : List SaveCall} {ifsHdr : Nat} {ram : RamState}
    {f : FreeList} {s' : RestoreState} (hf : FreshRam ram f)
    (hrun : writeInfo img calls ifsHdr ram = .ok s') :
    checkRifsSignature s'.ram.mem s'.rifsInfo = 0 ∧
      ∀ (m : Mem) (p : Nat), checkRifsSignature m p = 0 → ∀ j, 4 * j + 4 ≤ sizeofRestoreIfsInfo →
        ∀ v < 2 ^ 32, v ≠ read32 m (p + 4 * j) →
          checkRifsSignature (write32 m (p + 4 * j) v) p = -1 := by
  obtain ⟨n, hn, hsize⟩ := restoreInfo_words
  refine ⟨?_, fun m p hok j hj v hv hne => ?_⟩
  · obtain ⟨⟨ram1, info⟩, halloc, hrun⟩ := bind_eq_ok.mp hrun
    obtain ⟨s1, hinit, hrun⟩ := bind_eq_ok.mp hrun
    obtain ⟨s2, hsaves, hseal⟩ := bind_eq_ok.mp hrun
    obtain ⟨hfit, -⟩ := access_eq_ok.mp hinit
    dsimp only at hfit
    obtain ⟨m, rfl, hun, -, -⟩ := rifsInit_ok hinit
    obtain ⟨hnull, -⟩ | ⟨-, -, -, hfresh, -⟩ := allocRam_fresh (k := 3) hf
      (by omega) (by decide) halloc
    · omega
    have hinv : BlockInv (RestoreState.withMem ⟨ram1, info⟩ m) (f.erase info
        (info + sizeofRestoreIfsInfo)) := by
      refine ⟨⟨hfresh.holds, hfresh.physical, hfresh.zeroes⟩, ?_, hun⟩
      rw [f.bytes_erase_size]
      exact Set.disjoint_sdiff_right
    obtain ⟨f2, hinv2⟩ := hinv.saveAll hsaves
    obtain ⟨hinfo, hsealed, -⟩ := rifsSetCksum_sealed hinv2.unsealed hseal
    exact checkRifsSignature_eq_zero.mpr (hinfo ▸ hsealed)
  · obtain ⟨-, hsum⟩ := checkRifsSignature_eq_zero.mp hok
    have hword := rifsChecksum_write32 (m := m) (p := p) (show j < n by omega) hv
    rw [hsize] at hsum
    rw [hsum, Nat.zero_add, u32_of_lt hv] at hword
    have hbad : rifsChecksum (write32 m (p + 4 * j) v) p sizeofRestoreIfsInfo ≠ 0 := by
      rw [hsize]
      intro h0
      rw [h0, Nat.zero_add, u32_of_lt (read32_lt _ _)] at hword
      exact hne hword.symm
    unfold checkRifsSignature
    rw [if_pos hbad]
    split <;> rfl

end

/-- An ELF32 file at 4 KiB whose only segment is writable, with 32 bytes from its offset 256 on. -/
def elf32Mem : Mem :=
  writeBytes (writeBytes (writeBytes (fun _ => 0xa5) 0x1000 (elfMag ++ [1])) 0x101c
    (le32 52)) 0x102a
    (le16 32 ++ le16 1 ++ [0, 0, 0, 0, 0, 0] ++ le32 1 ++ le32 0x100 ++ le32 0 ++ le32 0 ++
      le32 0x20 ++ le32 0x20 ++ le32 6)

def elf32Ram : RamState :=
  { RamState.atBoot false elf32Mem with ramList := .ofEntries [⟨0x80000000, 0x100000⟩, ⟨0, 0⟩] }

theorem elf32Ram_fresh (m : Mem) : ∃ f, FreshRam { elf32Ram with mem := m } f ∧
    f.bytes = bytes 0x80000000 0x100000 := by
  let f : FreeList := ⟨[⟨0x80000000, 0x100000⟩], by simp, by simp [Ranges.Separated, RamEntry.span]⟩
  have hbytes : f.bytes = bytes 0x80000000 0x100000 := by
    ext x
    rw [FreeList.mem_bytes, mem_bytes]
    simp [f]
  refine ⟨f, ⟨⟨⟨0, 0⟩, rfl, rfl⟩, fun x hx => ?_,
    fun h => absurd (show false = true from h) (by decide)⟩, hbytes⟩
  rw [hbytes, mem_bytes] at hx
  omega

def elf32Calls : List SaveCall := [⟨0x1000, 0x2000, 0⟩, ⟨0x5000, 0, 1⟩, ⟨0x1000, 0, 7⟩]

def packedImage : BootImage := ⟨0x70000000, 0x70030000, 0x30000, 0x830000, true⟩

theorem restore_info_seal_example :
    let _ := qnxSyspageHeader
    let _ := qnxImageHeader
    let _ := paddedLayout
    ∃ s', writeInfo packedImage elf32Calls 0x1000 elf32Ram = .ok s' ∧
      read32 s'.ram.mem (s'.rifsInfo + 4 * 4) = 0x2100 ∧
      checkRifsSignature s'.ram.mem s'.rifsInfo = 0 ∧
      checkRifsSignature (write32 s'.ram.mem (s'.rifsInfo + 4 * 4) 0x2101) s'.rifsInfo = -1 := by
  intro _ _ _
  obtain ⟨f, hf, -⟩ := elf32Ram_fresh elf32Mem
  have hrun := eq_ok_resultOr (RestoreState.mk elf32Ram 0) (x :=
    writeInfo packedImage elf32Calls 0x1000 elf32Ram) (by decide +kernel)
  have hword : read32 (resultOr (RestoreState.mk elf32Ram 0)
      (writeInfo packedImage elf32Calls 0x1000 elf32Ram)).ram.mem
      ((resultOr (RestoreState.mk elf32Ram 0)
        (writeInfo packedImage elf32Calls 0x1000 elf32Ram)).rifsInfo + 4 * 4) = 0x2100 := by
    decide +kernel
  obtain ⟨hseal, hshow⟩ := restore_info_seal hf hrun
  exact ⟨_, hrun, hword, hseal,
    hshow _ _ hseal 4 (by decide) 0x2101 (by decide) (by rw [hword]; decide)⟩

/-- On a secure system the segment goes to 6 GiB and what is zeroed for it is the block. -/
theorem restore_info_wiped :
    let _ := qnxSyspageHeader
    let _ := qnxImageHeader
    let _ := paddedLayout
    ∃ s', writeInfo packedImage [⟨0x1000, 0x2000, 0⟩] 0x1000
        { elf32Ram with
          secureSystem := true
          ramList := .ofEntries [⟨0x80000000, 0x68⟩, ⟨0x180000000, 0x1000⟩, ⟨0, 0⟩] } = .ok s' ∧
      s'.rifsInfo = 0x80000000 ∧ readPtr s'.ram.mem (elfinfo s'.rifsInfo 0 + 8) = 0x180000000 ∧
      checkRifsSignature s'.ram.mem s'.rifsInfo = -1 := by
  intro _ _ _
  exact ⟨_, eq_ok_resultOr (RestoreState.mk elf32Ram 0) (by decide +kernel),
    by decide +kernel, by decide +kernel, by decide +kernel⟩

end QnxStartup
