import QnxStartup.Ram

/-! The page tables of `aarch64_map.c`: building them and walking them in software. -/

namespace QnxStartup

def protRead : Nat := 0x100

def protWrite : Nat := 0x200

def protExec : Nat := 0x400

def protNocache : Nat := 0x800

def protUser : Nat := 0x1000

/-- `PROT_CALLOUT`, under its name for this processor. -/
def protDevice : Nat := 0x80000000

/-- A descriptor's attributes leave the address bits 12 to 47 and the contiguous bit alone. -/
structure IsAttr (v : Nat) : Prop where
  lt : v < 2 ^ 64
  low : v % 2 ^ 48 < 2 ^ 12
  contig : v / 2 ^ 52 % 2 = 0

/-- The page size in use, and what `aarch64/mmu.h` declares beyond the architecture's own
index, offset and descriptor-type fields. -/
class MmuHeader where
  largePage : Bool
  userEnd : Nat
  startupBase4K : Nat
  startupBase64K : Nat
  l1L1Idx : Nat
  l1L2Idx : Nat
  l2L2Idx : Nat
  pteAf : Nat
  pteUrw : Nat
  pteKrw : Nat
  pteUro : Nat
  pteKro : Nat
  pteUxn : Nat
  ptePxn : Nat
  pteSodev : Nat
  pteDev : Nat
  pteNc : Nat
  pteWbwa : Nat
  pteIsh : Nat
  pteNg : Nat
  userEnd_le : userEnd ≤ 2 ^ 39
  startupBase4K_ge : 2 ^ 64 - 2 ^ 39 ≤ startupBase4K
  startupBase64K_ge : 2 ^ 64 - 2 ^ 42 ≤ startupBase64K
  startupBase_lt : startupBase4K < 2 ^ 64 ∧ startupBase64K < 2 ^ 64
  l1_lt : l1L1Idx < 512 ∧ l1L2Idx < 512 ∧ l2L2Idx < 512
  l1_ne : l1L1Idx ≠ l1L2Idx
  attrs : ∀ v ∈ [pteAf, pteUrw, pteKrw, pteUro, pteKro, pteUxn, ptePxn, pteSodev,
    pteDev, pteNc, pteWbwa, pteIsh, pteNg], IsAttr v

abbrev smallPages : MmuHeader where
  largePage := false
  userEnd := 2 ^ 38
  startupBase4K := 2 ^ 64 - 2 ^ 39 + 2 ^ 30
  startupBase64K := 2 ^ 64 - 2 ^ 42
  l1L1Idx := 511
  l1L2Idx := 510
  l2L2Idx := 511
  pteAf := 2 ^ 10
  pteUrw := 2 ^ 6
  pteKrw := 0
  pteUro := 3 * 2 ^ 6
  pteKro := 2 * 2 ^ 6
  pteUxn := 2 ^ 54
  ptePxn := 2 ^ 53
  pteSodev := 0
  pteDev := 2 ^ 2
  pteNc := 2 ^ 3
  pteWbwa := 3 * 2 ^ 2
  pteIsh := 3 * 2 ^ 8
  pteNg := 2 ^ 11
  userEnd_le := by decide
  startupBase4K_ge := by decide
  startupBase64K_ge := by decide
  startupBase_lt := by decide
  l1_lt := by decide
  l1_ne := by decide
  attrs := by
    simp only [List.mem_cons, List.not_mem_nil, or_false, forall_eq_or_imp, forall_eq]
    refine ⟨?_, ?_, ?_, ?_, ?_, ?_, ?_, ?_, ?_, ?_, ?_, ?_, ?_⟩ <;> constructor <;> decide

section
variable [MmuHeader]
open MmuHeader

def pagesz : Nat := if largePage then 0x10000 else 0x1000

def useLargePage : Bool := pagesz > 0x1000

def npte : Nat := pagesz / 8

def contigPages : Nat := if useLargePage then 32 else 16

def truncpg (x : Nat) : Nat := trunc x pagesz

def roundpg (x : Nat) : Nat := round x pagesz

def startupBase : Nat := if useLargePage then startupBase64K else startupBase4K

def pteValid : Nat := 3

def pteContig : Nat := 2 ^ 52

def ptpValid : Nat := 1

def ptpType (ptp : Nat) : Nat := ptp &&& 3

def ptpBlock : Nat := 1

def l1Idx (va : Nat) : Nat := (va >>> 30) &&& 511

def l2Idx (va : Nat) : Nat := (va >>> 21) &&& 511

def l3Idx (va : Nat) : Nat := (va >>> 12) &&& 511

def l2Idx64K (va : Nat) : Nat := (va >>> 29) &&& 8191

def l3Idx64K (va : Nat) : Nat := (va >>> 16) &&& 8191

def l1Voff (va : Nat) : Nat := va &&& (2 ^ 30 - 1)

def l2Voff (va : Nat) : Nat := va &&& (2 ^ 21 - 1)

def l3Voff (va : Nat) : Nat := va &&& (2 ^ 12 - 1)

def l2Voff64K (va : Nat) : Nat := va &&& (2 ^ 29 - 1)

def l3Voff64K (va : Nat) : Nat := va &&& (2 ^ 16 - 1)

def ptpPaddr (ptp : Nat) : Nat := (ptp &&& 0x0000fffffffff000) &&& compl64 (pagesz - 1)

def useContig (v p s c : Nat) : Bool := s ≥ c ∧ (v ||| p) &&& (c - 1) = 0

end

/-- The static variables of `aarch64_map.c`, the RAM allocator with its memory, and what
`set_pte` looks up: the number of processors and `meltdown_active`. -/
structure MapState where
  ram : RamState
  virtualMode : Bool
  numCpu : Nat
  meltdownActive : Int
  ttbr0 : Nat
  ttbr1 : Nat → Nat
  l1Ttbr0 : Nat
  l1Ttbr1 : Nat
  freeVaddr : Nat
  l0Vaddr : Nat

def MapState.withMem (s : MapState) (m : Mem) : MapState :=
  { s with ram := { s.ram with mem := m } }

/-- `tbl[i]`. -/
def MapState.entry (s : MapState) (tbl i : Nat) : Nat := readPtr s.ram.mem (tbl + 8 * i)

/-- `tbl[i] = pte`. -/
def MapState.setEntry (s : MapState) (tbl i pte : Nat) : MapState :=
  s.withMem (writePtr s.ram.mem (tbl + 8 * i) pte)

section
variable [SyspageHeader] [MmuHeader]
open MmuHeader

def setPte (paddr flags : Nat) (s : MapState) : Nat :=
  let pte := paddr ||| pteValid ||| pteAf
  let pte :=
    if flags &&& protWrite ≠ 0 then pte ||| (if flags &&& protUser ≠ 0 then pteUrw else pteKrw)
    else pte ||| (if flags &&& protUser ≠ 0 then pteUro else pteKro)
  let pte := if flags &&& protExec = 0 then pte ||| (pteUxn ||| ptePxn) else pte
  let pte :=
    if flags &&& protDevice ≠ 0 then
      pte ||| (if flags &&& protNocache ≠ 0 then pteSodev else pteDev)
    else
      let pte := pte ||| (if flags &&& protNocache ≠ 0 then pteNc else pteWbwa)
      if s.numCpu > 1 then pte ||| pteIsh else pte
  if s.meltdownActive > 0 then pte ||| pteNg else pte

def ptAlloc (s : MapState) : Startup (MapState × Nat) :=
  (callocRam pagesz pagesz s.ram).bind fun (r, pa) =>
    if pa = nullPaddr then crash "pt_alloc: calloc_ram failed"
    else .ok ({ s with ram := r }, setPte pa (protRead ||| protWrite) s)

structure MapCursor where
  va : Nat
  pte : Nat
  s : MapState

/-- The innermost loop: `n` entries from `L3i` on. -/
def writePtes (l3 : Nat) : Nat → Nat → MapCursor → Nat × MapCursor
  | 0, l3i, c => (l3i, c)
  | n + 1, l3i, c =>
    writePtes l3 n (l3i + 1) ⟨u64 (c.va + pagesz), u64 (c.pte + pagesz), c.s.setEntry l3 l3i c.pte⟩

def mapL3 (l3 stop : Nat) : Nat → Nat → MapCursor → MapCursor
  | 0, _, c => c
  | fuel + 1, l3i, c =>
    if l3i < npte ∧ c.va < stop then
      let contig := useContig c.va (truncpg c.pte) (sub64 stop c.va) (contigPages * pagesz)
      let pte := if contig then c.pte ||| pteContig else c.pte
      let n := if contig then contigPages else 1
      let (l3i, c) := writePtes l3 n l3i { c with pte := pte }
      let c := if n = contigPages then { c with pte := c.pte &&& compl64 pteContig } else c
      mapL3 l3 stop fuel l3i c
    else c

/-- `if (tbl[i] == 0) tbl[i] = pt_alloc();` -/
def ensureTable (tbl i : Nat) (s : MapState) : Startup MapState :=
  if s.entry tbl i = 0 then (ptAlloc s).bind fun (s, pte) => .ok (s.setEntry tbl i pte)
  else .ok s

def mapL2 (l2 stop : Nat) : Nat → Nat → MapCursor → Startup MapCursor
  | 0, _, c => .ok c
  | fuel + 1, l2i, c =>
    if l2i < npte ∧ c.va < stop then
      (ensureTable l2 l2i c.s).bind fun s =>
        let l3i := if useLargePage then l3Idx64K c.va else l3Idx c.va
        mapL2 l2 stop fuel (l2i + 1) (mapL3 (ptpPaddr (s.entry l2 l2i)) stop npte l3i
          { c with s := s })
    else .ok c

/-- With large pages the `L1` table takes the place of the `L2` tables. -/
def mapL1 (l1 stop : Nat) : Nat → Nat → MapCursor → Startup MapCursor
  | 0, _, c => .ok c
  | fuel + 1, l1i, c =>
    if l1i < npte ∧ c.va < stop then
      if useLargePage then (mapL2 l1 stop npte (l2Idx64K c.va) c).bind
        (mapL1 l1 stop fuel (l1i + 1))
      else
        (ensureTable l1 l1i c.s).bind fun s =>
          (mapL2 (ptpPaddr (s.entry l1 l1i)) stop npte (l2Idx c.va) { c with s := s }).bind
            (mapL1 l1 stop fuel (l1i + 1))
    else .ok c

def anyVaddr : Nat := 2 ^ 64 - 1

def aarch64Map (vaddr paddr size flags : Nat) (s : MapState) : Startup (MapState × Nat) :=
  if s.virtualMode = false then .ok (s, paddr)
  else
    let off := paddr &&& (pagesz - 1)
    let paddr := paddr &&& compl64 (pagesz - 1)
    let size := roundpg (u64 (size + off))
    if vaddr ≠ anyVaddr ∧ vaddr &&& (pagesz - 1) ≠ off then
      crash "aarch64_map: bad alignment va=%v pa=%v\n"
    else
      let (vaddr, s) :=
        if vaddr = anyVaddr then (s.freeVaddr, { s with freeVaddr := u64 (s.freeVaddr + size) })
          else (vaddr, s)
      let va := truncpg vaddr
      let stop := u64 (va + size)
      if stop < va then crash "aarch64_map: %v < %v, vaddr=%v, size=%d\n"
      else if va < userEnd ∧ stop ≥ userEnd then crash "aarch64_map: %v >= %v\n"
      else if ¬ va < userEnd ∧ va < startupBase then crash "aarch64_map: %v < %v\n"
      else
        let l1 := if va < userEnd then s.l1Ttbr0 else s.l1Ttbr1
        (mapL1 l1 stop npte (if useLargePage then 0 else l1Idx va) ⟨va, setPte paddr flags s,
          s⟩).bind fun c =>
          .ok (c.s, u64 (vaddr + off))

def elfVaddrToPaddr (vaddr : Nat) (s : MapState) : Startup Nat :=
  if ¬ vaddr < userEnd ∧ vaddr < startupBase then crash "elf_vaddr_to_paddr: bad address %v\n"
  else
    let l1 := if vaddr < userEnd then s.l1Ttbr0 else s.l1Ttbr1
    let walkL2 (l2 : Nat) : Startup Nat :=
      let pa := s.entry l2 (if useLargePage then l2Idx64K vaddr else l2Idx vaddr)
      if pa &&& ptpValid = 0 then .ok nullPaddr
      else if ptpType pa = ptpBlock then
        .ok (ptpPaddr pa ||| if useLargePage then l2Voff64K vaddr else l2Voff vaddr)
      else
        let pa := s.entry (ptpPaddr pa) (if useLargePage then l3Idx64K vaddr else l3Idx vaddr)
        if pa &&& pteValid ≠ pteValid then .ok nullPaddr
        else .ok (ptpPaddr pa ||| if useLargePage then l3Voff64K vaddr else l3Voff vaddr)
    if useLargePage then walkL2 l1
    else
      let pa := s.entry l1 (l1Idx vaddr)
      if pa &&& ptpValid = 0 then .ok nullPaddr
      else if ptpType pa = ptpBlock then .ok (ptpPaddr pa ||| l1Voff vaddr)
      else walkL2 (ptpPaddr pa)

/-- The loop over the processors at the end of `aarch64_map_init`. -/
def fillL0 (l0 l1pte : Nat) (s : MapState) : MapState :=
  (List.range processorsMax).foldl
    (fun s i => { s.setEntry (l0 + 64 * i) 1 l1pte with
      ttbr1 := fun j => if j = i then l0 + 64 * i else s.ttbr1 j }) s

/-- The tables that `aarch64_map_init` links into themselves. -/
def recursiveTables (s : MapState) : Startup (MapState × Nat) :=
  (ptAlloc s).bind fun (s, l1pte) =>
    let s := ({ s with l1Ttbr1 := ptpPaddr l1pte }).setEntry (ptpPaddr l1pte) l1L1Idx l1pte
    if useLargePage then .ok ({ s with freeVaddr := startupBase }, l1pte)
    else
      (ptAlloc s).bind fun (s, l2pte) =>
        let s := (s.setEntry s.l1Ttbr1 l1L2Idx l2pte).setEntry (ptpPaddr l2pte) l2L2Idx l1pte
        .ok ({ s with freeVaddr := startupBase }, l1pte)

def aarch64MapInit (s : MapState) : Startup MapState :=
  (callocRam pagesz pagesz s.ram).bind fun (r, ttbr0) =>
    (recursiveTables { s with ram := r, ttbr0 := ttbr0, l1Ttbr0 := ptpPaddr ttbr0 }).bind
      fun (s, l1pte) =>
        let l0size := roundpg (64 * processorsMax)
        (callocRam l0size pagesz s.ram).bind fun (r, l0) =>
          (aarch64Map anyVaddr l0 l0size (protRead ||| protWrite) { s with ram := r }).bind
            fun (s, v) =>
              if l0 = nullPaddr then .error .fault
              else .ok (fillL0 l0 l1pte { s with l0Vaddr := v })

end

end QnxStartup
