import Mathlib.Algebra.BigOperators.Group.Finset.Basic
import Mathlib.Data.Fintype.Basic
import QnxStartup.Machine

/-! The sections of the system page while it is being built: `syspage_memory.c` up to
the final allocation, and the owners that `callout_register_data` records. -/

namespace QnxStartup

/-- The sections of `struct local_syspage`, in its order; the first one is the header. -/
inductive SectionId where
  | syspage | systemPrivate | asinfo | hwinfo | cpuinfo | cacheattr | qtime | callout | typedStrings
  | strings | intrinfo | smp | hypinfo | cluster | aarch64GicMap | aarch64GicrMap | aarch64IdregDump
  deriving DecidableEq, Repr

instance : Fintype SectionId where
  elems := {.syspage, .systemPrivate, .asinfo, .hwinfo, .cpuinfo, .cacheattr, .qtime,
    .callout, .typedStrings,
    .strings, .intrinfo, .smp, .hypinfo, .cluster, .aarch64GicMap, .aarch64GicrMap,
    .aarch64IdregDump}
  complete := by
    intro s
    cases s <;> decide

structure Sect where
  p : Nat
  size : Nat
  deriving DecidableEq, Repr

def Sect.stop (t : Sect) : Nat := t.p + t.size

/-- `struct co_info` on the list `patch_data`. -/
structure CoInfo where
  owner : Nat
  data : Nat
  deriving DecidableEq, Repr

/-- `lsp`, the header fields that the code reads back, and the registered owners. -/
structure Syspage where
  sects : SectionId → Sect
  totalSize : Nat
  maxSize : Nat
  fixedSize : Nat
  patchData : List CoInfo
  mem : Mem

def Syspage.base (c : Syspage) : Nat := (c.sects .syspage).p

def calloutRelocData (base len : Nat) (diff : Int) (l : List CoInfo) : List CoInfo :=
  l.map fun pd =>
    if base ≤ pd.owner ∧ base + len > pd.owner then { pd with owner := (pd.owner + diff).toNat }
      else pd

def sectionOverflow : String := "Syspage memory request of %d exceeds maximum of %d bytes.\n"

/-- The body of `grow_syspage_section` behind its check. -/
def growSection (s : SectionId) (add : Nat) (c : Syspage) : Syspage :=
  let bottom := (c.sects s).stop
  let len := u32 (c.totalSize - (bottom - c.base))
  { c with
    sects := fun s2 =>
      if s2 ≠ s ∧ (c.sects s2).p ≥ bottom then { c.sects s2 with p := (c.sects s2).p + add }
      else if s2 = s then { c.sects s2 with size := u32 ((c.sects s2).size + add) }
      else c.sects s2
    mem := memset (memmove c.mem (bottom + add) bottom len) bottom 0 add
    patchData := calloutRelocData bottom len add c.patchData
    totalSize := u32 (c.totalSize + add) }

def growSyspageSection (s : SectionId) (add : Nat) (c : Syspage) : Startup Syspage :=
  if add > 0 then
    let add := u32 (round add 8)
    if u32 (c.totalSize + add) > c.maxSize then crash sectionOverflow
    else .ok (growSection s add c)
  else .ok c

/-- `set_syspage_section` up to its call of `grow_syspage_section`. -/
def placeSection (s : SectionId) (size : Nat) (c : Syspage) : Syspage :=
  { c with
    sects := fun s2 => if s2 = s then { c.sects s2 with p := c.base + c.fixedSize } else c.sects s2
    fixedSize := u32 (c.fixedSize + size) }

def setSyspageSection (s : SectionId) (size : Nat) (c : Syspage) : Startup Syspage :=
  let size := u32 (round size 8)
  growSyspageSection s size (placeSection s size c)

/-- The sizes of structures that the system headers declare. -/
structure SyspageSizes where
  syspage : Nat
  callout : Nat
  hwiPrefix : Nat
  syspage_pos : 0 < syspage
  syspage_lt : syspage < 2 ^ 16
  callout_lt : callout < 2 ^ 16
  hwiPrefix_lt : hwiPrefix < 2 ^ 16

/-- `init_syspage_memory` up to its first `set_syspage_section`. -/
def emptySyspage (sz : SyspageSizes) (base maxSize : Nat) (mem : Mem) : Syspage :=
  let spsize := u32 (round sz.syspage 8)
  { sects := fun s => if s = .syspage then ⟨base, spsize⟩ else ⟨base + spsize, 0⟩
    totalSize := spsize
    maxSize := maxSize
    fixedSize := spsize
    patchData := []
    mem := memset mem base 0 spsize }

/-- `init_syspage_memory`, with `cpu_init_syspage_memory`; `hwi_default` only goes on with
steps of the kind that follow. -/
def initSyspageMemory (sz : SyspageSizes) (base maxSize : Nat) (mem : Mem) : Startup Syspage :=
  (setSyspageSection .callout sz.callout (emptySyspage sz base maxSize mem)).bind fun c =>
    (growSyspageSection .typedStrings 4 c).bind fun c =>
      (growSyspageSection .strings 1 c).bind fun c =>
        (growSyspageSection .hwinfo sz.hwiPrefix c).bind
          (setSyspageSection .aarch64GicMap (8 * processorsMax))

def relocSyspageMemory (base maxSize : Nat) (c : Syspage) : Syspage :=
  let diff : Int := base - c.base
  { c with
    mem := memmove c.mem base c.base c.totalSize
    patchData := calloutRelocData c.base c.totalSize diff c.patchData
    sects := fun s => { c.sects s with p := ((c.sects s).p + diff).toNat }
    maxSize := maxSize }

/-- `callout_register_data`; `patcher` says which of startup's callouts have one. -/
def calloutRegisterData (patcher : Nat → Bool) (rp data : Nat) (c : Syspage) : Syspage :=
  let rtn := readPtr c.mem rp
  if data ≠ 0 ∧ rtn ≠ 0 ∧ patcher rtn then
    if c.patchData.any (fun pd => pd.owner = rp) then c
    else { c with patchData := ⟨rp, data⟩ :: c.patchData }
  else c

def pokeByte (m : Mem) (a : Nat) (b : UInt8) : Mem := fun x => if x = a then b else m x

end QnxStartup
