import QnxStartup.Bytes
import QnxStartup.Calloc

/-! What the two halves of `restore_ifs.c` share: the flags, the signatures, the
checksum, and where `alloc_ram` puts what is kept for the next boot. -/

namespace QnxStartup

/-- What startup reads of the header of an image file system; `sys/image.h` lays it out. -/
class ImageHeader where
  signature : List UInt8
  imageSizeOff : Nat

/-- `"imagefs"`, seven characters without the terminator. -/
@[reducible] def qnxImageHeader : ImageHeader := ⟨[0x69, 0x6d, 0x61, 0x67, 0x65, 0x66, 0x73], 8⟩

def rifsFlagEnable : Nat := 0x01
def rifsFlagCksum : Nat := 0x02
def rifsFlagIfs2 : Nat := 0x04
def rifsFlagIfs2Restore : Nat := 0x08
def rifsFlagIfs2Cksum : Nat := 0x10
def rifsFlagIfs2Src : Nat := 0x20
def rifsFlagIfs2Dst : Nat := 0x40

/-- `"rifsboot"`. -/
def rifsSignature : List UInt8 := [0x72, 0x69, 0x66, 0x73, 0x62, 0x6f, 0x6f, 0x74]

/-- Where the image lies and what the startup header says about it; `compressed` is
`flags1 & STARTUP_HDR_FLAGS1_COMPRESS_MASK`. -/
structure BootImage where
  fullImagePaddr : Nat
  fullImagefsPaddr : Nat
  startupSize : Nat
  storedSize : Nat
  compressed : Bool

def checkIfsSignature [ImageHeader] (m : Mem) (ifsHdr : Nat) : Int :=
  if Holds m ifsHdr ImageHeader.signature then 0 else -1

/-- The loop of `rifs_checksum`, with `n` words still to come. -/
def sumWords (m : Mem) : Nat → Nat → Nat → Nat
  | 0, _, sum => sum
  | n + 1, data, sum => sumWords m n (data + 4) (u32 (sum + read32 m data))

def rifsChecksum (m : Mem) (ptr len : Nat) : Nat := sumWords m ((len + 3) / 4) ptr 0

theorem disjoint_nullPaddr (f : FreeList) (size : Nat) :
    Disjoint (bytes nullPaddr size) f.bytes := by
  refine Set.disjoint_left.mpr fun x hx hf => ?_
  obtain ⟨r, hr, -, hhi⟩ := FreeList.mem_bytes.mp hf
  have hb := f.bound r hr
  have hlo : nullPaddr ≤ x := hx.1
  unfold nullPaddr at hlo
  omega

end QnxStartup
