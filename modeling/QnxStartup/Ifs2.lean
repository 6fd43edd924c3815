import QnxStartup.RamImport
import QnxStartup.Rifs

/-! The secondary image file system: `load_ifs2_nonbootable` and the RAM it reserves. -/

namespace QnxStartup

def sizeofRestoreIfs2Info : Nat := 16

/-- The variables of `restore_ifs.c` for the secondary image, with the allocator's. -/
structure Ifs2 where
  ram : RamState
  rifsFlag : Nat
  ifs2PaddrSrc : Nat
  ifs2PaddrDst : Nat
  ifs2Size : Nat
  rifs2Info : Option Nat

/-- As the options leave them. -/
def Ifs2.given (ram : RamState) (rifsFlag src dst size : Nat) : Ifs2 :=
  ⟨ram, rifsFlag, src, dst, size, none⟩

section
variable [SyspageHeader] [ImageHeader]
open ImageHeader

/-- `rifs_restore_ifs2`, with its status. -/
def rifsRestoreIfs2 (s : Ifs2) : Startup (Ifs2 × Int) :=
  (allocRam nullPaddr sizeofRestoreIfs2Info 8 s.ram).bind fun (ram, paddr) =>
    let s := { s with ram := ram, rifs2Info := some paddr }
    let mem := s.ram.mem
    let ifs2Hdr := s.ifs2PaddrDst
    access ifs2Hdr 1 (
      if checkIfsSignature mem ifs2Hdr = 0 then
        access paddr sizeofRestoreIfs2Info (
          if rifsChecksum mem paddr sizeofRestoreIfs2Info = 0 then
            if s.rifsFlag &&& rifsFlagIfs2Cksum ≠ 0 then
              .ok (s, if rifsChecksum mem ifs2Hdr (read32 mem (paddr + 12)) ≠ 0 then -1 else 0)
            else .ok (s, 0)
          else .ok (s, -1))
      else .ok (s, -1))

def writeRifs2Info (info ifs2Hdr : Nat) (m : Mem) : Mem :=
  let m := writeBytes m info rifsSignature
  let m := writeBytes m (info + 12) (le32 (read32 m (ifs2Hdr + imageSizeOff)))
  let m := writeBytes m (info + 8) (le32 0)
  writeBytes m (info + 8) (le32 (sub32 0 (rifsChecksum m info sizeofRestoreIfs2Info)))

/-- The memory that `rifs_restore_ifs2` looks at: a secure system has cleared the block that
it has just allocated. -/
def Ifs2.seen (s : Ifs2) (info : Nat) : Mem :=
  if s.ram.secureSystem then memset s.ram.mem (u32 info) 0 sizeofRestoreIfs2Info else s.ram.mem

/-- What an earlier boot has left is taken for the image at `ifs2_paddr_dst`. -/
def Ifs2.LeftValid (s : Ifs2) (info : Nat) : Prop :=
  let m := s.seen info
  checkIfsSignature m s.ifs2PaddrDst = 0 ∧ rifsChecksum m info sizeofRestoreIfs2Info = 0 ∧
    (s.rifsFlag &&& rifsFlagIfs2Cksum ≠ 0 →
      rifsChecksum m s.ifs2PaddrDst (read32 m (info + 12)) = 0)

/-- What a call keeps of the options. -/
structure SameOptions (s s' : Ifs2) : Prop where
  flag : s'.rifsFlag = s.rifsFlag
  dst : s'.ifs2PaddrDst = s.ifs2PaddrDst
  size : s'.ifs2Size = s.ifs2Size

variable {img : BootImage} {s s' : Ifs2} {f : FreeList}

/-- An attempt to restore allocates the block of the restore information, reserves nothing
else, and succeeds exactly on what an earlier boot left valid. -/
theorem rifsRestoreIfs2_ok {status : Int} (hf : s.ram.ramList.Holds f)
    (h : rifsRestoreIfs2 s = .ok (s', status)) :
    SameOptions s s' ∧ s'.rifs2Info = some (findRam sizeofRestoreIfs2Info 8 0 0 s.ram) ∧
      (status ≠ -1 → findRam sizeofRestoreIfs2Info 8 0 0 s.ram ≠ nullPaddr) ∧
      ∃ f', s'.ram.ramList.Holds f' ∧ (findRam sizeofRestoreIfs2Info 8 0 0 s.ram ≠ nullPaddr →
        (status ≠ -1 ↔ s.LeftValid (findRam sizeofRestoreIfs2Info 8 0 0 s.ram)) ∧
          f'.bytes = f.bytes \ bytes (findRam sizeofRestoreIfs2Info 8 0 0 s.ram)
            sizeofRestoreIfs2Info) := by
  obtain ⟨⟨ram, paddr⟩, hram, h⟩ := bind_eq_ok.mp h
  obtain ⟨hpaddr, hcase⟩ := allocRam_found hf hram
  rw [← hpaddr]
  obtain ⟨-, h⟩ := access_eq_ok.mp h
  have hs' : s' = { s with ram := ram, rifs2Info := some paddr } ∧
      (status ≠ -1 → paddr ≠ nullPaddr) ∧
      (status ≠ -1 ↔ checkIfsSignature ram.mem s.ifs2PaddrDst = 0 ∧
        rifsChecksum ram.mem paddr sizeofRestoreIfs2Info = 0 ∧
        (s.rifsFlag &&& rifsFlagIfs2Cksum ≠ 0 →
          rifsChecksum ram.mem s.ifs2PaddrDst (read32 ram.mem (paddr + 12)) = 0)) := by
    by_cases hsig : checkIfsSignature ram.mem s.ifs2PaddrDst = 0
    · rw [if_pos hsig] at h
      obtain ⟨hle, h⟩ := access_eq_ok.mp h
      have hne : paddr ≠ nullPaddr := by
        rw [sizeofRestoreIfs2Info] at hle
        omega
      by_cases hsum : rifsChecksum ram.mem paddr sizeofRestoreIfs2Info = 0
      · rw [if_pos hsum] at h
        by_cases hck : s.rifsFlag &&& rifsFlagIfs2Cksum ≠ 0
        · rw [if_pos hck] at h
          obtain ⟨rfl, rfl⟩ := Prod.mk.inj (Except.ok.inj h)
          refine ⟨rfl, fun _ => hne, ?_⟩
          by_cases hbad : rifsChecksum ram.mem s.ifs2PaddrDst (read32 ram.mem (paddr + 12)) = 0 <;>
            simp [hsig, hsum, hck, hbad]
        · rw [if_neg hck] at h
          obtain ⟨rfl, rfl⟩ := Prod.mk.inj (Except.ok.inj h)
          exact ⟨rfl, fun _ => hne, by simp [hsig, hsum, hck]⟩
      · rw [if_neg hsum] at h
        obtain ⟨rfl, rfl⟩ := Prod.mk.inj (Except.ok.inj h)
        exact ⟨rfl, fun hc => absurd rfl hc, by simp [hsum]⟩
    · rw [if_neg hsig] at h
      obtain ⟨rfl, rfl⟩ := Prod.mk.inj (Except.ok.inj h)
      exact ⟨rfl, fun hc => absurd rfl hc, by simp [hsig]⟩
  obtain ⟨rfl, hnull, hstatus⟩ := hs'
  refine ⟨⟨rfl, rfl, rfl⟩, rfl, hnull, ?_⟩
  obtain ⟨hn, rfl⟩ | ⟨-, hl, -, hmem⟩ := hcase
  · exact ⟨f, hf, fun hne => absurd hn hne⟩
  · exact ⟨_, hl, fun _ => ⟨by rw [hstatus, hmem]; rfl, f.bytes_erase_size ..⟩⟩

end

def bootRam (mem : Mem) : RamState :=
  { RamState.atBoot false mem with ramList := .ofEntries [⟨0x80000000, 0x100000⟩, ⟨0, 0⟩] }

theorem bootRam_holds (mem : Mem) :
    ∃ f, (bootRam mem).ramList.Holds f ∧ bytes 0x80000000 0x100000 ⊆ f.bytes :=
  ⟨⟨[⟨0x80000000, 0x100000⟩], by simp, by simp [Ranges.Separated, RamEntry.span]⟩,
    ⟨⟨0, 0⟩, rfl, rfl⟩, fun _ hx => FreeList.mem_bytes.mpr ⟨_, List.mem_singleton_self _, hx⟩⟩

end QnxStartup
