import QnxStartup.Ram

/-! `load_ifs` and the addresses that `_main` forms from the startup header: which bytes become
the image filesystem when the image was loaded away from its link addresses. -/

namespace QnxStartup

/-- The members of `struct startup_header` that place the image; `compress` is
`flags1 & STARTUP_HDR_FLAGS1_COMPRESS_MASK`. -/
structure StartupHeader where
  compress : UInt8
  imagePaddr : UInt32
  startupSize : UInt32
  storedSize : UInt32
  imagefsPaddr : UInt32
  imagefsSize : UInt32
  addrOff : UInt64

namespace StartupHeader

def fullImagePaddr (shdr : StartupHeader) : Nat := u64 (shdr.imagePaddr.toNat + shdr.addrOff.toNat)

def fullImagefsPaddr (shdr : StartupHeader) : Nat :=
  if shdr.imagefsPaddr.toNat ≠ 0 then u64 (shdr.imagefsPaddr.toNat + shdr.addrOff.toNat) else 0

/-- The `ifs_paddr` of `init_system_private`. -/
def ifsPaddr (shdr : StartupHeader) : Nat := u64 (shdr.fullImagePaddr + shdr.startupSize.toNat)

end StartupHeader

/-- Where the compressed image lies when `uncompress` is called. -/
def compressedSource (shdr : StartupHeader) (ifsPaddr : Nat) (s : RamState) : Startup (Nat × Mem) :=
  if shdr.fullImagefsPaddr = 0 then
    let src := findRam shdr.storedSize.toNat 8 0 0 s
    (copyMemory src ifsPaddr shdr.storedSize.toNat s.mem).bind fun mem => .ok (src, mem)
  else .ok (shdr.fullImagefsPaddr, s.mem)

/-- `uncompress` is given the type, the destination and the source. -/
def loadIfs (uncompress : Nat → Nat → Nat → Mem → Startup Mem) (shdr : StartupHeader)
    (ifsPaddr : Nat) (s : RamState) :
    Startup RamState :=
  if shdr.fullImagePaddr = 0 ∨ shdr.startupSize.toNat = 0 then
    crash "startup: shdr: %V, image_paddr: %P, startup_size: %x\nImage header corrupt\n"
  else if shdr.compress.toNat ≠ 0 then
    (compressedSource shdr ifsPaddr s).bind fun (src, mem) =>
      if sub64 shdr.fullImagefsPaddr shdr.fullImagePaddr < shdr.imagefsSize.toNat then
        crash "\n\t *** Warning! Uncompressing this image will exceed allotted space & cause memory corruption! *** \n"
      else (uncompress shdr.compress.toNat ifsPaddr src mem).bind fun mem =>
        .ok { s with mem := mem }
  else if shdr.fullImagefsPaddr ≠ 0 ∧ shdr.fullImagefsPaddr ≠ ifsPaddr then
    (copyMemory ifsPaddr shdr.imagefsPaddr.toNat shdr.imagefsSize.toNat s.mem).bind fun mem =>
      .ok { s with mem := mem }
  else .ok s

/-- The `n` bytes at `a` in one memory are those at `b` in the other. -/
def SameBytes (m : Mem) (a : Nat) (m' : Mem) (b n : Nat) : Prop := ∀ k < n, m (a + k) = m' (b + k)

theorem SameBytes.refl (m : Mem) (a n : Nat) : SameBytes m a m a n := fun _ _ => rfl

theorem SameBytes.trans {m m' m'' : Mem} {a b c n : Nat} (h : SameBytes m a m' b n)
    (h' : SameBytes m' b m'' c n) :
    SameBytes m a m'' c n := fun k hk => (h k hk).trans (h' k hk)

theorem SameBytes.symm {m m' : Mem} {a b n : Nat} (h : SameBytes m a m' b n) :
    SameBytes m' b m a n :=
  fun k hk => (h k hk).symm

/-- Whether or not the two overlap, the target holds what the source held. -/
theorem copyMemory_sameBytes {dst src len : Nat} {m m' : Mem} (hlen : len < 2 ^ 32)
    (h : copyMemory dst src len m = .ok m') :
    SameBytes m' dst m src len := by
  rw [copyMemory_eq m hlen] at h
  obtain ⟨-, h⟩ := access_eq_ok.mp h
  obtain rfl := Except.ok.inj h
  intro k hk
  rw [memmove_of_mem (by omega), Nat.add_sub_cancel_left]

section
variable {uncompress : Nat → Nat → Nat → Mem → Startup Mem} {shdr : StartupHeader}
  {ifsPaddr src : Nat} {s s' : RamState}

theorem compressedSource_sameBytes {m : Mem} (h : compressedSource shdr ifsPaddr s = .ok (src, m)) :
    SameBytes m src s.mem (if shdr.fullImagefsPaddr = 0 then ifsPaddr
      else shdr.fullImagefsPaddr) shdr.storedSize.toNat := by
  unfold compressedSource at h
  by_cases h0 : shdr.fullImagefsPaddr = 0
  · rw [if_pos h0] at h ⊢
    obtain ⟨m1, hm1, h⟩ := bind_eq_ok.mp h
    obtain ⟨rfl, rfl⟩ := Prod.mk.inj (Except.ok.inj h)
    exact copyMemory_sameBytes shdr.storedSize.toNat_lt hm1
  · rw [if_neg h0] at h ⊢
    obtain ⟨rfl, rfl⟩ := Prod.mk.inj (Except.ok.inj h)
    exact .refl _ _ _

theorem SameBytes.iff_source {m m' m'' : Mem} {a b c n : Nat} (h : SameBytes m a m' b n) :
    SameBytes m a m'' c n ↔ SameBytes m' b m'' c n := ⟨h.symm.trans, h.trans⟩

theorem loadIfs_sameBytes (hplain : shdr.compress.toNat = 0)
    (h : loadIfs uncompress shdr ifsPaddr s = .ok s') :
    SameBytes s'.mem ifsPaddr s.mem
      (if shdr.fullImagefsPaddr ≠ 0 ∧ shdr.fullImagefsPaddr ≠ ifsPaddr then shdr.imagefsPaddr.toNat
        else ifsPaddr)
      shdr.imagefsSize.toNat := by
  unfold loadIfs at h
  obtain ⟨-, h⟩ := crash_ite_eq_ok.mp h
  rw [if_neg (not_not.mpr hplain)] at h
  by_cases hcopy : shdr.fullImagefsPaddr ≠ 0 ∧ shdr.fullImagefsPaddr ≠ ifsPaddr
  · rw [if_pos hcopy] at h ⊢
    obtain ⟨m, hm, h⟩ := bind_eq_ok.mp h
    obtain rfl := Except.ok.inj h
    exact copyMemory_sameBytes shdr.imagefsSize.toNat_lt hm
  · rw [if_neg hcopy] at h ⊢
    obtain rfl := Except.ok.inj h
    exact .refl _ _ _

/-- The bytes that take the place of the image are those of the address without the displacement;
the decompressor gets the displaced ones. -/
theorem load_ifs_placed (h : loadIfs uncompress shdr shdr.ifsPaddr s = .ok s') :
    (shdr.compress.toNat = 0 →
      (SameBytes s'.mem shdr.ifsPaddr s.mem shdr.fullImagefsPaddr shdr.imagefsSize.toNat ↔
        shdr.fullImagefsPaddr = shdr.ifsPaddr ∨
          SameBytes s.mem (if shdr.fullImagefsPaddr = 0 then shdr.ifsPaddr
            else shdr.imagefsPaddr.toNat)
            s.mem shdr.fullImagefsPaddr shdr.imagefsSize.toNat)) ∧
      (shdr.compress.toNat ≠ 0 → ∃ src m, compressedSource shdr shdr.ifsPaddr s = .ok (src, m) ∧
        uncompress shdr.compress.toNat shdr.ifsPaddr src m = .ok s'.mem ∧
        (SameBytes m src s.mem shdr.fullImagefsPaddr shdr.storedSize.toNat ↔
          shdr.fullImagefsPaddr ≠ 0 ∨
            SameBytes s.mem shdr.ifsPaddr s.mem shdr.fullImagefsPaddr shdr.storedSize.toNat)) := by
  refine ⟨fun hplain => ?_, fun hpacked => ?_⟩
  · have hsame := loadIfs_sameBytes hplain h
    by_cases hin : shdr.fullImagefsPaddr = shdr.ifsPaddr
    · rw [if_neg fun hc => hc.2 hin] at hsame
      exact iff_of_true (hin ▸ hsame) (.inl hin)
    rw [or_iff_right hin]
    by_cases h0 : shdr.fullImagefsPaddr = 0
    · rw [if_neg fun hc => hc.1 h0] at hsame
      rw [if_pos h0, hsame.iff_source]
    · rw [if_pos ⟨h0, hin⟩] at hsame
      rw [if_neg h0, hsame.iff_source]
  · unfold loadIfs at h
    obtain ⟨-, h⟩ := crash_ite_eq_ok.mp h
    rw [if_pos hpacked] at h
    obtain ⟨⟨src, m⟩, hsrc, h⟩ := bind_eq_ok.mp h
    obtain ⟨-, h⟩ := crash_ite_eq_ok.mp h
    obtain ⟨m', hrun, h⟩ := bind_eq_ok.mp h
    obtain rfl := Except.ok.inj h
    refine ⟨src, m, hsrc, hrun, ?_⟩
    have hsame := compressedSource_sameBytes hsrc
    by_cases h0 : shdr.fullImagefsPaddr = 0
    · rw [if_pos h0] at hsame
      rw [hsame.iff_source, or_iff_right (not_not.mpr h0)]
    · rw [if_neg h0] at hsame
      exact iff_of_true hsame (.inl h0)

end

def displacedHeader : StartupHeader where
  compress := 0
  imagePaddr := 0x80000000
  startupSize := 0x1000
  storedSize := 0x3000
  imagefsPaddr := 0x80100000
  imagefsSize := 0x2000
  addrOff := 0x100000000

def displacedRam : RamState := RamState.atBoot false fun a => if a = 0x180100000 then 0xeb else 0

theorem load_ifs_placed_example :
    ∃ s', loadIfs (fun _ _ _ m => .ok m) { displacedHeader with addrOff := 0 } 0x80001000
        displacedRam = .ok s' ∧
      SameBytes s'.mem 0x80001000 displacedRam.mem 0x80100000 0x2000 := by
  have h := eq_ok_resultOr displacedRam
    (x := loadIfs (fun _ _ _ m => .ok m) { displacedHeader with addrOff := 0 } 0x80001000
      displacedRam) (by decide +kernel)
  exact ⟨_, h, ((load_ifs_placed h).1 rfl).mpr (.inr (.refl _ _ _))⟩

/-- The byte at the displaced address is not the one that is loaded. -/
theorem load_ifs_displaced :
    displacedHeader.fullImagefsPaddr = 0x180100000 ∧ displacedHeader.ifsPaddr = 0x180001000 ∧
      ∃ s', loadIfs (fun _ _ _ m => .ok m) displacedHeader displacedHeader.ifsPaddr displacedRam =
        .ok s' ∧
        displacedRam.mem 0x180100000 = 0xeb ∧ s'.mem 0x180001000 = 0 := by
  have h := eq_ok_resultOr displacedRam
    (x := loadIfs (fun _ _ _ m => .ok m) displacedHeader displacedHeader.ifsPaddr displacedRam)
      (by decide +kernel)
  exact ⟨by decide, by decide, _, h, by decide, by decide +kernel⟩

end QnxStartup
