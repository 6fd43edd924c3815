import QnxStartup.Ifs2
import QnxStartup.RestoreInfo

/-! What `rifs_restore_ifs2` takes for an image that an earlier boot has left. -/

namespace QnxStartup

section
variable [SyspageHeader] [ImageHeader]

structure Ifs2.Trusted (s : Ifs2) (info : Nat) : Prop where
  sealed : Sealed (s.seen info) info sizeofRestoreIfs2Info
  image : checkIfsSignature (s.seen info) s.ifs2PaddrDst = 0
  cksum : s.rifsFlag &&& rifsFlagIfs2Cksum ≠ 0 →
    rifsChecksum (s.seen info) s.ifs2PaddrDst (read32 (s.seen info) (info + 12)) = 0

theorem rifsRestoreIfs2_status {s s' : Ifs2} {status : Int}
    (h : rifsRestoreIfs2 s = .ok (s', status)) :
    status = 0 ∨ status = -1 := by
  obtain ⟨⟨ram, paddr⟩, -, h⟩ := bind_eq_ok.mp h
  obtain ⟨-, h⟩ := access_eq_ok.mp h
  split at h
  · obtain ⟨-, h⟩ := access_eq_ok.mp h
    split_ifs at h <;> obtain ⟨-, rfl⟩ := Prod.mk.inj (Except.ok.inj h) <;> simp
  · obtain ⟨-, rfl⟩ := Prod.mk.inj (Except.ok.inj h)
    exact .inr rfl

/-- Without room for its block the function accepts nothing. With it, what it accepts is to be
trusted unless the block has no signature but all the sums are right. -/
theorem restore_ifs2_trusts {s s' : Ifs2} {f : FreeList} {status : Int} {info : Nat}
    (hf : s.ram.ramList.Holds f) (hinfo : info = findRam sizeofRestoreIfs2Info 8 0 0 s.ram)
    (h : rifsRestoreIfs2 s = .ok (s', status)) :
    (info = nullPaddr → status = -1) ∧
      (info ≠ nullPaddr → ((status = 0 → s.Trusted info) ↔
        Holds (s.seen info) info rifsSignature ∨
          rifsChecksum (s.seen info) info sizeofRestoreIfs2Info ≠ 0 ∨
          checkIfsSignature (s.seen info) s.ifs2PaddrDst ≠ 0 ∨
            s.rifsFlag &&& rifsFlagIfs2Cksum ≠ 0 ∧
            rifsChecksum (s.seen info) s.ifs2PaddrDst (read32 (s.seen info) (info + 12)) ≠ 0)) := by
  obtain ⟨-, -, hnull, f', -, hvalid⟩ := rifsRestoreIfs2_ok hf h
  rw [← hinfo] at hnull hvalid
  refine ⟨fun hn => by_contra fun hc => hnull hc hn, fun hne => ?_⟩
  have hstatus : status = 0 ↔ s.LeftValid info := by
    rw [← (hvalid hne).1]
    rcases rifsRestoreIfs2_status h with rfl | rfl <;> simp
  rw [hstatus]
  constructor
  · intro htrust
    by_cases hsum : rifsChecksum (s.seen info) info sizeofRestoreIfs2Info = 0
    · by_cases himg : checkIfsSignature (s.seen info) s.ifs2PaddrDst = 0
      · by_cases hck : s.rifsFlag &&& rifsFlagIfs2Cksum ≠ 0 →
            rifsChecksum (s.seen info) s.ifs2PaddrDst (read32 (s.seen info) (info + 12)) = 0
        · exact .inl (htrust ⟨himg, hsum, hck⟩).sealed.1
        · exact .inr (.inr (.inr (Classical.not_imp.mp hck)))
      · exact .inr (.inr (.inl himg))
    · exact .inr (.inl hsum)
  · rintro (hsig | hsum | himg | ⟨hflag, hbad⟩) ⟨himg', hsum', hck⟩
    · exact ⟨⟨hsig, hsum'⟩, himg', hck⟩
    · exact absurd hsum' hsum
    · exact absurd himg' himg
    · exact absurd (hck hflag) hbad

end

def trustedIfs2 (mem : Mem) : Ifs2 := .given (bootRam mem) 0x0c 0 0x80010000 0x2000

def imageLeft : Mem := writeBytes (fun _ => 0) 0x80010000 [0x69, 0x6d, 0x61, 0x67, 0x65, 0x66, 0x73]

theorem restore_ifs2_trusts_example :
    let _ := qnxSyspageHeader
    let _ := qnxImageHeader
    ∃ s' status, rifsRestoreIfs2 (trustedIfs2 (writeRifs2Info 0x80000000 0x80010000 imageLeft)) =
      .ok (s', status) ∧ status = 0 ∧
      (trustedIfs2 (writeRifs2Info 0x80000000 0x80010000 imageLeft)).Trusted 0x80000000 := by
  intro _ _
  obtain ⟨f, hf, -⟩ := bootRam_holds (writeRifs2Info 0x80000000 0x80010000 imageLeft)
  have h := eq_ok_pair_resultOr (trustedIfs2 imageLeft, 7)
    (x := rifsRestoreIfs2 (trustedIfs2 (writeRifs2Info 0x80000000 0x80010000 imageLeft)))
      (by decide +kernel)
  have hzero : (resultOr (trustedIfs2 imageLeft, 7)
      (rifsRestoreIfs2 (trustedIfs2 (writeRifs2Info 0x80000000 0x80010000 imageLeft)))).2 = 0 := by
      decide +kernel
  have hinfo : 0x80000000 = findRam sizeofRestoreIfs2Info 8 0 0
      (trustedIfs2 (writeRifs2Info 0x80000000 0x80010000 imageLeft)).ram := by decide +kernel
  have htrust := (restore_ifs2_trusts hf hinfo h).2 (by decide)
  exact ⟨_, _, h, hzero, htrust.mpr (.inl (by decide +kernel)) hzero⟩

/-- RAM that is all zero but for the name of an image is accepted. -/
theorem restore_ifs2_trusts_zeros :
    let _ := qnxSyspageHeader
    let _ := qnxImageHeader
    ∃ s', rifsRestoreIfs2 (trustedIfs2 imageLeft) = .ok (s', 0) ∧ s'.rifs2Info = some 0x80000000 ∧
      ¬ Holds s'.ram.mem 0x80000000 rifsSignature ∧
      ¬ (trustedIfs2 imageLeft).Trusted 0x80000000 := by
  intro _ _
  have h := eq_ok_pair_resultOr (trustedIfs2 imageLeft, 7) (x :=
    rifsRestoreIfs2 (trustedIfs2 imageLeft)) (by decide +kernel)
  have hzero : (resultOr (trustedIfs2 imageLeft, 7) (rifsRestoreIfs2 (trustedIfs2 imageLeft))).2 =
      0 := by decide +kernel
  rw [hzero] at h
  exact ⟨_, h, by decide +kernel, by decide +kernel, fun ht =>
    absurd ht.sealed.1 (by decide +kernel)⟩

end QnxStartup
