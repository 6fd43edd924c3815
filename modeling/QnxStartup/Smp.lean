import QnxStartup.Machine
import QnxStartup.Interleaving
import Mathlib.Logic.Function.Basic

/-! `start_aps`, the rest of startup and `transfer_aps` on the boot processor, against
`smp_start` and `smp_spin` on the others. A step is one load or store of `cpu_starting`,
`syspage_available` or `smp.pending`, or one call that touches none of them. -/

namespace QnxStartup

inductive BootPc
  | storeStarting (i : Nat)
  | boardSmpStart (i : Nat)
  | pollStarting (i count : Nat)
  | apFail (i : Nat)
  | addSysram
  | allocSyspageMemory
  | writeSyspageMemory
  | storePending (i : Nat)
  | storeAvailable (i : Nat)
  | pollPending (i : Nat)
  | startnext
  deriving DecidableEq

inductive ApPc
  | off
  | loadStarting
  | initOneCpuinfo (w19 : Nat)
  | clearStarting (w19 : Nat)
  | pollAvailable (w19 : Nat)
  | clearPending (w19 : Nat)
  | spin
  deriving DecidableEq

structure SmpState where
  cpuStarting : Nat
  syspageAvailable : Nat
  pending : Nat
  boot : BootPc
  ap : Nat → ApPc

inductive SmpEvent
  | loadStarting (cpu num : Nat)
  | initOneCpuinfo (cpu num : Nat)
  | enterSpin (cpu num : Nat)
  | addSysram
  | allocSyspageMemory
  | writeSyspageMemory
  | other
  deriving DecidableEq

/-- The test of the loop in `start_aps`. -/
def startAps (n i : Nat) : BootPc := if i < n then .storeStarting i else .addSysram

/-- The test of the loop in `transfer_aps`. -/
def transferAps (n i : Nat) : BootPc := if i < n then .storePending i else .startnext

def boardSmpAdjustNum (cpu : Nat) : Nat := cpu

section

variable (boardSmpStart : Nat → Bool) (n : Nat)

def bootStep (s : SmpState) : Option (SmpEvent × SmpState) :=
  match s.boot with
  | .storeStarting i => some (.other,
      { s with cpuStarting := u32 (i + 1), boot := .boardSmpStart i })
  | .boardSmpStart i =>
    if boardSmpStart i then
      some (.other, { s with ap := Function.update s.ap i .loadStarting,
                             boot := .pollStarting i 0 })
    else some (.other, { s with boot := .apFail i })
  | .pollStarting i count =>
    if u32 (count + 1) = 0 then some (.other, { s with boot := .apFail i })
    else if s.cpuStarting ≠ 0 then
      some (.other, { s with boot := .pollStarting i (u32 (count + 1)) })
    else some (.other, { s with boot := startAps n (i + 1) })
  | .apFail _ => none
  | .addSysram => some (.addSysram, { s with boot := .allocSyspageMemory })
  | .allocSyspageMemory => some (.allocSyspageMemory, { s with boot := .writeSyspageMemory })
  -- the local copy of the smp section is still as `set_syspage_section` cleared it
  | .writeSyspageMemory => some (.writeSyspageMemory,
      { s with pending := 0, boot := transferAps n 1 })
  | .storePending i => some (.other, { s with pending := 1, boot := .storeAvailable i })
  | .storeAvailable i => some (.other, { s with syspageAvailable := u32 i, boot := .pollPending i })
  | .pollPending i => some (.other, if s.pending ≠ 0 then s
      else { s with boot := transferAps n (i + 1) })
  | .startnext => none

def SmpState.goto (s : SmpState) (k : Nat) (pc : ApPc) : SmpState :=
  { s with ap := Function.update s.ap k pc }

def apStep (k : Nat) (s : SmpState) : Option (SmpEvent × SmpState) :=
  match s.ap k with
  | .off => none
  | .loadStarting =>
    let w19 := boardSmpAdjustNum (sub32 s.cpuStarting 1)
    some (.loadStarting k w19, s.goto k (.initOneCpuinfo w19))
  | .initOneCpuinfo w19 => some (.initOneCpuinfo k w19, s.goto k (.clearStarting w19))
  | .clearStarting w19 => some (.other, { s.goto k (.pollAvailable w19) with cpuStarting := 0 })
  | .pollAvailable w19 =>
    some (.other, if s.syspageAvailable ≠ w19 then s else s.goto k (.clearPending w19))
  | .clearPending w19 => some (.enterSpin k w19, { s.goto k .spin with pending := 0 })
  | .spin => none

/-- Processor 0 is the boot processor. -/
def smpStep (cpu : Nat) (s : SmpState) : Option (SmpEvent × SmpState) :=
  if cpu = 0 then bootStep boardSmpStart n s else apStep cpu s

end

/-- `smp.pending` holds whatever its memory held. -/
def smpInit (n pending : Nat) : SmpState := ⟨0, 0, pending, startAps n 1, fun _ => .off⟩

def ApPc.StartsUp : ApPc → Prop
  | .initOneCpuinfo _ | .clearStarting _ => True
  | _ => False

def ApPc.Transfers : ApPc → Prop
  | .clearPending _ => True
  | _ => False

/-- The processors below it have been through `init_one_cpuinfo`. -/
def BootPc.readied (n : Nat) : BootPc → Nat
  | .storeStarting i | .boardSmpStart i | .pollStarting i _ | .apFail i => i
  | _ => n

/-- The processors below it are in `smp_spin`. -/
def BootPc.spun (n : Nat) : BootPc → Nat
  | .storePending i | .storeAvailable i | .pollPending i => i
  | .startnext => n
  | _ => 0

/-- The processor that the boot processor has given its turn to. -/
def BootPc.turn : BootPc → Option Nat
  | .pollStarting i _ | .apFail i | .pollPending i => some i
  | _ => none

def restPc (readied spun k : Nat) : ApPc :=
  if k = 0 ∨ readied ≤ k then .off else if k < spun then .spin else .pollAvailable k

/-- The turn that `start_aps` gives. -/
def StartTurn (i : Nat) (s : SmpState) : Prop :=
  (s.cpuStarting = i + 1 ∧ (s.ap i = .loadStarting ∨ s.ap i = .initOneCpuinfo i ∨
    s.ap i = .clearStarting i)) ∨ (s.cpuStarting = 0 ∧ s.ap i = .pollAvailable i)

/-- The turn that `transfer_aps` gives. -/
def TransferTurn (i : Nat) (s : SmpState) : Prop :=
  (s.pending = 1 ∧ (s.ap i = .pollAvailable i ∨ s.ap i = .clearPending i)) ∨
    (s.pending = 0 ∧ s.ap i = .spin)

/-- The shared words, and the processor whose turn it is, for each place of the boot processor. -/
def SharedWords (n : Nat) (s : SmpState) : Prop :=
  match s.boot with
  | .storeStarting i => (0 < i ∧ i < n) ∧ s.syspageAvailable = 0
  | .boardSmpStart i => (0 < i ∧ i < n) ∧ s.syspageAvailable = 0 ∧ s.cpuStarting = i + 1
  | .pollStarting i _ => (0 < i ∧ i < n) ∧ s.syspageAvailable = 0 ∧ StartTurn i s
  | .apFail i => (0 < i ∧ i < n) ∧ s.syspageAvailable = 0 ∧ (s.ap i = .off ∨ StartTurn i s)
  | .addSysram | .allocSyspageMemory | .writeSyspageMemory => s.syspageAvailable = 0
  | .storePending i => (0 < i ∧ i < n) ∧ s.syspageAvailable < i
  | .storeAvailable i => (0 < i ∧ i < n) ∧ s.syspageAvailable < i ∧ s.pending = 1
  | .pollPending i => (0 < i ∧ i < n) ∧ s.syspageAvailable = i ∧ TransferTurn i s
  | .startnext => True

structure SmpInv (n : Nat) (s : SmpState) : Prop where
  rest : ∀ k, s.boot.turn ≠ some k → s.ap k = restPc (s.boot.readied n) (s.boot.spun n) k
  shared : SharedWords n s

@[simp] theorem SmpState.goto_ap_self (s : SmpState) (k : Nat) (pc : ApPc) :
    (s.goto k pc).ap k = pc := by
  simp [SmpState.goto]

theorem SmpState.goto_ap_ne {j k : Nat} (s : SmpState) (pc : ApPc) (h : j ≠ k) :
    (s.goto k pc).ap j = s.ap j := by
  simp [SmpState.goto, h]

theorem restPc_startAps {n i : Nat} (h : i ≤ n ∨ i = 1) (k : Nat) :
    restPc ((startAps n i).readied n) ((startAps n i).spun n) k = restPc i 0 k := by
  unfold startAps
  split
  · rfl
  · simp only [BootPc.readied, BootPc.spun, restPc, Nat.not_lt_zero, if_false]
    congr 1
    apply propext
    omega

theorem restPc_congr {r m r' m' k : Nat} (hr : r ≤ k ↔ r' ≤ k)
    (hm : k ≠ 0 → k < r → (k < m ↔ k < m')) :
    restPc r m k = restPc r' m' k := by
  by_cases h : k = 0 ∨ r ≤ k
  · rw [restPc, restPc, if_pos h, if_pos (h.imp_right hr.mp)]
  · rw [not_or, not_le] at h
    simp only [restPc, hr, hm h.1 h.2]

theorem restPc_transferAps (n i k : Nat) :
    restPc ((transferAps n i).readied n) ((transferAps n i).spun n) k = restPc n i k := by
  unfold transferAps
  split
  · rfl
  · next h =>
    refine restPc_congr Iff.rfl fun _ hk => ?_
    change k < n ↔ k < i
    change k < n at hk
    omega

section

variable {boardSmpStart : Nat → Bool} {n p : Nat} {s s' : SmpState} {e : SmpEvent}

theorem sharedWords_startAps {i w v : Nat} {ap : Nat → ApPc} (hi : 0 < i) :
    SharedWords n ⟨w, 0, v, startAps n i, ap⟩ := by
  unfold startAps
  split
  · next h => exact ⟨⟨hi, h⟩, rfl⟩
  · rfl

theorem sharedWords_transferAps {i a w v : Nat} {ap : Nat → ApPc} (hi : 0 < i) (ha : a < i) :
    SharedWords n ⟨w, a, v, transferAps n i, ap⟩ := by
  unfold transferAps
  split
  · next h => exact ⟨⟨hi, h⟩, ha⟩
  · trivial

theorem smpInv_init : SmpInv n (smpInit n p) := by
  refine ⟨fun k _ => ?_, sharedWords_startAps Nat.one_pos⟩
  have h := restPc_startAps (n := n) (.inr rfl) k
  rw [smpInit, h, restPc, if_pos (by omega)]

theorem SmpInv.boardStart {i starting available pending : Nat} {ap : Nat → ApPc}
    (h : SmpInv n ⟨starting, available, pending, .boardSmpStart i, ap⟩)
    (hs : bootStep boardSmpStart n ⟨starting, available, pending, .boardSmpStart i, ap⟩ =
      some (e, s')) :
    SmpInv n s' := by
  obtain ⟨hrest, hi, ha, hc⟩ := h
  simp only [bootStep] at hs
  split at hs
  · obtain ⟨-, rfl⟩ := Prod.mk.inj (Option.some.inj hs)
    refine ⟨fun k hk => ?_, hi, ha, .inl ⟨hc, .inl (by simp)⟩⟩
    have hki : k ≠ i := fun hh => hk (congrArg some hh.symm)
    exact (Function.update_of_ne hki ..).trans (hrest k nofun)
  · obtain ⟨-, rfl⟩ := Prod.mk.inj (Option.some.inj hs)
    refine ⟨fun k _ => hrest k nofun, hi, ha, .inl ?_⟩
    rw [hrest i nofun]
    exact if_pos (.inr le_rfl)

/-- The poll ends when the processor has cleared `cpu_starting`, which is then in its loop. -/
theorem SmpInv.pollStarting {i count starting available pending : Nat} {ap : Nat → ApPc}
    (h : SmpInv n ⟨starting, available, pending, .pollStarting i count, ap⟩)
    (hs : bootStep boardSmpStart n ⟨starting, available, pending, .pollStarting i count, ap⟩ =
      some (e, s')) :
    SmpInv n s' := by
  obtain ⟨hrest, hi, ha, ht⟩ := h
  simp only [bootStep] at hs
  split_ifs at hs with hwrap hc
  · obtain ⟨-, rfl⟩ := Prod.mk.inj (Option.some.inj hs)
    exact ⟨hrest, hi, ha, .inr ht⟩
  · obtain ⟨-, rfl⟩ := Prod.mk.inj (Option.some.inj hs)
    exact ⟨hrest, hi, ha, ht⟩
  · obtain ⟨-, rfl⟩ := Prod.mk.inj (Option.some.inj hs)
    obtain ⟨h1, -⟩ | ⟨-, hpc⟩ := ht
    · exact absurd (h1.trans_ne (Nat.succ_ne_zero i)) hc
    · obtain rfl : available = 0 := ha
      refine ⟨fun k _ => ?_, sharedWords_startAps (Nat.succ_pos i)⟩
      rw [restPc_startAps (.inl hi.2)]
      by_cases hki : k = i
      · rw [hki, restPc, if_neg (by omega), if_neg (by omega)]
        exact hpc
      · refine (hrest k fun hh => hki (Option.some.inj hh).symm).trans ?_
        exact restPc_congr (show i ≤ k ↔ i + 1 ≤ k by omega) fun _ _ => Iff.rfl

/-- The poll ends when the processor has cleared the pending word, which is then out of the loop. -/
theorem SmpInv.pollPending {i starting available pending : Nat} {ap : Nat → ApPc}
    (h : SmpInv n ⟨starting, available, pending, .pollPending i, ap⟩)
    (hs : bootStep boardSmpStart n ⟨starting, available, pending, .pollPending i, ap⟩ =
      some (e, s')) :
    SmpInv n s' := by
  obtain ⟨hrest, hi, ha, ht⟩ := h
  simp only [bootStep] at hs
  split_ifs at hs with hp
  · obtain ⟨-, rfl⟩ := Prod.mk.inj (Option.some.inj hs)
    exact ⟨hrest, hi, ha, ht⟩
  · obtain ⟨-, rfl⟩ := Prod.mk.inj (Option.some.inj hs)
    obtain ⟨h1, -⟩ | ⟨-, hpc⟩ := ht
    · exact absurd (h1.trans_ne Nat.one_ne_zero) hp
    · obtain rfl : available = i := ha
      refine ⟨fun k _ => ?_, sharedWords_transferAps (Nat.succ_pos _) (Nat.lt_succ_self _)⟩
      rw [restPc_transferAps]
      by_cases hki : k = available
      · rw [hki, restPc, if_neg (by omega), if_pos (by omega)]
        exact hpc
      · refine (hrest k fun hh => hki (Option.some.inj hh).symm).trans ?_
        exact restPc_congr Iff.rfl fun _ _ => show k < available ↔ k < available + 1 by omega

theorem SmpInv.bootStep (h : SmpInv n s) (hn : n < 2 ^ 32)
    (hs : bootStep boardSmpStart n s = some (e, s')) :
    SmpInv n s' := by
  obtain ⟨starting, available, pending, boot, ap⟩ := s
  have ⟨hrest, hshared⟩ := h
  cases boot with
  | storeStarting i =>
    obtain ⟨-, rfl⟩ := Prod.mk.inj (Option.some.inj hs)
    obtain ⟨hi, ha⟩ := hshared
    exact ⟨hrest, hi, ha, u32_of_lt (by omega)⟩
  | boardSmpStart i => exact h.boardStart hs
  | pollStarting i count => exact h.pollStarting hs
  | apFail i => exact nomatch hs
  | addSysram =>
    obtain ⟨-, rfl⟩ := Prod.mk.inj (Option.some.inj hs)
    exact ⟨hrest, hshared⟩
  | allocSyspageMemory =>
    obtain ⟨-, rfl⟩ := Prod.mk.inj (Option.some.inj hs)
    exact ⟨hrest, hshared⟩
  | writeSyspageMemory =>
    obtain ⟨-, rfl⟩ := Prod.mk.inj (Option.some.inj hs)
    obtain rfl : available = 0 := hshared
    refine ⟨fun k _ => ?_, sharedWords_transferAps Nat.one_pos Nat.one_pos⟩
    rw [restPc_transferAps]
    exact (hrest k nofun).trans (restPc_congr Iff.rfl fun hk _ => show k < 0 ↔ k < 1 by omega)
  | storePending i =>
    obtain ⟨-, rfl⟩ := Prod.mk.inj (Option.some.inj hs)
    exact ⟨hrest, hshared.1, hshared.2, rfl⟩
  | storeAvailable i =>
    obtain ⟨-, rfl⟩ := Prod.mk.inj (Option.some.inj hs)
    obtain ⟨hi, ha, hp⟩ := hshared
    refine ⟨fun k _ => hrest k nofun, hi, u32_of_lt (by omega), .inl ⟨hp, .inl ?_⟩⟩
    refine (hrest i nofun).trans ?_
    rw [BootPc.readied, BootPc.spun, restPc, if_neg (by omega), if_neg (by omega)]
    all_goals exact nofun
  | pollPending i => exact h.pollPending hs
  | startnext => exact nomatch hs

theorem apStep_frame {k : Nat} (hs : apStep k s = some (e, s')) :
    s'.boot = s.boot ∧ s'.syspageAvailable = s.syspageAvailable ∧ ∀ j ≠ k, s'.ap j = s.ap j := by
  have hgoto := fun pc j (hj : j ≠ k) => s.goto_ap_ne pc hj
  unfold apStep at hs
  cases hap : s.ap k with
  | off => simp [hap] at hs
  | spin => simp [hap] at hs
  | pollAvailable w19 =>
    simp only [hap] at hs
    split_ifs at hs
    · obtain ⟨-, rfl⟩ := Prod.mk.inj (Option.some.inj hs)
      exact ⟨rfl, rfl, fun _ _ => rfl⟩
    · obtain ⟨-, rfl⟩ := Prod.mk.inj (Option.some.inj hs)
      exact ⟨rfl, rfl, hgoto _⟩
  | _ =>
    simp only [hap] at hs
    obtain ⟨-, rfl⟩ := Prod.mk.inj (Option.some.inj hs)
    exact ⟨rfl, rfl, hgoto _⟩

theorem StartTurn.apStep {k : Nat} (h : StartTurn k s) (hk : k + 1 < 2 ^ 32)
    (ha : s.syspageAvailable ≠ k) (hs : apStep k s = some (e, s')) : StartTurn k s' := by
  unfold QnxStartup.apStep at hs
  obtain ⟨hc, hap | hap | hap⟩ | ⟨hc, hap⟩ := h
  · simp only [hap] at hs
    obtain ⟨-, rfl⟩ := Prod.mk.inj (Option.some.inj hs)
    refine .inl ⟨hc, .inr (.inl ?_)⟩
    rw [SmpState.goto_ap_self, boardSmpAdjustNum, hc, sub32_of_le hk (Nat.le_add_left ..),
      Nat.add_sub_cancel]
  · simp only [hap] at hs
    obtain ⟨-, rfl⟩ := Prod.mk.inj (Option.some.inj hs)
    exact .inl ⟨hc, .inr (.inr (s.goto_ap_self ..))⟩
  · simp only [hap] at hs
    obtain ⟨-, rfl⟩ := Prod.mk.inj (Option.some.inj hs)
    exact .inr ⟨rfl, s.goto_ap_self ..⟩
  · simp only [hap] at hs
    rw [if_pos ha] at hs
    obtain ⟨-, rfl⟩ := Prod.mk.inj (Option.some.inj hs)
    exact .inr ⟨hc, hap⟩

theorem TransferTurn.apStep {k : Nat} (h : TransferTurn k s) (ha : s.syspageAvailable = k)
    (hs : apStep k s = some (e, s')) : TransferTurn k s' := by
  unfold QnxStartup.apStep at hs
  obtain ⟨hp, hap | hap⟩ | ⟨-, hap⟩ := h
  · simp only [hap] at hs
    rw [if_neg (not_not.mpr ha)] at hs
    obtain ⟨-, rfl⟩ := Prod.mk.inj (Option.some.inj hs)
    exact .inl ⟨hp, .inr (s.goto_ap_self ..)⟩
  · simp only [hap] at hs
    obtain ⟨-, rfl⟩ := Prod.mk.inj (Option.some.inj hs)
    exact .inr ⟨rfl, s.goto_ap_self ..⟩
  · simp [hap] at hs

theorem SharedWords.available_ne {k : Nat} (h : SharedWords n s) (hturn : s.boot.turn ≠ some k)
    (hk : 0 < k) (hlt : k < s.boot.readied n) (hle : s.boot.spun n ≤ k) :
    s.syspageAvailable ≠ k := by
  obtain ⟨starting, available, pending, boot, ap⟩ := s
  cases boot with
  | storeStarting i | boardSmpStart i | pollStarting i | apFail i =>
    obtain ⟨-, h⟩ := h
    first | exact h.trans_ne hk.ne | exact h.1.trans_ne hk.ne
  | addSysram | allocSyspageMemory | writeSyspageMemory => exact h.trans_ne hk.ne
  | storePending i => exact (h.2.trans_le hle).ne
  | storeAvailable i => exact (h.2.1.trans_le hle).ne
  | pollPending i => exact h.2.1.trans_ne fun hh => hturn (congrArg some hh)
  | startnext => exact absurd hle hlt.not_ge

theorem SmpInv.apStep_rest {k : Nat} (h : SmpInv n s) (hk : s.boot.turn ≠ some k)
    (hs : apStep k s = some (e, s')) :
    e = .other ∧ s' = s := by
  have hap := h.rest k hk
  unfold restPc at hap
  split_ifs at hap with hoff hspin
  · simp [apStep, hap] at hs
  · simp [apStep, hap] at hs
  · rw [not_or, not_le] at hoff
    have ha := h.shared.available_ne hk (Nat.pos_of_ne_zero hoff.1) hoff.2 (not_lt.mp hspin)
    rw [apStep, hap] at hs
    simp only [if_pos ha] at hs
    obtain ⟨rfl, rfl⟩ := Prod.mk.inj (Option.some.inj hs)
    exact ⟨rfl, rfl⟩

theorem SmpInv.turn_cases {k : Nat} (h : SmpInv n s) (hk : s.boot.turn = some k) :
    (0 < k ∧ k < n) ∧
      (((∃ count, s.boot = .pollStarting k count) ∧ s.syspageAvailable = 0 ∧ StartTurn k s) ∨
        (s.boot = .apFail k ∧ s.syspageAvailable = 0 ∧ (s.ap k = .off ∨ StartTurn k s)) ∨
        (s.boot = .pollPending k ∧ s.syspageAvailable = k ∧ TransferTurn k s)) := by
  have hshared := h.shared
  unfold SharedWords at hshared
  cases hb : s.boot with
  | pollStarting i count =>
    simp only [hb] at hshared
    obtain rfl : i = k := by simpa [hb, BootPc.turn] using hk
    exact ⟨hshared.1, .inl ⟨⟨count, rfl⟩, hshared.2⟩⟩
  | apFail i =>
    simp only [hb] at hshared
    obtain rfl : i = k := by simpa [hb, BootPc.turn] using hk
    exact ⟨hshared.1, .inr (.inl ⟨rfl, hshared.2⟩)⟩
  | pollPending i =>
    simp only [hb] at hshared
    obtain rfl : i = k := by simpa [hb, BootPc.turn] using hk
    exact ⟨hshared.1, .inr (.inr ⟨rfl, hshared.2⟩)⟩
  | _ => simp [hb, BootPc.turn] at hk

theorem SmpInv.apStep_turn {k : Nat} (h : SmpInv n s) (hn : n < 2 ^ 32) (hk : s.boot.turn = some k)
    (hs : apStep k s = some (e, s')) : SmpInv n s' := by
  obtain ⟨hboot, havail, hap⟩ := apStep_frame hs
  refine ⟨fun j hj => ?_, ?_⟩
  · rw [hboot] at hj ⊢
    have hjk : j ≠ k := fun hh => hj (by rw [hk, hh])
    rw [hap j hjk]
    exact h.rest j hj
  · obtain ⟨hi, ⟨⟨count, hb⟩, ha, ht⟩ | ⟨hb, ha, ht⟩ | ⟨hb, ha, ht⟩⟩ := h.turn_cases hk <;>
      simp only [SharedWords, hboot, havail, hb]
    · exact ⟨hi, ha, ht.apStep (by omega) (by omega) hs⟩
    · obtain hoff | ht := ht
      · simp [apStep, hoff] at hs
      · exact ⟨hi, ha, .inr (ht.apStep (by omega) (by omega) hs)⟩
    · exact ⟨hi, ha, ht.apStep ha hs⟩

theorem SmpInv.step {cpu : Nat} (h : SmpInv n s) (hn : n < 2 ^ 32)
    (hs : smpStep boardSmpStart n cpu s = some (e, s')) : SmpInv n s' := by
  unfold smpStep at hs
  split at hs
  · exact h.bootStep hn hs
  · by_cases hk : s.boot.turn = some cpu
    · exact h.apStep_turn hn hk hs
    · rwa [(h.apStep_rest hk hs).2]

/-- How far the boot processor is with the calls between its two loops. -/
def BootPc.stage : BootPc → Nat
  | .allocSyspageMemory => 1
  | .writeSyspageMemory => 2
  | .storePending _ | .storeAvailable _ | .pollPending _ | .startnext => 3
  | _ => 0

def ApPc.stage : ApPc → Nat
  | .off => 0
  | .loadStarting => 1
  | .initOneCpuinfo _ => 2
  | .clearStarting _ => 3
  | .pollAvailable _ => 4
  | .clearPending _ => 5
  | .spin => 6

def SmpState.done (s : SmpState) : SmpEvent → Bool
  | .loadStarting cpu num => num = cpu ∧ 1 < (s.ap cpu).stage
  | .initOneCpuinfo cpu num => num = cpu ∧ 2 < (s.ap cpu).stage
  | .enterSpin cpu num => num = cpu ∧ 5 < (s.ap cpu).stage
  | .addSysram => 0 < s.boot.stage
  | .allocSyspageMemory => 1 < s.boot.stage
  | .writeSyspageMemory => 2 < s.boot.stage
  | .other => false

theorem startAps_stage (n i : Nat) : (startAps n i).stage = 0 := by
  unfold startAps
  split <;> rfl

theorem transferAps_stage (n i : Nat) : (transferAps n i).stage = 3 := by
  unfold transferAps
  split <;> rfl

/-- A step keeps what is done apart from its own event, which was not done before. -/
def Marks (e : SmpEvent) (s s' : SmpState) : Prop :=
  ∀ e' ≠ .other, (e = e' → s.done e' = false ∧ s'.done e' = true) ∧
    (e ≠ e' → s'.done e' = s.done e')

theorem marks_other (hboot : s'.boot.stage = s.boot.stage)
    (hap : ∀ k, (s'.ap k).stage = (s.ap k).stage ∨ (s.ap k).stage = 0 ∧ (s'.ap k).stage = 1 ∨
      (s.ap k).stage = 3 ∧ (s'.ap k).stage = 4 ∨ (s.ap k).stage = 4 ∧ (s'.ap k).stage = 5) :
    Marks .other s s' := by
  refine fun e' he' => ⟨fun hh => absurd hh.symm he', fun _ => ?_⟩
  cases e' with
  | addSysram | allocSyspageMemory | writeSyspageMemory => simp only [SmpState.done, hboot]
  | other => rfl
  | loadStarting cpu num | initOneCpuinfo cpu num | enterSpin cpu num =>
    have hcpu := hap cpu
    simp only [SmpState.done, decide_eq_decide]
    refine and_congr_right fun _ => ?_
    omega

theorem SmpInv.bootStep_marks (h : SmpInv n s)
    (hs : QnxStartup.bootStep boardSmpStart n s = some (e, s')) :
    Marks e s s' := by
  obtain ⟨hrest, -⟩ := h
  obtain ⟨starting, available, pending, boot, ap⟩ := s
  cases boot with
  | storeStarting i =>
    obtain ⟨rfl, rfl⟩ := Prod.mk.inj (Option.some.inj hs)
    exact marks_other rfl fun k => .inl rfl
  | boardSmpStart i =>
    simp only [QnxStartup.bootStep] at hs
    split at hs
    · obtain ⟨rfl, rfl⟩ := Prod.mk.inj (Option.some.inj hs)
      refine marks_other rfl fun k => ?_
      by_cases hk : k = i
      · have hoff : ap i = .off := (hrest i nofun).trans (if_pos (.inr le_rfl))
        simp [hk, hoff, ApPc.stage]
      · simp [hk]
    · obtain ⟨rfl, rfl⟩ := Prod.mk.inj (Option.some.inj hs)
      exact marks_other rfl fun k => .inl rfl
  | pollStarting i count =>
    simp only [QnxStartup.bootStep] at hs
    split_ifs at hs
    all_goals
      obtain ⟨rfl, rfl⟩ := Prod.mk.inj (Option.some.inj hs)
      refine marks_other ?_ fun k => .inl rfl
    · rfl
    · rfl
    · exact startAps_stage ..
  | pollPending i =>
    simp only [QnxStartup.bootStep] at hs
    split_ifs at hs
    all_goals
      obtain ⟨rfl, rfl⟩ := Prod.mk.inj (Option.some.inj hs)
      refine marks_other ?_ fun k => .inl rfl
    · rfl
    · exact transferAps_stage ..
  | storePending i | storeAvailable i =>
    obtain ⟨rfl, rfl⟩ := Prod.mk.inj (Option.some.inj hs)
    exact marks_other rfl fun k => .inl rfl
  | addSysram | allocSyspageMemory =>
    obtain ⟨rfl, rfl⟩ := Prod.mk.inj (Option.some.inj hs)
    intro e' he'
    cases e' <;> simp [SmpState.done, BootPc.stage]
  | writeSyspageMemory =>
    obtain ⟨rfl, rfl⟩ := Prod.mk.inj (Option.some.inj hs)
    intro e' he'
    cases e' <;> simp only [SmpState.done, transferAps_stage] <;> simp [BootPc.stage]
  | apFail i | startnext => exact nomatch hs

/-- The event of the step by which a processor that has its own number leaves a stage. -/
def SmpEvent.leaving (cpu : Nat) : Nat → SmpEvent
  | 1 => .loadStarting cpu cpu
  | 2 => .initOneCpuinfo cpu cpu
  | 5 => .enterSpin cpu cpu
  | _ => .other

theorem marks_leaving {k : Nat} (hboot : s'.boot = s.boot) (hap : ∀ j ≠ k, s'.ap j = s.ap j)
    (hnext : (s'.ap k).stage = (s.ap k).stage + 1) : Marks (.leaving k (s.ap k).stage) s s' := by
  have hstage : ∀ cpu, (s'.ap cpu).stage = if cpu = k then (s.ap k).stage + 1
      else (s.ap cpu).stage := fun cpu => by
    split_ifs with h
    · rw [h, hnext]
    · rw [hap cpu h]
  generalize hg : (s.ap k).stage = g at hstage ⊢
  have hk : ∀ cpu, cpu = k → (s.ap cpu).stage = g := fun cpu hh => hh ▸ hg
  intro e' he'
  cases e' with
  | addSysram | allocSyspageMemory | writeSyspageMemory =>
    refine ⟨fun hh => ?_, fun _ => by simp only [SmpState.done, hboot]⟩
    unfold SmpEvent.leaving at hh
    split at hh <;> exact absurd hh nofun
  | other => exact absurd rfl he'
  | loadStarting cpu num | initOneCpuinfo cpu num | enterSpin cpu num =>
    simp only [SmpState.done, hstage, decide_eq_decide, decide_eq_true_eq, decide_eq_false_iff_not]
    by_cases hc : cpu = k
    · rw [if_pos hc, hk cpu hc, hc]
      unfold SmpEvent.leaving
      split <;> simp <;> grind
    · rw [if_neg hc]
      refine ⟨fun hh => absurd ?_ hc, fun _ => Iff.rfl⟩
      unfold SmpEvent.leaving at hh
      split at hh <;> cases hh
      rfl

/-- What a step of a processor does in a run: it polls, or it goes one stage further. -/
def Advances (k : Nat) (e : SmpEvent) (s s' : SmpState) : Prop :=
  (e = .other ∧ s' = s) ∨
    (e = .leaving k (s.ap k).stage ∧ s'.boot = s.boot ∧ (∀ j ≠ k, s'.ap j = s.ap j) ∧
      (s'.ap k).stage = (s.ap k).stage + 1)

theorem StartTurn.advances {k : Nat} (h : StartTurn k s) (hk : k + 1 < 2 ^ 32)
    (ha : s.syspageAvailable ≠ k) (hs : QnxStartup.apStep k s = some (e, s')) :
    Advances k e s s' := by
  have hgoto := fun pc j (hj : j ≠ k) => s.goto_ap_ne pc hj
  unfold QnxStartup.apStep at hs
  obtain ⟨hc, hap | hap | hap⟩ | ⟨-, hap⟩ := h <;> simp only [hap] at hs
  · obtain ⟨rfl, rfl⟩ := Prod.mk.inj (Option.some.inj hs)
    refine .inr ⟨?_, rfl, hgoto _, by rw [hap, SmpState.goto_ap_self]; rfl⟩
    rw [boardSmpAdjustNum, hc, sub32_of_le hk (Nat.le_add_left ..), Nat.add_sub_cancel, hap]
    rfl
  · obtain ⟨rfl, rfl⟩ := Prod.mk.inj (Option.some.inj hs)
    exact .inr ⟨by rw [hap]; rfl, rfl, hgoto _, by rw [hap, SmpState.goto_ap_self]; rfl⟩
  · obtain ⟨rfl, rfl⟩ := Prod.mk.inj (Option.some.inj hs)
    refine .inr ⟨by rw [hap]; rfl, rfl, hgoto _, ?_⟩
    rw [hap]
    exact congrArg ApPc.stage (s.goto_ap_self ..)
  · rw [if_pos ha] at hs
    obtain ⟨rfl, rfl⟩ := Prod.mk.inj (Option.some.inj hs)
    exact .inl ⟨rfl, rfl⟩

theorem TransferTurn.advances {k : Nat} (h : TransferTurn k s) (ha : s.syspageAvailable = k)
    (hs : QnxStartup.apStep k s = some (e, s')) : Advances k e s s' := by
  have hgoto := fun pc j (hj : j ≠ k) => s.goto_ap_ne pc hj
  unfold QnxStartup.apStep at hs
  obtain ⟨-, hap | hap⟩ | ⟨-, hap⟩ := h <;> simp only [hap] at hs
  · rw [if_neg (not_not.mpr ha)] at hs
    obtain ⟨rfl, rfl⟩ := Prod.mk.inj (Option.some.inj hs)
    exact .inr ⟨by rw [hap]; rfl, rfl, hgoto _, by rw [hap, SmpState.goto_ap_self]; rfl⟩
  · obtain ⟨rfl, rfl⟩ := Prod.mk.inj (Option.some.inj hs)
    refine .inr ⟨by rw [hap]; rfl, rfl, hgoto _, ?_⟩
    rw [hap]
    exact congrArg ApPc.stage (s.goto_ap_self ..)
  · simp at hs

theorem SmpInv.advances {k : Nat} (h : SmpInv n s) (hn : n < 2 ^ 32)
    (hs : apStep k s = some (e, s')) :
    Advances k e s s' := by
  by_cases hk : s.boot.turn = some k
  · obtain ⟨hi, ⟨-, ha, ht⟩ | ⟨-, ha, hoff | ht⟩ | ⟨-, ha, ht⟩⟩ := h.turn_cases hk
    · exact ht.advances (by omega) (by omega) hs
    · simp [apStep, hoff] at hs
    · exact ht.advances (by omega) (by omega) hs
    · exact ht.advances ha hs
  · exact .inl (h.apStep_rest hk hs)

theorem SmpInv.marks {cpu : Nat} (h : SmpInv n s) (hn : n < 2 ^ 32)
    (hs : smpStep boardSmpStart n cpu s = some (e, s')) : Marks e s s' := by
  unfold smpStep at hs
  split at hs
  · exact h.bootStep_marks hs
  · obtain ⟨rfl, rfl⟩ | ⟨rfl, hboot, hap, hnext⟩ := h.advances hn hs
    · exact marks_other rfl fun _ => .inl rfl
    · exact marks_leaving hboot hap hnext

theorem SmpInv.turn_of_stage {k : Nat} (h : SmpInv n s)
    (hk : (s.ap k).stage ≠ 0 ∧ (s.ap k).stage ≠ 4 ∧ (s.ap k).stage ≠ 6) : s.boot.turn = some k := by
  by_contra hturn
  have hrest := h.rest k hturn
  unfold restPc at hrest
  split_ifs at hrest <;> rw [hrest] at hk <;> simp [ApPc.stage] at hk

theorem ApPc.StartsUp.stage {pc : ApPc} (h : pc.StartsUp) : pc.stage = 2 ∨ pc.stage = 3 := by
  cases pc <;> simp [ApPc.StartsUp, ApPc.stage] at h ⊢

theorem SmpInv.startsUp_turn {k : Nat} (h : SmpInv n s) (hk : (s.ap k).StartsUp) :
    s.boot.turn = some k := by
  have hstage := hk.stage
  exact h.turn_of_stage (by omega)

theorem SmpInv.startsUp {k : Nat} (h : SmpInv n s) (hk : (s.ap k).StartsUp) :
    (∃ count, s.boot = .pollStarting k count) ∨ s.boot = .apFail k := by
  have hstage := hk.stage
  obtain ⟨-, ⟨hb, -⟩ | ⟨hb, -⟩ | ⟨-, -, ht⟩⟩ := h.turn_cases (h.startsUp_turn hk)
  · exact .inl hb
  · exact .inr hb
  · obtain ⟨-, hap | hap⟩ | ⟨-, hap⟩ := ht <;> rw [hap] at hstage <;> simp [ApPc.stage] at hstage

theorem SmpInv.transfers {k : Nat} (h : SmpInv n s) (hk : (s.ap k).Transfers) :
    s.boot = .pollPending k := by
  have hstage : (s.ap k).stage = 5 := by
    cases hap : s.ap k <;> simp [hap, ApPc.Transfers, ApPc.stage] at hk ⊢
  have hturn : s.boot.turn = some k := h.turn_of_stage (by omega)
  obtain ⟨-, ⟨-, -, ht⟩ | ⟨-, -, hoff | ht⟩ | ⟨hb, -⟩⟩ := h.turn_cases hturn
  · obtain ⟨-, hap | hap | hap⟩ | ⟨-, hap⟩ :=
      ht <;> rw [hap] at hstage <;> simp [ApPc.stage] at hstage
  · rw [hoff] at hstage
    simp [ApPc.stage] at hstage
  · obtain ⟨-, hap | hap | hap⟩ | ⟨-, hap⟩ :=
      ht <;> rw [hap] at hstage <;> simp [ApPc.stage] at hstage
  · exact hb

theorem bootStep_event (hs : QnxStartup.bootStep boardSmpStart n s = some (e, s')) :
    e = .other ∨ (e = .addSysram ∧ s.boot = .addSysram) ∨
      (e = .allocSyspageMemory ∧ s.boot = .allocSyspageMemory) ∨
      (e = .writeSyspageMemory ∧ s.boot = .writeSyspageMemory) := by
  have hevent : ∀ {p : SmpEvent × SmpState}, some p = some (e, s') → e = p.1 := fun hh =>
    (congrArg Prod.fst (Option.some.inj hh)).symm
  unfold QnxStartup.bootStep at hs
  cases hb : s.boot <;> simp only [hb] at hs
  case addSysram => exact .inr (.inl ⟨hevent hs, rfl⟩)
  case allocSyspageMemory => exact .inr (.inr (.inl ⟨hevent hs, rfl⟩))
  case writeSyspageMemory => exact .inr (.inr (.inr ⟨hevent hs, rfl⟩))
  case boardSmpStart | pollStarting => split_ifs at hs <;> exact .inl (hevent hs)
  case apFail | startnext => cases hs
  all_goals exact .inl (hevent hs)

theorem SmpInv.readied {cpu k : Nat} (h : SmpInv n s) (hn : n < 2 ^ 32)
    (hs : smpStep boardSmpStart n cpu s = some (e, s'))
    (he : e = .addSysram ∨ e = .allocSyspageMemory ∨ e = .writeSyspageMemory) (hk : 0 < k)
    (hkn : k < n) :
    s.ap k = .pollAvailable k := by
  unfold smpStep at hs
  split at hs
  · have hb := (bootStep_event hs).resolve_left fun hh => by simp [hh] at he
    have hrest : restPc n 0 k = .pollAvailable k := by
      rw [restPc, if_neg (by omega), if_neg (by omega)]
    obtain ⟨-, hb⟩ | ⟨-, hb⟩ | ⟨-, hb⟩ := hb <;> exact (h.rest k (by rw [hb]; nofun)).trans
      (by rw [hb]; exact hrest)
  · obtain ⟨rfl, -⟩ | ⟨rfl, -⟩ := h.advances hn hs
    · simp at he
    · unfold SmpEvent.leaving at he
      split at he <;> simp at he

theorem SmpInv.entersSpin {cpu k num : Nat} (h : SmpInv n s) (hn : n < 2 ^ 32)
    (hs : smpStep boardSmpStart n cpu s = some (.enterSpin k num, s')) :
    s.boot = .pollPending k := by
  unfold smpStep at hs
  split at hs
  · obtain hh | ⟨hh, -⟩ | ⟨hh, -⟩ | ⟨hh, -⟩ := bootStep_event hs <;> cases hh
  · obtain ⟨hh, -⟩ | ⟨hh, -⟩ := h.advances hn hs
    · cases hh
    · unfold SmpEvent.leaving at hh
      split at hh <;> cases hh
      next hstage =>
        refine h.transfers ?_
        cases hap : s.ap cpu <;> simp [hap, ApPc.stage, ApPc.Transfers] at hstage ⊢

end

section

variable {boardSmpStart : Nat → Bool} {n p : Nat} {s : SmpState} {t : List SmpEvent}

theorem smpInv_of_trace (hn : n < 2 ^ 32)
    (run : Trace (smpStep boardSmpStart n) (smpInit n p) t s) : SmpInv n s :=
  run.invariant smpInv_init fun _ _ _ _ h hs => h.step hn hs

theorem smp_count (hn : n < 2 ^ 32) (run : Trace (smpStep boardSmpStart n) (smpInit n p) t s)
    (e : SmpEvent) (he : e ≠ .other) : t.count e = if s.done e then 1 else 0 := by
  refine run.count_eq (P := SmpInv n) (d := fun s => s.done e) smpInv_init
    (fun s cpu e' s' h hs => ?_) ?_
  · obtain ⟨h1, h2⟩ := h.marks hn hs e he
    exact ⟨h.step hn hs, h1, h2⟩
  · cases e <;> simp [smpInit, SmpState.done, ApPc.stage, startAps_stage]

/-- The two hand-offs, for every number of processors (an `unsigned`), in every run, and
whichever of them `board_smp_start` fails to start. -/
theorem smp_hand_off (hn : n < 2 ^ 32) (run : Trace (smpStep boardSmpStart n) (smpInit n p) t s) :
    (∀ j k, (s.ap j).StartsUp → (s.ap k).StartsUp → j = k) ∧
    (∀ j k, (s.ap j).Transfers → (s.ap k).Transfers → j = k) ∧
    (∀ k, (s.ap k).StartsUp → (∃ count, s.boot = .pollStarting k count) ∨ s.boot = .apFail k) ∧
    (∀ k, (s.ap k).Transfers → s.boot = .pollPending k) ∧
    (∀ cpu num, .loadStarting cpu num ∈ t → num = cpu) ∧
    (∀ cpu num, .initOneCpuinfo cpu num ∈ t → num = cpu ∧ t.count (.initOneCpuinfo cpu num) = 1) ∧
    (∀ pre e post, t = pre ++ e :: post → e = .addSysram ∨ e = .allocSyspageMemory ∨
      e = .writeSyspageMemory →
      ∀ cpu, 0 < cpu → cpu < n → pre.count (.initOneCpuinfo cpu cpu) = 1) ∧
    (∀ pre cpu num post, t = pre ++ .enterSpin cpu num :: post →
      num = cpu ∧ t.count (.enterSpin cpu num) = 1 ∧ .writeSyspageMemory ∈ pre) ∧
    (s.boot = .startnext → ∀ cpu, 0 < cpu → cpu < n → .enterSpin cpu cpu ∈ t) := by
  have h := smpInv_of_trace hn run
  have hmem : ∀ e, e ≠ .other → e ∈ t → s.done e = true := fun e he ht => by
    by_contra hdone
    have hcount := smp_count hn run e he
    rw [if_neg hdone] at hcount
    exact List.count_eq_zero.mp hcount ht
  refine ⟨fun j k hj hk => ?_, fun j k hj hk => ?_, fun k => h.startsUp, fun k => h.transfers,
    fun cpu num ht => ?_,
    fun cpu num ht => ?_, fun pre e post ht he cpu hcpu hlt => ?_, fun pre cpu num post ht => ?_,
    fun hb cpu hcpu hlt => ?_⟩
  · have hturn := h.startsUp_turn hj
    rw [h.startsUp_turn hk] at hturn
    exact (Option.some.inj hturn).symm
  · have hb := h.transfers hj
    rw [h.transfers hk] at hb
    exact (BootPc.pollPending.inj hb).symm
  · have hdone := hmem (.loadStarting cpu num) nofun ht
    simp only [SmpState.done, decide_eq_true_eq] at hdone
    exact hdone.1
  · have hdone := hmem (.initOneCpuinfo cpu num) nofun ht
    rw [smp_count hn run (.initOneCpuinfo cpu num) nofun, if_pos hdone]
    simp only [SmpState.done, decide_eq_true_eq] at hdone
    exact ⟨hdone.1, rfl⟩
  · obtain ⟨s₁, i, s₂, hpre, hs⟩ := (ht ▸ run).before
    have hap := (smpInv_of_trace hn hpre).readied hn hs he hcpu hlt
    rw [smp_count hn hpre (.initOneCpuinfo cpu cpu) nofun, if_pos]
    simp [SmpState.done, hap, ApPc.stage]
  · obtain ⟨s₁, i, s₂, hpre, hs⟩ := (ht ▸ run).before
    have hdone := hmem (.enterSpin cpu num) nofun (by simp [ht])
    rw [smp_count hn run (.enterSpin cpu num) nofun, if_pos hdone]
    simp only [SmpState.done, decide_eq_true_eq] at hdone
    have hb := (smpInv_of_trace hn hpre).entersSpin hn hs
    refine ⟨hdone.1, rfl, List.count_pos_iff.mp ?_⟩
    rw [smp_count hn hpre .writeSyspageMemory nofun, if_pos]
    · exact Nat.one_pos
    · simp [SmpState.done, hb, BootPc.stage]
  · have hap : s.ap cpu = .spin := by
      refine (h.rest cpu (by rw [hb]; nofun)).trans ?_
      rw [hb]
      exact (if_neg (by simp only [BootPc.readied]; omega)).trans (if_pos hlt)
    refine List.count_pos_iff.mp ?_
    rw [smp_count hn run (.enterSpin cpu cpu) nofun, if_pos]
    · exact Nat.one_pos
    · simp [SmpState.done, hap, ApPc.stage]

/-- Two processors, the second of which polls before its turn. -/
theorem smp_hand_off_example :
    ∃ t s, Trace (smpStep (fun _ => true) 3) (smpInit 3 7) t s ∧ s.boot = .startnext ∧
      ∀ cpu, 0 < cpu → cpu < 3 → .enterSpin cpu cpu ∈ t := by
  have hstart : Trace (smpStep (fun _ => true) 3) (smpInit 3 7) [] (smpInit 3 7) := .start
  obtain ⟨l, hb⟩ : ∃ l, (runSchedule (smpStep (fun _ => true) 3) l ([], smpInit 3 7)).2.boot =
      .startnext :=
    ⟨[0, 0, 0, 1, 1, 1, 1, 0, 0, 0, 2, 2, 2, 0, 0, 0, 0, 0, 0, 2, 1, 1, 0, 0, 0, 2, 2, 0],
      by decide⟩
  have run := hstart.runSchedule l
  exact ⟨_, _, run, hb, (smp_hand_off (by decide) run).2.2.2.2.2.2.2.2 hb⟩

end

end QnxStartup
