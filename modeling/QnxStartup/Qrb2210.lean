import QnxStartup.HandedOut
import QnxStartup.Smp

/-! The board `qrb2210`: which processors `board_smp_start` brings up, and which RAM
`qrb2210_init_raminfo` keeps from being handed out. -/

namespace QnxStartup

/-! ### The processors -/

def qrb2210CpuCoresNumber : Nat := 4

/-- Six entries, of which two are given. -/
def qrb2210CoreAffinity (cpu : Nat) : Nat := [0x0000, 0x0001, 0, 0, 0, 0].getD cpu 0

/-- `num_cpu` after `init_smp`, for the bound that the option `P` sets. -/
def initSmp (maxCpus : Nat) : Nat := if 1 < maxCpus then min qrb2210CpuCoresNumber maxCpus else 1

/-- `board_smp_start`; `psci` gives the status of `CPU_ON` for a core, while others are
on. When `start_aps` comes to a processor, it has started those before it. A status that
is not `SUCCESS` ends in a crash. -/
def qrb2210SmpStart (psci : List Nat → Nat → Nat) (cpu : Nat) : Bool :=
  psci ((List.range cpu).map qrb2210CoreAffinity) (qrb2210CoreAffinity cpu) = 0

/-- The boot processor is before the start of processor 2, or has failed to start it. -/
def BeforeThird : BootPc → Prop
  | .storeStarting i | .boardSmpStart i | .apFail i => 1 ≤ i ∧ i ≤ 2
  | .pollStarting i _ => i = 1
  | _ => False

section

variable {psci : List Nat → Nat → Nat} {n p maxCpus : Nat} {s s' : SmpState}
  {t : List SmpEvent} {e : SmpEvent}

theorem qrb2210SmpStart_two (hon : ∀ on, ∀ core ∈ on, psci on core ≠ 0) :
    qrb2210SmpStart psci 2 = false :=
  decide_eq_false (hon _ _ (by decide))

theorem beforeThird_step (hon : ∀ on, ∀ core ∈ on, psci on core ≠ 0) (hn : 2 < n) {cpu : Nat}
    (h : BeforeThird s.boot ∧ ∀ k, 2 ≤ k → s.ap k = .off)
    (hs : smpStep (qrb2210SmpStart psci) n cpu s = some (e, s')) :
    (BeforeThird s'.boot ∧ ∀ k, 2 ≤ k → s'.ap k = .off) ∧ e ≠ .addSysram := by
  obtain ⟨hb, hap⟩ := h
  rw [smpStep] at hs
  split at hs
  · obtain ⟨starting, available, pending, boot, ap⟩ := s
    cases boot with
    | storeStarting i =>
      obtain ⟨rfl, rfl⟩ := Prod.mk.inj (Option.some.inj hs)
      exact ⟨⟨hb, hap⟩, SmpEvent.noConfusion⟩
    | boardSmpStart i =>
      simp only [bootStep] at hs
      split at hs
      · next hstart =>
        obtain ⟨rfl, rfl⟩ := Prod.mk.inj (Option.some.inj hs)
        have htwo : i ≠ 2 := by
          rintro rfl
          rw [qrb2210SmpStart_two hon] at hstart
          cases hstart
        obtain rfl : i = 1 := by
          obtain ⟨hlow, hhigh⟩ := hb
          omega
        exact ⟨⟨rfl, fun k hk => (Function.update_of_ne (by omega) ..).trans (hap k hk)⟩,
          SmpEvent.noConfusion⟩
      · obtain ⟨rfl, rfl⟩ := Prod.mk.inj (Option.some.inj hs)
        exact ⟨⟨hb, hap⟩, SmpEvent.noConfusion⟩
    | pollStarting i count =>
      obtain rfl : i = 1 := hb
      simp only [bootStep] at hs
      split_ifs at hs
      · obtain ⟨rfl, rfl⟩ := Prod.mk.inj (Option.some.inj hs)
        exact ⟨⟨⟨le_rfl, by decide⟩, hap⟩, SmpEvent.noConfusion⟩
      · obtain ⟨rfl, rfl⟩ := Prod.mk.inj (Option.some.inj hs)
        exact ⟨⟨rfl, hap⟩, SmpEvent.noConfusion⟩
      · obtain ⟨rfl, rfl⟩ := Prod.mk.inj (Option.some.inj hs)
        refine ⟨⟨?_, hap⟩, SmpEvent.noConfusion⟩
        rw [startAps, if_pos hn]
        exact ⟨by decide, le_rfl⟩
    | apFail i => cases hs
    | _ => exact hb.elim
  · obtain ⟨hboot, -, hother⟩ := apStep_frame hs
    have hcpu : ¬ 2 ≤ cpu := fun hle => by
      rw [apStep, hap cpu hle] at hs
      cases hs
    refine ⟨⟨hboot ▸ hb, fun k hk => (hother k (by omega)).trans (hap k hk)⟩, ?_⟩
    rintro rfl
    unfold apStep at hs
    split at hs
    all_goals cases hs

/-- Beyond two processors no run gets past the second one that is to be started. -/
theorem qrb2210_stops (hon : ∀ on, ∀ core ∈ on, psci on core ≠ 0) (hn : 2 < n)
    (run : Trace (smpStep (qrb2210SmpStart psci) n) (smpInit n p) t s) :
    (BeforeThird s.boot ∧ ∀ k, 2 ≤ k → s.ap k = .off) ∧ .addSysram ∉ t := by
  refine run.induct (P := fun t s => (BeforeThird s.boot ∧ ∀ k, 2 ≤ k → s.ap k = .off) ∧
    .addSysram ∉ t) ⟨⟨?_, fun _ _ => rfl⟩, nofun⟩ ?_
  · rw [smpInit, startAps, if_pos (by omega)]
    exact ⟨le_rfl, by decide⟩
  · rintro t s cpu e s' ⟨hinv, hnot⟩ hs
    obtain ⟨hinv', he⟩ := beforeThird_step hon hn hinv hs
    refine ⟨hinv', fun hmem => ?_⟩
    rcases List.mem_append.mp hmem with hmem | hmem
    · exact hnot hmem
    · exact he (List.mem_singleton.mp hmem).symm

/-! Schedules in which nobody polls in vain. -/

theorem run_first {start : Nat → Bool} (hstart : start 1 = true) (p : Nat) :
    ∃ t ap, Trace (smpStep start 2) (smpInit 2 p) t ⟨0, 0, p, .addSysram, ap⟩ ∧
      ap 1 = .pollAvailable 1 := by
  have hupdate : start = Function.update start 1 true := by rw [← hstart, Function.update_eq_self]
  rw [hupdate]
  have begin : Trace (smpStep (Function.update start 1 true) 2) (smpInit 2 p) [] (smpInit 2 p) :=
    .start
  have run :
      Trace (smpStep (Function.update start 1 true) 2) (smpInit 2 p) _ ⟨0, 0, p, .addSysram, _⟩ :=
    begin.runSchedule [0, 0, 1, 1, 1, 0]
  exact ⟨_, _, run, (smpInv_of_trace (by decide) run).rest 1 nofun⟩

theorem run_rest {start : Nat → Bool} {t : List SmpEvent} {ap : Nat → ApPc}
    (hap : ap 1 = .pollAvailable 1)
    (run : Trace (smpStep start 2) (smpInit 2 p) t ⟨0, 0, p, .addSysram, ap⟩) :
    ∃ t s, Trace (smpStep start 2) (smpInit 2 p) t s ∧ s.boot = .startnext := by
  have hone : u32 1 = 1 := rfl
  have hturn : (runSchedule (smpStep start 2) [0, 0, 0, 0, 0, 1] (t, ⟨0, 0, p, .addSysram, ap⟩)).2 =
      ⟨0, 1, 1, .pollPending 1, Function.update ap 1 (.clearPending 1)⟩ := by
    simp [runSchedule, smpStep, bootStep, transferAps, apStep, SmpState.goto, hap, hone]
  have run' := run.runSchedule [0, 0, 0, 0, 0, 1]
  rw [hturn] at run'
  exact ⟨_, _, run'.runSchedule [1, 0], rfl⟩

theorem run_alone {start : Nat → Bool} (hn : n < 2) :
    ∃ t s, Trace (smpStep start n) (smpInit n p) t s ∧ s.boot = .startnext := by
  have begin : Trace (smpStep start n) (smpInit n p) [] (smpInit n p) := .start
  refine ⟨_, _, begin.runSchedule [0, 0, 0], ?_⟩
  simp [runSchedule, smpStep, bootStep, smpInit, startAps, transferAps, show ¬ 1 < n by omega]

theorem run_stopped {start : Nat → Bool} (hstart : start 1 = true) (hstop : start 2 = false)
    (hn : n = 3 ∨ n = 4) (p : Nat) :
    ∃ t s, Trace (smpStep start n) (smpInit n p) t s ∧ s.boot = .apFail 2 := by
  have hupdate : start = Function.update (Function.update start 2 false) 1 true := by
    rw [← hstop, Function.update_eq_self, ← hstart, Function.update_eq_self]
  rw [hupdate]
  have begin : Trace (smpStep (Function.update (Function.update start 2 false) 1 true) n)
      (smpInit n p) [] (smpInit n p) := .start
  rcases hn with rfl | rfl
  · exact ⟨_, _, begin.runSchedule [0, 0, 1, 1, 1, 0, 0, 0], rfl⟩
  · exact ⟨_, _, begin.runSchedule [0, 0, 1, 1, 1, 0, 0, 0], rfl⟩

/-- With firmware that starts core 1, but never a core that is on, startup reaches the
kernel exactly if it is held to two processors. Else it always stops before the RAM is
published, and can come to the crash for processor 2. -/
theorem qrb2210_start_aps (hone : psci [0] 1 = 0) (hon : ∀ on, ∀ core ∈ on, psci on core ≠ 0)
    (maxCpus p : Nat) :
    ((∃ t s, Trace (smpStep (qrb2210SmpStart psci) (initSmp maxCpus))
      (smpInit (initSmp maxCpus) p) t s ∧ s.boot = .startnext) ↔
      maxCpus ≤ 2) ∧
    (2 < maxCpus →
      (∃ t s, Trace (smpStep (qrb2210SmpStart psci) (initSmp maxCpus))
        (smpInit (initSmp maxCpus) p) t s ∧ s.boot = .apFail 2) ∧
      ∀ t s, Trace (smpStep (qrb2210SmpStart psci) (initSmp maxCpus))
        (smpInit (initSmp maxCpus) p) t s →
        (∀ k, 2 ≤ k → s.ap k = .off) ∧ .addSysram ∉ t) := by
  have hstart : qrb2210SmpStart psci 1 = true := decide_eq_true hone
  have hcount : 2 < maxCpus → initSmp maxCpus = 3 ∨ initSmp maxCpus = 4 := fun h => by
    rw [initSmp, if_pos (by omega), qrb2210CpuCoresNumber]
    omega
  refine ⟨⟨?_, fun hle => ?_⟩,
    fun hlt => ⟨run_stopped hstart (qrb2210SmpStart_two hon) (hcount hlt) p, fun t s run => ?_⟩⟩
  · rintro ⟨t, s, run, hboot⟩
    by_contra hgt
    have hmany := hcount (by omega)
    have hstop := (qrb2210_stops hon (by omega) run).1.1
    rw [hboot] at hstop
    exact hstop
  · rcases (by omega : maxCpus = 2 ∨ maxCpus < 2) with rfl | hlt
    · obtain ⟨t, ap, run, hap⟩ := run_first hstart p
      exact run_rest hap run
    · have hnum : initSmp maxCpus = 1 := if_neg (by omega)
      rw [hnum]
      exact run_alone (by decide)
  · have hmany := hcount hlt
    obtain ⟨⟨-, hoff⟩, hnot⟩ := qrb2210_stops hon (by omega) run
    exact ⟨hoff, hnot⟩

end

theorem qrb2210_start_aps_example :
    ¬ ∃ t s, Trace (smpStep (qrb2210SmpStart fun on core => if core ∈ on then 2 ^ 64 - 4 else 0)
      (initSmp 64)) (smpInit (initSmp 64) 0) t s ∧
      s.boot = .startnext := by
  have h := (@qrb2210_start_aps (fun on core => if core ∈ on then 2 ^ 64 - 4 else 0) (by decide)
    (fun on core hmem => by rw [if_pos hmem]; decide) 64 0).1
  rw [h]
  decide

/-! ### The RAM -/

def qrb2210Dram0Base : Nat := 0x40000000

def qrb2210Dram0Size : Nat := 4 * 2 ^ 30

def qrb2210RsvdLowblockEnd : Nat := 0x53617000

def qrb2210RsvdSplashBase : Nat := 0x5C000000

def qrb2210RsvdSplashEnd : Nat := 0x5D000000

def qrb2210RsvdRemovedBase : Nat := 0x60000000

def qrb2210RsvdRemovedEnd : Nat := 0x63900000

def qrb2210RsvdRmtfsBase : Nat := 0x89B01000

def qrb2210RsvdRmtfsEnd : Nat := 0x89D01000

/-- The arguments of the calls of `add_ram`. -/
def qrb2210Ranges : List (Nat × Nat) :=
  [(qrb2210RsvdLowblockEnd, qrb2210RsvdSplashBase - qrb2210RsvdLowblockEnd),
    (qrb2210RsvdSplashEnd, qrb2210RsvdRemovedBase - qrb2210RsvdSplashEnd),
    (qrb2210RsvdRemovedEnd, qrb2210RsvdRmtfsBase - qrb2210RsvdRemovedEnd),
    (qrb2210RsvdRmtfsEnd, qrb2210Dram0Base + qrb2210Dram0Size - qrb2210RsvdRmtfsEnd)]

/-- `qrb2210_init_raminfo`. -/
def qrb2210InitRaminfo [SyspageHeader] (boot : Boot) (s : RamState) : Startup RamState :=
  qrb2210Ranges.foldlM (fun s r => addRam boot r.1 r.2 s) s

/-- The regions that the source takes from the device tree, by their bases and sizes. -/
def qrb2210Reserved : List (Nat × Nat) :=
  [(0x45700000, 0x600000), (0x45e00000, 0x140000), (0x45fff000, 0x1000), (0x46000000, 0x200000),
    (0x4ab00000, 0x6900000),
    (0x51400000, 0x500000), (0x51900000, 0x100000), (0x51a00000, 0x1c00000), (0x53600000, 0x10000),
    (0x53610000, 0x5000),
    (0x53615000, 0x2000), (0x5c000000, 0xf00000), (0x5cf00000, 0x100000), (0x60000000, 0x3900000),
    (0x89b01000, 0x200000)]

theorem qrb2210Ranges_free :
    ∀ r ∈ qrb2210Ranges, (∀ f ∈ qrb2210Reserved, r.1 + r.2 ≤ f.1 ∨ f.1 + f.2 ≤ r.1) ∧
    qrb2210Dram0Base ≤ r.1 ∧ r.1 + r.2 ≤ qrb2210Dram0Base + qrb2210Dram0Size := by decide

theorem qrb2210Ranges_apart : ∀ k < 4, ∀ r, qrb2210Ranges[k]? = some r →
    0 < r.2 ∧ r.1 + r.2 ≤ 2 ^ 48 ∧ ∀ q ∈ qrb2210Ranges.take k, q.1 + q.2 ≤ r.1 := by decide

/-- What a run has as RAM lies in the ranges that it has added. -/
theorem mem_qrb2210Ranges {past : List Event} {k : Nat}
    (hadded : ∀ a n, Event.added a n ∈ past ↔ (a, n) ∈ qrb2210Ranges.take k) {x : Nat}
    (hx : x ∈ ramOf past) :
    ∃ r ∈ qrb2210Ranges.take k, x ∈ bytes r.1 r.2 := by
  obtain ⟨a, n, hmem, hx⟩ := hx
  exact ⟨(a, n), (hadded a n).mp hmem, hx⟩

theorem qrb2210_addRam_allowed {past : List Event} {s : RamState} {k : Nat}
    (hadded : ∀ a n, Event.added a n ∈ past ↔ (a, n) ∈ qrb2210Ranges.take k)
    {r : Nat × Nat} (hr : qrb2210Ranges[k]? = some r) : (HandOp.addRam r.1 r.2).Allowed past s := by
  obtain ⟨hpos, hle, hbelow⟩ := qrb2210Ranges_apart k (List.getElem?_eq_some_iff.mp hr).1 r hr
  refine ⟨hpos, hle, Set.disjoint_left.mpr fun x hx hx' => ?_⟩
  obtain ⟨q, hq, hxq⟩ := mem_qrb2210Ranges hadded hx'
  exact absurd (hxq.2.trans_le (hbelow q hq)) hx.1.not_gt

section

variable [SyspageHeader] {boot : Boot} {secure : Bool} {mem : Mem} {past : List Event}
  {s s' : RamState}

/-- A call of `add_ram` is a step that adds its range and no other. -/
theorem addRam_run (run : HandRun boot secure mem past s) {start size : Nat}
    (allowed : (HandOp.addRam start size).Allowed past s) (h : addRam boot start size s = .ok s')
    (hkept : sizeofRamEntry < s'.ramList.size) :
    ∃ new, HandRun boot secure mem (new ++ past) s' ∧ ∀ a n, Event.added a n ∈ new ↔
      (a, n) = (start, size) := by
  obtain ⟨new, hop, hnew⟩ : ∃ new, runHandOp boot (.addRam start size) s = .ok (s', new) ∧
      ∀ a n, Event.added a n ∈ new ↔ (a, n) = (start, size) := by
    refine ⟨_, by rw [runHandOp, h, ok_bind], fun a n => ?_⟩
    split <;> simp
  exact ⟨new, run.step allowed hop fun _ => hkept, hnew⟩

/-- `qrb2210_init_raminfo` is part of a run, in which its ranges are what is added;
`hkept` says that no call leaves the free list empty. -/
theorem qrb2210InitRaminfo_run (run : HandRun boot secure mem past s)
    (hadded : ∀ a n, Event.added a n ∉ past)
    (hkept : ∀ k < qrb2210Ranges.length, ∀ t,
      (qrb2210Ranges.take (k + 1)).foldlM (fun s r => addRam boot r.1 r.2 s) s = .ok t →
      sizeofRamEntry < t.ramList.size)
    (h : qrb2210InitRaminfo boot s = .ok s') :
    ∃ past', HandRun boot secure mem past' s' ∧ ∀ a n, Event.added a n ∈ past' ↔
      (a, n) ∈ qrb2210Ranges := by
  have hcalls : ∀ k ≤ qrb2210Ranges.length, ∀ t,
      (qrb2210Ranges.take k).foldlM (fun s r => addRam boot r.1 r.2 s) s = .ok t →
        ∃ past', HandRun boot secure mem past' t ∧ ∀ a n, Event.added a n ∈ past' ↔
        (a, n) ∈ qrb2210Ranges.take k := by
    intro k hk
    induction k with
    | zero =>
      intro t ht
      obtain rfl := Except.ok.inj ht
      exact ⟨past, run, fun a n => by simp [hadded a n]⟩
    | succ k ih =>
      intro t ht
      have hkept := hkept k hk t ht
      rw [List.take_succ_eq_append_getElem hk, List.foldlM_append] at ht
      obtain ⟨t', ht', hcall⟩ := bind_eq_ok.mp ht
      simp only [List.foldlM_cons, List.foldlM_nil, bind_pure] at hcall
      obtain ⟨past', run', hpast⟩ := ih (by omega) t' ht'
      obtain ⟨new, hnew, hmem⟩ := addRam_run run' (qrb2210_addRam_allowed hpast
        (List.getElem?_eq_getElem hk)) hcall hkept
      refine ⟨new ++ past', hnew, fun a n => ?_⟩
      rw [List.take_succ_eq_append_getElem hk, List.mem_append, List.mem_append, hmem, hpast,
        List.mem_singleton, or_comm]
  exact hcalls 4 le_rfl s' h

end

example :
    let _ := qnxSyspageHeader
    ∃ past s, HandRun imolaBoot false (fun _ => 0) past s ∧ ∀ a n, Event.added a n ∈ past ↔
    (a, n) ∈ qrb2210Ranges := by
  intro _
  have run : HandRun imolaBoot false (fun _ => 0) _ _ := HandRun.init
    (eq_ok_resultOr (.atBoot false fun _ => 0) (by decide +kernel))
  have hkept : ∀ k < 4, sizeofRamEntry < (resultOr (.atBoot false fun _ => 0)
      ((qrb2210Ranges.take (k + 1)).foldlM (fun s r => addRam imolaBoot r.1 r.2 s)
        (resultOr (.atBoot false fun _ => 0)
          (wsInit imolaBoot (.atBoot false fun _ => 0))))).ramList.size := by decide +kernel
  obtain ⟨past, run⟩ := qrb2210InitRaminfo_run run (by simp [initEvents])
    (fun k hk t ht => by
      have h := hkept k hk
      rwa [ht] at h)
    (eq_ok_resultOr (.atBoot false fun _ => 0) (by decide +kernel))
  exact ⟨past, _, run⟩

section

variable [SyspageHeader] {boot : Boot} {secure : Bool} {mem : Mem} {past : List Event}
  {s s' : RamState}

/-- In every run in which the board's calls are the ones that add RAM, no block that is
handed out meets a region of the firmware; the next one of these calls is always
allowed. -/
theorem qrb2210_reserved (hboot : boot.Physical) (run : HandRun boot secure mem past s) {k : Nat}
    (hadded : ∀ a n, Event.added a n ∈ past ↔ (a, n) ∈ qrb2210Ranges.take k) :
    (∀ r, qrb2210Ranges[k]? = some r → (HandOp.addRam r.1 r.2).Allowed past s) ∧
      ∀ a n al, Event.given a n al ∈ past →
        bytes a n ⊆ bytes qrb2210Dram0Base qrb2210Dram0Size ∧
          ∀ f ∈ qrb2210Reserved, Disjoint (bytes a n) (bytes f.1 f.2) := by
  refine ⟨fun r hr => qrb2210_addRam_allowed hadded hr, fun a n al hgiven => ?_⟩
  obtain ⟨f, hf⟩ := handRun_inv hboot run
  obtain ⟨-, hin, -⟩ := hf.given a n al hgiven
  constructor
  · intro x hx
    obtain ⟨r, hr, hxr⟩ := mem_qrb2210Ranges hadded (hin hx)
    obtain ⟨-, hlow, hhigh⟩ := qrb2210Ranges_free r (List.mem_of_mem_take hr)
    exact ⟨hlow.trans hxr.1, hxr.2.trans_le hhigh⟩
  · intro f hf
    refine Set.disjoint_left.mpr fun x hx hxf => ?_
    obtain ⟨r, hr, hxr⟩ := mem_qrb2210Ranges hadded (hin hx)
    rcases (qrb2210Ranges_free r (List.mem_of_mem_take hr)).1 f hf with hle | hle
    · exact absurd (hxr.2.trans_le hle) hxf.1.not_gt
    · exact absurd (hxf.2.trans_le hle) hxr.1.not_gt

end

theorem qrb2210_reserved_example :
    let _ := qnxSyspageHeader
    ∃ past s, HandRun imolaBoot false (fun _ => 0) past s ∧
    (HandOp.addRam 0x5d000000 0x3000000).Allowed past s ∧
      Event.given 0x53623000 0x1000 0x1000 ∈ past ∧
      ∀ a n al, Event.given a n al ∈ past →
        bytes a n ⊆ bytes qrb2210Dram0Base qrb2210Dram0Size ∧
        ∀ f ∈ qrb2210Reserved, Disjoint (bytes a n) (bytes f.1 f.2) := by
  intro _
  have r0 : HandRun imolaBoot false (fun _ => 0) _ _ := HandRun.init
    (eq_ok_resultOr (.atBoot false fun _ => 0) (by decide +kernel))
  have r1 := r0.step (show (HandOp.addRam 0x53617000 0x89e9000).Allowed _ _ by
    simp [HandOp.Allowed, ramOf, initEvents])
    (eq_ok_resultOr (RamState.atBoot false fun _ => 0, []) (by decide +kernel))
      (fun _ => by decide +kernel)
  have r2 := r1.step (show (HandOp.allocRam 0x1000 0x1000).Allowed _ _ from ⟨by decide, 12,
    by decide⟩)
    (eq_ok_resultOr (RamState.atBoot false fun _ => 0, []) (by decide +kernel))
      (fun _ => by decide +kernel)
  obtain ⟨past, hpast, run⟩ : ∃ past,
      past = [.given 0x53623000 0x1000 0x1000, .given 0x53617000 0xc000 0x1000,
        .added 0x53617000 0x89e9000,
        .avoided 0x80080000 0x30000, .early 0x80880400 0xc00, .early 0x80880000 0x400] ∧
        HandRun imolaBoot false (fun _ => 0) past _ := ⟨_, by decide +kernel, r2⟩
  have hadded : ∀ a n, Event.added a n ∈ past ↔ (a, n) ∈ qrb2210Ranges.take 1 := by
    intro a n
    simp [hpast, qrb2210Ranges, qrb2210RsvdLowblockEnd, qrb2210RsvdSplashBase]
  have hboot : imolaBoot.Physical := by constructor <;> decide
  obtain ⟨hnext, hfree⟩ := qrb2210_reserved hboot run hadded
  exact ⟨past, _, run, hnext (0x5d000000, 0x3000000) rfl, by simp [hpast], hfree⟩

end QnxStartup
