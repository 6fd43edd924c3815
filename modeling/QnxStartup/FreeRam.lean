import QnxStartup.FindRam

/-! Runs of `add_ram` and `alloc_ram`: the free list always holds exactly the bytes
that adding and taking ranges, as sets, would leave. -/

namespace QnxStartup

theorem takeRam_holds [SyspageHeader] {s : RamState} {f : FreeList} {addr size : Nat}
    (hf : s.ramList.Holds f) (hs : s.sysramAdded = false) (hb : addr + size < 2 ^ 64) :
    (∃ l, takeRam addr size s = .ok ({ s with ramList := l }, addr) ∧
      l.Holds (f.erase addr (addr + size))) ∨
      takeRam addr size s = crash "RAM entry array overflow\n" := by
  rcases allocScan_holds addr size hf with ⟨l, hl, hl'⟩ | hc
  · exact .inl ⟨l, by simp [takeRam, u64_of_lt hb, hl, Except.bind, hs], hl'⟩
  · exact .inr (by simp only [takeRam, u64_of_lt hb, hc]; rfl)

/-- `alloc_ram` at a given address takes the range out; without one it takes out
the range that `find_ram` chose, or nothing. -/
theorem allocRam_holds [SyspageHeader] (align : Nat) {s : RamState} {f : FreeList} {addr size : Nat}
    (hf : s.ramList.Holds f) (hs : s.sysramAdded = false)
    (hb : addr ≠ nullPaddr → addr + size < 2 ^ 64) :
    (∃ l m a f', allocRam addr size align s = .ok ({ s with ramList := l, mem := m }, a) ∧
      l.Holds f' ∧
      (a = nullPaddr ∧ addr = nullPaddr ∧ f' = f ∨
        a ≠ nullPaddr ∧ a = (if addr = nullPaddr then findRam size align 0 0 s else addr) ∧
          f' = f.erase a (a + size))) ∨
      allocRam addr size align s = crash "RAM entry array overflow\n" := by
  unfold allocRam
  by_cases ha : addr = nullPaddr
  · subst ha
    simp only [if_true]
    by_cases hn : findRam size align 0 0 s = nullPaddr
    · exact .inl ⟨s.ramList, s.mem, nullPaddr, f, by rw [if_pos hn], hf, .inl ⟨rfl, trivial, rfl⟩⟩
    · rw [if_neg hn]
      have hbound := findRam_bound hf hn
      by_cases hsec : s.secureSystem = true
      · rw [if_pos hsec]
        rcases takeRam_holds
          (s := { s with mem := memset s.mem (u32 (findRam size align 0 0 s)) 0 size })
          hf hs hbound with ⟨l, hl, hl'⟩ | hc
        · exact .inl ⟨l, _, _, _, hl, hl', .inr ⟨hn, rfl, rfl⟩⟩
        · exact .inr hc
      · rw [if_neg hsec]
        rcases takeRam_holds hf hs hbound with ⟨l, hl, hl'⟩ | hc
        · exact .inl ⟨l, _, _, _, hl, hl', .inr ⟨hn, rfl, rfl⟩⟩
        · exact .inr hc
  · simp only [ha, if_false]
    rcases takeRam_holds hf hs (hb ha) with ⟨l, hl, hl'⟩ | hc
    · exact .inl ⟨l, _, _, _, hl, hl', .inr ⟨ha, rfl, rfl⟩⟩
    · exact .inr hc

theorem noteAvoid_eq {start size : Nat} {s s' : RamState} (h : noteAvoid start size s = .ok s') :
    ∃ l, s' = { s with avoidList := l } ∧
      (l = s.avoidList ++ [⟨start, u64 (start + size)⟩] ∨
        ∃ init last, s.avoidList = init ++ [last] ∧ last.stop = start ∧
          l = init ++ [⟨last.start, u64 (start + size)⟩]) := by
  unfold noteAvoid at h
  rw [crash_ite_eq_ok] at h
  obtain ⟨-, h⟩ := h
  refine ⟨_, (Except.ok.inj h).symm, ?_⟩
  cases hl : s.avoidList.getLast? with
  | none => simp [List.getLast?_eq_none_iff.mp hl]
  | some last =>
    obtain ⟨init, hinit⟩ := List.getLast?_eq_some_iff.mp hl
    by_cases hstop : last.stop = start
    · exact .inr ⟨init, last, hinit, hstop, by simp [hstop, hinit]⟩
    · exact .inl (by simp [hstop])

theorem noteAvoid_ok (start size : Nat) {s : RamState} (h : s.avoidList.length < 63) :
    ∃ l, noteAvoid start size s = .ok { s with avoidList := l } ∧
      l.length ≤ s.avoidList.length + 1 := by
  unfold noteAvoid
  simp only [sizeofAvoidEntry, maxAvoidListSize]
  cases hl : s.avoidList.getLast? with
  | none => exact ⟨_, if_neg (by simp), by simp⟩
  | some last =>
    simp only
    split
    · refine ⟨_, if_neg ?_, ?_⟩ <;>
        simp only [List.length_append, List.length_dropLast, List.length_singleton] <;> omega
    · exact ⟨_, if_neg (by simp only [List.length_append, List.length_singleton]; omega), by simp⟩

structure RamState.Ready (s : RamState) : Prop where
  ws : s.wsReady = true
  noSysram : s.sysramAdded = false
  avoidRoom : s.avoidList.length ≤ if s.tempSyspage = nullPaddr then 2 else 3

theorem claimTempSyspage_ready (boot : Boot) {s : RamState} (h : s.Ready) :
    ∃ s', claimTempSyspage boot s = .ok s' ∧ s'.Ready ∧ s'.ramList = s.ramList := by
  obtain ⟨hw, hs, hroom⟩ := h
  unfold claimTempSyspage
  by_cases ht : s.tempSyspage = nullPaddr
  · rw [if_pos ht] at hroom ⊢
    dsimp only
    split
    · next hn =>
      have hroom : ({ s with tempSyspage := findRam tempSyspageSize pageSize 0 0 s } :
          RamState).avoidList.length < 63 := by
        simp only
        omega
      obtain ⟨l, hl, hlen⟩ := noteAvoid_ok
        (findRam tempSyspageSize pageSize 0 0 s) tempSyspageSize hroom
      refine ⟨{ s with tempSyspage := findRam tempSyspageSize pageSize 0 0 s, avoidList := l }, ?_,
        ⟨hw, hs, ?_⟩, rfl⟩
      · rw [avoidRam, ensureWs, if_pos hw]
        exact hl
      · simp only at hlen ⊢
        rw [if_neg hn]
        omega
    · next hn =>
      refine ⟨_, rfl, ⟨hw, hs, ?_⟩, rfl⟩
      simp only [ne_eq, not_not] at hn ⊢
      rw [if_pos hn]
      exact hroom
  · rw [if_neg ht]
    exact ⟨s, rfl, ⟨hw, hs, hroom⟩, rfl⟩

/-- The RAM behind startup itself that the image was put into. -/
def Boot.imageTail (boot : Boot) : Set Nat :=
  bytes (boot.fullRamPaddr + boot.startupSize) (boot.ramSize - boot.startupSize)

theorem FreeList.bytes_erase_size (f : FreeList) (addr size : Nat) :
    (f.erase addr (addr + size)).bytes = f.bytes \ QnxStartup.bytes addr size :=
  f.bytes_erase addr (addr + size)

/-- `add_ram` up to its last part: the new RAM is in the list and the image is out of it. -/
theorem addRam_claims [SyspageHeader] (boot : Boot) {s : RamState} {f : FreeList} {start size : Nat}
    (hf : s.ramList.Holds f) (hs : s.sysramAdded = false) (hb : start + size < 2 ^ 64) :
    (∃ t l m f', addRam boot start size s =
        claimTempSyspage boot { s with asinfo := t, ramList := l, mem := m } ∧ l.Holds f' ∧
      f'.bytes = (f.bytes ∪ bytes start size) \ boot.imageTail) ∨
      addRam boot start size s = crash "RAM entry array overflow\n" := by
  unfold addRam
  have hbound := boot.bound
  have hle := boot.startup_le
  rw [u64_of_lt (by omega), sub32_of_le boot.ram_lt hle]
  rcases addMem_ok_or start size s.ramList with ⟨l, hl⟩ | hc
  swap
  · exact .inr (by simp only [hc]; rfl)
  obtain ⟨f1, hf1, hbytes1⟩ := addMem_holds hf hb hl
  simp only [hl, Except.bind]
  have htail : boot.fullRamPaddr + boot.startupSize ≠ nullPaddr →
      boot.fullRamPaddr + boot.startupSize + (boot.ramSize - boot.startupSize) < 2 ^ 64 :=
    fun _ => by omega
  rcases @allocRam_holds _ 1 { s with asinfo := addRamAsinfo boot start size s.asinfo,
                                      ramList := l } f1 _ _
    hf1 hs htail with ⟨l2, m, a, f2, hok, hf2, hcase⟩ | hc
  swap
  · exact .inr (by rw [hc]; rfl)
  refine .inl ⟨addRamAsinfo boot start size s.asinfo, l2, m, f2, by rw [hok], hf2, ?_⟩
  have hnull : boot.fullRamPaddr + boot.startupSize = nullPaddr →
      boot.ramSize - boot.startupSize = 0 := by
    unfold nullPaddr
    omega
  rcases hcase with ⟨-, hn, rfl⟩ | ⟨-, ha, rfl⟩
  · rw [hbytes1, Boot.imageTail, hnull hn, bytes_zero, Set.sdiff_empty]
  · rw [FreeList.bytes_erase_size, hbytes1, Boot.imageTail]
    by_cases hn : boot.fullRamPaddr + boot.startupSize = nullPaddr
    · rw [hnull hn, bytes_zero, bytes_zero]
    · rw [if_neg hn] at ha
      rw [ha]

theorem addRam_holds [SyspageHeader] (boot : Boot) {s : RamState} {f : FreeList} {start size : Nat}
    (hf : s.ramList.Holds f) (hr : s.Ready) (hb : start + size < 2 ^ 64) :
    (∃ s' f', addRam boot start size s = .ok s' ∧ s'.ramList.Holds f' ∧ s'.Ready ∧
      f'.bytes = (f.bytes ∪ bytes start size) \ boot.imageTail) ∨
      addRam boot start size s = crash "RAM entry array overflow\n" := by
  rcases addRam_claims boot hf hr.noSysram hb with ⟨t, l, m, f', heq, hf', hbytes⟩ | hc
  swap
  · exact .inr hc
  obtain ⟨s', hs', hready, hlist⟩ := claimTempSyspage_ready boot
    (s := { s with asinfo := t, ramList := l, mem := m }) ⟨hr.ws, hr.noSysram, hr.avoidRoom⟩
  exact .inl ⟨s', f', heq.trans hs', by rw [hlist]; exact hf', hready, hbytes⟩

inductive RamOp where
  | addRam (start size : Nat)
  | allocRam (addr size align : Nat)
  deriving DecidableEq, Repr

def RamOp.NoWrap : RamOp → Prop
  | .addRam start size => start + size < 2 ^ 64
  | .allocRam addr size _ => addr + size < 2 ^ 64

def runRamOp [SyspageHeader] (boot : Boot) : RamOp → RamState → Startup RamState
  | .addRam start size, s => addRam boot start size s
  | .allocRam addr size align, s => (allocRam addr size align s).bind fun (s, _) => .ok s

def runRamOps [SyspageHeader] (boot : Boot) : List RamOp → RamState → Startup RamState
  | [], s => .ok s
  | op :: ops, s => (runRamOp boot op s).bind (runRamOps boot ops)

/-- What a call does to the set of free bytes. -/
def RamOp.effect (boot : Boot) (free : Set Nat) : RamOp → Set Nat
  | .addRam start size => (free ∪ bytes start size) \ boot.imageTail
  | .allocRam addr size _ => free \ bytes addr size

theorem runRamOp_holds [SyspageHeader] (boot : Boot) {s : RamState} {f : FreeList} {op : RamOp}
    (hf : s.ramList.Holds f) (hr : s.Ready) (hop : op.NoWrap) :
    (∃ s' f', runRamOp boot op s = .ok s' ∧ s'.ramList.Holds f' ∧ s'.Ready ∧
      f'.bytes = op.effect boot f.bytes) ∨
      runRamOp boot op s = crash "RAM entry array overflow\n" := by
  cases op with
  | addRam start size => exact addRam_holds boot hf hr hop
  | allocRam addr size align =>
    have hop : addr + size < 2 ^ 64 := hop
    rcases allocRam_holds align hf hr.noSysram (fun _ => hop)
      with ⟨l, m, a, f', hok, hf', hcase⟩ | hc
    swap
    · exact .inr (by simp only [runRamOp, hc]; rfl)
    refine .inl ⟨{ s with ramList := l, mem := m }, f',
      by simp only [runRamOp, hok, Except.bind], hf', ⟨hr.ws, hr.noSysram, hr.avoidRoom⟩, ?_⟩
    have hnull : addr = nullPaddr → size = 0 := by unfold nullPaddr; omega
    rcases hcase with ⟨-, hn, rfl⟩ | ⟨-, ha, rfl⟩
    · simp [RamOp.effect, hnull hn]
    · rw [FreeList.bytes_erase_size, RamOp.effect]
      by_cases hn : addr = nullPaddr
      · rw [hnull hn, bytes_zero, bytes_zero]
      · rw [if_neg hn] at ha
        rw [ha]

theorem runRamOps_holds [SyspageHeader] (boot : Boot) (ops : List RamOp)
    (hops : ∀ op ∈ ops, op.NoWrap) {s : RamState} {f : FreeList} (hf : s.ramList.Holds f)
    (hr : s.Ready) :
    (∃ s' f', runRamOps boot ops s = .ok s' ∧ s'.ramList.Holds f' ∧ s'.Ready ∧
      f'.bytes = ops.foldl (RamOp.effect boot) f.bytes) ∨
      runRamOps boot ops s = crash "RAM entry array overflow\n" := by
  induction ops generalizing s f with
  | nil => exact .inl ⟨s, f, rfl, hf, hr, rfl⟩
  | cons op ops ih =>
    rcases runRamOp_holds boot hf hr (hops op (by simp)) with ⟨s1, f1, hs1, hf1, hr1, hbytes⟩ | hc
    · have hh := ih (fun op hop => hops op (by simp [hop])) hf1 hr1
      simp only [runRamOps, hs1, Except.bind, List.foldl_cons]
      rw [← hbytes]
      exact hh
    · exact .inr (by simp only [runRamOps, hc]; rfl)

/-- Where the workspace starts: behind the image. -/
def Boot.wsStart (boot : Boot) : Nat := round (u64 (boot.fullRamPaddr + boot.ramSize)) 8

/-- The state in which `ws_init` turns to startup itself: the two lists are in place
and avoided, as one range. -/
def RamState.wsLists (boot : Boot) (secure : Bool) (mem : Mem) : RamState :=
  let stop := u64 (u64 (boot.wsStart + maxAvoidListSize) + maxRamListSize)
  { RamState.atBoot secure mem with
    ramList := ⟨[⟨0, 0⟩], sizeofRamEntry⟩
    wsReady := true
    wsEarlyNext := stop
    avoidList := [⟨boot.wsStart, stop⟩] }

theorem wsInit_eq (boot : Boot) (secure : Bool) (mem : Mem) :
    wsInit boot (.atBoot secure mem) =
      noteAvoid boot.fullRamPaddr boot.startupSize (.wsLists boot secure mem) := by
  have h1 : round 1024 8 = 1024 := by decide
  have h2 : round maxRamListSize 8 = maxRamListSize := by decide
  simp [wsInit, takeWorkspace, RamState.atBoot, noteAvoid, h1, h2, Except.bind, RamState.wsLists,
    Boot.wsStart, sizeofAvoidEntry, maxAvoidListSize]

theorem wsInit_ready (boot : Boot) (secure : Bool) (mem : Mem) :
    ∃ s, wsInit boot (.atBoot secure mem) = .ok s ∧ s.ramList.Holds .empty ∧ s.Ready := by
  obtain ⟨l, hl, hlen⟩ := noteAvoid_ok boot.fullRamPaddr boot.startupSize
    (show (RamState.wsLists boot secure mem).avoidList.length < 63 by simp [RamState.wsLists])
  refine ⟨{ RamState.wsLists boot secure mem with avoidList := l }, by rw [wsInit_eq, hl],
    ⟨⟨0, 0⟩, rfl, rfl⟩, ⟨rfl, rfl, ?_⟩⟩
  simpa [RamState.wsLists, RamState.atBoot] using hlen

/-- After every run from a fresh start, and so after each of its steps, the free list
is in canonical form and holds the bytes that the calls, as set operations, leave. A
run that stops short has filled the array. -/
theorem ram_list_run [SyspageHeader] (boot : Boot) (secure : Bool) (mem : Mem) (ops : List RamOp)
    (hops : ∀ op ∈ ops, op.NoWrap) :
    (∃ s f, (wsInit boot (.atBoot secure mem)).bind (runRamOps boot ops) = .ok s ∧
      s.ramList.Holds f ∧
      f.bytes = ops.foldl (RamOp.effect boot) ∅) ∨
      (wsInit boot (.atBoot secure mem)).bind (runRamOps boot ops) =
        crash "RAM entry array overflow\n" := by
  obtain ⟨s0, hs0, hf0, hr0⟩ := wsInit_ready boot secure mem
  rw [hs0]
  rcases runRamOps_holds boot ops hops hf0 hr0 with ⟨s, f, hs, hf, -, hbytes⟩ | hc
  · exact .inl ⟨s, f, hs, hf, by simpa using hbytes⟩
  · exact .inr hc

theorem ram_list_run_imola :
    let _ := qnxSyspageHeader
    let ops : List RamOp := [.addRam 0x80000000 0x1000000, .allocRam 0x80a00000 0x1000 1]
    (∃ s f, (wsInit imolaBoot (.atBoot false fun _ => 0)).bind (runRamOps imolaBoot ops) = .ok s ∧
      s.ramList.Holds f ∧ f.bytes = ops.foldl (RamOp.effect imolaBoot) ∅) ∨
      (wsInit imolaBoot (.atBoot false fun _ => 0)).bind (runRamOps imolaBoot ops) =
        crash "RAM entry array overflow\n" :=
  let _ := qnxSyspageHeader
  ram_list_run imolaBoot false (fun _ => 0) _ (by simp [RamOp.NoWrap])

end QnxStartup
