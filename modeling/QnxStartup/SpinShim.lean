import QnxStartup.FdtRaminfo
import QnxStartup.Interleaving
import Mathlib.Tactic.IntervalCases

/-! `fdt_smp_spin_start`, called by `start_aps`, against cores in the release loop of
the firmware and in `spin_shim_rtn`. A step is one load or store of a release word,
`spin_shim_id` or `spin_shim_start`. -/

namespace QnxStartup

structure CpuNode where
  cpuReleaseAddr : Option (List UInt8)
  reg : Option (List UInt8)

/-- The switch over the length of a property. -/
def oneOrTwoCells (data : List UInt8) : Option Nat :=
  if data.length = 4 ∨ data.length = 8 then some (cellsValue data) else none

/-- Where the boot core stands in `start_aps` and `fdt_smp_spin_start`, with the call
that it is in or waits for. -/
inductive ShimBoot where
  | wait (call : Option (Nat × Nat))
  | release (call : Nat × Nat)
  | id (call : Nat × Nat)
  | apFail
  | crashed (plen : Nat)
  deriving DecidableEq

inductive ShimCore where
  | firmware
  | elsewhere (pc : Nat)
  | spinShimRtn
  | matched
  | gone (target : Nat)
  deriving DecidableEq

/-- The memory of the release words, `spin_shim_start`, `spin_shim_id`, the cores, the boot core and
the calls it has still to make. -/
structure Shim where
  mem : Mem
  start : Nat
  id : Nat
  core : Nat → ShimCore
  boot : ShimBoot
  calls : List (Nat × Nat)

inductive ShimThread where
  | boot
  | core (n : Nat)

inductive ShimEvent where
  | called (call : Nat × Nat)
  | signalled (cpu : Nat)
  | returned (cpu result : Nat)
  | crashed (cpu : Nat)
  | waited
  | polled (n : Nat)
  | released (n : Nat)
  | matched (n : Nat)
  | left (n target : Nat)
  deriving DecidableEq

def Shim.goto (s : Shim) (n : Nat) (c : ShimCore) : Shim :=
  { s with core := Function.update s.core n c }

/-- The bits of MPIDR_EL1 that `spin_shim_rtn` compares. -/
def shimId (mpidr : Nat) : Nat := mpidr &&& 0xFF00FFFFFF

def ShimCore.isGone : ShimCore → Bool
  | .gone _ => true
  | _ => false

section

variable (fdt : Option (List CpuNode)) (mpidr : Nat → Nat) (spinShimRtn : Nat)

def cpuNode (cpu : Nat) : Option CpuNode := fdt.bind fun nodes => nodes[cpu]?

def spinAddr (cpu : Nat) : Option Nat :=
  ((cpuNode fdt cpu).bind CpuNode.cpuReleaseAddr).bind oneOrTwoCells

def Shim.started (s : Shim) : Option (Nat × Nat) → Bool
  | none => true
  | some call => (s.core call.1).isGone

def fdtSmpSpinStartStep (s : Shim) : Option (ShimEvent × Shim) :=
  match s.boot with
  | .wait last =>
    if s.started last then
      match s.calls with
      | [] => none
      | call :: calls =>
        if fdt.isNone then some (.returned call.1 0, { s with calls := calls, boot := .apFail })
        else some (.called call, { s with start := call.2, calls := calls, boot := .release call })
    else some (.waited, s)
  | .release call =>
    match spinAddr fdt call.1 with
    | none => some (.returned call.1 0, { s with boot := .apFail })
    | some addr => some (.signalled call.1,
        { s with mem := writePtr s.mem addr spinShimRtn, boot := .id call })
  | .id call =>
    match (cpuNode fdt call.1).bind CpuNode.reg with
    | none => some (.returned call.1 0, { s with boot := .apFail })
    | some data =>
      match oneOrTwoCells data with
      | none => some (.crashed call.1, { s with boot := .crashed data.length })
      | some id => some (.returned call.1 1, { s with id := id, boot := .wait (some call) })
  | .apFail | .crashed _ => none

def spinShimRtnStep (n : Nat) (s : Shim) : Option (ShimEvent × Shim) :=
  match s.core n with
  | .firmware =>
    match spinAddr fdt n with
    | none => none
    | some addr =>
      let value := readPtr s.mem addr
      if value = 0 then some (.polled n, s)
      else some (.released n, s.goto n (if value = spinShimRtn then .spinShimRtn
        else .elsewhere value))
  | .spinShimRtn => if s.id = shimId (mpidr n) then some (.matched n, s.goto n .matched)
      else some (.polled n, s)
  | .matched => some (.left n s.start, s.goto n (.gone s.start))
  | .elsewhere _ | .gone _ => none

/-- Core `b` is the boot core, and the secondary cores are the other cpu nodes. -/
def shimStep (b : Nat) (thread : ShimThread) (s : Shim) : Option (ShimEvent × Shim) :=
  match thread with
  | .boot => fdtSmpSpinStartStep fdt spinShimRtn s
  | .core n =>
    if (cpuNode fdt n).isSome ∧ n ≠ b then spinShimRtnStep fdt mpidr spinShimRtn n s else none

end

def shimInit (calls : List (Nat × Nat)) : Shim :=
  ⟨fun _ => 0, 0, 0, fun _ => .firmware, .wait none, calls⟩

/-- A core leaves only after the call for it, and to the start of that call. -/
def ShimSafe (t : List ShimEvent) : Prop :=
  ∀ pre post n target, t = pre ++ .left n target :: post → .called (n, target) ∈ pre

/-- Every cpu node has both properties, and "reg" is what its core compares. -/
structure CpuNodes (nodes : List CpuNode) (mpidr : Nat → Nat) : Prop where
  release : ∀ n < nodes.length, ∃ addr, spinAddr (some nodes) n = some addr
  reg : ∀ n < nodes.length, ∃ data, (cpuNode (some nodes) n).bind CpuNode.reg = some data ∧
    oneOrTwoCells data = some (shimId (mpidr n))
  distinct : ∀ m < nodes.length, ∀ n < nodes.length, shimId (mpidr m) = shimId (mpidr n) → m = n

/-! ### The release words before the second call -/

section
variable {a b v : Nat}

theorem readPtr_byte (m : Mem) (p : Nat) {i : Nat} (hi : i < 8) :
    readPtr m p / 256 ^ i % 256 = (m (p + i)).toNat := by
  rw [readPtr_eq]
  have h := fun i => (m (p + i)).toNat_lt
  have hz : (m (p + 0)).toNat = (m p).toNat := rfl
  have h0 : (m p).toNat < 2 ^ 8 := h 0
  have h1 := h 1
  have h2 := h 2
  have h3 := h 3
  have h4 := h 4
  have h5 := h 5
  have h6 := h 6
  have h7 := h 7
  interval_cases i <;> omega

theorem byte_of_ge (hv : v < 2 ^ 64) {i : Nat} (hi : 8 ≤ i) : v / 256 ^ i % 256 = 0 := by
  have hpow : 256 ^ 8 ≤ 256 ^ i := Nat.pow_le_pow_right (by decide) hi
  rw [Nat.div_eq_of_lt (by omega)]

theorem written_byte (hv : v < 2 ^ 64) (x : Nat) :
    (writePtr (fun _ => 0) a v x).toNat = if a ≤ x then v / 256 ^ (x - a) % 256 else 0 := by
  by_cases hin : a ≤ x ∧ x < a + 8
  · rw [if_pos hin.1, ← writePtr_byte (fun _ => 0) a v (i := x - a) (by omega),
      Nat.add_sub_cancel' hin.1]
  · rw [writePtr_of_not_mem hin]
    split
    · exact (byte_of_ge hv (by omega)).symm
    · rfl

theorem readPtr_written (hv : v < 2 ^ 64) (h0 : v ≠ 0)
    (h : readPtr (writePtr (fun _ => 0) a v) b = v) : b = a := by
  have hbyte : ∀ i < 8, v / 256 ^ i % 256 = if a ≤ b + i then v / 256 ^ (b + i - a) % 256 else 0 :=
    fun i hi => by
    rw [← written_byte hv, ← readPtr_byte _ _ hi, h]
  by_contra hne
  have hzero : ∀ i, v / 256 ^ i % 256 = 0 := by
    intro i
    rcases Nat.lt_or_gt_of_ne hne with hlt | hgt
    · -- each byte is the one `a - b` places before it
      induction i using Nat.strong_induction_on with
      | _ i ih =>
        by_cases hi : i < 8
        · rw [hbyte i hi]
          split
          · exact ih _ (by omega)
          · rfl
        · exact byte_of_ge hv (by omega)
    · -- each byte is the one `b - a` places behind it
      by_cases hi : i < 8
      · induction hk : 8 - i using Nat.strong_induction_on generalizing i with
        | _ k ih =>
          rw [hbyte i hi, if_pos (by omega)]
          by_cases hnext : b + i - a < 8
          · exact ih (8 - (b + i - a)) (by omega) _ hnext rfl
          · exact byte_of_ge hv (by omega)
      · exact byte_of_ge hv (by omega)
  apply h0
  rw [← readPtr_writePtr_self (fun _ => 0) a hv]
  refine readPtr_of_zero fun i _ => UInt8.toNat_inj.mp ?_
  rw [written_byte hv, if_pos (by omega), hzero]
  rfl

end

/-! ### Runs -/

@[simp] theorem Shim.goto_self (s : Shim) (n : Nat) (c : ShimCore) : (s.goto n c).core n = c :=
  Function.update_self _ _ _

@[simp] theorem Shim.goto_ne {m n : Nat} (s : Shim) (c : ShimCore) (h : m ≠ n) :
    (s.goto n c).core m = s.core m :=
  Function.update_of_ne h _ _

def ShimBoot.call? : ShimBoot → Option (Nat × Nat)
  | .wait call => call
  | .release call | .id call => some call
  | .apFail | .crashed _ => none

section
variable {nodes : List CpuNode} {mpidr : Nat → Nat} {rtn b n : Nat} {calls : List (Nat × Nat)}
  {t : List ShimEvent}
  {s s' : Shim} {e : ShimEvent} {c : ShimCore}

theorem cpuNode_isSome : (cpuNode (some nodes) n).isSome ↔ n < nodes.length := by
  simp [cpuNode]

/-- The steps there are over a tree whose cpu nodes have their properties. -/
inductive ShimMove (nodes : List CpuNode) (mpidr : Nat → Nat) (rtn b : Nat) (s : Shim) :
    ShimEvent → Shim → Prop
  | wait : ShimMove nodes mpidr rtn b s .waited s
  | call {last : Option (Nat × Nat)} {call : Nat × Nat} {calls : List (Nat × Nat)}
      (hboot : s.boot = .wait last)
      (hlast : s.started last = true) (hcalls : s.calls = call :: calls) :
      ShimMove nodes mpidr rtn b s (.called call) { s with start := call.2, calls := calls,
                                                           boot := .release call }
  | signal {call : Nat × Nat} {addr : Nat} (hboot : s.boot = .release call)
      (haddr : spinAddr (some nodes) call.1 = some addr) :
      ShimMove nodes mpidr rtn b s (.signalled call.1)
        { s with mem := writePtr s.mem addr rtn, boot := .id call }
  | setId {call : Nat × Nat} (hboot : s.boot = .id call) :
      ShimMove nodes mpidr rtn b s (.returned call.1 1)
        { s with id := shimId (mpidr call.1), boot := .wait (some call) }
  | poll {n : Nat} : ShimMove nodes mpidr rtn b s (.polled n) s
  | release {n addr : Nat} (hn : n < nodes.length) (hb : n ≠ b) (hc : s.core n = .firmware)
      (haddr : spinAddr (some nodes) n = some addr) (hv : readPtr s.mem addr ≠ 0) :
      ShimMove nodes mpidr rtn b s (.released n)
        (s.goto n (if readPtr s.mem addr = rtn then .spinShimRtn
          else .elsewhere (readPtr s.mem addr)))
  | matched {n : Nat} (hn : n < nodes.length) (hb : n ≠ b) (hc : s.core n = .spinShimRtn)
      (hid : s.id = shimId (mpidr n)) :
      ShimMove nodes mpidr rtn b s (.matched n) (s.goto n .matched)
  | leave {n : Nat} (hn : n < nodes.length) (hb : n ≠ b) (hc : s.core n = .matched) :
      ShimMove nodes mpidr rtn b s (.left n s.start) (s.goto n (.gone s.start))

theorem fdtSmpSpinStartStep_move (htree : CpuNodes nodes mpidr)
    (hcall : ∀ call, s.boot.call? = some call → call.1 < nodes.length)
    (h : fdtSmpSpinStartStep (some nodes) rtn s = some (e, s')) :
    ShimMove nodes mpidr rtn b s e s' := by
  rw [fdtSmpSpinStartStep] at h
  cases hboot : s.boot with
  | wait last =>
    rw [hboot] at h
    dsimp only at h
    split at h
    · next hlast =>
      cases hcalls : s.calls with
      | nil =>
        rw [hcalls] at h
        cases h
      | cons call calls =>
        rw [hcalls] at h
        cases h
        exact .call hboot hlast hcalls
    · cases h
      exact .wait
  | release call =>
    obtain ⟨addr, haddr⟩ := htree.release call.1 (hcall call (by rw [hboot]; rfl))
    rw [hboot] at h
    dsimp only at h
    rw [haddr] at h
    cases h
    exact .signal hboot haddr
  | id call =>
    obtain ⟨data, hdata, hid⟩ := htree.reg call.1 (hcall call (by rw [hboot]; rfl))
    rw [hboot] at h
    dsimp only at h
    rw [hdata] at h
    dsimp only at h
    rw [hid] at h
    cases h
    exact .setId hboot
  | apFail | crashed =>
    rw [hboot] at h
    cases h

theorem spinShimRtnStep_move (hn : n < nodes.length) (hb : n ≠ b)
    (h : spinShimRtnStep (some nodes) mpidr rtn n s = some (e, s')) :
    ShimMove nodes mpidr rtn b s e s' := by
  rw [spinShimRtnStep] at h
  cases hc : s.core n with
  | firmware =>
    rw [hc] at h
    dsimp only at h
    cases haddr : spinAddr (some nodes) n with
    | none =>
      rw [haddr] at h
      cases h
    | some addr =>
      rw [haddr] at h
      dsimp only at h
      split at h
      · cases h
        exact .poll
      · next hv =>
        cases h
        exact .release hn hb hc haddr hv
  | spinShimRtn =>
    rw [hc] at h
    dsimp only at h
    split at h
    · next hid =>
      cases h
      exact .matched hn hb hc hid
    · cases h
      exact .poll
  | matched =>
    rw [hc] at h
    cases h
    exact .leave hn hb hc
  | elsewhere | gone =>
    rw [hc] at h
    cases h

theorem shimStep_move {thread : ShimThread} (htree : CpuNodes nodes mpidr)
    (hcall : ∀ call, s.boot.call? = some call → call.1 < nodes.length)
    (h : shimStep (some nodes) mpidr rtn b thread s = some (e, s')) :
    ShimMove nodes mpidr rtn b s e s' := by
  cases thread with
  | boot => exact fdtSmpSpinStartStep_move htree hcall h
  | core n =>
    obtain ⟨⟨hn, hb⟩, h⟩ := Option.ite_none_right_eq_some.mp h
    exact spinShimRtnStep_move (cpuNode_isSome.mp hn) hb h

def Shim.Untouched (s : Shim) : Prop := s.id = 0 ∧ s.mem = (fun _ => 0) ∧ ∀ n, s.core n = .firmware

def Shim.Past (nodes : List CpuNode) (mpidr : Nat → Nat) (s : Shim) : Prop :=
  ∃ n < nodes.length, s.id = shimId (mpidr n) ∧ (s.core n).isGone = true

/-- What `spin_shim_id` says while the boot core stands where it does. -/
def ShimTurn (nodes : List CpuNode) (mpidr : Nat → Nat) (rtn : Nat) (calls : List (Nat × Nat))
    (s : Shim) : Prop :=
  match s.boot with
  | .wait none => s.Untouched ∧ s.calls = calls
  | .wait (some call) => s.id = shimId (mpidr call.1)
  | .release call => s.Untouched ∧ calls.head? = some call ∨ s.Past nodes mpidr
  | .id call =>
    (s.id = 0 ∧ calls.head? = some call ∧ ∃ addr, spinAddr (some nodes) call.1 = some addr ∧
      s.mem = writePtr (fun _ => 0) addr rtn ∧ ∀ n, s.core n = .spinShimRtn →
      spinAddr (some nodes) n = some addr) ∨ s.Past nodes mpidr
  | .apFail | .crashed _ => False

theorem Shim.Past.goto (h : s.Past nodes mpidr) (hgone : (s.core n).isGone = false) :
    (s.goto n c).Past nodes mpidr := by
  obtain ⟨m, hm, hid, hmgone⟩ := h
  have hne : m ≠ n := by
    rintro rfl
    rw [hgone] at hmgone
    cases hmgone
  exact ⟨m, hm, hid, by rw [Shim.goto_ne _ _ hne]; exact hmgone⟩

theorem ShimTurn.goto (h : ShimTurn nodes mpidr rtn calls s) (hrtn : rtn < 2 ^ 64) (h0 : rtn ≠ 0)
    (huntouched : ¬ s.Untouched) (hgone : (s.core n).isGone = false)
    (hshim : c = .spinShimRtn → ∃ addr, spinAddr (some nodes) n = some addr ∧
      readPtr s.mem addr = rtn) :
    ShimTurn nodes mpidr rtn calls (s.goto n c) := by
  have hsame : (s.goto n c).boot = s.boot := rfl
  rw [ShimTurn] at h ⊢
  rw [hsame]
  cases hboot : s.boot with
  | wait last =>
    rw [hboot] at h
    cases last with
    | none => exact absurd h.1 huntouched
    | some call => exact h
  | release call =>
    rw [hboot] at h
    rcases h with h | h
    · exact absurd h.1 huntouched
    · exact .inr (h.goto hgone)
  | id call =>
    rw [hboot] at h
    rcases h with ⟨hid, hhead, addr, haddr, hmem, hall⟩ | h
    · refine .inl ⟨hid, hhead, addr, haddr, hmem, fun m hm => ?_⟩
      by_cases hmn : m = n
      · subst hmn
        rw [Shim.goto_self] at hm
        obtain ⟨addr', haddr', hread⟩ := hshim hm
        rw [hmem] at hread
        rw [haddr', readPtr_written hrtn h0 hread]
      · rw [Shim.goto_ne _ _ hmn] at hm
        exact hall m hm
    · exact .inr (h.goto hgone)
  | apFail | crashed =>
    rw [hboot] at h
    exact h

theorem ShimTurn.matched_call (h : ShimTurn nodes mpidr rtn calls s) (htree : CpuNodes nodes mpidr)
    (hcall : ∀ call, s.boot.call? = some call → call.1 < nodes.length)
    (hfirst : ∀ call, calls.head? = some call → ∀ m < nodes.length, m ≠ b → m ≠ call.1 →
      ¬ (shimId (mpidr m) = 0 ∧ spinAddr (some nodes) m = spinAddr (some nodes) call.1))
    (hn : n < nodes.length) (hb : n ≠ b) (hc : s.core n = .spinShimRtn)
    (hid : s.id = shimId (mpidr n)) :
    ∃ start, s.boot.call? = some (n, start) := by
  have hpast : ¬ s.Past nodes mpidr := by
    rintro ⟨m, hm, hmid, hgone⟩
    rw [htree.distinct m hm n hn (hmid.symm.trans hid), hc] at hgone
    cases hgone
  have huntouched : ¬ s.Untouched := fun hu => nomatch hc.symm.trans (hu.2.2 n)
  rw [ShimTurn] at h
  cases hboot : s.boot with
  | wait last =>
    rw [hboot] at h
    cases last with
    | none => exact absurd h.1 huntouched
    | some call =>
      have hlt := hcall call (by rw [hboot]; rfl)
      exact ⟨call.2, by rw [htree.distinct n hn call.1 hlt (hid.symm.trans h)]; rfl⟩
  | release call =>
    rw [hboot] at h
    rcases h with h | h
    · exact absurd h.1 huntouched
    · exact absurd h hpast
  | id call =>
    rw [hboot] at h
    rcases h with ⟨h0, hhead, addr, haddr, _, hall⟩ | h
    · have heq : n = call.1 := by
        by_contra hne
        exact hfirst call hhead n hn hb hne ⟨hid.symm.trans h0, (hall n hc).trans haddr.symm⟩
      exact ⟨call.2, by rw [heq]; rfl⟩
    · exact absurd h hpast
  | apFail | crashed =>
    rw [hboot] at h
    exact h.elim

structure ShimInv (nodes : List CpuNode) (mpidr : Nat → Nat) (rtn : Nat) (calls : List (Nat × Nat))
    (t : List ShimEvent) (s : Shim) : Prop where
  turn : ShimTurn nodes mpidr rtn calls s
  matched : ∀ n, s.core n = .matched → ∃ start, s.boot.call? = some (n, start)
  call : ∀ call, s.boot.call? = some call → s.start = call.2 ∧ .called call ∈ t ∧ call ∈ calls
  rest : ∀ call ∈ s.calls, call ∈ calls
  safe : ShimSafe t

theorem ShimSafe.concat (h : ShimSafe t)
    (he : ∀ n target, e = .left n target → .called (n, target) ∈ t) : ShimSafe (t ++ [e]) := by
  intro pre post n target ht
  rcases List.eq_nil_or_concat post with rfl | ⟨post', e', rfl⟩
  · obtain ⟨rfl, hlast⟩ := List.append_inj' ht rfl
    exact he n target (List.singleton_inj.mp hlast)
  · rw [List.concat_eq_append, ← List.cons_append, ← List.append_assoc] at ht
    exact h pre post' n target (List.append_inj' ht rfl).1

theorem ShimInv.init (nodes : List CpuNode) (mpidr : Nat → Nat) (rtn : Nat)
    (calls : List (Nat × Nat)) :
    ShimInv nodes mpidr rtn calls [] (shimInit calls) where
  turn := ⟨⟨rfl, rfl, fun _ => rfl⟩, rfl⟩
  matched _ h := nomatch h
  call _ h := nomatch h
  rest _ h := h
  safe pre post n target ht := by simp at ht

theorem ShimInv.of_boot (h : ShimInv nodes mpidr rtn calls t s) (hcore : s'.core = s.core)
    (hstart : s'.start = s.start) (hcalls : s'.calls = s.calls)
    (hcall : s'.boot.call? = s.boot.call?) (hturn : ShimTurn nodes mpidr rtn calls s')
    (he : ∀ n target, e ≠ .left n target) : ShimInv nodes mpidr rtn calls (t ++ [e]) s' where
  turn := hturn
  matched n hn := hcall ▸ h.matched n (hcore ▸ hn)
  call c hc := by
    obtain ⟨h1, h2, h3⟩ := h.call c (hcall ▸ hc)
    exact ⟨hstart.trans h1, List.mem_append_left _ h2, h3⟩
  rest c hc := h.rest c (hcalls ▸ hc)
  safe := h.safe.concat fun n target heq => absurd heq (he n target)

theorem ShimInv.of_core (h : ShimInv nodes mpidr rtn calls t s)
    (hturn : ShimTurn nodes mpidr rtn calls (s.goto n c))
    (hmatched : c = .matched → ∃ start, s.boot.call? = some (n, start))
    (he : ∀ m target, e = .left m target → .called (m, target) ∈ t) :
    ShimInv nodes mpidr rtn calls (t ++ [e]) (s.goto n c) where
  turn := hturn
  matched m hm := by
    by_cases hmn : m = n
    · subst hmn
      rw [Shim.goto_self] at hm
      exact hmatched hm
    · rw [Shim.goto_ne _ _ hmn] at hm
      exact h.matched m hm
  call call hc := by
    obtain ⟨h1, h2, h3⟩ := h.call call hc
    exact ⟨h1, List.mem_append_left _ h2, h3⟩
  rest := h.rest
  safe := h.safe.concat he

theorem ShimInv.call_next {last : Option (Nat × Nat)} {next : Nat × Nat} {rest : List (Nat × Nat)}
    (h : ShimInv nodes mpidr rtn calls t s) (hcalls : ∀ call ∈ calls, call.1 < nodes.length)
    (hboot : s.boot = .wait last) (hlast : s.started last = true) (hnext : s.calls = next :: rest) :
    ShimInv nodes mpidr rtn calls (t ++ [.called next])
      { s with start := next.2, calls := rest, boot := .release next } where
  turn := by
    have hturn := h.turn
    rw [ShimTurn, hboot] at hturn
    cases last with
    | none => exact .inl ⟨hturn.1, by rw [← hturn.2, hnext]; rfl⟩
    | some call =>
      exact .inr ⟨call.1, hcalls call (h.call call (by rw [hboot]; rfl)).2.2, hturn, hlast⟩
  matched n hn := by
    obtain ⟨start, hstart⟩ := h.matched n hn
    rw [hboot] at hstart
    obtain rfl : last = some (n, start) := hstart
    rw [Shim.started, hn] at hlast
    cases hlast
  call c hc := by
    obtain rfl := Option.some.inj hc
    exact ⟨rfl, List.mem_append_right _ (List.mem_singleton.mpr rfl),
      h.rest _ (hnext ▸ List.mem_cons_self)⟩
  rest c hc := h.rest c (hnext ▸ List.mem_cons_of_mem _ hc)
  safe := h.safe.concat nofun

theorem ShimInv.move (h : ShimInv nodes mpidr rtn calls t s) (htree : CpuNodes nodes mpidr)
    (hrtn : rtn < 2 ^ 64) (h0 : rtn ≠ 0)
    (hcalls : ∀ call ∈ calls, call.1 < nodes.length)
    (hfirst : ∀ call, calls.head? = some call → ∀ m < nodes.length, m ≠ b → m ≠ call.1 →
      ¬ (shimId (mpidr m) = 0 ∧ spinAddr (some nodes) m = spinAddr (some nodes) call.1))
    (hm : ShimMove nodes mpidr rtn b s e s') : ShimInv nodes mpidr rtn calls (t ++ [e]) s' := by
  have hcall : ∀ call, s.boot.call? = some call → call.1 < nodes.length := fun call hc =>
    hcalls call (h.call call hc).2.2
  cases hm with
  | wait | poll => exact h.of_boot rfl rfl rfl rfl h.turn nofun
  | call hboot hlast hnext => exact h.call_next hcalls hboot hlast hnext
  | @signal call addr hboot haddr =>
    refine h.of_boot rfl rfl rfl (by rw [hboot]; rfl) ?_ nofun
    have hturn := h.turn
    rw [ShimTurn, hboot] at hturn
    rcases hturn with ⟨⟨hid, hmem, hcore⟩, hhead⟩ | hpast
    · refine .inl ⟨hid, hhead, addr, haddr, by rw [hmem], fun n hn => ?_⟩
      exact nomatch hn.symm.trans (hcore n)
    · exact .inr hpast
  | setId hboot => exact h.of_boot rfl rfl rfl (by rw [hboot]; rfl) rfl nofun
  | @release n addr hn hb hc haddr hv =>
    refine h.of_core
      (h.turn.goto hrtn h0 (fun hu => hv ?_) (by rw [hc]; rfl) fun hshim => ⟨addr, haddr, ?_⟩)
      (fun hx => ?_) nofun
    · rw [hu.2.1]
      exact readPtr_of_zero fun _ _ => rfl
    · by_contra hne
      rw [if_neg hne] at hshim
      cases hshim
    · split at hx <;> cases hx
  | @matched n hn hb hc hid =>
    refine h.of_core (h.turn.goto hrtn h0 (fun hu => ?_) (by rw [hc]; rfl) nofun)
      (fun _ => ?_) nofun
    · exact nomatch hc.symm.trans (hu.2.2 n)
    · exact h.turn.matched_call htree hcall hfirst hn hb hc hid
  | @leave n hn hb hc =>
    refine h.of_core (h.turn.goto hrtn h0 (fun hu => ?_) (by rw [hc]; rfl) nofun) nofun
      fun m target heq => ?_
    · exact nomatch hc.symm.trans (hu.2.2 n)
    · obtain ⟨rfl, rfl⟩ := ShimEvent.left.inj heq
      obtain ⟨start, hstart⟩ := h.matched n hc
      obtain ⟨hs, hin, _⟩ := h.call _ hstart
      rw [hs]
      exact hin

/-- A core with id 0 that shares the first call's release word leaves before the boot
core has stored the id. -/
theorem early_run {call : Nat × Nat} (htree : CpuNodes nodes mpidr) (h0 : rtn ≠ 0)
    (hrtn : rtn < 2 ^ 64) (hcall : call.1 < nodes.length) (hhead : calls.head? = some call)
    (hn : n < nodes.length) (hb : n ≠ b) (hid : shimId (mpidr n) = 0)
    (hshare : spinAddr (some nodes) n = spinAddr (some nodes) call.1) :
    ∃ s, Trace (shimStep (some nodes) mpidr rtn b) (shimInit calls)
      [.called call, .signalled call.1, .released n, .matched n, .left n call.2] s := by
  obtain ⟨addr, haddr⟩ := htree.release call.1 hcall
  have haddrn := hshare.trans haddr
  obtain ⟨rest, rfl⟩ := List.head?_eq_some_iff.mp hhead
  have hcore : (cpuNode (some nodes) n).isSome ∧ n ≠ b := ⟨cpuNode_isSome.mpr hn, hb⟩
  let s1 : Shim := { shimInit (call :: rest) with start := call.2, calls := rest,
                                                  boot := .release call }
  let s2 : Shim := { s1 with mem := writePtr s1.mem addr rtn, boot := .id call }
  have h1 : shimStep (some nodes) mpidr rtn b .boot (shimInit (call :: rest)) =
      some (.called call, s1) := rfl
  have h2 : shimStep (some nodes) mpidr rtn b .boot s1 = some (.signalled call.1, s2) := by
    change (match spinAddr (some nodes) call.1 with | none => _ | some addr => _) = _
    rw [haddr]
  have hread : readPtr s2.mem addr = rtn := readPtr_writePtr_self _ _ hrtn
  have h3 : shimStep (some nodes) mpidr rtn b (.core n) s2 =
      some (.released n, s2.goto n .spinShimRtn) := by
    rw [shimStep, if_pos hcore]
    change (match spinAddr (some nodes) n with | none => _ | some addr => _) = _
    rw [haddrn]
    dsimp only
    rw [hread, if_neg h0, if_pos rfl]
  have h4 : shimStep (some nodes) mpidr rtn b (.core n) (s2.goto n .spinShimRtn) =
      some (.matched n, (s2.goto n .spinShimRtn).goto n .matched) := by
    rw [shimStep, if_pos hcore, spinShimRtnStep, Shim.goto_self]
    exact if_pos hid.symm
  have h5 : shimStep (some nodes) mpidr rtn b (.core n) ((s2.goto n .spinShimRtn).goto n .matched) =
      some (.left n call.2, ((s2.goto n .spinShimRtn).goto n .matched).goto n (.gone call.2)) := by
    rw [shimStep, if_pos hcore, spinShimRtnStep, Shim.goto_self]
    rfl
  exact ⟨_, ((((Trace.start.next h1).next h2).next h3).next h4).next h5⟩

/-- Each core leaves after its own call and to its own start in every order of steps, if
and only if no other secondary core with id 0 shares the release word of the first
call. -/
theorem fdt_smp_spin_start_iff (htree : CpuNodes nodes mpidr) (h0 : rtn ≠ 0) (hrtn : rtn < 2 ^ 64)
    (hcalls : ∀ call ∈ calls, call.1 < nodes.length) :
    (∀ t s, Trace (shimStep (some nodes) mpidr rtn b) (shimInit calls) t s → ShimSafe t) ↔
      ∀ call, calls.head? = some call → ∀ n < nodes.length, n ≠ b → n ≠ call.1 →
        ¬ (shimId (mpidr n) = 0 ∧ spinAddr (some nodes) n = spinAddr (some nodes) call.1) := by
  constructor
  · rintro hsafe call hhead n hn hb hne ⟨hid, hshare⟩
    have hcall : call.1 < nodes.length := hcalls call (List.mem_of_mem_head? hhead)
    obtain ⟨s, run⟩ := early_run htree h0 hrtn hcall hhead hn hb hid hshare
    have hcalled := hsafe _ s run [.called call, .signalled call.1, .released n,
      .matched n] [] n call.2 rfl
    simp only [List.mem_cons, List.not_mem_nil, ShimEvent.called.injEq, reduceCtorEq,
      or_false] at hcalled
    exact hne (congrArg Prod.fst hcalled)
  · intro hfirst t s run
    have hinv : ShimInv nodes mpidr rtn calls t s := run.induct (ShimInv.init nodes mpidr rtn calls)
      fun _ s _ _ _ h hstep => h.move htree hrtn h0 hcalls hfirst
        (shimStep_move htree (fun call hc => hcalls call (h.call call hc).2.2) hstep)
    exact hinv.safe

end

def sharedCpu (reg : UInt8) : CpuNode := ⟨some [0, 0, 0, 0, 0, 0, 0x10, 0], some [0, 0, 0, reg]⟩

theorem sharedCpus {r0 r1 r2 : UInt8} {mpidr : Nat → Nat}
    (hreg : ∀ n < 3, oneOrTwoCells [0, 0, 0, ([r0, r1, r2] : List UInt8).getD n 0] =
      some (shimId (mpidr n)))
    (hne : ∀ m < 3, ∀ n < 3, shimId (mpidr m) = shimId (mpidr n) → m = n) :
    CpuNodes [sharedCpu r0, sharedCpu r1, sharedCpu r2] mpidr where
  release n hn := ⟨0x1000, by
    change n < 3 at hn
    interval_cases n <;> rfl⟩
  reg n hn := by
    change n < 3 at hn
    have := hreg n hn
    interval_cases n <;> exact ⟨_, rfl, this⟩
  distinct := hne

/-- The boot core has id 0 and the cores 1 and 2 share a release word. -/
theorem fdt_smp_spin_start_iff_example :
    (∀ t s, Trace (shimStep (some [sharedCpu 0, sharedCpu 1, sharedCpu 2]) id 0x200000 0)
        (shimInit [(2, 0x80000), (1, 0x90000)]) t s → ShimSafe t) ↔
      ∀ call, [((2 : Nat), (0x80000 : Nat)), (1, 0x90000)].head? = some call →
        ∀ n < 3, n ≠ 0 → n ≠ call.1 →
        ¬ (shimId (id n) = 0 ∧ spinAddr (some [sharedCpu 0, sharedCpu 1, sharedCpu 2]) n =
          spinAddr (some [sharedCpu 0, sharedCpu 1, sharedCpu 2]) call.1) :=
  fdt_smp_spin_start_iff (sharedCpus (by decide) (by decide)) (by decide) (by decide) (by decide)

/-- Core 2 has id 0: it leaves for the start of core 1. -/
theorem spin_shim_leaves_early :
    CpuNodes [sharedCpu 1, sharedCpu 2, sharedCpu 0] (fun n => [1, 2, 0].getD n 3) ∧
      ∃ t s, Trace (shimStep (some [sharedCpu 1, sharedCpu 2, sharedCpu 0])
        (fun n => [1, 2, 0].getD n 3) 0x200000 0)
        (shimInit [(1, 0x80000)]) t s ∧ .left 2 0x80000 ∈ t ∧ ¬ ShimSafe t := by
  have htree : CpuNodes [sharedCpu 1, sharedCpu 2, sharedCpu 0] fun n => [1, 2, 0].getD n 3 :=
    sharedCpus (by decide) (by decide)
  obtain ⟨s, run⟩ : ∃ s, Trace (shimStep (some [sharedCpu 1, sharedCpu 2, sharedCpu 0])
      (fun n => [1, 2, 0].getD n 3) 0x200000 0)
      (shimInit [(1, 0x80000)]) [.called (1, 0x80000), .signalled 1, .released 2, .matched 2,
        .left 2 0x80000] s :=
    early_run htree (by decide) (by decide) (by decide) rfl (by decide) (by decide) rfl rfl
  refine ⟨htree, _, s, run, by decide, fun hsafe => ?_⟩
  have hcalled := hsafe [.called (1, 0x80000), .signalled 1, .released 2, .matched 2]
    [] 2 0x80000 rfl
  revert hcalled
  decide

end QnxStartup
