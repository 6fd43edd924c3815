import Mathlib.Order.Interval.Finset.Nat
import QnxStartup.Interleaving
import QnxStartup.Machine

/-! `spin_smp_init.S` and `spin_smp.c`: secondary cores take their indexes from a counter, and wait
until the shared word names theirs. -/

namespace QnxStartup

/-- A secondary core in `spin_smp_init`, by its next access to shared memory. -/
inductive SpinCore where
  | load
  | store (w9 : Nat) (exclusive : Bool)
  | poll (w9 : Nat)
  | clear (w9 x2 : Nat)
  | gone (w9 target : Nat)
  deriving DecidableEq

/-- `spin_num_cpu`, `spin_start_addr`, the cores, and the boot core with the calls of
`spin_smp_start` it has still to make and the one it is in. -/
structure Spin where
  numCpu : Nat
  startAddr : Nat
  core : Nat → SpinCore
  calls : List (Nat × Nat)
  current : Option (Nat × Nat)

inductive SpinEvent where
  | loaded (i : Nat)
  | registered (i index : Nat)
  | failed (i : Nat)
  | polled (i : Nat)
  | left (i index : Nat)
  | branched (i index target : Nat)
  | called (call : Nat × Nat)
  | spun
  | returned (call : Nat × Nat)
  deriving DecidableEq

/-- A write to the counter ends what the other cores have reserved. -/
def SpinCore.loseMonitor : SpinCore → SpinCore
  | .store w9 _ => .store w9 false
  | c => c

def spinWord (call : Nat × Nat) : Nat := call.2 ||| u64 (call.1 <<< 56)

def Spin.goto (s : Spin) (i : Nat) (c : SpinCore) : Spin :=
  { s with core := Function.update s.core i c }

def Spin.register (s : Spin) (i w9 : Nat) : Spin :=
  { s with numCpu := u32 (w9 + 1),
           core := Function.update (fun j => (s.core j).loseMonitor) i (.poll w9) }

def spinInit (calls : List (Nat × Nat)) : Spin := ⟨1, 0, fun _ => .load, calls, none⟩

def SpinCore.index : SpinCore → Option Nat
  | .load | .store .. => none
  | .poll w9 | .clear w9 _ | .gone w9 _ => some w9

@[simp] def SpinEvent.called? : SpinEvent → Option (Nat × Nat)
  | .called call => some call
  | _ => none

@[simp] def SpinEvent.left? : SpinEvent → Option Nat
  | .left _ index => some index
  | _ => none

/-- The index of a core that has cleared the word, and where it branches to. -/
@[simp] def SpinEvent.branched? : SpinEvent → Option (Nat × Nat)
  | .branched _ index target => some (index, target)
  | _ => none

@[simp] def SpinEvent.returned? : SpinEvent → Option (Nat × Nat)
  | .returned call => some call
  | _ => none

/-- What holds at any time of a run with the events `t`. The calls, the cores that leave
their loops and branch, and the returns follow each other in the order of the calls. -/
structure SpinSafe (k : Nat) (calls : List (Nat × Nat)) (t : List SpinEvent) (s : Spin) : Prop where
  range : ∀ i < k, ∀ w, (s.core i).index = some w → 1 ≤ w ∧ w ≤ k
  distinct : ∀ i < k, ∀ j < k, ∀ w, (s.core i).index = some w → (s.core j).index = some w → i = j
  all : (∀ i < k, (s.core i).index ≠ none) → s.numCpu = k + 1 ∧ ∀ w, 1 ≤ w → w ≤ k →
    ∃ i < k, (s.core i).index = some w
  called : t.filterMap SpinEvent.called? <+: calls
  left : t.filterMap SpinEvent.left? <+: (t.filterMap SpinEvent.called?).map Prod.fst
  branched : t.filterMap SpinEvent.branched? <+: t.filterMap SpinEvent.called?
  returned : t.filterMap SpinEvent.returned? <+: t.filterMap SpinEvent.branched?
  leaves : ∀ i w, .left i w ∈ t → i < k ∧ (s.core i).index = some w
  gone : ∀ i w target, s.core i = .gone w target ↔ .branched i w target ∈ t

/-! ### The counter -/

def registered (k : Nat) (s : Spin) : Finset Nat :=
  (Finset.range k).filter fun i => (s.core i).index ≠ none

structure Indexed (k : Nat) (s : Spin) : Prop where
  numCpu : s.numCpu = (registered k s).card + 1
  range : ∀ i < k, ∀ w, (s.core i).index = some w → 1 ≤ w ∧ w < s.numCpu
  distinct : ∀ i < k, ∀ j < k, ∀ w, (s.core i).index = some w → (s.core j).index = some w → i = j
  monitor : ∀ i < k, ∀ w, s.core i = .store w true → w = s.numCpu

section
variable {k i : Nat} {s s' : Spin} {ok : Bool} {e : SpinEvent} {c : SpinCore}
  {calls : List (Nat × Nat)} {t : List SpinEvent}

theorem Indexed.of_same (h : Indexed k s) (hnum : s'.numCpu = s.numCpu)
    (hindex : ∀ j, (s'.core j).index = (s.core j).index)
    (hmonitor : ∀ j < k, ∀ w, s'.core j = .store w true → w = s.numCpu) : Indexed k s' := by
  have hreg : registered k s' = registered k s := Finset.filter_congr fun j _ => by rw [hindex j]
  refine ⟨by rw [hnum, hreg]; exact h.numCpu, fun j hj w hw => ?_, fun j hj l hl w hw hw' => ?_,
    fun j hj w hw => ?_⟩
  · rw [hnum]
    exact h.range j hj w (hindex j ▸ hw)
  · exact h.distinct j hj l hl w (hindex j ▸ hw) (hindex l ▸ hw')
  · rw [hnum]
    exact hmonitor j hj w hw

@[simp] theorem Spin.goto_self (s : Spin) (i : Nat) (c : SpinCore) : (s.goto i c).core i = c :=
  Function.update_self _ _ _

@[simp] theorem Spin.goto_ne {j : Nat} (s : Spin) (c : SpinCore) (h : j ≠ i) :
    (s.goto i c).core j = s.core j :=
  Function.update_of_ne h _ _

theorem Indexed.goto (h : Indexed k s) (hc : c.index = (s.core i).index)
    (hmonitor : ∀ w, c = .store w true → w = s.numCpu) :
    Indexed k (s.goto i c) := by
  refine h.of_same rfl (fun j => ?_) fun j hj w hw => ?_
  · by_cases hj : j = i
    · subst hj
      rw [Spin.goto_self, hc]
    · rw [Spin.goto_ne _ _ hj]
  · by_cases hji : j = i
    · subst hji
      rw [Spin.goto_self] at hw
      exact hmonitor w hw
    · rw [Spin.goto_ne _ _ hji] at hw
      exact h.monitor j hj w hw

theorem index_loseMonitor (c : SpinCore) : c.loseMonitor.index = c.index := by
  cases c <;> rfl

theorem loseMonitor_ne (c : SpinCore) (w : Nat) : c.loseMonitor ≠ .store w true := by
  cases c <;> simp [SpinCore.loseMonitor]

theorem registered_card_le (k : Nat) (s : Spin) : (registered k s).card ≤ k :=
  (Finset.card_filter_le _ _).trans_eq (Finset.card_range k)

inductive SpinMove (k : Nat) (s : Spin) : SpinEvent → Spin → Prop
  | load {i : Nat} (hi : i < k) (hc : s.core i = .load) :
      SpinMove k s (.loaded i) (s.goto i (.store s.numCpu true))
  | register {i w : Nat} (hi : i < k) (hc : s.core i = .store w true) :
      SpinMove k s (.registered i w) (s.register i w)
  | fail {i w : Nat} {x : Bool} (hi : i < k) (hc : s.core i = .store w x) :
      SpinMove k s (.failed i) (s.goto i .load)
  | poll {i w : Nat} (hi : i < k) (hc : s.core i = .poll w) : SpinMove k s (.polled i) s
  | leave {i w : Nat} (hi : i < k) (hc : s.core i = .poll w) (hw : s.startAddr / 2 ^ 56 = w) :
      SpinMove k s (.left i w) (s.goto i (.clear w s.startAddr))
  | branch {i w x : Nat} (hi : i < k) (hc : s.core i = .clear w x) :
      SpinMove k s (.branched i w (x % 2 ^ 56)) { s.goto i (.gone w (x % 2 ^ 56)) with
        startAddr := 0 }
  | call {call : Nat × Nat} {calls : List (Nat × Nat)} (hcur : s.current = none)
      (hcalls : s.calls = call :: calls) :
      SpinMove k s (.called call) { s with startAddr := spinWord call, calls := calls,
                                           current := some call }
  | spin {call : Nat × Nat} (hcur : s.current = some call) (hw : s.startAddr ≠ 0) :
      SpinMove k s .spun s
  | ret {call : Nat × Nat} (hcur : s.current = some call) (hw : s.startAddr = 0) :
      SpinMove k s (.returned call) { s with current := none }

theorem Spin.register_self (s : Spin) (i w : Nat) : (s.register i w).core i = .poll w := by
  simp only [Spin.register, Function.update_self]

theorem Spin.register_ne {j : Nat} (s : Spin) (w : Nat) (h : j ≠ i) :
    (s.register i w).core j = (s.core j).loseMonitor := by
  simp only [Spin.register, Function.update_of_ne h]

theorem register_index {j w : Nat} (s : Spin) (h : j ≠ i) :
    ((s.register i w).core j).index = (s.core j).index := by
  rw [Spin.register_ne s w h, index_loseMonitor]

theorem registered_register {w : Nat} (hi : i < k) :
    registered k (s.register i w) = insert i (registered k s) := by
  ext j
  simp only [registered, Finset.mem_filter, Finset.mem_insert, Finset.mem_range]
  by_cases hj : j = i
  · subst hj
    rw [Spin.register_self]
    simp [SpinCore.index, hi]
  · rw [register_index s hj]
    simp [hj]

theorem Indexed.register {w : Nat} (h : Indexed k s) (hk : k < 255) (hi : i < k)
    (hc : s.core i = .store w true) :
    Indexed k (s.register i w) := by
  have hw : w = s.numCpu := h.monitor i hi w hc
  have hout : i ∉ registered k s := fun hin => (Finset.mem_filter.mp hin).2 (by rw [hc]; rfl)
  have hcard := h.numCpu
  have hle := registered_card_le k s
  have hnum : (s.register i w).numCpu = s.numCpu + 1 := by
    rw [← hw]
    exact u32_of_lt (by omega)
  have hold : ∀ j < k, ∀ v, (s.core j).index = some v → v ≠ w := fun j hj v hv => by
    have := (h.range j hj v hv).2
    omega
  refine ⟨?_, fun j hj v hv => ?_, fun j hj l hl v hv hv' => ?_, fun j hj v hv => ?_⟩
  · rw [hnum, registered_register hi, Finset.card_insert_of_notMem hout, hcard]
  · rw [hnum]
    by_cases hji : j = i
    · subst hji
      rw [Spin.register_self] at hv
      obtain rfl := Option.some.inj hv
      omega
    · rw [register_index s hji] at hv
      have := h.range j hj v hv
      omega
  · by_cases hji : j = i
    · subst hji
      by_cases hlj : l = j
      · exact hlj.symm
      · rw [Spin.register_self] at hv
        rw [register_index s hlj] at hv'
        exact absurd (Option.some.inj hv).symm (hold l hl v hv')
    · rw [register_index s hji] at hv
      by_cases hli : l = i
      · subst hli
        rw [Spin.register_self] at hv'
        exact absurd (Option.some.inj hv').symm (hold j hj v hv)
      · rw [register_index s hli] at hv'
        exact h.distinct j hj l hl v hv hv'
  · by_cases hji : j = i
    · subst hji
      rw [Spin.register_self] at hv
      cases hv
    · rw [Spin.register_ne s w hji] at hv
      exact absurd hv (loseMonitor_ne _ v)

theorem Indexed.move (h : Indexed k s) (hk : k < 255) (hm : SpinMove k s e s') : Indexed k s' := by
  cases hm with
  | load hi hc =>
    refine h.goto (by rw [hc]; rfl) fun w hw => ?_
    cases hw
    rfl
  | register hi hc => exact h.register hk hi hc
  | fail hi hc => exact h.goto (by rw [hc]; rfl) fun w hw => nomatch hw
  | leave hi hc hw => exact h.goto (by rw [hc]; rfl) fun w hw => nomatch hw
  | @branch i w x hi hc =>
    have hgo : Indexed k (s.goto i (.gone w (x % 2 ^ 56))) :=
      h.goto (by rw [hc]; rfl) fun w hw => nomatch hw
    exact hgo.of_same rfl (fun _ => rfl) hgo.monitor
  | poll | spin => exact h
  | call | ret => exact h.of_same rfl (fun _ => rfl) h.monitor

theorem Indexed.init (k : Nat) (calls : List (Nat × Nat)) : Indexed k (spinInit calls) := by
  refine ⟨?_, ?_, ?_, ?_⟩
  · simp [spinInit, registered, SpinCore.index]
  · intro i _ w hw
    cases hw
  · intro i _ j _ w hw
    cases hw
  · intro i _ w hw
    cases hw

theorem Indexed.all (h : Indexed k s) (hall : ∀ i < k, (s.core i).index ≠ none) :
    s.numCpu = k + 1 ∧ ∀ w, 1 ≤ w → w ≤ k → ∃ i < k, (s.core i).index = some w := by
  have hreg : registered k s = Finset.range k := Finset.filter_true_of_mem fun i hi =>
    hall i (Finset.mem_range.mp hi)
  have hnum : s.numCpu = k + 1 := by rw [h.numCpu, hreg, Finset.card_range]
  refine ⟨hnum, fun w h1 hk => ?_⟩
  let f : Nat → Nat := fun i => (s.core i).index.getD 0
  have hf : ∀ i < k, (s.core i).index = some (f i) := fun i hi => by
    obtain ⟨v, hv⟩ := Option.ne_none_iff_exists'.mp (hall i hi)
    simp only [f, hv, Option.getD_some]
  have hmaps : ∀ i ∈ Finset.range k, f i ∈ Finset.Icc 1 k := fun i hi => by
    have := h.range i (Finset.mem_range.mp hi) _ (hf i (Finset.mem_range.mp hi))
    exact Finset.mem_Icc.mpr ⟨this.1, by omega⟩
  have hinj : ∀ i ∈ Finset.range k, ∀ j ∈ Finset.range k, f i = f j → i = j :=
    fun i hi j hj hij => by
    have hi := Finset.mem_range.mp hi
    have hj := Finset.mem_range.mp hj
    exact h.distinct i hi j hj (f i) (hf i hi) (hij ▸ hf j hj)
  obtain ⟨i, hi, hw⟩ := Finset.surj_on_of_inj_on_of_card_le (fun i _ => f i) hmaps
    (fun i j hi hj => hinj i hi j hj) (by simp) w (Finset.mem_Icc.mpr ⟨h1, hk⟩)
  have hi := Finset.mem_range.mp hi
  exact ⟨i, hi, hw ▸ hf i hi⟩

end

/-! ### The word -/

section
variable {k : Nat} {s s' : Spin} {e : SpinEvent} {t : List SpinEvent}
  {cl br rt calls : List (Nat × Nat)} {lf : List Nat}

theorem spinWord_eq {call : Nat × Nat} (hcpu : call.1 < 256) (hstart : call.2 < 2 ^ 56) :
    spinWord call = 2 ^ 56 * call.1 + call.2 := by
  have hlt : call.1 <<< 56 < 2 ^ 64 := by
    rw [Nat.shiftLeft_eq]
    omega
  rw [spinWord, u64_of_lt hlt, Nat.or_comm, Nat.shiftLeft_eq, Nat.mul_comm,
    Nat.two_pow_add_eq_or_of_lt hstart]

def NoClear (k : Nat) (s : Spin) : Prop := ∀ i < k, ∀ w x, s.core i ≠ .clear w x

/-- How far the last call has come, by the calls, the indexes of the cores that have
left, the branches and the returns so far. -/
inductive Turn (k : Nat) (s : Spin) : List (Nat × Nat) → List Nat → List (Nat × Nat) →
    List (Nat × Nat) → Prop
  | idle (l : List (Nat × Nat)) (hcur : s.current = none) (haddr : s.startAddr = 0)
      (hclear : NoClear k s) :
      Turn k s l (l.map Prod.fst) l l
  | called (l : List (Nat × Nat)) (c : Nat × Nat) (hcur : s.current = some c)
      (haddr : s.startAddr = spinWord c)
      (hclear : NoClear k s) : Turn k s (l ++ [c]) (l.map Prod.fst) l l
  | left (l : List (Nat × Nat)) (c : Nat × Nat) (i : Nat) (hcur : s.current = some c)
      (haddr : s.startAddr = spinWord c)
      (hi : i < k) (hcore : s.core i = .clear c.1 (spinWord c))
      (honly : ∀ j < k, j ≠ i → ∀ w x, s.core j ≠ .clear w x) :
      Turn k s (l ++ [c]) ((l ++ [c]).map Prod.fst) l l
  | branched (l : List (Nat × Nat)) (c : Nat × Nat) (hcur : s.current = some c)
      (haddr : s.startAddr = 0)
      (hclear : NoClear k s) : Turn k s (l ++ [c]) ((l ++ [c]).map Prod.fst) (l ++ [c]) l

theorem Turn.of_same (h : Turn k s cl lf br rt) (hcur : s'.current = s.current)
    (haddr : s'.startAddr = s.startAddr)
    (hclear : ∀ i w x, s'.core i = .clear w x ↔ s.core i = .clear w x) : Turn k s' cl lf br rt := by
  have hno : NoClear k s → NoClear k s' := fun hn i hi w x hc => hn i hi w x ((hclear i w x).mp hc)
  cases h with
  | idle _ hc ha hn => exact .idle _ (hcur.trans hc) (haddr.trans ha) (hno hn)
  | called _ c hc ha hn => exact .called _ c (hcur.trans hc) (haddr.trans ha) (hno hn)
  | left _ c i hc ha hi hcore honly =>
    exact .left _ c i (hcur.trans hc) (haddr.trans ha) hi ((hclear i _ _).mpr hcore)
      fun j hj hne w x hx => honly j hj hne w x ((hclear j w x).mp hx)
  | branched _ c hc ha hn => exact .branched _ c (hcur.trans hc) (haddr.trans ha) (hno hn)

theorem goto_clear_iff {i : Nat} {c : SpinCore} (hold : ∀ w x, s.core i ≠ .clear w x)
    (hnew : ∀ w x, c ≠ .clear w x) (j w x : Nat) :
    (s.goto i c).core j = .clear w x ↔ s.core j = .clear w x := by
  by_cases hj : j = i
  · subst hj
    rw [Spin.goto_self]
    exact iff_of_false (hnew w x) (hold w x)
  · rw [Spin.goto_ne _ _ hj]

theorem register_clear_iff {i v : Nat} (hold : ∀ w x, s.core i ≠ .clear w x) (j w x : Nat) :
    (s.register i v).core j = .clear w x ↔ s.core j = .clear w x := by
  by_cases hj : j = i
  · subst hj
    rw [Spin.register_self]
    exact iff_of_false (nofun) (hold w x)
  · rw [Spin.register_ne s v hj]
    cases s.core j <;> simp [SpinCore.loseMonitor]

theorem Turn.goto {i : Nat} {c : SpinCore} (h : Turn k s cl lf br rt)
    (hold : ∀ w x, s.core i ≠ .clear w x) (hnew : ∀ w x, c ≠ .clear w x) :
    Turn k (s.goto i c) cl lf br rt :=
  h.of_same rfl rfl (goto_clear_iff hold hnew)

theorem Turn.register {i w : Nat} (h : Turn k s cl lf br rt) (hold : ∀ w x, s.core i ≠ .clear w x) :
    Turn k (s.register i w) cl lf br rt :=
  h.of_same rfl rfl (register_clear_iff hold)

theorem Turn.leave {i w : Nat} (h : Turn k s cl lf br rt) (hidx : Indexed k s)
    (hword : ∀ c ∈ cl, c.1 ≤ k ∧ c.2 < 2 ^ 56) (hk : k < 255) (hi : i < k) (hc : s.core i = .poll w)
    (hw : s.startAddr / 2 ^ 56 = w) :
    Turn k (s.goto i (.clear w s.startAddr)) cl (lf ++ [w]) br rt := by
  have hpos : 1 ≤ w := (hidx.range i hi w (by rw [hc]; rfl)).1
  have hfst : ∀ c ∈ cl, s.startAddr = spinWord c → w = c.1 := fun c hcl haddr => by
    obtain ⟨h1, h2⟩ := hword c hcl
    rw [haddr, spinWord_eq (by omega) h2] at hw
    omega
  cases h with
  | idle l _ ha _ | branched l _ _ ha _ =>
    rw [ha] at hw
    omega
  | called l c hcur ha hn =>
    obtain rfl := hfst c (by simp) ha
    have hmap : br.map Prod.fst ++ [c.1] = (br ++ [c]).map Prod.fst := by simp
    have hself : (s.goto i (.clear c.1 s.startAddr)).core i = .clear c.1 (spinWord c) := by
      rw [Spin.goto_self, ha]
    rw [hmap]
    refine .left _ c i hcur ha hi hself fun j hj hne w x => ?_
    rw [Spin.goto_ne _ _ hne]
    exact hn j hj w x
  | left l c i₀ hcur ha hi₀ hcore honly =>
    obtain rfl := hfst c (by simp) ha
    obtain rfl := hidx.distinct i hi i₀ hi₀ c.1 (by rw [hc]; rfl) (by rw [hcore]; rfl)
    rw [hc] at hcore
    cases hcore

theorem Turn.branch {i w x : Nat} (h : Turn k s cl lf br rt)
    (hword : ∀ c ∈ cl, c.1 ≤ k ∧ c.2 < 2 ^ 56) (hk : k < 255) (hi : i < k)
    (hc : s.core i = .clear w x) :
    Turn k { s.goto i (.gone w (x % 2 ^ 56)) with startAddr := 0 } cl lf
      (br ++ [(w, x % 2 ^ 56)]) rt := by
  cases h with
  | idle l _ _ hn | called l c _ _ hn | branched l c _ _ hn => exact absurd hc (hn i hi w x)
  | left l c i₀ hcur ha hi₀ hcore honly =>
    obtain rfl : i = i₀ := by
      by_contra hne
      exact honly i hi hne w x hc
    rw [hc] at hcore
    obtain ⟨rfl, rfl⟩ := SpinCore.clear.inj hcore
    have htarget : spinWord c % 2 ^ 56 = c.2 := by
      obtain ⟨h1, h2⟩ := hword c (by simp)
      rw [spinWord_eq (by omega) h2]
      omega
    rw [htarget]
    refine .branched br c hcur rfl fun j hj w x => ?_
    by_cases hji : j = i
    · subst hji
      change (s.goto j _).core j ≠ _
      rw [Spin.goto_self]
      nofun
    · change (s.goto i _).core j ≠ _
      rw [Spin.goto_ne _ _ hji]
      exact honly j hj hji w x

theorem Turn.move (h : Turn k s cl lf br rt) (hidx : Indexed k s)
    (hword : ∀ c ∈ cl, 1 ≤ c.1 ∧ c.1 ≤ k ∧ c.2 < 2 ^ 56) (hk : k < 255) (hm : SpinMove k s e s') :
    Turn k s' (cl ++ e.called?.toList) (lf ++ e.left?.toList) (br ++ e.branched?.toList)
      (rt ++ e.returned?.toList) := by
  have hword' : ∀ c ∈ cl, c.1 ≤ k ∧ c.2 < 2 ^ 56 := fun c hc => (hword c hc).2
  cases hm with
  | @load i hi hc =>
    have hnext : Turn k (s.goto i (.store s.numCpu true)) cl lf br rt :=
      h.goto (fun w x => by rw [hc]; nofun) fun _ _ => (nofun)
    simpa using hnext
  | register hi hc => simpa using h.register fun w x => by rw [hc]; nofun
  | @fail i _ _ hi hc =>
    have hnext : Turn k (s.goto i .load) cl lf br rt :=
      h.goto (fun w x => by rw [hc]; nofun) fun _ _ => (nofun)
    simpa using hnext
  | poll | spin => simpa using h
  | leave hi hc hw => simpa using h.leave hidx hword' hk hi hc hw
  | branch hi hc => simpa using h.branch hword' hk hi hc
  | @call call calls hcur hcalls =>
    cases h with
    | idle _ _ _ hn =>
      have hnext : Turn k { s with startAddr := spinWord call, calls := calls,
                                   current := some call } (cl ++ [call])
        (cl.map Prod.fst) cl cl := .called _ _ rfl rfl hn
      simpa using hnext
    | called _ _ hsome | left _ _ _ hsome | branched _ _ hsome =>
      exact nomatch hcur.symm.trans hsome
  | ret hcur hw =>
    cases h with
    | idle _ hnone => exact nomatch hcur.symm.trans hnone
    | called _ c _ ha | left _ c _ _ ha =>
      obtain ⟨h1, h2, h3⟩ := hword c (by simp)
      rw [hw, spinWord_eq (by omega) h3] at ha
      omega
    | branched _ c hsome ha hn =>
      obtain rfl := Option.some.inj (hsome.symm.trans hcur)
      have hnext : Turn k { s with current := none } (rt ++ [c]) ((rt ++ [c]).map Prod.fst)
          (rt ++ [c]) (rt ++ [c]) :=
        .idle _ rfl ha hn
      simpa using hnext

theorem SpinMove.index_kept {i w : Nat} (hm : SpinMove k s e s') (h : (s.core i).index = some w) :
    (s'.core i).index = some w := by
  cases hm with
  | @load j hj hc | @fail j _ _ hj hc =>
    have hne : i ≠ j := by
      rintro rfl
      rw [hc] at h
      cases h
    rw [Spin.goto_ne _ _ hne]
    exact h
  | @register j v hj hc =>
    have hne : i ≠ j := by
      rintro rfl
      rw [hc] at h
      cases h
    rw [register_index s hne]
    exact h
  | @leave j v hj hc =>
    by_cases hij : i = j
    · subst hij
      rw [hc] at h
      rw [Spin.goto_self]
      exact h
    · rw [Spin.goto_ne _ _ hij]
      exact h
  | @branch j v x hj hc =>
    change ((s.goto j _).core i).index = _
    by_cases hij : i = j
    · subst hij
      rw [hc] at h
      rw [Spin.goto_self]
      exact h
    · rw [Spin.goto_ne _ _ hij]
      exact h
  | poll | spin | call | ret => exact h

theorem SpinMove.left_index {i w : Nat} (hm : SpinMove k s (.left i w) s') :
    i < k ∧ (s'.core i).index = some w := by
  cases hm with
  | leave hi hc hw => exact ⟨hi, by rw [Spin.goto_self]; rfl⟩

theorem goto_gone_iff {j : Nat} {c : SpinCore} (hold : ∀ w x, s.core j ≠ .gone w x)
    (hnew : ∀ w x, c ≠ .gone w x) (i w x : Nat) :
    (s.goto j c).core i = .gone w x ↔ s.core i = .gone w x := by
  by_cases hij : i = j
  · subst hij
    rw [Spin.goto_self]
    exact iff_of_false (hnew w x) (hold w x)
  · rw [Spin.goto_ne _ _ hij]

theorem SpinMove.gone_iff (hm : SpinMove k s e s') (i w x : Nat) :
    s'.core i = .gone w x ↔ s.core i = .gone w x ∨ .branched i w x = e := by
  cases hm with
  | load hj hc | fail hj hc | leave hj hc =>
    rw [goto_gone_iff]
    · simp
    · intro w x
      rw [hc]
      nofun
    · intro w x
      nofun
  | @register j v hj hc =>
    have hkept : (s.register j v).core i = .gone w x ↔ s.core i = .gone w x := by
      by_cases hij : i = j
      · subst hij
        rw [Spin.register_self, hc]
        exact iff_of_false (nofun) (nofun)
      · rw [Spin.register_ne s v hij]
        cases s.core i <;> simp [SpinCore.loseMonitor]
    rw [hkept]
    simp
  | @branch j v y hj hc =>
    change (s.goto j _).core i = _ ↔ _
    by_cases hij : i = j
    · subst hij
      rw [Spin.goto_self, hc]
      simp [eq_comm]
    · rw [Spin.goto_ne _ _ hij]
      simp [hij]
  | poll | spin | call | ret => simp

theorem SpinMove.calls_eq (hm : SpinMove k s e s') : s.calls = e.called?.toList ++ s'.calls := by
  cases hm with
  | call hcur hcalls => exact hcalls
  | _ => rfl

structure SpinInv (k : Nat) (calls : List (Nat × Nat)) (t : List SpinEvent) (s : Spin) : Prop where
  indexed : Indexed k s
  turn : Turn k s (t.filterMap SpinEvent.called?) (t.filterMap SpinEvent.left?)
    (t.filterMap SpinEvent.branched?)
    (t.filterMap SpinEvent.returned?)
  rest : calls = t.filterMap SpinEvent.called? ++ s.calls
  leaves : ∀ i w, .left i w ∈ t → i < k ∧ (s.core i).index = some w
  gone : ∀ i w x, s.core i = .gone w x ↔ .branched i w x ∈ t

theorem SpinInv.init (k : Nat) (calls : List (Nat × Nat)) :
    SpinInv k calls [] (spinInit calls) where
  indexed := Indexed.init k calls
  turn := .idle [] rfl rfl fun _ _ _ _ => nofun
  rest := rfl
  leaves _ _ h := nomatch h
  gone _ _ _ := iff_of_false (nofun) (nofun)

theorem filterMap_concat {α β : Type*} (f : α → Option β) (l : List α) (a : α) :
    (l ++ [a]).filterMap f = l.filterMap f ++ (f a).toList := by
  rw [List.filterMap_append]
  cases h : f a <;> simp [h]

theorem SpinInv.move (h : SpinInv k calls t s) (hk : k < 255)
    (hword : ∀ c ∈ calls, 1 ≤ c.1 ∧ c.1 ≤ k ∧ c.2 < 2 ^ 56) (hm : SpinMove k s e s') :
    SpinInv k calls (t ++ [e]) s' where
  indexed := h.indexed.move hk hm
  turn := by
    have hcl : ∀ c ∈ t.filterMap SpinEvent.called?, 1 ≤ c.1 ∧ c.1 ≤ k ∧ c.2 < 2 ^ 56 := fun c hc =>
      hword c (h.rest ▸ List.mem_append_left _ hc)
    simp only [filterMap_concat]
    exact h.turn.move h.indexed hcl hk hm
  rest := by
    rw [filterMap_concat, List.append_assoc, ← hm.calls_eq]
    exact h.rest
  leaves i w hin := by
    rcases List.mem_append.mp hin with hin | hin
    · obtain ⟨hi, hidx⟩ := h.leaves i w hin
      exact ⟨hi, hm.index_kept hidx⟩
    · obtain rfl := List.mem_singleton.mp hin
      exact hm.left_index
  gone i w x := by
    rw [hm.gone_iff, h.gone, List.mem_append, List.mem_singleton]

theorem Turn.prefixes (h : Turn k s cl lf br rt) :
    lf <+: cl.map Prod.fst ∧ br <+: cl ∧ rt <+: br := by
  cases h with
  | idle => exact ⟨List.prefix_refl _, List.prefix_refl _, List.prefix_refl _⟩
  | called _ c => exact ⟨by simp, List.prefix_append _ _, List.prefix_refl _⟩
  | left _ c => exact ⟨List.prefix_refl _, List.prefix_append _ _, List.prefix_refl _⟩
  | branched _ c => exact ⟨List.prefix_refl _, List.prefix_refl _, List.prefix_append _ _⟩

theorem SpinInv.safe (h : SpinInv k calls t s) : SpinSafe k calls t s where
  range i hi w hw := by
    have hw := h.indexed.range i hi w hw
    have hcard := h.indexed.numCpu
    have hle := registered_card_le k s
    omega
  distinct := h.indexed.distinct
  all := h.indexed.all
  called := ⟨s.calls, h.rest.symm⟩
  left := h.turn.prefixes.1
  branched := h.turn.prefixes.2.1
  returned := h.turn.prefixes.2.2
  leaves := h.leaves
  gone := h.gone

end

end QnxStartup
