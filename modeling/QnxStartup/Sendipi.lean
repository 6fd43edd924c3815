import Mathlib.Data.List.Induction
import Mathlib.Data.Nat.Bitwise
import QnxStartup.ExclusiveWord
import QnxStartup.Interleaving
import QnxStartup.Machine

/-! `sendipi_gic_v2`, `sendipi_gic_v3_sr` and `sendipi_gic_v3_mm`: any number of processors put
commands into the word of one processor and trigger its interrupt, if the word was empty. The
processor takes the interrupt and then all that is in the word. -/

namespace QnxStartup

/-- A processor that sends, by its next access. -/
inductive IpiCore where
  | idle
  | ldxr (w2 : Nat)
  | stxr (w2 w7 : Nat)
  | trigger

/-- `taking` is whether the target has taken the interrupt and not yet what is in the word. -/
structure IpiState where
  word : ExclusiveWord Nat Nat
  pending : Nat → Bool
  taking : Bool
  core : Nat → IpiCore

inductive IpiThread where
  | call (i cmd : Nat)
  | core (i : Nat) (ok : Bool)
  | acknowledge (source : Nat)
  | take

inductive IpiEvent where
  | sent (i cmd old : Nat)
  | triggered (i : Nat)
  | taken (cmds : Nat)
  | other
  deriving DecidableEq

def IpiState.goto (s : IpiState) (i : Nat) (c : IpiCore) : IpiState :=
  { s with core := Function.update s.core i c }

def ipiCoreStep (source : Nat → Nat) (i : Nat) (ok : Bool) (s : IpiState) :
    Option (IpiEvent × IpiState) :=
  match s.core i with
  | .idle => none
  | .ldxr w2 => some (.other, { s.goto i (.stxr w2 s.word.value) with
      word := s.word.loadExclusive i })
  | .stxr w2 w7 =>
    match s.word.storeExclusive i (w7 ||| w2) ok with
    | some word => some (.sent i w2 w7,
        { s.goto i (if w7 ≠ 0 then .idle else .trigger) with word := word })
    | none => some (.other, { s.goto i (.ldxr w2) with word := s.word.drop i })
  | .trigger => some (.triggered i,
      { s.goto i .idle with pending := Function.update s.pending (source i) true })

/-- An interrupt is pending once for each `source`: of GIC v2 these are the senders, of GIC v3 there
is one. -/
def ipiStep (source : Nat → Nat) (th : IpiThread) (s : IpiState) : Option (IpiEvent × IpiState) :=
  match th with
  | .call i cmd =>
    match s.core i with
    | .idle => some (.other, s.goto i (.ldxr (u32 cmd)))
    | _ => none
  | .core i ok => ipiCoreStep source i ok s
  | .acknowledge k =>
    if s.pending k ∧ ¬ s.taking then
      some (.other, { s with pending := Function.update s.pending k false, taking := true })
    else none
  | .take =>
    if s.taking then some (.taken s.word.value, { s with word := .written 0, taking := false })
    else none

def ipiInit : IpiState := ⟨.written 0, fun _ => false, false, fun _ => .idle⟩

/-- What has been put into the word since it was last taken. -/
def ipiWord (t : List IpiEvent) : Nat :=
  t.foldl (fun w e => match e with
    | .sent _ cmd _ => w ||| cmd
    | .taken _ => 0
    | _ => w) 0

/-- A call of the processor that has found the word empty. -/
def IpiEvent.foundEmpty (i : Nat) : IpiEvent → Bool
  | .sent j _ old => j == i && old == 0
  | _ => false

def IpiEvent.isTaken : IpiEvent → Bool
  | .taken _ => true
  | _ => false

/-- What a processor has read from the word. -/
def IpiEvent.read? : IpiEvent → Option Nat
  | .sent _ _ old => some old
  | .taken cmds => some cmds
  | _ => none

def IpiCore.toTrigger : IpiCore → Nat
  | .trigger => 1
  | _ => 0

/-- What holds at any time: the word has what was sent since it was last taken, it never waits
without an interrupt that leads to it, and a call triggers one exactly if it has found the word
empty. -/
structure IpiSafe (t : List IpiEvent) (s : IpiState) : Prop where
  word : s.word.value = ipiWord t
  reads : ∀ pre e post, t = pre ++ e :: post → ∀ v, e.read? = some v → v = ipiWord pre
  woken : s.word.value ≠ 0 → (∃ k, s.pending k) ∨ s.taking ∨ ∃ i, s.core i = .trigger
  triggers : ∀ i, t.countP (IpiEvent.foundEmpty i) = t.count (.triggered i) + (s.core i).toTrigger

section

variable {source : Nat → Nat} {t : List IpiEvent} {s s' : IpiState} {e : IpiEvent} {i : Nat}

/-! ### Steps -/

inductive IpiMove (source : Nat → Nat) (s : IpiState) : IpiEvent → IpiState → Prop
  | call {i cmd : Nat} (hc : s.core i = .idle) :
      IpiMove source s .other (s.goto i (.ldxr (u32 cmd)))
  | load {i w2 : Nat} (hc : s.core i = .ldxr w2) :
      IpiMove source s .other { s.goto i (.stxr w2 s.word.value) with
        word := s.word.loadExclusive i }
  | store {i w2 w7 : Nat} {ok : Bool} {word : ExclusiveWord Nat Nat} (hc : s.core i = .stxr w2 w7)
      (hs : s.word.storeExclusive i (w7 ||| w2) ok = some word) :
      IpiMove source s (.sent i w2 w7) { s.goto i (if w7 ≠ 0 then .idle else .trigger) with
        word := word }
  | retry {i w2 w7 : Nat} (hc : s.core i = .stxr w2 w7) :
      IpiMove source s .other { s.goto i (.ldxr w2) with word := s.word.drop i }
  | trigger {i : Nat} (hc : s.core i = .trigger) :
      IpiMove source s (.triggered i) { s.goto i .idle with
        pending := Function.update s.pending (source i) true }
  | acknowledge {k : Nat} (hk : s.pending k) :
      IpiMove source s .other { s with pending := Function.update s.pending k false,
                                       taking := true }
  | take (h : s.taking) : IpiMove source s (.taken s.word.value)
      { s with word := .written 0, taking := false }

theorem ipiStep_move {th : IpiThread} (h : ipiStep source th s = some (e, s')) :
    IpiMove source s e s' := by
  cases th with
  | call i cmd =>
    rw [ipiStep] at h
    cases hc : s.core i with
    | idle =>
      rw [hc] at h
      obtain ⟨rfl, rfl⟩ := Prod.mk.inj (Option.some.inj h)
      exact .call hc
    | _ => exact nomatch hc ▸ h
  | core i ok =>
    rw [ipiStep, ipiCoreStep] at h
    cases hc : s.core i with
    | idle => exact nomatch hc ▸ h
    | ldxr w2 =>
      rw [hc] at h
      obtain ⟨rfl, rfl⟩ := Prod.mk.inj (Option.some.inj h)
      exact .load hc
    | stxr w2 w7 =>
      rw [hc] at h
      dsimp only at h
      cases hs : s.word.storeExclusive i (w7 ||| w2) ok with
      | none =>
        rw [hs] at h
        obtain ⟨rfl, rfl⟩ := Prod.mk.inj (Option.some.inj h)
        exact .retry hc
      | some word =>
        rw [hs] at h
        obtain ⟨rfl, rfl⟩ := Prod.mk.inj (Option.some.inj h)
        exact .store hc hs
    | trigger =>
      rw [hc] at h
      obtain ⟨rfl, rfl⟩ := Prod.mk.inj (Option.some.inj h)
      exact .trigger hc
  | acknowledge k =>
    obtain ⟨hk, h⟩ := Option.ite_none_right_eq_some.mp h
    obtain ⟨rfl, rfl⟩ := Prod.mk.inj (Option.some.inj h)
    exact .acknowledge hk.1
  | take =>
    obtain ⟨hk, h⟩ := Option.ite_none_right_eq_some.mp h
    obtain ⟨rfl, rfl⟩ := Prod.mk.inj (Option.some.inj h)
    exact .take hk

@[simp] theorem IpiState.goto_self (s : IpiState) (i : Nat) (c : IpiCore) :
    (s.goto i c).core i = c :=
  Function.update_self ..

@[simp] theorem IpiState.goto_word (s : IpiState) (i : Nat) (c : IpiCore) :
    (s.goto i c).word = s.word := rfl

@[simp] theorem IpiState.goto_pending (s : IpiState) (i : Nat) (c : IpiCore) :
    (s.goto i c).pending = s.pending := rfl

@[simp] theorem IpiState.goto_taking (s : IpiState) (i : Nat) (c : IpiCore) :
    (s.goto i c).taking = s.taking := rfl

theorem IpiState.goto_ne {j : Nat} (s : IpiState) (c : IpiCore) (h : j ≠ i) :
    (s.goto i c).core j = s.core j :=
  Function.update_of_ne h ..

/-! ### The word -/

theorem ipiWord_sent (t : List IpiEvent) (i cmd old : Nat) :
    ipiWord (t ++ [.sent i cmd old]) = ipiWord t ||| cmd := by
  rw [ipiWord, List.foldl_append]
  rfl

theorem ipiWord_taken (t : List IpiEvent) (cmds : Nat) : ipiWord (t ++ [.taken cmds]) = 0 := by
  rw [ipiWord, List.foldl_append]
  rfl

theorem ipiWord_other (t : List IpiEvent) : ipiWord (t ++ [.other]) = ipiWord t := by
  rw [ipiWord, List.foldl_append]
  rfl

theorem ipiWord_triggered (t : List IpiEvent) (i : Nat) :
    ipiWord (t ++ [.triggered i]) = ipiWord t := by
  rw [ipiWord, List.foldl_append]
  rfl

/-- A bit that has been sent stays in the word until the word is taken. -/
theorem ipiWord_testBit {pre post : List IpiEvent} {cmd old j : Nat} (hj : cmd.testBit j)
    (hpost : ∀ cmds, .taken cmds ∉ post) :
    (ipiWord (pre ++ .sent i cmd old :: post)).testBit j := by
  induction post using List.reverseRecOn with
  | nil =>
    rw [ipiWord_sent, Nat.testBit_or, hj, Bool.or_true]
  | append_singleton post e ih =>
    have ih := ih fun cmds hmem => hpost cmds (List.mem_append_left _ hmem)
    rw [← List.cons_append, ← List.append_assoc]
    cases e with
    | sent k cmd' old' => rw [ipiWord_sent, Nat.testBit_or, ih, Bool.true_or]
    | triggered k => rwa [ipiWord_triggered]
    | taken cmds => exact absurd (List.mem_append_right _ (List.mem_singleton_self _)) (hpost cmds)
    | other => rwa [ipiWord_other]

structure IpiInv (t : List IpiEvent) (s : IpiState) : Prop where
  current : s.word.Current
  stxr : ∀ i w2 w7 x, s.core i = .stxr w2 w7 → s.word.reserved i = some x → x = w7
  safe : IpiSafe t s

/-- A property of the events before each event of a kind holds after one more event. -/
theorem forall_before_append {ε : Type*} {P : List ε → ε → Prop} {t : List ε} {e : ε}
    (h : ∀ pre x post, t = pre ++ x :: post → P pre x) (he : P t e) :
    ∀ pre x post, t ++ [e] = pre ++ x :: post → P pre x := by
  intro pre x post ht
  rcases List.eq_nil_or_concat post with rfl | ⟨post', e', rfl⟩
  · obtain ⟨rfl, hx⟩ := List.append_inj' ht rfl
    obtain rfl := List.singleton_inj.mp hx
    exact he
  · rw [List.concat_eq_append, ← List.cons_append, ← List.append_assoc] at ht
    exact h pre x post' (List.append_inj' ht rfl).1

theorem IpiInv.goto {c : IpiCore} (h : IpiInv t s) (hcore : s'.core = (s.goto i c).core)
    (hpending : s'.pending = s.pending) (htaking : s'.taking = s.taking)
    (hvalue : s'.word.value = s.word.value) (hcurrent : s'.word.Current)
    (hreserved : ∀ j ≠ i, s'.word.reserved j = s.word.reserved j)
    (hstxr : ∀ w2 w7, c = .stxr w2 w7 → s.word.value = w7) (hold : s.core i ≠ .trigger)
    (hnew : c ≠ .trigger) : IpiInv (t ++ [.other]) s' := by
  have htrigger : ∀ j, (s'.core j).toTrigger = (s.core j).toTrigger ∧
      (s'.core j = .trigger ↔ s.core j = .trigger) := by
    intro j
    rw [hcore]
    by_cases hj : j = i
    · subst hj
      rw [IpiState.goto_self]
      exact ⟨by
        cases c <;> cases hc : s.core j <;> first | rfl | contradiction, iff_of_false hnew hold⟩
    · rw [s.goto_ne c hj]
      exact ⟨rfl, Iff.rfl⟩
  refine ⟨hcurrent, fun j w2 w7 x hc hx => ?_, ?_, forall_before_append h.safe.reads nofun,
    fun hne => ?_, fun j => ?_⟩
  · rw [hcore] at hc
    by_cases hj : j = i
    · subst hj
      rw [IpiState.goto_self] at hc
      rw [hcurrent j x hx, hvalue, hstxr w2 w7 hc]
    · rw [s.goto_ne c hj] at hc
      exact h.stxr j w2 w7 x hc (hreserved j hj ▸ hx)
  · rw [hvalue, ipiWord_other, h.safe.word]
  · rw [hpending, htaking]
    rcases h.safe.woken (hvalue ▸ hne) with hp | ht | ⟨j, hj⟩
    · exact .inl hp
    · exact .inr (.inl ht)
    · exact .inr (.inr ⟨j, (htrigger j).2.mpr hj⟩)
  · rw [List.countP_append, List.count_append, (htrigger j).1]
    exact h.safe.triggers j

theorem IpiInv.store {w2 w7 : Nat} {ok : Bool} {word : ExclusiveWord Nat Nat} (h : IpiInv t s)
    (hc : s.core i = .stxr w2 w7) (hs : s.word.storeExclusive i (w7 ||| w2) ok = some word) :
    IpiInv (t ++ [.sent i w2 w7]) { s.goto i (if w7 ≠ 0 then .idle else .trigger) with
      word := word } := by
  obtain ⟨rfl, hreserved⟩ := h.current.storeExclusive hs
  have hw7 : s.word.value = w7 := h.stxr i w2 w7 _ hc hreserved
  refine ⟨ExclusiveWord.current_written _, nofun, ?_, ?_, fun _ => ?_, fun j => ?_⟩
  · rw [ipiWord_sent, ← h.safe.word, hw7]
    rfl
  · refine forall_before_append h.safe.reads fun v hv => ?_
    rw [← h.safe.word, hw7]
    exact (Option.some.inj hv).symm
  · by_cases hempty : w7 = 0
    · refine .inr (.inr ⟨i, ?_⟩)
      simp [hempty]
    · rcases h.safe.woken (hw7 ▸ hempty) with hp | ht | ⟨j, hj⟩
      · exact .inl hp
      · exact .inr (.inl ht)
      · refine .inr (.inr ⟨j, ?_⟩)
        have hji : j ≠ i := by
          rintro rfl
          rw [hc] at hj
          exact nomatch hj
        rw [← hj]
        exact s.goto_ne _ hji
  · have hold := h.safe.triggers j
    by_cases hj : j = i
    · subst hj
      rw [hc] at hold
      by_cases hempty : w7 = 0 <;>
        simp [IpiEvent.foundEmpty, hempty, hold, IpiCore.toTrigger, List.count_append]
    · have hij : i ≠ j := Ne.symm hj
      simp [IpiEvent.foundEmpty, hij, s.goto_ne _ hj, hold, List.count_append]

theorem IpiInv.trigger (h : IpiInv t s) (hc : s.core i = .trigger) :
    IpiInv (t ++ [.triggered i]) { s.goto i .idle with
      pending := Function.update s.pending (source i) true } := by
  refine ⟨h.current, fun j w2 w7 x hcj hx => ?_, ?_, forall_before_append h.safe.reads nofun,
    fun _ => .inl ⟨source i, ?_⟩, fun j => ?_⟩
  · by_cases hj : j = i
    · subst hj
      simp at hcj
    · exact h.stxr j w2 w7 x (by simpa [s.goto_ne _ hj] using hcj) hx
  · rw [ipiWord_triggered]
    exact h.safe.word
  · exact Function.update_self ..
  · have hold := h.safe.triggers j
    by_cases hj : j = i
    · subst hj
      rw [hc] at hold
      simp [IpiEvent.foundEmpty, hold, IpiCore.toTrigger, List.count_append]
    · have hij : i ≠ j := Ne.symm hj
      simp [IpiEvent.foundEmpty, hij, s.goto_ne _ hj, hold, List.count_append]

theorem IpiInv.move (h : IpiInv t s) (hm : IpiMove source s e s') : IpiInv (t ++ [e]) s' := by
  cases hm with
  | call hc =>
    exact h.goto rfl rfl rfl rfl h.current (fun _ _ => rfl) nofun (by rw [hc]; nofun) nofun
  | @load i w2 hc =>
    exact h.goto rfl rfl rfl rfl (h.current.loadExclusive i)
      (fun j hj => s.word.loadExclusive_ne hj)
      (fun _ _ heq => by cases heq; rfl) (by rw [hc]; nofun) nofun
  | @retry i w2 w7 hc =>
    exact h.goto rfl rfl rfl rfl (h.current.drop i) (fun j hj => s.word.drop_ne hj) nofun
      (by rw [hc]; nofun) nofun
  | store hc hs => exact h.store hc hs
  | trigger hc => exact h.trigger hc
  | acknowledge hk =>
    refine ⟨h.current, h.stxr, ?_, forall_before_append h.safe.reads nofun,
      fun _ => .inr (.inl rfl), fun j => ?_⟩
    · rw [ipiWord_other]
      exact h.safe.word
    · rw [List.countP_append, List.count_append]
      exact h.safe.triggers j
  | take ht =>
    refine ⟨ExclusiveWord.current_written 0, nofun, ?_, ?_, fun hne => absurd rfl hne, fun j => ?_⟩
    · rw [ipiWord_taken]
      rfl
    · refine forall_before_append h.safe.reads fun v hv => ?_
      rw [← h.safe.word]
      exact (Option.some.inj hv).symm
    · rw [List.countP_append, List.count_append]
      exact h.safe.triggers j

theorem ipiInv_init : IpiInv [] ipiInit :=
  ⟨ExclusiveWord.current_written 0, nofun, rfl, fun pre _ _ ht => by
    simp at ht, fun hne => absurd rfl hne, fun _ => rfl⟩

theorem ipiInv_run (run : Trace (ipiStep source) ipiInit t s) : IpiInv t s :=
  run.induct (P := IpiInv) ipiInv_init fun _ _ _ _ _ h hs => h.move (ipiStep_move hs)

/-- However the processors take turns. -/
theorem sendipi_safe (run : Trace (ipiStep source) ipiInit t s) : IpiSafe t s :=
  (ipiInv_run run).safe

/-- No command is lost: once no interrupt is pending and nothing is under way, each bit
that was ever sent has been in the word when it was taken. -/
theorem sendipi_delivered (run : Trace (ipiStep source) ipiInit t s)
    (hpending : ∀ k, s.pending k = false) (htaking : s.taking = false)
    (hcore : ∀ i, s.core i ≠ .trigger) {pre post : List IpiEvent} {cmd old j : Nat}
    (ht : t = pre ++ .sent i cmd old :: post) (hj : cmd.testBit j) :
    ∃ mid cmds post', post = mid ++ .taken cmds :: post' ∧ (∀ cmds', .taken cmds' ∉ mid) ∧
      cmds.testBit j := by
  have h := (ipiInv_run run).safe
  have hzero : ipiWord t = 0 := by
    by_contra hne
    rw [← h.word] at hne
    rcases h.woken hne with ⟨k, hk⟩ | htake | ⟨i, hi⟩
    · exact absurd hk (by simp [hpending k])
    · exact absurd htake (by simp [htaking])
    · exact hcore i hi
  have hreads := h.reads
  subst ht
  cases hfind : post.find? IpiEvent.isTaken with
  | none =>
    have hbit : (ipiWord (pre ++ .sent i cmd old :: post)).testBit j :=
      ipiWord_testBit hj fun cmds hmem => List.find?_eq_none.mp hfind (.taken cmds) hmem rfl
    rw [hzero, Nat.zero_testBit] at hbit
    exact nomatch hbit
  | some e =>
    obtain ⟨he, mid, post', rfl, hmid⟩ := List.find?_eq_some_iff_append.mp hfind
    cases e with
    | sent | triggered | other => exact nomatch he
    | taken cmds =>
      have hnone : ∀ cmds', .taken cmds' ∉ mid := fun cmds' hmem => nomatch hmid _ hmem
      refine ⟨mid, cmds, post', rfl, hnone, ?_⟩
      rw [hreads (pre ++ .sent i cmd old :: mid) (.taken cmds) post' (by simp) cmds rfl]
      exact ipiWord_testBit hj hnone

/-- Two senders read the word at the same time, and one of them has to try again. -/
def ipiSchedule : List IpiThread :=
  [.call 0 0x1, .call 1 0x10, .core 0 true, .core 1 true, .core 1 true, .core 0 true, .core 0 true,
    .core 0 true, .core 1 true, .acknowledge 1, .take]

theorem sendipi_safe_example :
    IpiSafe (runSchedule (ipiStep id) ipiSchedule ([], ipiInit)).1
      (runSchedule (ipiStep id) ipiSchedule ([], ipiInit)).2 :=
  sendipi_safe (Trace.start.runSchedule _)

theorem sendipi_delivered_example :
    ∃ mid cmds post', ([.triggered 1, .other, .taken 0x11] : List IpiEvent) =
      mid ++ .taken cmds :: post' ∧
      (∀ cmds', .taken cmds' ∉ mid) ∧ cmds.testBit 0 := by
  refine @sendipi_delivered id _ _ 0 (Trace.start.runSchedule ipiSchedule)
    (fun k => ?_) rfl (fun i => ?_)
    [.other, .other, .other, .other, .sent 1 0x10 0, .other, .other] _ 0x1 0x10 0 rfl rfl
  · change Function.update (Function.update (fun _ => false) 1 true) 1 false k = false
    by_cases hk : k = 1
    · rw [hk, Function.update_self]
    · rw [Function.update_of_ne hk, Function.update_of_ne hk]
  · match i with
    | 0 | 1 | _ + 2 => nofun

end

end QnxStartup
