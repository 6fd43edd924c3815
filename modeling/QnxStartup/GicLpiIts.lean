import QnxStartup.ExclusiveWord
import QnxStartup.GicIts
import QnxStartup.Interleaving
import QnxStartup.RingLog

/-! `interrupt_mask_gic_v3_lpi_its` and `interrupt_unmask_gic_v3_lpi_its`: any number of processors
share the configuration table and the command queue, which the translation service reads. A step
is one access to memory or to a register that is shared. -/

namespace QnxStartup

/-- What the patcher puts into the callouts; the queue has `numSlots` slots. -/
structure LpiIts where
  cfgTable : Nat
  numLpis : Nat
  cmdQ : Nat
  numSlots : Nat
  rdBase : Nat
  rdBaseOffset : Nat
  numCollections : Nat
  slots_pos : 0 < numSlots
  collections_pos : 0 < numCollections
  collections_lt : numCollections < 2 ^ 32
  rdBase_lt : rdBase < 2 ^ 64
  queue_end : cmdQ + 32 * numSlots < 2 ^ 64
  table_end : cfgTable + numLpis < 2 ^ 64
  apart : cfgTable + numLpis ≤ cmdQ ∨ cmdQ + 32 * numSlots ≤ cfgTable

/-- A call of one of the two callouts, with the offset of the block that it was patched for. -/
structure LpiCall where
  unmask : Bool
  vector : Nat
  vecOff : Nat
  deriving DecidableEq

def LpiCall.index (c : LpiCall) : Nat := u64 (c.vector + c.vecOff)

/-- The two callouts differ in nothing else. -/
def LpiCall.enable (c : LpiCall) (w2 : UInt8) : UInt8 := if c.unmask then w2 ||| 1 else w2 &&& 0xfe

namespace LpiIts

/-- `gic_v3_its_cmd_q_last_slot_offset`. -/
def lastOffset (q : LpiIts) : Nat := (q.numSlots - 1) * 32

def entry (q : LpiIts) (c : LpiCall) : Nat := u64 (q.cfgTable + c.index)

/-- The `j`-th of the eight words that a round of the loop stores. -/
def word (q : LpiIts) (j x5 x11 : Nat) : Nat :=
  match j with
  | 0 => 0xD
  | 2 => sub64 q.numCollections x5
  | 4 => 0x5
  | 6 => x11
  | _ => 0

end LpiIts

/-- A processor, by its next access. -/
inductive LpiCore where
  | idle
  | ldaxr (c : LpiCall)
  | stxr (c : LpiCall)
  | ldrb (c : LpiCall)
  | strb (c : LpiCall) (w2 : UInt8)
  | ldrCwriter (c : LpiCall)
  | str (c : LpiCall) (j x3 x4 x5 x11 : Nat)
  | strCwriter (c : LpiCall) (x3 : Nat)
  | stlr (c : LpiCall)

/-- The registers after the `j`-th word, and what comes next. -/
def LpiIts.afterStr (q : LpiIts) (c : LpiCall) (j x3 x4 x5 x11 : Nat) : LpiCore :=
  let x4 := u64 (x4 + 8)
  match j with
  | 3 =>
    if u64 (x3 + 32) ≤ q.lastOffset then .str c 4 (u64 (x3 + 32)) x4 x5 x11
    else .str c 4 0 q.cmdQ x5 x11
  | 6 => .str c 7 x3 x4 x5 (u64 (x11 + q.rdBaseOffset))
  | 7 =>
    let x3 := if u64 (x3 + 32) ≤ q.lastOffset then u64 (x3 + 32) else 0
    let x5 := sub64 x5 1
    if x5 = 0 then .strCwriter c x3 else .str c 0 x3 (u64 (q.cmdQ + x3)) x5 x11
  | j => .str c (j + 1) x3 x4 x5 x11

/-- `cached` is the table as the redistributors have last read it. -/
structure ItsState where
  mem : Mem
  lock : ExclusiveWord Nat Nat
  cwriter : Nat
  creadr : Nat
  cached : Nat → UInt8
  core : Nat → LpiCore

/-- `refresh` is a redistributor that reads an entry anew without being told. -/
inductive LpiThread where
  | call (i : Nat) (c : LpiCall)
  | core (i : Nat) (ok : Bool)
  | its
  | refresh (v : Nat)

inductive LpiEvent where
  | acquired (c : LpiCall)
  | stored (c : LpiCall)
  | published (c : LpiCall)
  | executed (command : List Nat)
  | other
  deriving DecidableEq

def ItsState.goto (s : ItsState) (i : Nat) (c : LpiCore) : ItsState :=
  { s with core := Function.update s.core i c }

def lpiCoreStep (q : LpiIts) (i : Nat) (ok : Bool) (s : ItsState) : Option (LpiEvent × ItsState) :=
  match s.core i with
  | .idle => none
  | .ldaxr c =>
    some (.other, { s.goto i (if s.lock.value ≠ 0 then .ldaxr c else .stxr c) with
      lock := s.lock.loadExclusive i })
  | .stxr c =>
    match s.lock.storeExclusive i 1 ok with
    | some lock => some (.acquired c, { s.goto i (.ldrb c) with lock := lock })
    | none => some (.other, { s.goto i (.ldaxr c) with lock := s.lock.drop i })
  | .ldrb c => some (.other, s.goto i (.strb c (s.mem (q.entry c))))
  | .strb c w2 =>
    some (.stored c, { s.goto i (.ldrCwriter c) with
      mem := Function.update s.mem (q.entry c) (c.enable w2) })
  | .ldrCwriter c => some (.other,
      s.goto i (.str c 0 s.cwriter (u64 (q.cmdQ + s.cwriter)) q.numCollections q.rdBase))
  | .str c j x3 x4 x5 x11 =>
    some (.other, { s.goto i (q.afterStr c j x3 x4 x5 x11) with
      mem := writePtr s.mem x4 (q.word j x5 x11) })
  | .strCwriter c x3 => some (.published c, { s.goto i (.stlr c) with cwriter := x3 })
  | .stlr _ => some (.other, { s.goto i .idle with lock := .written 0 })

/-- The service reads the commands from CREADR up to CWRITER; INVALL has the redistributors read
the entries of a collection anew. -/
def itsStep (q : LpiIts) (collection : Nat → Nat) (s : ItsState) : Option (LpiEvent × ItsState) :=
  if s.creadr = s.cwriter then none
  else
    let command := (List.range 4).map fun i => readPtr s.mem (q.cmdQ + s.creadr + 8 * i)
    some (.executed command,
      { s with
        creadr := (s.creadr + 32) % (32 * q.numSlots)
        cached := fun v => if command[0]? = some 0xD ∧ command[2]? = some (collection v) then
          s.mem (q.cfgTable + v) else s.cached v })

def lpiStep (q : LpiIts) (collection : Nat → Nat) (th : LpiThread) (s : ItsState) :
    Option (LpiEvent × ItsState) :=
  match th with
  | .call i c =>
    match s.core i with
    | .idle => if c.index < q.numLpis then some (.other, s.goto i (.ldaxr c)) else none
    | _ => none
  | .core i ok => lpiCoreStep q i ok s
  | .its => itsStep q collection s
  | .refresh v => some (.other,
      { s with cached := Function.update s.cached v (s.mem (q.cfgTable + v)) })

/-- After `gic_v3_its_mapc` the service has read the queue up to a slot. -/
def itsInit (q : LpiIts) (m : Mem) (slot : Nat) : ItsState where
  mem := m
  lock := .written 0
  cwriter := 32 * slot
  creadr := 32 * slot
  cached := fun v => m (q.cfgTable + v)
  core := fun _ => .idle

namespace LpiIts

/-- The `k`-th command of a call: INVALL of a collection or SYNC of its redistributor. -/
def command (q : LpiIts) (k : Nat) : List Nat :=
  if k % 2 = 0 then [0xD, 0, k / 2, 0] else [0x5, 0, u64 (q.rdBase + k / 2 * q.rdBaseOffset), 0]

def commands (q : LpiIts) : List (List Nat) := (List.range (2 * q.numCollections)).map q.command

end LpiIts

@[simp] def LpiEvent.acquired? : LpiEvent → Option LpiCall
  | .acquired c => some c
  | _ => none

@[simp] def LpiEvent.stored? : LpiEvent → Option LpiCall
  | .stored c => some c
  | _ => none

@[simp] def LpiEvent.published? : LpiEvent → Option LpiCall
  | .published c => some c
  | _ => none

@[simp] def LpiEvent.executed? : LpiEvent → Option (List Nat)
  | .executed command => some command
  | _ => none

/-- The calls that have taken the lock. -/
def acquired (t : List LpiEvent) : List LpiCall := t.filterMap LpiEvent.acquired?

/-- The calls that have changed the configuration table. -/
def stored (t : List LpiEvent) : List LpiCall := t.filterMap LpiEvent.stored?

/-- The calls whose commands the service may read. -/
def published (t : List LpiEvent) : List LpiCall := t.filterMap LpiEvent.published?

def executed (t : List LpiEvent) : List (List Nat) := t.filterMap LpiEvent.executed?

/-- An entry after calls: the last one for it decides. -/
def entryAfter (v : Nat) (b : UInt8) (calls : List LpiCall) : UInt8 :=
  (calls.reverse.find? fun c => c.index = v).elim b fun c => c.enable b

/-- Between taking the lock and giving it back. -/
def LpiCore.InSection : LpiCore → Prop
  | .idle | .ldaxr _ | .stxr _ => False
  | _ => True

/-- What holds at any time: one call at a time changes the table and the queue, in the order of
the lock, and nothing else is written. -/
structure LpiSafe (q : LpiIts) (m : Mem) (slot : Nat) (t : List LpiEvent)
    (s : ItsState) : Prop where
  alone : ∀ i j, (s.core i).InSection → (s.core j).InSection → i = j
  order : published t <+: stored t ∧ stored t <+: acquired t ∧
    (acquired t).length ≤ (published t).length + 1
  table : ∀ v < q.numLpis, s.mem (q.cfgTable + v) = entryAfter v (m (q.cfgTable + v)) (stored t)
  cwriter : s.cwriter = 32 * ((slot + 2 * q.numCollections * (published t).length) % q.numSlots)
  frame : ∀ x, x ∉ bytes q.cfgTable q.numLpis → x ∉ bytes q.cmdQ (32 * q.numSlots) → s.mem x = m x

/-- Whenever a call takes the lock, the service has read so far that the commands of the
call fit. -/
def LpiRoom (q : LpiIts) (t : List LpiEvent) : Prop :=
  ∀ pre c post, t = pre ++ .acquired c :: post →
    2 * q.numCollections * ((published pre).length + 1) < (executed pre).length + q.numSlots

section

variable {q : LpiIts} {collection : Nat → Nat} {m : Mem} {slot : Nat} {t : List LpiEvent}
  {s s' : ItsState}
  {e : LpiEvent} {i : Nat}

/-! ### Steps -/

inductive LpiMove (q : LpiIts) (collection : Nat → Nat) (s : ItsState) : LpiEvent → ItsState → Prop
  | call {i : Nat} {c : LpiCall} (hc : s.core i = .idle) (hlt : c.index < q.numLpis) :
      LpiMove q collection s .other (s.goto i (.ldaxr c))
  | wait {i : Nat} {c : LpiCall} (hc : s.core i = .ldaxr c) (hw : s.lock.value ≠ 0) :
      LpiMove q collection s .other { s.goto i (.ldaxr c) with lock := s.lock.loadExclusive i }
  | free {i : Nat} {c : LpiCall} (hc : s.core i = .ldaxr c) (hw : s.lock.value = 0) :
      LpiMove q collection s .other { s.goto i (.stxr c) with lock := s.lock.loadExclusive i }
  | acquire {i : Nat} {c : LpiCall} {ok : Bool} {lock : ExclusiveWord Nat Nat}
      (hc : s.core i = .stxr c)
      (hs : s.lock.storeExclusive i 1 ok = some lock) :
      LpiMove q collection s (.acquired c) { s.goto i (.ldrb c) with lock := lock }
  | retry {i : Nat} {c : LpiCall} (hc : s.core i = .stxr c) :
      LpiMove q collection s .other { s.goto i (.ldaxr c) with lock := s.lock.drop i }
  | load {i : Nat} {c : LpiCall} (hc : s.core i = .ldrb c) :
      LpiMove q collection s .other (s.goto i (.strb c (s.mem (q.entry c))))
  | store {i : Nat} {c : LpiCall} {w2 : UInt8} (hc : s.core i = .strb c w2) :
      LpiMove q collection s (.stored c)
        { s.goto i (.ldrCwriter c) with mem := Function.update s.mem (q.entry c) (c.enable w2) }
  | loadCwriter {i : Nat} {c : LpiCall} (hc : s.core i = .ldrCwriter c) :
      LpiMove q collection s .other
        (s.goto i (.str c 0 s.cwriter (u64 (q.cmdQ + s.cwriter)) q.numCollections q.rdBase))
  | put {i j x3 x4 x5 x11 : Nat} {c : LpiCall} (hc : s.core i = .str c j x3 x4 x5 x11) :
      LpiMove q collection s .other
        { s.goto i (q.afterStr c j x3 x4 x5 x11) with mem := writePtr s.mem x4 (q.word j x5 x11) }
  | publish {i x3 : Nat} {c : LpiCall} (hc : s.core i = .strCwriter c x3) :
      LpiMove q collection s (.published c) { s.goto i (.stlr c) with cwriter := x3 }
  | release {i : Nat} {c : LpiCall} (hc : s.core i = .stlr c) :
      LpiMove q collection s .other { s.goto i .idle with lock := .written 0 }
  | execute {e : LpiEvent} {s' : ItsState} (hs : itsStep q collection s = some (e, s')) :
      LpiMove q collection s e s'
  | refresh (v : Nat) :
      LpiMove q collection s .other { s with
        cached := Function.update s.cached v (s.mem (q.cfgTable + v)) }

theorem lpiCoreStep_move {ok : Bool} (h : lpiCoreStep q i ok s = some (e, s')) :
    LpiMove q collection s e s' := by
  rw [lpiCoreStep] at h
  cases hc : s.core i with
  | idle => exact nomatch hc ▸ h
  | ldaxr c =>
    rw [hc] at h
    obtain ⟨rfl, rfl⟩ := Prod.mk.inj (Option.some.inj h)
    by_cases hw : s.lock.value = 0
    · rw [if_neg (not_not.mpr hw)]
      exact .free hc hw
    · rw [if_pos hw]
      exact .wait hc hw
  | stxr c =>
    rw [hc] at h
    dsimp only at h
    cases hs : s.lock.storeExclusive i 1 ok with
    | none =>
      rw [hs] at h
      obtain ⟨rfl, rfl⟩ := Prod.mk.inj (Option.some.inj h)
      exact .retry hc
    | some lock =>
      rw [hs] at h
      obtain ⟨rfl, rfl⟩ := Prod.mk.inj (Option.some.inj h)
      exact .acquire hc hs
  | ldrb c =>
    rw [hc] at h
    obtain ⟨rfl, rfl⟩ := Prod.mk.inj (Option.some.inj h)
    exact .load hc
  | strb c w2 =>
    rw [hc] at h
    obtain ⟨rfl, rfl⟩ := Prod.mk.inj (Option.some.inj h)
    exact .store hc
  | ldrCwriter c =>
    rw [hc] at h
    obtain ⟨rfl, rfl⟩ := Prod.mk.inj (Option.some.inj h)
    exact .loadCwriter hc
  | str c j x3 x4 x5 x11 =>
    rw [hc] at h
    obtain ⟨rfl, rfl⟩ := Prod.mk.inj (Option.some.inj h)
    exact .put hc
  | strCwriter c x3 =>
    rw [hc] at h
    obtain ⟨rfl, rfl⟩ := Prod.mk.inj (Option.some.inj h)
    exact .publish hc
  | stlr c =>
    rw [hc] at h
    obtain ⟨rfl, rfl⟩ := Prod.mk.inj (Option.some.inj h)
    exact .release hc

theorem lpiStep_move {th : LpiThread} (h : lpiStep q collection th s = some (e, s')) :
    LpiMove q collection s e s' := by
  cases th with
  | call i c =>
    rw [lpiStep] at h
    cases hc : s.core i with
    | idle =>
      rw [hc] at h
      obtain ⟨hlt, h⟩ := Option.ite_none_right_eq_some.mp h
      obtain ⟨rfl, rfl⟩ := Prod.mk.inj (Option.some.inj h)
      exact .call hc hlt
    | _ => exact nomatch hc ▸ h
  | core i ok => exact lpiCoreStep_move h
  | its => exact .execute h
  | refresh v =>
    obtain ⟨rfl, rfl⟩ := Prod.mk.inj (Option.some.inj h)
    exact .refresh v

/-! ### The lock -/

@[simp] theorem ItsState.goto_self (s : ItsState) (i : Nat) (c : LpiCore) :
    (s.goto i c).core i = c :=
  Function.update_self ..

@[simp] theorem ItsState.goto_mem (s : ItsState) (i : Nat) (c : LpiCore) :
    (s.goto i c).mem = s.mem := rfl

@[simp] theorem ItsState.goto_cwriter (s : ItsState) (i : Nat) (c : LpiCore) :
    (s.goto i c).cwriter = s.cwriter := rfl

@[simp] theorem ItsState.goto_creadr (s : ItsState) (i : Nat) (c : LpiCore) :
    (s.goto i c).creadr = s.creadr := rfl

@[simp] theorem ItsState.goto_cached (s : ItsState) (i : Nat) (c : LpiCore) :
    (s.goto i c).cached = s.cached := rfl

theorem ItsState.goto_ne {j : Nat} (s : ItsState) (c : LpiCore) (h : j ≠ i) :
    (s.goto i c).core j = s.core j :=
  Function.update_of_ne h ..

structure LpiLock (s : ItsState) : Prop where
  current : s.lock.Current
  stxr : ∀ i c x, s.core i = .stxr c → s.lock.reserved i = some x → x = 0
  alone : ∀ i j, (s.core i).InSection → (s.core j).InSection → i = j
  held : ∀ i, (s.core i).InSection → s.lock.value ≠ 0

/-- A step of a processor that neither takes the lock nor gives it back. -/
theorem LpiLock.goto {c : LpiCore} {lock : ExclusiveWord Nat Nat} (h : LpiLock s)
    (hs' : s'.core = (s.goto i c).core) (hlock : s'.lock = lock)
    (hvalue : lock.value = s.lock.value) (hcurrent : lock.Current)
    (hreserved : ∀ j ≠ i, lock.reserved j = s.lock.reserved j)
    (hsection : c.InSection ↔ (s.core i).InSection) (hstxr : ∀ c', c = .stxr c' → lock.value = 0) :
    LpiLock s' := by
  have hat : ∀ j, ((s'.core j).InSection ↔ (s.core j).InSection) := fun j => by
    rw [hs']
    by_cases hj : j = i
    · rw [hj, ItsState.goto_self, hsection]
    · rw [ItsState.goto_ne s c hj]
  subst hlock
  refine ⟨hcurrent, fun j c' x hc hx => ?_,
    fun j k hj hk => h.alone j k ((hat j).mp hj) ((hat k).mp hk), fun j hj => ?_⟩
  · rw [hs'] at hc
    by_cases hj : j = i
    · subst hj
      rw [ItsState.goto_self] at hc
      rw [hcurrent j x hx, hstxr c' hc]
    · rw [ItsState.goto_ne s c hj] at hc
      exact h.stxr j c' x hc (hreserved j hj ▸ hx)
  · rw [hvalue]
    exact h.held j ((hat j).mp hj)

/-- A step that leaves the lock and the places of the processors as they are. -/
theorem LpiLock.congr (h : LpiLock s) (hlock : s'.lock = s.lock) (hcore : s'.core = s.core) :
    LpiLock s' := by
  obtain ⟨mem, lock, cwriter, creadr, cached, core⟩ := s'
  obtain ⟨rfl, rfl⟩ : lock = s.lock ∧ core = s.core := ⟨hlock, hcore⟩
  exact ⟨h.current, h.stxr, h.alone, h.held⟩

theorem LpiLock.none_inside (h : LpiLock s) (hw : s.lock.value = 0) (i : Nat) :
    ¬ (s.core i).InSection :=
  fun hi => h.held i hi hw

theorem afterStr_inSection (q : LpiIts) (c : LpiCall) (j x3 x4 x5 x11 : Nat) :
    (q.afterStr c j x3 x4 x5 x11).InSection ∧ ∀ c', q.afterStr c j x3 x4 x5 x11 ≠ .stxr c' := by
  unfold LpiIts.afterStr
  split
  · split <;> exact ⟨trivial, nofun⟩
  · exact ⟨trivial, nofun⟩
  · dsimp only
    split <;> exact ⟨trivial, nofun⟩
  · exact ⟨trivial, nofun⟩

theorem itsStep_frame (hs : itsStep q collection s = some (e, s')) :
    s'.mem = s.mem ∧ s'.lock = s.lock ∧ s'.cwriter = s.cwriter ∧ s'.core = s.core := by
  obtain ⟨-, h⟩ := Option.ite_none_left_eq_some.mp hs
  obtain ⟨-, rfl⟩ := Prod.mk.inj (Option.some.inj h)
  exact ⟨rfl, rfl, rfl, rfl⟩

theorem itsStep_event (hs : itsStep q collection s = some (e, s')) :
    ∃ command, e = .executed command := by
  obtain ⟨-, h⟩ := Option.ite_none_left_eq_some.mp hs
  obtain ⟨rfl, -⟩ := Prod.mk.inj (Option.some.inj h)
  exact ⟨_, rfl⟩

theorem LpiLock.move (h : LpiLock s) (hm : LpiMove q collection s e s') : LpiLock s' := by
  cases hm with
  | call hc _ =>
    exact h.goto rfl rfl rfl h.current (fun _ _ => rfl) (by rw [hc]; exact Iff.rfl) nofun
  | @wait i c hc hw =>
    exact h.goto rfl rfl rfl (h.current.loadExclusive i) (fun j hj => s.lock.loadExclusive_ne hj)
      (by rw [hc]) nofun
  | @free i c hc hw =>
    exact h.goto rfl rfl rfl (h.current.loadExclusive i) (fun j hj => s.lock.loadExclusive_ne hj)
      (by rw [hc]; exact Iff.rfl) fun _ _ => hw
  | @acquire i c ok lock hc hs =>
    obtain ⟨rfl, hreserved⟩ := h.current.storeExclusive hs
    have hnone := h.none_inside (h.stxr i c _ hc hreserved)
    have honly : ∀ j, ((s.goto i (.ldrb c)).core j).InSection → j = i := fun j hj => by
      by_contra hne
      rw [ItsState.goto_ne s _ hne] at hj
      exact hnone j hj
    refine ⟨ExclusiveWord.current_written 1, fun j c' x _ hx => (nomatch hx),
      fun j k hj hk => (honly j hj).trans (honly k hk).symm, fun _ _ => Nat.one_ne_zero⟩
  | @retry i c hc =>
    exact h.goto rfl rfl rfl (h.current.drop i) (fun j hj => s.lock.drop_ne hj)
      (by rw [hc]; exact Iff.rfl) nofun
  | load hc => exact h.goto rfl rfl rfl h.current (fun _ _ => rfl) (by rw [hc]; exact Iff.rfl) nofun
  | store hc =>
    exact h.goto rfl rfl rfl h.current (fun _ _ => rfl) (by rw [hc]; exact Iff.rfl) nofun
  | loadCwriter hc =>
    exact h.goto rfl rfl rfl h.current (fun _ _ => rfl) (by rw [hc]; exact Iff.rfl) nofun
  | @put i j x3 x4 x5 x11 c hc =>
    obtain ⟨hin, hne⟩ := afterStr_inSection q c j x3 x4 x5 x11
    exact h.goto rfl rfl rfl h.current (fun _ _ => rfl) (by rw [hc]; exact iff_of_true hin trivial)
      fun c' hc' => absurd hc' (hne c')
  | publish hc =>
    exact h.goto rfl rfl rfl h.current (fun _ _ => rfl) (by rw [hc]; exact Iff.rfl) nofun
  | @release i c hc =>
    have hnone : ∀ j, ¬ ((s.goto i .idle).core j).InSection := fun j hj => by
      by_cases hji : j = i
      · rw [hji, ItsState.goto_self] at hj
        exact hj
      · rw [ItsState.goto_ne s _ hji] at hj
        exact hji (h.alone j i hj (by rw [hc]; trivial))
    exact ⟨ExclusiveWord.current_written 0, fun j c' x _ hx => (nomatch hx),
      fun j _ hj => absurd hj (hnone j), fun j hj => absurd hj (hnone j)⟩
  | execute hs =>
    obtain ⟨-, hlock, -, hcore⟩ := itsStep_frame hs
    exact h.congr hlock hcore
  | refresh v => exact h.congr rfl rfl

theorem lpiLock_init (q : LpiIts) (m : Mem) (slot : Nat) : LpiLock (itsInit q m slot) :=
  ⟨ExclusiveWord.current_written 0, nofun, fun _ _ h => h.elim, fun _ h => h.elim⟩

/-! ### The loop of a call -/

/-- The `p`-th word that a call stores. -/
def LpiIts.wordAt (q : LpiIts) (p : Nat) : Nat :=
  q.word (p % 8) (q.numCollections - p / 8) (u64 (q.rdBase + p / 8 * q.rdBaseOffset))

/-- The registers before the `p`-th word of a call that writes from the slot `start` on. -/
structure LpiIts.At (q : LpiIts) (start p j x3 x4 x5 x11 : Nat) : Prop where
  lt : p < 8 * q.numCollections
  place : j = p % 8
  offset : x3 = 32 * ((start + p / 4) % q.numSlots)
  pointer : x4 = q.cmdQ + x3 + 8 * (p % 4)
  left : x5 = q.numCollections - p / 8
  redist : x11 = u64 (q.rdBase + (p + 1) / 8 * q.rdBaseOffset)

theorem slot_lt (q : LpiIts) (k : Nat) : 32 * (k % q.numSlots) + 32 ≤ 32 * q.numSlots := by
  have := Nat.mod_lt k q.slots_pos
  omega

/-- One slot on, and from the last slot back to the beginning of the queue. -/
theorem next_slot (q : LpiIts) (k : Nat) :
    (if u64 (32 * (k % q.numSlots) + 32) ≤ q.lastOffset then u64 (32 * (k % q.numSlots) + 32)
      else 0) =
      32 * ((k + 1) % q.numSlots) := by
  have hlt := Nat.mod_lt k q.slots_pos
  have hend := q.queue_end
  rw [u64_of_lt (by omega), LpiIts.lastOffset, ← Nat.mod_add_mod k q.numSlots 1]
  split
  · next hle =>
    rw [Nat.mod_eq_of_lt (show k % q.numSlots + 1 < q.numSlots by omega)]
    omega
  · next hgt =>
    rw [show k % q.numSlots + 1 = q.numSlots by omega, Nat.mod_self]

theorem LpiIts.At.word {start p j x3 x4 x5 x11 : Nat} (h : q.At start p j x3 x4 x5 x11) :
    q.word j x5 x11 = q.wordAt p := by
  obtain ⟨hlt, rfl, -, -, rfl, rfl⟩ := h
  unfold LpiIts.wordAt LpiIts.word
  split
  · rfl
  · rfl
  · rfl
  · next h6 => rw [show (p + 1) / 8 = p / 8 by omega]
  · rfl

theorem LpiIts.At.next {start p j x3 x4 x5 x11 : Nat} (h : q.At start p j x3 x4 x5 x11)
    (c : LpiCall) :
    (∃ j' x3' x4' x5' x11', q.afterStr c j x3 x4 x5 x11 = .str c j' x3' x4' x5' x11' ∧
        q.At start (p + 1) j' x3' x4' x5' x11') ∨
      (p + 1 = 8 * q.numCollections ∧
        q.afterStr c j x3 x4 x5 x11 =
          .strCwriter c (32 * ((start + 2 * q.numCollections) % q.numSlots))) := by
  obtain ⟨hlt, rfl, rfl, rfl, rfl, rfl⟩ := h
  have hslot := slot_lt q (start + p / 4)
  have hnext := next_slot q (start + p / 4)
  have hend := q.queue_end
  have hpointer : u64 (q.cmdQ + 32 * ((start + p / 4) % q.numSlots) + 8 * (p % 4) + 8) =
      q.cmdQ + 32 * ((start + p / 4) % q.numSlots) + 8 * (p % 4) + 8 := u64_of_lt (by omega)
  unfold LpiIts.afterStr
  dsimp only
  rw [hpointer]
  split
  · next h3 =>
    have hdiv : start + (p + 1) / 4 = start + p / 4 + 1 := by omega
    left
    split
    · next hle =>
      rw [if_pos hle] at hnext
      refine ⟨_, _, _, _, _, rfl, by omega, by omega, ?_, ?_, by omega, ?_⟩
      · rw [hdiv, hnext]
      · rw [u64_of_lt (by omega)]
        omega
      · rw [show (p + 1 + 1) / 8 = (p + 1) / 8 by omega]
    · next hgt =>
      rw [if_neg hgt] at hnext
      refine ⟨_, _, _, _, _, rfl, by omega, by omega, ?_, by omega, by omega, ?_⟩
      · rw [hdiv, hnext]
      · rw [show (p + 1 + 1) / 8 = (p + 1) / 8 by omega]
  · next h6 =>
    refine .inl ⟨_, _, _, _, _, rfl, by omega, by omega, ?_, by omega, by omega, ?_⟩
    · rw [show (p + 1) / 4 = p / 4 by omega]
    · rw [u64_add_left, show (p + 1 + 1) / 8 = (p + 1) / 8 + 1 by omega, Nat.succ_mul,
        Nat.add_assoc]
  · next h7 =>
    have hdiv : start + (p + 1) / 4 = start + p / 4 + 1 := by omega
    have hleft : sub64 (q.numCollections - p / 8) 1 = q.numCollections - (p + 1) / 8 := by
      have := q.collections_lt
      rw [sub64_of_le (by omega) (by omega)]
      omega
    have hnext_lt := slot_lt q (start + p / 4 + 1)
    rw [hnext, hleft]
    split
    · next hzero =>
      refine .inr ⟨by omega, ?_⟩
      rw [show start + 2 * q.numCollections = start + p / 4 + 1 by omega]
    · next hmore =>
      refine .inl ⟨_, _, _, _, _, rfl, by omega, by omega, by rw [hdiv], ?_, rfl, ?_⟩
      · rw [u64_of_lt (by omega), show (p + 1) % 4 = 0 by omega]
        rfl
      · rw [show (p + 1 + 1) / 8 = (p + 1) / 8 by omega]
  · next h3 h6 h7 =>
    have hp : p % 8 ≠ 3 ∧ p % 8 ≠ 6 ∧ p % 8 ≠ 7 := ⟨h3, h6, h7⟩
    refine .inl ⟨_, _, _, _, _, rfl, by omega, by omega, ?_, by omega, by omega, ?_⟩
    · rw [show (p + 1) / 4 = p / 4 by omega]
    · rw [show (p + 1 + 1) / 8 = (p + 1) / 8 by omega]

/-! ### The table and the order of the calls -/

theorem or_one_and_fe (b : UInt8) : (b ||| 1) &&& 0xfe = b &&& 0xfe := by
  apply UInt8.eq_of_toBitVec_eq
  simp only [UInt8.toBitVec_and, UInt8.toBitVec_or]
  generalize b.toBitVec = x
  revert x
  decide

theorem and_fe_or_one (b : UInt8) : (b &&& 0xfe) ||| 1 = b ||| 1 := by
  apply UInt8.eq_of_toBitVec_eq
  simp only [UInt8.toBitVec_and, UInt8.toBitVec_or]
  generalize b.toBitVec = x
  revert x
  decide

theorem enable_enable (c c' : LpiCall) (b : UInt8) : c.enable (c'.enable b) = c.enable b := by
  unfold LpiCall.enable
  split <;> split
  · rw [UInt8.or_assoc, UInt8.or_self]
  · exact and_fe_or_one b
  · exact or_one_and_fe b
  · rw [UInt8.and_assoc, UInt8.and_self]

theorem entryAfter_append (v : Nat) (b : UInt8) (l : List LpiCall) (c : LpiCall) :
    entryAfter v b (l ++ [c]) = if c.index = v then c.enable (entryAfter v b l)
      else entryAfter v b l := by
  simp only [entryAfter, List.reverse_append, List.reverse_singleton, List.singleton_append,
    List.find?_cons]
  by_cases hv : c.index = v
  · simp only [hv, decide_true, if_true, Option.elim_some]
    cases l.reverse.find? fun c => decide (c.index = v) with
    | none => rfl
    | some c' => exact (enable_enable c c' b).symm
  · simp only [hv, decide_false, if_false]

section Lists

variable (t : List LpiEvent) (c : LpiCall) (w : List Nat)

@[simp] theorem acquired_append (e : LpiEvent) :
    acquired (t ++ [e]) = acquired t ++ e.acquired?.toList := by
  cases e <;> simp [acquired]

@[simp] theorem stored_append (e : LpiEvent) :
    stored (t ++ [e]) = stored t ++ e.stored?.toList := by
  cases e <;> simp [stored]

@[simp] theorem published_append (e : LpiEvent) :
    published (t ++ [e]) = published t ++ e.published?.toList := by
  cases e <;> simp [published]

@[simp] theorem executed_append (e : LpiEvent) :
    executed (t ++ [e]) = executed t ++ e.executed?.toList := by
  cases e <;> simp [executed]

end Lists

def LpiCore.call? : LpiCore → Option LpiCall
  | .idle => none
  | .ldaxr c | .stxr c | .ldrb c | .strb c _ | .ldrCwriter c | .str c .. | .strCwriter
      c _ | .stlr c => some c

/-- How far a processor that has the lock has come. -/
def LpiIts.Working (q : LpiIts) (slot : Nat) (t : List LpiEvent) (m : Mem) : LpiCore → Prop
  | .ldrb c => acquired t = published t ++ [c] ∧ stored t = published t
  | .strb c w2 => (acquired t = published t ++ [c] ∧ stored t = published t) ∧ w2 = m (q.entry c)
  | .ldrCwriter c => acquired t = published t ++ [c] ∧ stored t = published t ++ [c]
  | .str c j x3 x4 x5 x11 => (acquired t = published t ++ [c] ∧ stored t = published t ++ [c]) ∧
      ∃ p, q.At (slot + 2 * q.numCollections * (published t).length) p j x3 x4 x5 x11
  | .strCwriter c x3 => (acquired t = published t ++ [c] ∧ stored t = published t ++ [c]) ∧
      x3 = 32 * ((slot + 2 * q.numCollections * ((published t).length + 1)) % q.numSlots)
  | .stlr _ => acquired t = published t ∧ stored t = published t
  | _ => True

structure LpiItsInv (q : LpiIts) (m : Mem) (slot : Nat) (t : List LpiEvent)
    (s : ItsState) : Prop where
  lock : LpiLock s
  valid : ∀ i c, (s.core i).call? = some c → c.index < q.numLpis
  resting : (∀ i, ¬ (s.core i).InSection) → acquired t = published t ∧ stored t = published t
  working : ∀ i, (s.core i).InSection → q.Working slot t s.mem (s.core i)
  table : ∀ v < q.numLpis, s.mem (q.cfgTable + v) = entryAfter v (m (q.cfgTable + v)) (stored t)
  cwriter : s.cwriter = 32 * ((slot + 2 * q.numCollections * (published t).length) % q.numSlots)
  frame : ∀ x, x ∉ bytes q.cfgTable q.numLpis → x ∉ bytes q.cmdQ (32 * q.numSlots) → s.mem x = m x

theorem LpiItsInv.safe (h : LpiItsInv q m slot t s) : LpiSafe q m slot t s := by
  refine ⟨h.lock.alone, ?_, h.table, h.cwriter, h.frame⟩
  by_cases hin : ∃ i, (s.core i).InSection
  · obtain ⟨i, hi⟩ := hin
    have hw := h.working i hi
    cases hc : s.core i with
    | idle | ldaxr | stxr => exact (hc ▸ hi).elim
    | ldrb c | strb c w2 | ldrCwriter c | str c j x3 x4 x5 x11 | strCwriter c x3 | stlr c =>
      rw [hc] at hw
      simp only [LpiIts.Working] at hw
      grind
  · obtain ⟨hacq, hsto⟩ := h.resting (not_exists.mp hin)
    rw [hacq, hsto]
    exact ⟨List.prefix_rfl, List.prefix_rfl, Nat.le_succ _⟩

theorem working_of_lists {t' : List LpiEvent} (hacq : acquired t' = acquired t)
    (hsto : stored t' = stored t) (hpub : published t' = published t) (m : Mem) (c : LpiCore) :
    q.Working slot t' m c = q.Working slot t m c := by
  cases c <;> simp only [LpiIts.Working, hacq, hsto, hpub]

/-- A step outside the section, or one that changes no more than where a processor is. -/
theorem LpiItsInv.goto {c : LpiCore} (h : LpiItsInv q m slot t s) (hlock : LpiLock s')
    (hcore : s'.core = (s.goto i c).core) (hmem : s'.mem = s.mem)
    (hcwriter : s'.cwriter = s.cwriter) (hsection : c.InSection ↔ (s.core i).InSection)
    (hvalid : ∀ d, c.call? = some d → d.index < q.numLpis)
    (hworking : c.InSection → q.Working slot t s.mem c) :
    LpiItsInv q m slot (t ++ [.other]) s' := by
  have hlists : ∀ c, q.Working slot (t ++ [.other]) s.mem c = q.Working slot t s.mem c :=
    working_of_lists (by simp) (by simp) (by simp) s.mem
  have hat : ∀ j, ((s'.core j).InSection ↔ (s.core j).InSection) := fun j => by
    rw [hcore]
    by_cases hj : j = i
    · rw [hj, ItsState.goto_self, hsection]
    · rw [ItsState.goto_ne s c hj]
  refine ⟨hlock, fun j d hd => ?_, fun hnone => ?_, fun j hj => ?_, fun v hv => ?_,
    ?_, fun x hx hx' => ?_⟩
  · rw [hcore] at hd
    by_cases hji : j = i
    · rw [hji, ItsState.goto_self] at hd
      exact hvalid d hd
    · rw [ItsState.goto_ne s c hji] at hd
      exact h.valid j d hd
  · simpa using h.resting fun j hj => hnone j ((hat j).mpr hj)
  · rw [hmem, hlists]
    rw [hcore] at hj ⊢
    by_cases hji : j = i
    · rw [hji, ItsState.goto_self] at hj ⊢
      exact hworking hj
    · rw [ItsState.goto_ne s c hji] at hj ⊢
      exact h.working j hj
  · rw [hmem, h.table v hv]
    simp
  · rw [hcwriter, h.cwriter]
    simp
  · rw [hmem]
    exact h.frame x hx hx'

/-- A step of the service or of a redistributor. -/
theorem LpiItsInv.congr (h : LpiItsInv q m slot t s) (hlock : LpiLock s') (hmem : s'.mem = s.mem)
    (hcwriter : s'.cwriter = s.cwriter) (hcore : s'.core = s.core)
    (hacq : acquired (t ++ [e]) = acquired t) (hsto : stored (t ++ [e]) = stored t)
    (hpub : published (t ++ [e]) = published t) :
    LpiItsInv q m slot (t ++ [e]) s' := by
  refine ⟨hlock, fun i => hcore ▸ h.valid i, fun hnone => ?_, fun i hi => ?_, fun v hv => ?_, ?_,
    fun x => hmem ▸ h.frame x⟩
  · rw [hacq, hsto, hpub]
    exact h.resting fun i => hcore ▸ hnone i
  · rw [hmem, hcore, working_of_lists hacq hsto hpub]
    exact h.working i (hcore ▸ hi)
  · rw [hmem, hsto, h.table v hv]
  · rw [hcwriter, hpub, h.cwriter]

/-- A step of the processor that has the lock. -/
theorem LpiItsInv.inside {c : LpiCore} (h : LpiItsInv q m slot t s) (hlock : LpiLock s')
    (hi : (s.core i).InSection)
    (hcore : s'.core = (s.goto i c).core) (hc : c.InSection) (hcall : c.call? = (s.core i).call?)
    (hworking : q.Working slot (t ++ [e]) s'.mem c)
    (htable : ∀ v < q.numLpis, s'.mem (q.cfgTable + v) = entryAfter v (m (q.cfgTable + v))
      (stored (t ++ [e])))
    (hcwriter : s'.cwriter = 32 * ((slot + 2 * q.numCollections * (published (t ++ [e])).length) %
      q.numSlots))
    (hframe : ∀ x, x ∉ bytes q.cfgTable q.numLpis → x ∉ bytes q.cmdQ (32 * q.numSlots) →
      s'.mem x = s.mem x) :
    LpiItsInv q m slot (t ++ [e]) s' := by
  refine ⟨hlock, fun j d hd => ?_, fun hnone => ?_, fun j hj => ?_, htable, hcwriter,
    fun x hx hx' => (hframe x hx hx').trans (h.frame x hx hx')⟩
  · rw [hcore] at hd
    by_cases hji : j = i
    · rw [hji, ItsState.goto_self, hcall] at hd
      exact h.valid i d hd
    · rw [ItsState.goto_ne s c hji] at hd
      exact h.valid j d hd
  · refine absurd ?_ (hnone i)
    rwa [hcore, ItsState.goto_self]
  · rw [hcore] at hj ⊢
    by_cases hji : j = i
    · rwa [hji, ItsState.goto_self]
    · rw [ItsState.goto_ne s c hji] at hj
      exact absurd (h.lock.alone j i hj hi) hji

theorem LpiItsInv.entry (h : LpiItsInv q m slot t s) {c : LpiCall}
    (hc : (s.core i).call? = some c) :
    q.entry c = q.cfgTable + c.index ∧ c.index < q.numLpis := by
  have hlt := h.valid i c hc
  have hend := q.table_end
  exact ⟨u64_of_lt (by omega), hlt⟩

/-- The word that is stored lies in the queue. -/
theorem LpiIts.At.inQueue {start p j x3 x4 x5 x11 : Nat} (h : q.At start p j x3 x4 x5 x11) :
    q.cmdQ ≤ x4 ∧ x4 + 8 ≤ q.cmdQ + 32 * q.numSlots := by
  have hslot := slot_lt q (start + p / 4)
  rw [h.pointer, h.offset]
  omega

/-- What is known of a processor in the section. -/
theorem LpiItsInv.working_at {x : LpiCore} (h : LpiItsInv q m slot t s) (hc : s.core i = x)
    (hx : x.InSection) :
    (s.core i).InSection ∧ q.Working slot t s.mem x := by
  subst hc
  exact ⟨hx, h.working i hx⟩

theorem LpiItsInv.acquire {c : LpiCall} {ok : Bool} {lock : ExclusiveWord Nat Nat}
    (h : LpiItsInv q m slot t s) (hc : s.core i = .stxr c)
    (hs : s.lock.storeExclusive i 1 ok = some lock)
    (hlock : LpiLock { s.goto i (.ldrb c) with lock := lock }) :
    LpiItsInv q m slot (t ++ [.acquired c]) { s.goto i (.ldrb c) with lock := lock } := by
  obtain ⟨-, hreserved⟩ := h.lock.current.storeExclusive hs
  have hnone := h.lock.none_inside (h.lock.stxr i c _ hc hreserved)
  obtain ⟨hacq, hsto⟩ := h.resting hnone
  refine ⟨hlock, fun j d hd => ?_, fun hall => ?_, fun j hj => ?_, fun v hv => ?_, ?_, h.frame⟩
  · by_cases hji : j = i
    · subst hji
      exact h.valid j d (by rw [hc]; simpa [LpiCore.call?] using hd)
    · exact h.valid j d (by simpa [ItsState.goto_ne s _ hji] using hd)
  · exact absurd (hall i) (by simp [LpiCore.InSection])
  · by_cases hji : j = i
    · subst hji
      simp [LpiIts.Working, hacq, hsto]
    · exact absurd (by simpa [ItsState.goto_ne s _ hji] using hj) (hnone j)
  · simpa using h.table v hv
  · simpa using h.cwriter

theorem LpiItsInv.store {c : LpiCall} {w2 : UInt8} (h : LpiItsInv q m slot t s)
    (hc : s.core i = .strb c w2)
    (hlock : LpiLock { s.goto i (.ldrCwriter c) with
      mem := Function.update s.mem (q.entry c) (c.enable w2) }) :
    LpiItsInv q m slot (t ++ [.stored c])
      { s.goto i (.ldrCwriter c) with mem := Function.update s.mem (q.entry c) (c.enable w2) } := by
  obtain ⟨hin, ⟨hacq, hsto⟩, rfl⟩ := h.working_at hc trivial
  obtain ⟨hentry, hlt⟩ := h.entry (i := i) (c := c) (by rw [hc]; rfl)
  refine h.inside hlock hin rfl trivial (by rw [hc]; rfl) (by simp [LpiIts.Working, hacq, hsto])
    (fun v hv => ?_)
    (by simpa using h.cwriter) fun x hx _ => Function.update_of_ne (fun hxe => hx ?_) ..
  · simp only [stored_append, LpiEvent.stored?, Option.toList_some, entryAfter_append,
      ← h.table v hv, hentry]
    by_cases hv' : c.index = v
    · rw [if_pos hv', hv', Function.update_self]
    · rw [if_neg hv', Function.update_of_ne (by omega)]
  · rw [hxe, hentry, mem_bytes]
    omega

/-- A word of a command: the queue holds one more, or all of them. -/
theorem LpiItsInv.put {c : LpiCall} {j x3 x4 x5 x11 : Nat} (h : LpiItsInv q m slot t s)
    (hc : s.core i = .str c j x3 x4 x5 x11)
    (hlock : LpiLock { s.goto i (q.afterStr c j x3 x4 x5 x11) with
      mem := writePtr s.mem x4 (q.word j x5 x11) }) :
    LpiItsInv q m slot (t ++ [.other])
      { s.goto i (q.afterStr c j x3 x4 x5 x11) with
        mem := writePtr s.mem x4 (q.word j x5 x11) } := by
  obtain ⟨hin, hlists, p, hat⟩ := h.working_at hc trivial
  obtain ⟨hlo, hhi⟩ := hat.inQueue
  have hapart := q.apart
  obtain ⟨hsection, -⟩ := afterStr_inSection q c j x3 x4 x5 x11
  have hcall : (q.afterStr c j x3 x4 x5 x11).call? = some c := by
    obtain ⟨_, _, _, _, _, hafter, -⟩ | ⟨-, hafter⟩ := hat.next c <;> rw [hafter] <;> rfl
  refine h.inside hlock hin rfl hsection (by rw [hc]; exact hcall) ?_ (fun v hv => ?_)
    (by simpa using h.cwriter)
    fun x _ hx => writePtr_of_not_mem fun hx' => hx ?_
  · rw [working_of_lists (t := t) (by simp) (by simp) (by simp)]
    obtain ⟨j', x3', x4', x5', x11', hafter, hat'⟩ | ⟨hlast, hafter⟩ := hat.next c
    · rw [hafter]
      exact ⟨hlists, p + 1, hat'⟩
    · rw [hafter]
      refine ⟨hlists, ?_⟩
      rw [Nat.mul_succ, Nat.add_assoc]
  · change writePtr s.mem x4 (q.word j x5 x11) (q.cfgTable + v) = _
    rw [writePtr_of_not_mem (by omega), h.table v hv]
    simp
  · rw [mem_bytes]
    omega

theorem LpiItsInv.release {c : LpiCall} (h : LpiItsInv q m slot t s) (hc : s.core i = .stlr c)
    (hlock : LpiLock { s.goto i .idle with lock := .written 0 }) :
    LpiItsInv q m slot (t ++ [.other]) { s.goto i .idle with lock := .written 0 } := by
  obtain ⟨hin, hw⟩ := h.working_at hc trivial
  have hnone : ∀ j, ¬ ((s.goto i .idle).core j).InSection := fun j hj => by
    by_cases hji : j = i
    · rw [hji, ItsState.goto_self] at hj
      exact hj
    · rw [ItsState.goto_ne s _ hji] at hj
      exact hji (h.lock.alone j i hj hin)
  refine ⟨hlock, fun j d hd => ?_, fun _ => by simpa [LpiIts.Working] using hw,
    fun j hj => absurd hj (hnone j),
    fun v hv => by simpa using h.table v hv, by simpa using h.cwriter, h.frame⟩
  by_cases hji : j = i
  · subst hji
    simp [LpiCore.call?] at hd
  · exact h.valid j d (by simpa [ItsState.goto_ne s _ hji] using hd)

theorem LpiItsInv.move (h : LpiItsInv q m slot t s) (hm : LpiMove q collection s e s') :
    LpiItsInv q m slot (t ++ [e]) s' := by
  have hlock := h.lock.move hm
  cases hm with
  | @call i c hc hlt =>
    exact h.goto hlock rfl rfl rfl (by rw [hc]; exact Iff.rfl)
      (fun d hd => Option.some.inj hd ▸ hlt) nofun
  | @wait i c hc hw =>
    exact h.goto hlock rfl rfl rfl (by rw [hc])
      (fun d hd => h.valid i d (by rw [hc]; exact hd)) nofun
  | @free i c hc hw =>
    exact h.goto hlock rfl rfl rfl (by rw [hc]; exact Iff.rfl)
      (fun d hd => h.valid i d (by rw [hc]; exact hd)) nofun
  | @retry i c hc =>
    exact h.goto hlock rfl rfl rfl (by rw [hc]; exact Iff.rfl)
      (fun d hd => h.valid i d (by rw [hc]; exact hd)) nofun
  | acquire hc hs => exact h.acquire hc hs hlock
  | @load i c hc =>
    obtain ⟨hin, hw⟩ := h.working_at hc trivial
    exact h.goto hlock rfl rfl rfl (by rw [hc]; exact Iff.rfl)
      (fun d hd => h.valid i d (by rw [hc]; exact hd)) fun _ => ⟨hw, rfl⟩
  | store hc => exact h.store hc hlock
  | @loadCwriter i c hc =>
    obtain ⟨hin, hw⟩ := h.working_at hc trivial
    have hslot := slot_lt q (slot + 2 * q.numCollections * (published t).length)
    have hend := q.queue_end
    have hpos := q.collections_pos
    refine h.goto hlock rfl rfl rfl (by rw [hc]; exact Iff.rfl)
      (fun d hd => h.valid i d (by rw [hc]; exact hd)) fun _ =>
      ⟨hw, 0, by omega, rfl, h.cwriter, ?_, by simp, ?_⟩
    · rw [h.cwriter, u64_of_lt (by omega)]
      rfl
    · rw [show (0 + 1) / 8 = 0 from rfl, Nat.zero_mul, Nat.add_zero, u64_of_lt q.rdBase_lt]
  | put hc => exact h.put hc hlock
  | @publish i x3 c hc =>
    obtain ⟨hin, ⟨hacq, hsto⟩, hx3⟩ := h.working_at hc trivial
    exact h.inside hlock hin rfl trivial (by rw [hc]; rfl) (by simp [LpiIts.Working, hacq, hsto])
      (fun v hv => by simpa using h.table v hv) (by simpa using hx3) fun _ _ _ => rfl
  | release hc => exact h.release hc hlock
  | execute hs =>
    obtain ⟨hmem, -, hcwriter, hcore⟩ := itsStep_frame hs
    obtain ⟨command, rfl⟩ := itsStep_event hs
    exact h.congr hlock hmem hcwriter hcore (by simp) (by simp) (by simp)
  | refresh v => exact h.congr hlock rfl rfl rfl (by simp) (by simp) (by simp)

theorem lpiItsInv_init (q : LpiIts) (m : Mem) {slot : Nat} (hslot : slot < q.numSlots) :
    LpiItsInv q m slot [] (itsInit q m slot) := by
  refine ⟨lpiLock_init q m slot, nofun, fun _ => ⟨rfl, rfl⟩, fun _ h => h.elim, fun _ _ => rfl,
    ?_, fun _ _ _ => rfl⟩
  simp [itsInit, published, Nat.mod_eq_of_lt hslot]

theorem lpiItsInv_run (hslot : slot < q.numSlots)
    (run : Trace (lpiStep q collection) (itsInit q m slot) t s) :
    LpiItsInv q m slot t s :=
  run.induct (lpiItsInv_init q m hslot) fun _ _ _ _ _ h hs => h.move (lpiStep_move hs)

/-- However the processors take turns. -/
theorem lpiIts_safe (hslot : slot < q.numSlots)
    (run : Trace (lpiStep q collection) (itsInit q m slot) t s) :
    LpiSafe q m slot t s :=
  (lpiItsInv_run hslot run).safe

/-- Eight slots and one collection. -/
def lpiItsSmall : LpiIts where
  cfgTable := 0x1000
  numLpis := 64
  cmdQ := 0x2000
  numSlots := 8
  rdBase := 0x10000
  rdBaseOffset := 0x20000
  numCollections := 1
  slots_pos := by decide
  collections_pos := by decide
  collections_lt := by decide
  rdBase_lt := by decide
  queue_end := by decide
  table_end := by decide
  apart := by decide

/-- Two processors call for one interrupt at the same time, and the service reads in between. -/
def lpiItsSchedule : List LpiThread :=
  [.call 0 ⟨true, 3, 0⟩, .call 1 ⟨false, 3, 0⟩, .core 0 true, .core 1 true, .core 1 false] ++
    List.replicate 16 (.core 0 true) ++
    [.its] ++ List.replicate 17 (.core 1 true) ++ List.replicate 3 .its

theorem lpiIts_safe_example :
    LpiSafe lpiItsSmall (fun _ => 0) 7 (runSchedule (lpiStep lpiItsSmall fun _ => 0) lpiItsSchedule
      ([], itsInit lpiItsSmall (fun _ => 0) 7)).1
      (runSchedule (lpiStep lpiItsSmall fun _ => 0) lpiItsSchedule
        ([], itsInit lpiItsSmall (fun _ => 0) 7)).2 :=
  lpiIts_safe (by decide) (Trace.start.runSchedule _)

/-! ### The queue and the service -/

/-- The words that a processor in the loop has stored for its call. -/
def LpiCore.progress (q : LpiIts) : LpiCore → Nat
  | .str _ j _ _ x5 _ => 8 * (q.numCollections - x5) + j
  | .strCwriter .. => 8 * q.numCollections
  | _ => 0

def queueWord (q : LpiIts) (m : Mem) (p : Nat) : Nat := readPtr m (q.cmdQ + 8 * p)

/-- The words of one call after the other. -/
def LpiIts.logWord (q : LpiIts) (p : Nat) : Nat := q.wordAt (p % (8 * q.numCollections))

structure LpiQueue (q : LpiIts) (slot : Nat) (t : List LpiEvent) (s : ItsState) : Prop where
  inOrder : executed t = (List.range (executed t).length).map fun k =>
    q.command (k % (2 * q.numCollections))
  read : (executed t).length ≤ 2 * q.numCollections * (published t).length
  unread : 2 * q.numCollections * (published t).length < (executed t).length + q.numSlots
  creadr : s.creadr = 32 * ((slot + (executed t).length) % q.numSlots)
  room : ∀ i, (s.core i).InSection → published t ≠ acquired t →
    2 * q.numCollections * ((published t).length + 1) < (executed t).length + q.numSlots
  ring : ∀ i, RingHolds (4 * q.numSlots) (4 * slot) (queueWord q s.mem) q.logWord
    (4 * (executed t).length)
    (8 * q.numCollections * (published t).length + (s.core i).progress q)

theorem command_eq (q : LpiIts) {k : Nat} (hk : k < 2 * q.numCollections) :
    q.command k = (List.range 4).map fun i => q.wordAt (4 * k + i) := by
  have hsub : sub64 q.numCollections (q.numCollections - k / 2) = k / 2 := by
    have := q.collections_lt
    rw [sub64_of_le (by omega) (by omega)]
    omega
  rcases Nat.mod_two_eq_zero_or_one k with hpar | hpar
  · have h0 : (4 * k) % 8 = 0 := by omega
    have h1 : (4 * k + 1) % 8 = 1 := by omega
    have h2 : (4 * k + 2) % 8 = 2 := by omega
    have h3 : (4 * k + 3) % 8 = 3 := by omega
    have hdiv : (4 * k + 2) / 8 = k / 2 := by omega
    simp [LpiIts.command, hpar, LpiIts.wordAt, LpiIts.word, List.range_succ, h0,
      h1, h2, h3, hdiv, hsub]
  · have h0 : (4 * k) % 8 = 4 := by omega
    have h1 : (4 * k + 1) % 8 = 5 := by omega
    have h2 : (4 * k + 2) % 8 = 6 := by omega
    have h3 : (4 * k + 3) % 8 = 7 := by omega
    have hdiv : (4 * k + 2) / 8 = k / 2 := by omega
    simp [LpiIts.command, hpar, LpiIts.wordAt, LpiIts.word, List.range_succ, h0, h1, h2, h3, hdiv]

theorem logWord_command (q : LpiIts) (k : Nat) :
    q.command (k % (2 * q.numCollections)) = (List.range 4).map fun i => q.logWord (4 * k + i) := by
  have hpos := q.collections_pos
  have hk : k % (2 * q.numCollections) < 2 * q.numCollections := Nat.mod_lt _ (by omega)
  rw [command_eq q hk]
  refine List.map_congr_left fun i hi => ?_
  have hi : i < 4 := List.mem_range.mp hi
  rw [LpiIts.logWord]
  congr 1
  have hdecomp := Nat.div_add_mod k (2 * q.numCollections)
  generalize k % (2 * q.numCollections) = r at hk hdecomp ⊢
  generalize k / (2 * q.numCollections) = d at hdecomp
  have hassoc : 8 * q.numCollections * d = 4 * (2 * q.numCollections * d) := by
    rw [← Nat.mul_assoc, ← Nat.mul_assoc]
  rw [show 4 * k + i = 4 * r + i + 8 * q.numCollections * d by omega, Nat.add_mul_mod_self_left,
    Nat.mod_eq_of_lt (by omega)]

theorem LpiIts.At.progress {start p j x3 x4 x5 x11 : Nat} (h : q.At start p j x3 x4 x5 x11)
    (c : LpiCall) :
    (LpiCore.str c j x3 x4 x5 x11).progress q = p := by
  have := h.lt
  rw [LpiCore.progress, h.place, h.left]
  omega

theorem LpiIts.At.progress_next {start p j x3 x4 x5 x11 : Nat} (h : q.At start p j x3 x4 x5 x11)
    (c : LpiCall) :
    (q.afterStr c j x3 x4 x5 x11).progress q = p + 1 := by
  obtain ⟨j', x3', x4', x5', x11', hafter, hat⟩ | ⟨hlast, hafter⟩ := h.next c
  · rw [hafter, hat.progress c]
  · rw [hafter, hlast]
    rfl

theorem progress_of_not_inSection {c : LpiCore} (h : ¬ c.InSection) : c.progress q = 0 := by
  cases c with
  | idle | ldaxr | stxr => rfl
  | _ => exact absurd trivial h

theorem LpiRoom.of_append (h : LpiRoom q (t ++ [e])) : LpiRoom q t :=
  fun pre c post ht => h pre c (post ++ [e]) (by rw [ht, List.append_assoc, List.cons_append])

theorem published_prefix (t t' : List LpiEvent) :
    (published t).length ≤ (published (t ++ t')).length := by
  rw [published, published, List.filterMap_append, List.length_append]
  exact Nat.le_add_right ..

/-- A queue with slots for one call more than have been published has room in any case. -/
theorem LpiRoom.of_slots (h : 2 * q.numCollections * ((published t).length + 1) < q.numSlots) :
    LpiRoom q t := by
  rintro pre c post rfl
  have hle := published_prefix pre (.acquired c :: post)
  exact ((Nat.mul_le_mul_left _ (Nat.succ_le_succ hle)).trans_lt h).trans_le (Nat.le_add_left ..)

theorem queueWord_congr {m' : Mem} (h : ∀ x ∈ bytes q.cmdQ (32 * q.numSlots), m' x = m x) {p : Nat}
    (hp : p < 4 * q.numSlots) :
    queueWord q m' p = queueWord q m p := by
  refine readPtr_congr fun i hi => h _ ?_
  rw [mem_bytes]
  omega

/-- A step that leaves the queue as it is, of a processor that has nothing to go on with in it. -/
theorem LpiQueue.goto {c : LpiCore} (h : LpiQueue q slot t s) (hcore : s'.core = (s.goto i c).core)
    (hcreadr : s'.creadr = s.creadr)
    (hmem : ∀ p < 4 * q.numSlots, queueWord q s'.mem p = queueWord q s.mem p)
    (hprogress : c.progress q = 0) (hsection : c.InSection → (s.core i).InSection)
    (hexec : executed (t ++ [e]) = executed t) (hpub : published (t ++ [e]) = published t)
    (hacq : acquired (t ++ [e]) = acquired t) :
    LpiQueue q slot (t ++ [e]) s' := by
  have hpos := q.slots_pos
  refine ⟨?_, ?_, ?_, ?_, fun j hj hne => ?_, fun j => ?_⟩
  · rw [hexec]
    exact h.inOrder
  · rw [hexec, hpub]
    exact h.read
  · rw [hexec, hpub]
    exact h.unread
  · rw [hexec, hcreadr]
    exact h.creadr
  · rw [hpub, hacq] at hne
    rw [hexec, hpub]
    rw [hcore] at hj
    by_cases hji : j = i
    · rw [hji, ItsState.goto_self] at hj
      exact h.room i (hsection hj) hne
    · rw [ItsState.goto_ne s c hji] at hj
      exact h.room j hj hne
  · rw [hexec, hpub, hcore]
    by_cases hji : j = i
    · rw [hji, ItsState.goto_self, hprogress]
      exact ((h.ring i).congr (by omega) hmem).mono le_rfl (by omega)
    · rw [ItsState.goto_ne s c hji]
      exact (h.ring j).congr (by omega) hmem

theorem wordAt_lt (q : LpiIts) (p : Nat) : q.wordAt p < 2 ^ 64 := by
  unfold LpiIts.wordAt LpiIts.word
  split
  · decide
  · exact u64_lt _
  · decide
  · exact u64_lt _
  · decide

theorem four_mul_mod_add {n k r : Nat} (hr : r < 4) : 4 * (k % n) + r = (4 * k + r) % (4 * n) := by
  rcases Nat.eq_zero_or_pos n with rfl | hn
  · rw [Nat.mod_zero, Nat.mul_zero, Nat.mod_zero]
  have hlt := Nat.mod_lt k hn
  have hdecomp := Nat.div_add_mod k n
  generalize k % n = x at hlt hdecomp ⊢
  have hassoc : 4 * n * (k / n) = 4 * (n * (k / n)) := Nat.mul_assoc ..
  rw [show 4 * k + r = 4 * x + r + 4 * n * (k / n) by omega, Nat.add_mul_mod_self_left,
    Nat.mod_eq_of_lt (by omega)]

theorem queueWord_write_self (q : LpiIts) (m : Mem) (p : Nat) {word : Nat} (h : word < 2 ^ 64) :
    queueWord q (writePtr m (q.cmdQ + 8 * p) word) p = word := readPtr_writePtr_self m _ h

theorem queueWord_write_ne (q : LpiIts) (m : Mem) (word : Nat) {p p' : Nat} (h : p' ≠ p) :
    queueWord q (writePtr m (q.cmdQ + 8 * p) word) p' = queueWord q m p' := by
  refine readPtr_congr fun i hi => writePtr_of_not_mem ?_
  omega

theorem LpiQueue.put {p j x3 x4 x5 x11 : Nat} {c : LpiCall} (h : LpiQueue q slot t s)
    (hlock : LpiLock s) (hc : s.core i = .str c j x3 x4 x5 x11) (hne : published t ≠ acquired t)
    (hat : q.At (slot + 2 * q.numCollections * (published t).length) p j x3 x4 x5 x11) :
    LpiQueue q slot (t ++ [.other])
      { s.goto i (q.afterStr c j x3 x4 x5 x11) with
        mem := writePtr s.mem x4 (q.word j x5 x11) } := by
  have hin : (s.core i).InSection := by rw [hc]; trivial
  have hpos := q.slots_pos
  have hroom := h.room i hin hne
  have hlt := hat.lt
  have hassoc : 8 * q.numCollections * (published t).length =
      4 * (2 * q.numCollections * (published t).length) := by
    rw [← Nat.mul_assoc, ← Nat.mul_assoc]
  have hx4 : x4 = q.cmdQ + 8 * ((4 * slot + (8 * q.numCollections * (published t).length + p)) %
      (4 * q.numSlots)) := by
    have hfour := four_mul_mod_add (n := q.numSlots) (k :=
      slot + 2 * q.numCollections * (published t).length + p / 4)
      (Nat.mod_lt p (by decide : 4 > 0))
    rw [show 4 * slot + (8 * q.numCollections * (published t).length + p) =
      4 * (slot + 2 * q.numCollections * (published t).length + p / 4) + p % 4 by
      omega, ← hfour, hat.pointer, hat.offset]
    omega
  have hlog : q.logWord (8 * q.numCollections * (published t).length + p) = q.word j x5 x11 := by
    rw [hat.word, LpiIts.logWord, Nat.mul_add_mod, Nat.mod_eq_of_lt hlt]
  have hring := h.ring i
  rw [hc, hat.progress c] at hring
  have hpush : RingHolds (4 * q.numSlots) (4 * slot) (queueWord q
      (writePtr s.mem x4 (q.word j x5 x11))) q.logWord
      (4 * (executed t).length) (8 * q.numCollections * (published t).length + p + 1) := hring.push
    (by rw [Nat.mul_succ] at hroom; omega)
    (by rw [hx4, queueWord_write_self q _ _ (hat.word ▸ wordAt_lt q p), hlog])
    fun p' _ hp' => by rw [hx4, queueWord_write_ne q _ _ hp']
  refine ⟨by simpa using h.inOrder, by simpa using h.read, by simpa using h.unread, by
    simpa using h.creadr, fun _ _ _ => by simpa using hroom, fun k => ?_⟩
  by_cases hk : k = i
  · simpa [hk, hat.progress_next c, ← Nat.add_assoc] using hpush
  · have hzero : (s.core k).progress q = 0 :=
      progress_of_not_inSection fun hin' => hk (hlock.alone k i hin' hin)
    simpa [s.goto_ne _ hk, hzero] using hpush.mono le_rfl (by omega)

theorem LpiQueue.publish {x3 : Nat} {c : LpiCall} (h : LpiQueue q slot t s) (hlock : LpiLock s)
    (hc : s.core i = .strCwriter c x3) (hacq : acquired t = published t ++ [c]) :
    LpiQueue q slot (t ++ [.published c]) { s.goto i (.stlr c) with cwriter := x3 } := by
  have hin : (s.core i).InSection := by rw [hc]; trivial
  have hread := h.read
  have hroom := h.room i hin (by simp [hacq])
  have hring := h.ring i
  rw [hc, LpiCore.progress] at hring
  refine ⟨by simpa using h.inOrder, ?_, ?_, by simpa using h.creadr, fun _ _ hne =>
    (hne (by simp [hacq])).elim, fun k => ?_⟩
  · simp only [executed_append, published_append, LpiEvent.executed?, LpiEvent.published?,
      Option.toList_none,
      Option.toList_some, List.append_nil, List.length_append, List.length_singleton, Nat.mul_succ]
    omega
  · simpa using hroom
  · have hzero : ((s.goto i (.stlr c)).core k).progress q = 0 := by
      by_cases hk : k = i
      · rw [hk, ItsState.goto_self]
        rfl
      · rw [s.goto_ne _ hk]
        exact progress_of_not_inSection fun hin' => hk (hlock.alone k i hin' hin)
    simpa [hzero, Nat.mul_succ] using hring

theorem LpiQueue.execute (h : LpiQueue q slot t s)
    (hcwriter :
      s.cwriter = 32 * ((slot + 2 * q.numCollections * (published t).length) % q.numSlots))
    (hs : itsStep q collection s = some (e, s')) :
    e = .executed (q.command ((executed t).length % (2 * q.numCollections))) ∧
      (executed t).length < 2 * q.numCollections * (published t).length ∧
      LpiQueue q slot (t ++ [e]) s' := by
  obtain ⟨hne, hstep⟩ := Option.ite_none_left_eq_some.mp hs
  obtain ⟨rfl, rfl⟩ := Prod.mk.inj (Option.some.inj hstep)
  have hunread : (executed t).length < 2 * q.numCollections * (published t).length := by
    refine lt_of_le_of_ne h.read fun heq => hne ?_
    rw [h.creadr, hcwriter, heq]
  have hassoc : 8 * q.numCollections * (published t).length =
      4 * (2 * q.numCollections * (published t).length) := by
    rw [← Nat.mul_assoc, ← Nat.mul_assoc]
  have hcommand : ((List.range 4).map fun i => readPtr s.mem (q.cmdQ + s.creadr + 8 * i)) =
      q.command ((executed t).length % (2 * q.numCollections)) := by
    rw [logWord_command]
    refine List.map_congr_left fun i hi => ?_
    have hi : i < 4 := List.mem_range.mp hi
    rw [← h.ring 0 (4 * (executed t).length + i) (by omega) (by omega), queueWord, h.creadr,
      show 4 * slot + (4 * (executed t).length + i) = 4 * (slot + (executed t).length) + i by
        omega, ← four_mul_mod_add hi]
    congr 1
    omega
  have hread := h.read
  have hold := h.unread
  refine ⟨congrArg _ hcommand, hunread, ?_, ?_, ?_, ?_, fun j hj hpa => ?_, fun j => ?_⟩
  · simp only [executed_append, LpiEvent.executed?, Option.toList_some, List.length_append,
      List.length_singleton, hcommand]
    rw [List.range_succ, List.map_append, List.map_singleton, ← h.inOrder]
  · simpa [Nat.succ_le_iff] using hunread
  · simp only [executed_append, published_append, LpiEvent.executed?, LpiEvent.published?,
      Option.toList_none,
      Option.toList_some, List.append_nil, List.length_append, List.length_singleton]
    omega
  · have hslots := slot_lt q (slot + (executed t).length)
    simp only [executed_append, LpiEvent.executed?, Option.toList_some, List.length_append,
      List.length_singleton]
    rw [h.creadr, show 32 * ((slot + (executed t).length) % q.numSlots) + 32 =
      32 * ((slot + (executed t).length) % q.numSlots + 1) by
      omega, Nat.mul_mod_mul_left, Nat.mod_add_mod, Nat.add_assoc]
  · have hroom := h.room j hj (by simpa using hpa)
    simp only [executed_append, published_append, LpiEvent.executed?, LpiEvent.published?,
      Option.toList_none,
      Option.toList_some, List.append_nil, List.length_append, List.length_singleton]
    omega
  · simpa using (h.ring j).mono (by omega) le_rfl

theorem LpiQueue.move (hinv : LpiItsInv q m slot t s) (h : LpiQueue q slot t s)
    (hm : LpiMove q collection s e s') (hroom : LpiRoom q (t ++ [e])) :
    LpiQueue q slot (t ++ [e]) s' := by
  cases hm with
  | call hc _ => exact h.goto rfl rfl (fun _ _ => rfl) rfl nofun (by simp) (by simp) (by simp)
  | wait hc _ => exact h.goto rfl rfl (fun _ _ => rfl) rfl nofun (by simp) (by simp) (by simp)
  | free hc _ => exact h.goto rfl rfl (fun _ _ => rfl) rfl nofun (by simp) (by simp) (by simp)
  | retry hc => exact h.goto rfl rfl (fun _ _ => rfl) rfl nofun (by simp) (by simp) (by simp)
  | @acquire i c ok lock hc hs =>
    obtain ⟨-, hreserved⟩ := hinv.lock.current.storeExclusive hs
    have hnone := hinv.lock.none_inside (hinv.lock.stxr i c _ hc hreserved)
    refine ⟨by simpa using h.inOrder, by simpa using h.read, by simpa using h.unread, by
      simpa using h.creadr, fun _ _ _ => by simpa using hroom t c [] rfl, fun k => ?_⟩
    have hzero : ((s.goto i (.ldrb c)).core k).progress q = 0 := by
      by_cases hk : k = i
      · rw [hk, ItsState.goto_self]
        rfl
      · rw [s.goto_ne _ hk]
        exact progress_of_not_inSection (hnone k)
    simpa [hzero] using (h.ring k).mono le_rfl (Nat.le_add_right ..)
  | load hc =>
    exact h.goto rfl rfl (fun _ _ => rfl) rfl (fun _ => by rw [hc]; trivial) (by simp)
      (by simp) (by simp)
  | @store i c w2 hc =>
    obtain ⟨hentry, hlt⟩ := hinv.entry (i := i) (c := c) (by rw [hc]; rfl)
    have hapart := q.apart
    refine h.goto rfl rfl (fun p hp => queueWord_congr
      (fun x hx => Function.update_of_ne ?_ ..) hp) rfl
      (fun _ => by rw [hc]; trivial) (by simp) (by simp) (by simp)
    rw [mem_bytes] at hx
    omega
  | loadCwriter hc =>
    exact h.goto rfl rfl (fun _ _ => rfl) (by simp [LpiCore.progress])
      (fun _ => by rw [hc]; trivial) (by simp) (by simp)
      (by simp)
  | @put i j x3 x4 x5 x11 c hc =>
    have hw := hinv.working i (by rw [hc]; trivial)
    rw [hc] at hw
    obtain ⟨⟨hacq, -⟩, p, hat⟩ := hw
    exact h.put hinv.lock hc (by simp [hacq]) hat
  | @publish i x3 c hc =>
    have hw := hinv.working i (by rw [hc]; trivial)
    rw [hc] at hw
    exact h.publish hinv.lock hc hw.1.1
  | release hc => exact h.goto rfl rfl (fun _ _ => rfl) rfl nofun (by simp) (by simp) (by simp)
  | execute hs => exact (h.execute hinv.cwriter hs).2.2
  | refresh v =>
    exact ⟨by simpa using h.inOrder, by simpa using h.read, by simpa using h.unread, by
      simpa using h.creadr, by simpa using h.room, by simpa using h.ring⟩

theorem lpiQueue_init (q : LpiIts) (m : Mem) {slot : Nat} (hslot : slot < q.numSlots) :
    LpiQueue q slot [] (itsInit q m slot) := by
  refine ⟨rfl, le_rfl, ?_, ?_, fun _ h => h.elim, fun _ k _ hk => ?_⟩
  · simpa [published, executed] using q.slots_pos
  · simp [itsInit, executed, Nat.mod_eq_of_lt hslot]
  · simp [published, itsInit, LpiCore.progress] at hk

theorem lpiQueue_run (hslot : slot < q.numSlots)
    (run : Trace (lpiStep q collection) (itsInit q m slot) t s) (hroom : LpiRoom q t) :
    LpiQueue q slot t s := by
  induction run with
  | start => exact lpiQueue_init q m hslot
  | next run hs ih =>
    exact (ih hroom.of_append).move (lpiItsInv_run hslot run) (lpiStep_move hs) hroom

theorem map_range_mod {β : Type*} (f : Nat → β) (w n : Nat) :
    (List.range (w * n)).map (fun k => f (k % w)) =
      (List.replicate n ((List.range w).map f)).flatten := by
  induction n with
  | zero => rfl
  | succ n ih =>
    rw [List.replicate_succ', List.flatten_append, List.flatten_singleton, Nat.mul_succ,
      List.range_add, List.map_append, ih, List.map_map]
    refine congrArg _ (List.map_congr_left fun k hk => ?_)
    rw [Function.comp_apply, Nat.mul_add_mod, Nat.mod_eq_of_lt (List.mem_range.mp hk)]

theorem LpiQueue.read_all (h : LpiQueue q slot t s) (hinv : LpiItsInv q m slot t s)
    (heq : s.creadr = s.cwriter) :
    (executed t).length = 2 * q.numCollections * (published t).length := by
  have hread := h.read
  have hunread := h.unread
  by_contra hne
  refine mod_ne_of_lt_add (n := q.numSlots) (b := slot) (i := (executed t).length)
    (by omega) hunread ?_
  have := hinv.cwriter
  have := h.creadr
  omega

/-- As long as there is room for the commands of each call, the service reads those of the published
calls, whole, in their order and once. -/
theorem lpiIts_commands (hslot : slot < q.numSlots)
    (run : Trace (lpiStep q collection) (itsInit q m slot) t s) (hroom : LpiRoom q t) :
    executed t <+: ((published t).map fun _ => q.commands).flatten ∧
      (s.creadr = s.cwriter → executed t = ((published t).map fun _ => q.commands).flatten) := by
  have h := lpiQueue_run hslot run hroom
  have hall : ((published t).map fun _ => q.commands).flatten =
      (List.range (2 * q.numCollections * (published t).length)).map fun k => q.command
        (k % (2 * q.numCollections)) := by
    rw [map_range_mod q.command, List.map_const', LpiIts.commands]
  refine ⟨?_, fun heq => ?_⟩
  · rw [hall, h.inOrder]
    obtain ⟨d, hd⟩ := Nat.exists_eq_add_of_le h.read
    rw [hd, List.range_add, List.map_append]
    exact List.prefix_append ..
  · rw [hall, ← h.read_all (lpiItsInv_run hslot run) heq]
    exact h.inOrder

theorem lpiItsSmall_room :
    LpiRoom lpiItsSmall (runSchedule (lpiStep lpiItsSmall fun _ => 0) lpiItsSchedule
      ([], itsInit lpiItsSmall (fun _ => 0) 7)).1 :=
  .of_slots (by decide +kernel)

theorem lpiIts_commands_example :
    executed (runSchedule (lpiStep lpiItsSmall fun _ => 0) lpiItsSchedule
      ([], itsInit lpiItsSmall (fun _ => 0) 7)).1 =
      [[0xD, 0, 0, 0], [0x5, 0, 0x10000, 0], [0xD, 0, 0, 0], [0x5, 0, 0x10000, 0]] :=
  ((lpiIts_commands (by decide) (Trace.start.runSchedule lpiItsSchedule) lpiItsSmall_room).2
    (by decide +kernel)).trans
    (by decide +kernel)

/-! ### What the redistributors have read -/

/-- An entry is as the table has it, or the redistributors are still to be told, or a call is just
about to publish. -/
def LpiTold (q : LpiIts) (collection : Nat → Nat) (t : List LpiEvent) (s : ItsState)
    (v : Nat) : Prop :=
  s.cached v = s.mem (q.cfgTable + v) ∨ stored t ≠ published t ∨
    ∃ k, (executed t).length ≤ k ∧ k < 2 * q.numCollections * (published t).length ∧
      k % (2 * q.numCollections) = 2 * collection v

section Told

variable {v : Nat}

theorem LpiTold.congr (h : LpiTold q collection t s v) (hcached : s'.cached = s.cached)
    (hmem : s'.mem (q.cfgTable + v) = s.mem (q.cfgTable + v))
    (hexec : executed (t ++ [e]) = executed t) (hpub : published (t ++ [e]) = published t)
    (hsto : stored (t ++ [e]) = stored t) :
    LpiTold q collection (t ++ [e]) s' v := by
  rw [LpiTold, hcached, hmem, hexec, hpub, hsto]
  exact h

theorem LpiTold.execute (h : LpiTold q collection t s v) (hqueue : LpiQueue q slot t s)
    (hcwriter :
      s.cwriter = 32 * ((slot + 2 * q.numCollections * (published t).length) % q.numSlots))
    (hs : itsStep q collection s = some (e, s')) : LpiTold q collection (t ++ [e]) s' v := by
  obtain ⟨hcommand, hunread, -⟩ := hqueue.execute hcwriter hs
  obtain ⟨-, hstep⟩ := Option.ite_none_left_eq_some.mp hs
  obtain ⟨hevent, rfl⟩ := Prod.mk.inj (Option.some.inj hstep)
  rw [hcommand, LpiEvent.executed.injEq] at hevent
  simp only [LpiTold, hcommand, stored_append, published_append, executed_append, LpiEvent.stored?,
    LpiEvent.published?,
    LpiEvent.executed?, Option.toList_none, Option.toList_some, List.append_nil, List.length_append,
    List.length_singleton, hevent]
  rcases h with hcached | hsto | ⟨k, hle, hlt, hk⟩
  · left
    split
    · rfl
    · exact hcached
  · exact .inr (.inl hsto)
  · rcases Nat.lt_or_eq_of_le hle with hlt' | rfl
    · exact .inr (.inr ⟨k, hlt', hlt, hk⟩)
    · left
      have hinvall : q.command ((executed t).length % (2 * q.numCollections)) =
          [0xD, 0, collection v, 0] := by
        rw [hk, LpiIts.command, Nat.mul_mod_right, if_pos rfl,
          Nat.mul_div_cancel_left _ (by decide)]
      rw [hinvall]
      exact if_pos ⟨rfl, rfl⟩

theorem LpiTold.move (hinv : LpiItsInv q m slot t s) (hqueue : LpiQueue q slot t s)
    (h : LpiTold q collection t s v) (hm : LpiMove q collection s e s') (hv : v < q.numLpis)
    (hcollection : collection v < q.numCollections) :
    LpiTold q collection (t ++ [e]) s' v := by
  have hinv' := hinv.move hm
  cases hm with
  | call hc _ => exact h.congr rfl rfl (by simp) (by simp) (by simp)
  | wait hc _ => exact h.congr rfl rfl (by simp) (by simp) (by simp)
  | free hc _ => exact h.congr rfl rfl (by simp) (by simp) (by simp)
  | retry hc => exact h.congr rfl rfl (by simp) (by simp) (by simp)
  | acquire hc hs => exact h.congr rfl rfl (by simp) (by simp) (by simp)
  | load hc => exact h.congr rfl rfl (by simp) (by simp) (by simp)
  | @store i c w2 hc =>
    have hw := hinv.working i (by rw [hc]; trivial)
    rw [hc] at hw
    exact .inr (.inl (by simp [hw.1.2]))
  | loadCwriter hc => exact h.congr rfl rfl (by simp) (by simp) (by simp)
  | put hc =>
    refine h.congr rfl ?_ (by simp) (by simp) (by simp)
    rw [hinv'.table v hv, hinv.table v hv]
    simp
  | publish hc =>
    refine .inr (.inr ⟨2 * q.numCollections * (published t).length + 2 * collection v, ?_, ?_, ?_⟩)
    · have := hqueue.read
      simp only [executed_append, LpiEvent.executed?, Option.toList_none, List.append_nil]
      omega
    · simp only [published_append, LpiEvent.published?, Option.toList_some, List.length_append,
        List.length_singleton, Nat.mul_succ]
      omega
    · rw [Nat.mul_add_mod, Nat.mod_eq_of_lt (by omega)]
  | release hc => exact h.congr rfl rfl (by simp) (by simp) (by simp)
  | execute hs => exact h.execute hqueue hinv.cwriter hs
  | refresh w =>
    rcases h with hcached | hrest
    · left
      change Function.update s.cached w (s.mem (q.cfgTable + w)) v = s.mem (q.cfgTable + v)
      by_cases hvw : v = w
      · rw [hvw, Function.update_self]
      · rw [Function.update_of_ne hvw, hcached]
    · exact .inr (by simpa using hrest)

theorem lpiTold_run (hslot : slot < q.numSlots)
    (run : Trace (lpiStep q collection) (itsInit q m slot) t s) (hroom : LpiRoom q t)
    (hv : v < q.numLpis) (hcollection : collection v < q.numCollections) :
    LpiTold q collection t s v := by
  induction run with
  | start => exact .inl rfl
  | next run hs ih =>
    exact (ih hroom.of_append).move (lpiItsInv_run hslot run)
      (lpiQueue_run hslot run hroom.of_append) (lpiStep_move hs) hv
      hcollection

/-- Once the service has read all that is published, the redistributors go by the last call for each
interrupt, and not by an entry from before it. -/
theorem lpiIts_cached (hslot : slot < q.numSlots)
    (run : Trace (lpiStep q collection) (itsInit q m slot) t s) (hroom : LpiRoom q t)
    (hv : v < q.numLpis) (hcollection : collection v < q.numCollections)
    (hread : s.creadr = s.cwriter) (hsto : stored t = published t) :
    s.cached v = entryAfter v (m (q.cfgTable + v)) (published t) := by
  have hinv := lpiItsInv_run hslot run
  rcases lpiTold_run hslot run hroom hv hcollection with hcached | hne | ⟨k, hle, hlt, -⟩
  · rw [hcached, hinv.table v hv, hsto]
  · exact absurd hsto hne
  · have := (lpiQueue_run hslot run hroom).read_all hinv hread
    omega

/-- The call that has masked the interrupt was the last to take the lock. -/
theorem lpiIts_cached_example :
    (runSchedule (lpiStep lpiItsSmall fun _ => 0) lpiItsSchedule
      ([], itsInit lpiItsSmall (fun _ => 0) 7)).2.cached 3 = 0 :=
  (lpiIts_cached (by decide) (Trace.start.runSchedule lpiItsSchedule) lpiItsSmall_room
    (by decide) (by decide)
    (by decide +kernel) (by decide +kernel)).trans (by decide +kernel)

end Told

end

end QnxStartup
