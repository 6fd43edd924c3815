import Mathlib.Data.List.Chain
import QnxStartup.FreeRam

/-! The list of ranges to avoid as `avoid_ram` keeps it: an array behind a pointer, whose size
in bytes leads to the last entry, and which ends at the first entry with `end` 0. -/

namespace QnxStartup

/-- The list that `avoid_ram` leaves, without the terminator. -/
def pushAvoid (start size : Nat) (l : List AvoidEntry) : List AvoidEntry :=
  match l.getLast? with
  | none => [⟨start, u64 (start + size)⟩]
  | some last =>
    if last.stop = start then l.dropLast ++ [⟨last.start, u64 (last.stop + size)⟩]
      else l ++ [⟨start, u64 (start + size)⟩]

theorem noteAvoid_push (start size : Nat) (s : RamState) :
    noteAvoid start size s =
      if ((pushAvoid start size s.avoidList).length + 1) * sizeofAvoidEntry > maxAvoidListSize then
        crash "Avoid RAM entry array overflow\n"
      else .ok { s with avoidList := pushAvoid start size s.avoidList } := rfl

theorem pushAvoid_snoc (start size : Nat) (init : List AvoidEntry) (last : AvoidEntry) :
    pushAvoid start size (init ++ [last]) =
      if last.stop = start then init ++ [⟨last.start, u64 (last.stop + size)⟩]
      else init ++ [last] ++ [⟨start, u64 (start + size)⟩] := by
  simp [pushAvoid]

/-- Only the last range may look like the terminator, and then it is empty. -/
structure AvoidInv (init : List AvoidEntry) (last : AvoidEntry) : Prop where
  live : ∀ a ∈ init, a.stop ≠ 0
  ordered : last.start ≤ last.stop

theorem AvoidInv.inForce_eq {init : List AvoidEntry} {last : AvoidEntry} (h : AvoidInv init last) :
    avoided (inForce (init ++ [last])) = avoided (init ++ [last]) := by
  rw [inForce, List.takeWhile_append_of_pos fun a ha => by simpa using h.live a ha]
  by_cases hz : last.stop = 0
  · have hord := h.ordered
    have hempty : avoided [last] = ∅ := by
      rw [avoided_singleton]
      exact Set.Ico_eq_empty (by omega)
    rw [avoided_append, avoided_append, hempty]
    simp [hz, avoided]
  · simp [hz]

theorem AvoidInv.push {init : List AvoidEntry} {last : AvoidEntry} {start size : Nat}
    (h : AvoidInv init last) (hfit : start + size < 2 ^ 64) (hlast : last.stop = 0 → start = 0) :
    ∃ init' last', pushAvoid start size (init ++ [last]) = init' ++ [last'] ∧ AvoidInv init' last' ∧
      avoided (init' ++ [last']) = avoided (init ++ [last]) ∪ bytes start size ∧
      (last'.stop = 0 → start = 0 ∧ size = 0) := by
  have hord := h.ordered
  rw [pushAvoid_snoc]
  by_cases hmerge : last.stop = start
  · rw [if_pos hmerge, hmerge, u64_of_lt hfit]
    refine ⟨init, _, rfl, ⟨h.live, by dsimp only; omega⟩, ?_, fun h0 => by dsimp only at h0; omega⟩
    rw [avoided_append, avoided_append, avoided_singleton, avoided_singleton,
      Set.union_assoc, hmerge, bytes,
      Set.Ico_union_Ico_eq_Ico (hmerge ▸ hord) (Nat.le_add_right _ _)]
  · rw [if_neg hmerge, u64_of_lt hfit]
    refine ⟨init ++ [last], _, rfl, ⟨?_, Nat.le_add_right _ _⟩, ?_, fun h0 => by
      dsimp only at h0; omega⟩
    · intro a ha
      rcases List.mem_append.mp ha with ha | ha
      · exact h.live a ha
      · obtain rfl := List.mem_singleton.mp ha
        exact fun h0 => hmerge (h0.trans (hlast h0).symm)
    · rw [avoided_append (init ++ [last]), avoided_singleton]
      rfl

/-! ### The array -/

/-- `avoid_list` and `avoid_list_size`. -/
structure AvoidTable where
  entry : Nat → AvoidEntry
  avoidListSize : Nat

def AvoidTable.avoidRam (start size : Nat) (t : AvoidTable) : Startup AvoidTable :=
  let avoid := t.avoidListSize / sizeofAvoidEntry
  let t :=
    if t.avoidListSize ≥ sizeofAvoidEntry ∧ (t.entry (avoid - 2)).stop = start then
      ⟨Function.update t.entry (avoid - 2) ⟨(t.entry (avoid - 2)).start,
        u64 ((t.entry (avoid - 2)).stop + size)⟩, t.avoidListSize⟩
    else
      ⟨Function.update (Function.update t.entry (avoid - 1) ⟨start, u64 (start + size)⟩) avoid
        ⟨(t.entry avoid).start, 0⟩, t.avoidListSize + sizeofAvoidEntry⟩
  if t.avoidListSize > maxAvoidListSize then crash "Avoid RAM entry array overflow\n" else .ok t

/-- `ws_init`, as far as the array goes; `entry` is what memory held. -/
def AvoidTable.wsInit (boot : Boot) (entry : Nat → AvoidEntry) : Startup AvoidTable :=
  let start := round (u64 (boot.fullRamPaddr + boot.ramSize)) 8
  let stop := u64 (start + round maxAvoidListSize 8)
  let t : AvoidTable :=
    ⟨Function.update (Function.update entry 0 ⟨start, stop⟩) 1 ⟨(entry 1).start, 0⟩,
      2 * sizeofAvoidEntry⟩
  (t.avoidRam stop (round maxRamListSize 8)).bind
    (AvoidTable.avoidRam boot.fullRamPaddr boot.startupSize)

/-- A sequence of `avoid_ram(start, size)`. -/
def AvoidTable.run : List (Nat × Nat) → AvoidTable → Startup AvoidTable
  | [], t => .ok t
  | (start, size) :: calls, t => (t.avoidRam start size).bind (AvoidTable.run calls)

/-- The ranges that a scan of the array meets before an `end` of 0. -/
def AvoidTable.seen (t : AvoidTable) : Set Nat :=
  {x | ∃ i, (∀ j ≤ i, (t.entry j).stop ≠ 0) ∧ (t.entry i).start ≤ x ∧ x < (t.entry i).stop}

/-- The array holds the list, with the terminator behind it. -/
structure AvoidTable.Reads (t : AvoidTable) (l : List AvoidEntry) : Prop where
  size : t.avoidListSize = (l.length + 1) * sizeofAvoidEntry
  entry : ∀ i (h : i < l.length), t.entry i = l[i]
  terminator : (t.entry l.length).stop = 0

theorem mem_inForce {l : List AvoidEntry} {entry : Nat → AvoidEntry} {x : Nat}
    (h : ∀ i (h : i < l.length), entry i = l[i]) (hend : (entry l.length).stop = 0) :
    (∃ i, (∀ j ≤ i, (entry j).stop ≠ 0) ∧ (entry i).start ≤ x ∧ x < (entry i).stop) ↔
      x ∈ avoided (inForce l) := by
  induction l generalizing entry with
  | nil =>
    refine iff_of_false (fun ⟨i, hi, _⟩ => hi 0 (Nat.zero_le i) hend) ?_
    simp [inForce, avoided]
  | cons a rest ih =>
    have h0 : entry 0 = a := h 0 (by simp)
    have hrest := @ih (fun i => entry (i + 1)) (fun i hi => h (i + 1) (by simpa using hi)) hend
    by_cases ha : a.stop = 0
    · refine iff_of_false (fun ⟨i, hi, _⟩ => hi 0 (Nat.zero_le i) (h0 ▸ ha)) ?_
      simp [inForce, avoided, ha]
    · have hcons : avoided (inForce (a :: rest)) =
          Set.Ico a.start a.stop ∪ avoided (inForce rest) := by
        rw [inForce, List.takeWhile_cons_of_pos (by simpa using ha), ← List.singleton_append,
          avoided_append, avoided_singleton]
        rfl
      rw [hcons, Set.mem_union, ← hrest]
      constructor
      · rintro ⟨i, hi, hx⟩
        cases i with
        | zero => exact .inl (h0 ▸ hx)
        | succ i => exact .inr ⟨i, fun j hj => hi (j + 1) (by omega), hx⟩
      · rintro (hx | ⟨i, hi, hx⟩)
        · refine ⟨0, fun j hj => ?_, h0 ▸ hx⟩
          obtain rfl : j = 0 := by omega
          exact h0 ▸ ha
        · refine ⟨i + 1, fun j hj => ?_, hx⟩
          cases j with
          | zero => exact h0 ▸ ha
          | succ j => exact hi j (by omega)

theorem AvoidTable.Reads.seen_eq {t : AvoidTable} {l : List AvoidEntry} (h : t.Reads l) :
    t.seen = avoided (inForce l) :=
  Set.ext fun _ => mem_inForce h.entry h.terminator

theorem AvoidTable.Reads.setLast {t : AvoidTable} {init : List AvoidEntry} {last : AvoidEntry}
    (h : t.Reads (init ++ [last])) (e : AvoidEntry) :
    AvoidTable.Reads ⟨Function.update t.entry init.length e, t.avoidListSize⟩ (init ++ [e]) := by
  obtain ⟨hsize, hentry, hterm⟩ := h
  rw [List.length_append, List.length_singleton] at hsize hterm
  refine ⟨?_, fun i hi => ?_, ?_⟩
  · rw [List.length_append, List.length_singleton]
    exact hsize
  · rw [List.length_append, List.length_singleton] at hi
    dsimp only
    by_cases hi' : i = init.length
    · subst hi'
      rw [Function.update_self]
      simp
    · rw [Function.update_of_ne hi', hentry i (by simp; omega),
        List.getElem_append_left (by omega), List.getElem_append_left (by omega)]
  · dsimp only
    rw [List.length_append, List.length_singleton, Function.update_of_ne (by omega)]
    exact hterm

theorem AvoidTable.Reads.snoc {t : AvoidTable} {l : List AvoidEntry} (h : t.Reads l)
    (e : AvoidEntry) (start : Nat) :
    AvoidTable.Reads
      ⟨Function.update (Function.update t.entry l.length e) (l.length + 1) ⟨start, 0⟩,
        t.avoidListSize + sizeofAvoidEntry⟩ (l ++ [e]) := by
  refine ⟨?_, fun i hi => ?_, ?_⟩
  · rw [List.length_append, List.length_singleton, h.size, ← Nat.succ_mul]
  · rw [List.length_append, List.length_singleton] at hi
    dsimp only
    rw [Function.update_of_ne (by omega)]
    by_cases hi' : i = l.length
    · subst hi'
      rw [Function.update_self]
      simp
    · rw [Function.update_of_ne hi', List.getElem_append_left (by omega)]
      exact h.entry i (by omega)
  · dsimp only
    rw [List.length_append, List.length_singleton, Function.update_self]

theorem AvoidTable.Reads.push {t : AvoidTable} {init : List AvoidEntry} {last : AvoidEntry}
    (h : t.Reads (init ++ [last])) (start size : Nat) :
    ∃ t', t'.Reads (pushAvoid start size (init ++ [last])) ∧ t.avoidRam start size =
      if ((pushAvoid start size (init ++ [last])).length + 1) * sizeofAvoidEntry >
        maxAvoidListSize then
        crash "Avoid RAM entry array overflow\n"
      else .ok t' := by
  have hsize := h.size
  rw [List.length_append, List.length_singleton] at hsize
  have hdiv : t.avoidListSize / sizeofAvoidEntry = init.length + 2 := by
    rw [hsize, sizeofAvoidEntry]
    omega
  have hlast : t.entry init.length = last := by
    rw [h.entry init.length (by simp)]
    simp
  have hge : t.avoidListSize ≥ sizeofAvoidEntry := by
    rw [hsize, sizeofAvoidEntry]
    omega
  have hprev : init.length + 2 - 1 = init.length + 1 := rfl
  simp only [AvoidTable.avoidRam, hdiv, Nat.add_sub_cancel, hlast, hge, true_and]
  rw [pushAvoid_snoc]
  by_cases hmerge : last.stop = start
  · simp only [if_pos hmerge]
    refine ⟨_, h.setLast ⟨last.start, u64 (last.stop + size)⟩, ?_⟩
    rw [List.length_append, List.length_singleton, hsize]
  · simp only [if_neg hmerge]
    have hread := h.snoc ⟨start, u64 (start + size)⟩ (t.entry (init.length + 2)).start
    rw [List.length_append, List.length_singleton] at hread
    refine ⟨_, hread, ?_⟩
    simp only [List.length_append, List.length_singleton, hprev]
    rw [hsize, ← Nat.succ_mul]

/-- No call for an empty range at address 0 is directly followed by one for another address. -/
def KeepsTerminator (calls : List (Nat × Nat)) : Prop :=
  calls.IsChain fun c c' => c = (0, 0) → c'.1 = 0

def givenRanges (calls : List (Nat × Nat)) : Set Nat := {x | ∃ c ∈ calls, x ∈ bytes c.1 c.2}

theorem givenRanges_cons (c : Nat × Nat) (calls : List (Nat × Nat)) :
    givenRanges (c :: calls) = bytes c.1 c.2 ∪ givenRanges calls := by
  ext x
  simp [givenRanges]

theorem AvoidTable.Reads.run {t t' : AvoidTable} {init : List AvoidEntry} {last : AvoidEntry}
    {calls : List (Nat × Nat)} (h : t.Reads (init ++ [last])) (hinv : AvoidInv init last)
    (hfit : ∀ c ∈ calls, c.1 + c.2 < 2 ^ 64) (hkeep : KeepsTerminator calls)
    (hhead : ∀ c ∈ calls.head?, last.stop = 0 → c.1 = 0) (hrun : t.run calls = .ok t') :
    t'.seen = avoided (init ++ [last]) ∪ givenRanges calls := by
  induction calls generalizing t init last with
  | nil =>
    obtain rfl := Except.ok.inj hrun
    rw [h.seen_eq, hinv.inForce_eq]
    simp [givenRanges]
  | cons c calls ih =>
    obtain ⟨t1, hone, hrest⟩ := bind_eq_ok.mp hrun
    obtain ⟨init', last', hpush, hinv', hsum, hzero⟩ :=
      hinv.push (hfit c (by simp)) (hhead c (by simp))
    obtain ⟨t2, hreads, heq⟩ := h.push c.1 c.2
    rw [heq, crash_ite_eq_ok] at hone
    obtain rfl := Except.ok.inj hone.2
    rw [hpush] at hreads
    obtain ⟨hnext, hkeep'⟩ := List.isChain_cons.mp hkeep
    have hhead' : ∀ c' ∈ calls.head?, last'.stop = 0 → c'.1 = 0 := fun c' hc' h0 =>
      hnext c' hc' (Prod.ext (hzero h0).1 (hzero h0).2)
    have hfinal := ih hreads hinv' (fun c hc => hfit c (by simp [hc])) hkeep' hhead' hrest
    rw [hfinal, hsum, givenRanges_cons, Set.union_assoc]

/-! ### The list of `ram.c` -/

theorem AvoidTable.Reads.noteAvoid {t : AvoidTable} {s s' : RamState} {start size : Nat}
    (hne : s.avoidList ≠ []) (h : t.Reads s.avoidList)
    (hrun : QnxStartup.noteAvoid start size s = .ok s') :
    ∃ t', t.avoidRam start size = .ok t' ∧ t'.Reads s'.avoidList := by
  rw [← List.dropLast_append_getLast hne] at h
  obtain ⟨t', hreads, heq⟩ := h.push start size
  rw [List.dropLast_append_getLast hne] at hreads heq
  rw [noteAvoid_push, crash_ite_eq_ok] at hrun
  obtain rfl := Except.ok.inj hrun.2
  exact ⟨t', heq.trans (if_neg hrun.1), hreads⟩

def AvoidTable.first (boot : Boot) (entry : Nat → AvoidEntry) : AvoidTable :=
  ⟨Function.update (Function.update entry 0 ⟨boot.wsStart, u64 (boot.wsStart + maxAvoidListSize)⟩) 1
    ⟨(entry 1).start, 0⟩, 2 * sizeofAvoidEntry⟩

theorem AvoidTable.first_reads (boot : Boot) (entry : Nat → AvoidEntry) :
    (AvoidTable.first boot entry).Reads
      [⟨boot.wsStart, u64 (boot.wsStart + maxAvoidListSize)⟩] := by
  refine ⟨rfl, fun i hi => ?_, by simp [AvoidTable.first]⟩
  obtain rfl : i = 0 := by simpa using hi
  simp [AvoidTable.first]

theorem AvoidTable.wsInit_run (boot : Boot) (entry : Nat → AvoidEntry) (calls : List (Nat × Nat)) :
    (AvoidTable.wsInit boot entry).bind (AvoidTable.run calls) =
      (AvoidTable.first boot entry).run
        ((u64 (boot.wsStart + maxAvoidListSize), maxRamListSize) :: (boot.fullRamPaddr,
          boot.startupSize) :: calls) := by
  have h1 : round maxAvoidListSize 8 = maxAvoidListSize := by decide
  have h2 : round maxRamListSize 8 = maxRamListSize := by decide
  have hfirst : AvoidTable.wsInit boot entry =
      ((AvoidTable.first boot entry).avoidRam
        (u64 (boot.wsStart + maxAvoidListSize)) maxRamListSize).bind
        (AvoidTable.avoidRam boot.fullRamPaddr boot.startupSize) := by
    simp only [AvoidTable.wsInit, h1, h2]
    rfl
  rw [hfirst, AvoidTable.run]
  cases (AvoidTable.first boot entry).avoidRam
    (u64 (boot.wsStart + maxAvoidListSize)) maxRamListSize <;> rfl

/-- The scans see exactly the ranges given so far, with those of `ws_init`, in every run that
keeps the terminator last. -/
theorem avoid_list_records {boot : Boot} {entry : Nat → AvoidEntry} {calls : List (Nat × Nat)}
    {t : AvoidTable} (hws : boot.wsStart + maxAvoidListSize + maxRamListSize < 2 ^ 64)
    (hfit : ∀ c ∈ calls, c.1 + c.2 < 2 ^ 64) (hkeep : KeepsTerminator calls)
    (h : (AvoidTable.wsInit boot entry).bind (AvoidTable.run calls) = .ok t) :
    t.seen = bytes boot.wsStart (maxAvoidListSize + maxRamListSize) ∪
      bytes boot.fullRamPaddr boot.startupSize ∪
      givenRanges calls := by
  have hpos := boot.startup_pos
  have hlist : 0 < maxAvoidListSize := by decide
  have hfull : boot.fullRamPaddr + boot.startupSize < 2 ^ 64 := by
    have := boot.startup_le
    have := boot.bound
    omega
  rw [AvoidTable.wsInit_run, u64_of_lt (by omega)] at h
  have hreads := AvoidTable.first_reads boot entry
  rw [u64_of_lt (by omega)] at hreads
  have hrun := @AvoidTable.Reads.run _ _ [] _ _ hreads ⟨by simp, Nat.le_add_right _ _⟩ ?_ ?_ ?_ h
  · rw [hrun, givenRanges_cons, givenRanges_cons, List.nil_append, avoided_singleton,
      ← Set.union_assoc, ← Set.union_assoc]
    simp only [bytes]
    rw [Set.Ico_union_Ico_eq_Ico (by omega) (by omega), Nat.add_assoc boot.wsStart]
  · intro c hc
    rcases List.mem_cons.mp hc with rfl | hc
    · exact hws
    · rcases List.mem_cons.mp hc with rfl | hc
      · exact hfull
      · exact hfit c hc
  · refine List.isChain_cons_cons.mpr ⟨fun h0 => ?_,
      List.isChain_cons.mpr ⟨fun c hc h0 => ?_, hkeep⟩⟩
    · have := congrArg Prod.fst h0
      dsimp only at this
      omega
    · have := congrArg Prod.snd h0
      dsimp only at this
      omega
  · intro c hc h0
    dsimp only at h0
    omega

theorem avoid_list_records_example :
    ∃ t, (AvoidTable.wsInit imolaBoot fun _ => ⟨0, 0⟩).bind (AvoidTable.run [(0x90000000, 0x1000),
      (0, 0)]) = .ok t ∧
      0x90000fff ∈ t.seen := by
  have h := eq_ok_resultOr ⟨fun _ => ⟨0, 0⟩, 0⟩ (x :=
    (AvoidTable.wsInit imolaBoot fun _ => ⟨0, 0⟩).bind
    (AvoidTable.run [(0x90000000, 0x1000), (0, 0)])) (by decide)
  refine ⟨_, h, ?_⟩
  rw [avoid_list_records (by decide) (by decide) (.cons_cons (by decide) (.singleton _)) h]
  exact .inr ⟨(0x90000000, 0x1000), by simp, by decide, by decide⟩

/-- An empty range at address 0 hides every range that is given after it. -/
theorem avoid_list_hides :
    ∃ t, (AvoidTable.wsInit imolaBoot fun _ => ⟨0, 0⟩).bind (AvoidTable.run
      [(0, 0), (0x90000000, 0x1000)]) = .ok t ∧
      0x90000000 ∈ givenRanges [(0, 0), (0x90000000, 0x1000)] ∧ 0x90000000 ∉ t.seen := by
  have h := eq_ok_resultOr ⟨fun _ => ⟨0, 0⟩, 0⟩ (x :=
    (AvoidTable.wsInit imolaBoot fun _ => ⟨0, 0⟩).bind
    (AvoidTable.run [(0, 0), (0x90000000, 0x1000)])) (by decide)
  refine ⟨_, h, ⟨(0x90000000, 0x1000), by simp, by decide, by decide⟩, ?_⟩
  rintro ⟨i, hi, hlo, hhi⟩
  by_cases h2 : 2 ≤ i
  · exact hi 2 h2 (by decide)
  · obtain rfl | rfl : i = 0 ∨ i = 1 := by omega
    · exact absurd hhi (by decide)
    · exact absurd hhi (by decide)

end QnxStartup
