import Mathlib.Data.List.Nodup
import Mathlib.Order.Nat

/-! Linked lists that share their tails, as cells in one table that refer to each other
by index. A cell is looked for before it is added, so that a list is at one index
only. -/

namespace QnxStartup

/-- `next` is an index into the table, or the index that stands for the empty list. -/
structure SharedCell (α : Type*) where
  val : α
  next : Nat
  deriving DecidableEq

variable {α : Type*} {stop : Nat} {l : List (SharedCell α)}

/-- The list that begins at an index. -/
inductive CellsAt (stop : Nat) (l : List (SharedCell α)) : Nat → List α → Prop
  | nil : CellsAt stop l stop []
  | cons {i : Nat} {c : SharedCell α} {vs : List α} (h : l[i]? = some c)
      (rest : CellsAt stop l c.next vs) :
      CellsAt stop l i (c.val :: vs)

/-- The cells differ, and each one goes on with one before it or ends its list. -/
structure Shared (stop : Nat) (l : List (SharedCell α)) : Prop where
  nodup : l.Nodup
  length_le : l.length ≤ stop
  behind : ∀ i (c : SharedCell α), l[i]? = some c → c.next < i ∨ c.next = stop

theorem CellsAt.append {i : Nat} {vs : List α} (h : CellsAt stop l i vs)
    (l' : List (SharedCell α)) : CellsAt stop (l ++ l') i vs := by
  induction h with
  | nil => exact .nil
  | cons h _ ih => exact .cons (List.getElem?_append_left (List.getElem?_eq_some_iff.mp h).1 ▸ h) ih

theorem Shared.stop_none (h : Shared stop l) : l[stop]? = none := List.getElem?_eq_none h.length_le

theorem Shared.nil (stop : Nat) : Shared stop ([] : List (SharedCell α)) :=
  ⟨List.nodup_nil, Nat.zero_le _, fun i c hc => by simp at hc⟩

/-- The links lead to the end. -/
theorem Shared.cellsAt (h : Shared stop l) {i : Nat} (hi : i < l.length ∨ i = stop) :
    ∃ vs, CellsAt stop l i vs := by
  induction i using Nat.strong_induction_on with
  | _ i ih =>
    rcases hi with hi | rfl
    · have hcell : l[i]? = some l[i] := List.getElem?_eq_getElem hi
      rcases h.behind i _ hcell with hlt | hstop
      · obtain ⟨vs, hvs⟩ := ih _ hlt (.inl (hlt.trans hi))
        exact ⟨_, .cons hcell hvs⟩
      · have hnil : CellsAt stop l l[i].next [] := by
          rw [hstop]
          exact .nil
        exact ⟨_, .cons hcell hnil⟩
    · exact ⟨[], .nil⟩

theorem Shared.unique (h : Shared stop l) {i : Nat} {vs ws : List α} (hv : CellsAt stop l i vs)
    (hw : CellsAt stop l i ws) : vs = ws := by
  induction hv generalizing ws with
  | nil =>
    cases hw with
    | nil => rfl
    | cons hc _ =>
      rw [h.stop_none] at hc
      cases hc
  | cons hc _ ih =>
    cases hw with
    | nil =>
      rw [h.stop_none] at hc
      cases hc
    | cons hc' hrest =>
      obtain rfl := Option.some.inj (hc.symm.trans hc')
      rw [ih hrest]

/-- A list is at one index only. -/
theorem Shared.index_unique (h : Shared stop l) {i j : Nat} {vs : List α} (hi : CellsAt stop l i vs)
    (hj : CellsAt stop l j vs) :
    i = j := by
  induction hi generalizing j with
  | nil =>
    cases hj
    rfl
  | @cons i c vs hc _ ih =>
    generalize hws : c.val :: vs = ws at hj
    cases hj with
    | nil => cases hws
    | @cons _ c' vs' hc' hrest =>
      obtain ⟨hval, rfl⟩ := List.cons.inj hws
      have hcell : c = c' := by
        obtain ⟨val, next⟩ := c
        obtain ⟨val', next'⟩ := c'
        exact congrArg₂ SharedCell.mk hval (ih hrest)
      subst hcell
      exact (List.getElem?_inj (List.getElem?_eq_some_iff.mp hc).1 h.nodup).mp (hc.trans hc'.symm)

variable [DecidableEq α]

/-- The first cell like this one, or a new one at the end. -/
def shareCell (c : SharedCell α) (l : List (SharedCell α)) : Nat × List (SharedCell α) :=
  let i := l.idxOf c
  if i < l.length then (i, l) else (i, l ++ [c])

theorem shareCell_cases (c : SharedCell α) (l : List (SharedCell α)) :
    (c ∈ l ∧ shareCell c l = (l.idxOf c, l)) ∨ (c ∉ l ∧ shareCell c l = (l.length, l ++ [c])) := by
  by_cases h : c ∈ l
  · exact .inl ⟨h, if_pos (List.idxOf_lt_length_iff.mpr h)⟩
  · have hidx : l.idxOf c = l.length := List.idxOf_eq_length h
    refine .inr ⟨h, ?_⟩
    rw [shareCell, hidx]
    exact if_neg (lt_irrefl _)

/-- Sharing a cell keeps the lists that are there, and puts the list of the cell at its index. -/
theorem Shared.share (h : Shared stop l) {c : SharedCell α} (hroom : l.length < stop) {vs : List α}
    (hc : CellsAt stop l c.next vs) :
    Shared stop (shareCell c l).2 ∧ CellsAt stop (shareCell c l).2 (shareCell c l).1 (c.val :: vs) ∧
      (∃ l', (shareCell c l).2 = l ++ l') ∧ (shareCell c l).2.length ≤ l.length + 1 := by
  have hnext : c.next < l.length ∨ c.next = stop := by
    cases hc with
    | nil => exact .inr rfl
    | cons hcell _ => exact .inl (List.getElem?_eq_some_iff.mp hcell).1
  rcases shareCell_cases c l with ⟨hmem, heq⟩ | ⟨hmem, heq⟩
  · rw [heq]
    exact ⟨h, .cons (List.getElem?_idxOf hmem) hc, ⟨[], (List.append_nil l).symm⟩, Nat.le_succ _⟩
  · rw [heq]
    refine ⟨⟨h.nodup.append (List.nodup_singleton c) (by simpa using hmem), ?_, fun i d hd => ?_⟩,
      ?_, ⟨[c], rfl⟩, ?_⟩
    · rw [List.length_append]
      exact hroom
    · rcases lt_or_ge i l.length with hi | hi
      · rw [List.getElem?_append_left hi] at hd
        exact h.behind i d hd
      · rw [List.getElem?_append_right hi] at hd
        obtain rfl := List.mem_singleton.mp (List.mem_of_getElem? hd)
        exact hnext.imp (fun hlt => hlt.trans_le hi) id
    · exact .cons List.getElem?_concat_length (hc.append [c])
    · rw [List.length_append, List.length_singleton]

end QnxStartup
