import Mathlib.Data.List.Induction
import Mathlib.Data.List.Nodup

/-! Going through the matches in a list by a cursor: each call is given what the last one has
found and searches behind its first occurrence. -/

namespace QnxStartup

variable {α : Type}

/-- The first match, or the first one behind the first `a`. -/
def nextMatch [DecidableEq α] (p : α → Bool) (l : List α) : Option α → Option α
  | none => l.find? p
  | some a => ((l.dropWhile (· ≠ a)).drop 1).find? p

/-- The results of calls of `next` from `start` on, up to the call that finds nothing. -/
inductive Walk (next : Option α → Option α) : Option α → List α → Prop
  | done {start : Option α} (h : next start = none) : Walk next start []
  | step {start : Option α} {a : α} {l : List α} (h : next start = some a)
      (rest : Walk next (some a) l) :
      Walk next start (a :: l)

theorem Walk.unique {next : Option α → Option α} {start : Option α} {l l' : List α}
    (h : Walk next start l) (h' : Walk next start l') : l = l' := by
  induction h generalizing l' with
  | done h =>
    cases h' with
    | done => rfl
    | step h' => exact absurd (h.symm.trans h') (Option.some_ne_none _).symm
  | step h _ ih =>
    cases h' with
    | done h' => exact absurd (h'.symm.trans h) (Option.some_ne_none _).symm
    | step h' rest' =>
      obtain rfl := Option.some.inj (h.symm.trans h')
      rw [ih rest']

section Matches

variable [DecidableEq α] {p : α → Bool} {l found : List α} {start : Option α}

theorem nextMatch_of_first {front back : List α} {a : α} (h : a ∉ front) :
    nextMatch p (front ++ a :: back) (some a) = back.find? p := by
  have hdrop : (front ++ a :: back).dropWhile (· ≠ a) = a :: back := by
    induction front with
    | nil => simp
    | cons b front ih =>
      obtain ⟨hne, hfront⟩ := not_or.mp (mt List.mem_cons.mpr h)
      rw [List.cons_append, List.dropWhile_cons, if_pos (by simpa using Ne.symm hne), ih hfront]
  rw [nextMatch, hdrop]
  rfl

theorem nextMatch_mem {a : α} (h : nextMatch p l start = some a) : a ∈ l ∧ p a = true := by
  cases start with
  | none => exact ⟨List.mem_of_find?_eq_some h, List.find?_some h⟩
  | some b =>
    have hmem := List.mem_of_find?_eq_some h
    exact ⟨(List.dropWhile_sublist _).subset (List.mem_of_mem_drop hmem), List.find?_some h⟩

theorem Walk.subset (h : Walk (nextMatch p l) start found) : ∀ a ∈ found, a ∈ l ∧ p a = true := by
  induction h with
  | done => simp
  | step h _ ih =>
    rw [List.forall_mem_cons]
    exact ⟨nextMatch_mem h, ih⟩

end Matches

end QnxStartup
