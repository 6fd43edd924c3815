import Mathlib.Logic.Function.Basic

/-! A word that threads read and write with exclusive accesses: whatever is written to it ends what
the threads have reserved. -/

namespace QnxStartup

/-- What each thread has read, as long as it may still write. -/
structure ExclusiveWord (ι α : Type*) where
  value : α
  reserved : ι → Option α

namespace ExclusiveWord

variable {ι α : Type*}

/-- The word after an ordinary write. -/
def written (v : α) : ExclusiveWord ι α := ⟨v, fun _ => none⟩

/-- `ok` is whether a write that may succeed does. -/
def storeExclusive (w : ExclusiveWord ι α) (i : ι) (v : α)
    (ok : Bool) : Option (ExclusiveWord ι α) :=
  if (w.reserved i).isSome && ok then some (written v) else none

/-- What a thread has reserved is what the word holds. -/
def Current (w : ExclusiveWord ι α) : Prop := ∀ i x, w.reserved i = some x → x = w.value

variable {w w' : ExclusiveWord ι α} {i : ι} {v : α} {ok : Bool}

theorem current_written (v : α) : (written v : ExclusiveWord ι α).Current := fun _ _ h => nomatch h

/-- A write that succeeds finds the word as the thread has read it. -/
theorem Current.storeExclusive (h : w.Current) (hs : w.storeExclusive i v ok = some w') :
    w' = written v ∧ w.reserved i = some w.value := by
  obtain ⟨hok, hw⟩ := Option.ite_none_right_eq_some.mp hs
  obtain ⟨x, hx⟩ := Option.isSome_iff_exists.mp (Bool.and_eq_true_iff.mp hok).1
  exact ⟨(Option.some.inj hw).symm, by rw [hx, h i x hx]⟩

variable [DecidableEq ι]

def loadExclusive (w : ExclusiveWord ι α) (i : ι) : ExclusiveWord ι α :=
  { w with reserved := Function.update w.reserved i (some w.value) }

def drop (w : ExclusiveWord ι α) (i : ι) : ExclusiveWord ι α :=
  { w with reserved := Function.update w.reserved i none }

@[simp] theorem loadExclusive_value (w : ExclusiveWord ι α) (i : ι) :
    (w.loadExclusive i).value = w.value := rfl

@[simp] theorem loadExclusive_self (w : ExclusiveWord ι α) (i : ι) :
    (w.loadExclusive i).reserved i = some w.value := Function.update_self ..

theorem loadExclusive_ne {j : ι} (w : ExclusiveWord ι α) (h : j ≠ i) :
    (w.loadExclusive i).reserved j = w.reserved j := Function.update_of_ne h ..

@[simp] theorem drop_value (w : ExclusiveWord ι α) (i : ι) : (w.drop i).value = w.value := rfl

@[simp] theorem drop_self (w : ExclusiveWord ι α) (i : ι) : (w.drop i).reserved i = none :=
  Function.update_self ..

theorem drop_ne {j : ι} (w : ExclusiveWord ι α) (h : j ≠ i) :
    (w.drop i).reserved j = w.reserved j :=
  Function.update_of_ne h ..

theorem Current.loadExclusive (h : w.Current) (i : ι) : (w.loadExclusive i).Current := by
  intro j x hx
  by_cases hj : j = i
  · subst hj
    rw [loadExclusive_self] at hx
    exact (Option.some.inj hx).symm
  · rw [loadExclusive_ne w hj] at hx
    exact h j x hx

theorem Current.drop (h : w.Current) (i : ι) : (w.drop i).Current := by
  intro j x hx
  by_cases hj : j = i
  · subst hj
    rw [drop_self] at hx
    exact nomatch hx
  · rw [drop_ne w hj] at hx
    exact h j x hx

end ExclusiveWord

end QnxStartup
