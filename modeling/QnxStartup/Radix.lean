import Mathlib.Data.List.Induction
import Mathlib.Data.Set.Basic

/-! Trees of lookup tables. A table's entries link to the tables below it; a place in
the tree is a root and the list of indices that leads down from it. -/

namespace QnxStartup

structure TableForest (κ ι α : Type*) where
  root : κ → α
  link : α → ι → Option α

namespace TableForest

variable {κ ι α : Type*}

def table (F : TableForest κ ι α) (k : κ) (p : List ι) : Option α :=
  p.foldl (fun t i => t.bind (F.link · i)) (some (F.root k))

@[simp] theorem table_nil (F : TableForest κ ι α) (k : κ) : F.table k [] = some (F.root k) := rfl

theorem table_snoc (F : TableForest κ ι α) (k : κ) (p : List ι) (i : ι) :
    F.table k (p ++ [i]) = (F.table k p).bind (F.link · i) := by
  simp [table]

def PrefixClosed (S : κ → List ι → Prop) : Prop :=
  ∀ k p i, S k (p ++ [i]) → S k p

/-- No two of the places in `S` share a table. -/
def Apart (F : TableForest κ ι α) (S : κ → List ι → Prop) : Prop :=
  ∀ ⦃k p k' p' a⦄, S k p → S k' p' → F.table k p = some a → F.table k' p' = some a → k = k' ∧ p = p'

variable {F G : TableForest κ ι α} {S : κ → List ι → Prop}

theorem table_congr (hS : PrefixClosed S) (hroot : ∀ k, G.root k = F.root k)
    (hlink : ∀ k p i a, S k (p ++ [i]) → F.table k p = some a → G.link a i = F.link a i) :
    ∀ {k p}, S k p → G.table k p = F.table k p := by
  intro k p
  induction p using List.reverseRecOn with
  | nil => simp [hroot]
  | append_singleton p i ih =>
    intro hp
    rw [table_snoc, table_snoc, ih (hS k p i hp)]
    cases ht : F.table k p with
    | none => rfl
    | some a => exact hlink k p i a hp ht

theorem Apart.congr (h : F.Apart S) (heq : ∀ {k p}, S k p → G.table k p = F.table k p) :
    G.Apart S := by
  intro k p k' p' a hp hp' ht ht'
  rw [heq hp] at ht
  rw [heq hp'] at ht'
  exact h hp hp' ht ht'

/-- A new empty table `n` is hung under entry `i₀` of the table at `p₀`. -/
structure Hangs (F G : TableForest κ ι α) (S : κ → List ι → Prop) (k₀ : κ) (p₀ : List ι) (i₀ : ι)
    (a₀ n : α) :
    Prop where
  root : ∀ k, G.root k = F.root k
  place : S k₀ p₀
  parent : F.table k₀ p₀ = some a₀
  before : F.link a₀ i₀ = none
  after : G.link a₀ i₀ = some n
  fresh : ∀ k p, S k p → F.table k p ≠ some n
  empty : ∀ k p i, S k (p ++ [i]) → G.link n i = none
  others : ∀ k p i a, S k (p ++ [i]) → F.table k p = some a → ¬ (a = a₀ ∧ i = i₀) →
    G.link a i = F.link a i

theorem Hangs.table_eq [DecidableEq κ] [DecidableEq ι] {k₀ : κ} {p₀ : List ι} {i₀ : ι} {a₀ n : α}
    (h : Hangs F G S k₀ p₀ i₀ a₀ n) (hS : PrefixClosed S) (hF : F.Apart S) {k : κ} {p : List ι}
    (hp : S k p) :
    G.table k p = if k = k₀ ∧ p = p₀ ++ [i₀] then some n else F.table k p := by
  have hnone : F.table k₀ (p₀ ++ [i₀]) = none := by rw [table_snoc, h.parent]; exact h.before
  induction p using List.reverseRecOn with
  | nil => simp [h.root]
  | append_singleton p i ih =>
    have hp' := hS k p i hp
    rw [table_snoc, ih hp', table_snoc]
    by_cases hnew : k = k₀ ∧ p = p₀ ++ [i₀]
    · -- below the new table there is nothing, before as well as after
      obtain ⟨rfl, rfl⟩ := hnew
      rw [if_pos ⟨rfl, rfl⟩, if_neg (by simp), hnone]
      exact h.empty _ _ _ hp
    · rw [if_neg hnew]
      cases ht : F.table k p with
      | none =>
        refine (if_neg ?_).symm
        rintro ⟨rfl, he⟩
        obtain ⟨rfl, -⟩ := List.append_inj' he rfl
        exact absurd (ht.symm.trans h.parent) (by simp)
      | some a =>
        by_cases hedge : a = a₀ ∧ i = i₀
        · obtain ⟨rfl, rfl⟩ := hedge
          obtain ⟨rfl, rfl⟩ := hF hp' h.place ht h.parent
          rw [if_pos ⟨rfl, rfl⟩]
          exact h.after
        · rw [if_neg]
          · exact h.others k p i a hp ht hedge
          · rintro ⟨rfl, he⟩
            obtain ⟨rfl, hi⟩ := List.append_inj' he rfl
            exact hedge ⟨Option.some.inj (ht.symm.trans h.parent), by simpa using hi⟩

theorem Hangs.apart [DecidableEq κ] [DecidableEq ι] {k₀ : κ} {p₀ : List ι} {i₀ : ι} {a₀ n : α}
    (h : Hangs F G S k₀ p₀ i₀ a₀ n) (hS : PrefixClosed S) (hF : F.Apart S) : G.Apart S := by
  intro k p k' p' a hp hp' ht ht'
  rw [h.table_eq hS hF hp] at ht
  rw [h.table_eq hS hF hp'] at ht'
  split at ht
  · next hc =>
    split at ht'
    · next hc' => exact ⟨hc.1.trans hc'.1.symm, hc.2.trans hc'.2.symm⟩
    · obtain rfl := Option.some.inj ht
      exact absurd ht' (h.fresh k' p' hp')
  · split at ht'
    · obtain rfl := Option.some.inj ht'
      exact absurd ht (h.fresh k p hp)
    · exact hF hp hp' ht ht'

end TableForest

end QnxStartup
