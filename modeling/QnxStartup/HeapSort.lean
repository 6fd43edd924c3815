import Mathlib.Algebra.Group.End
import Mathlib.Data.List.NodupEquivFin
import Mathlib.Data.List.Perm.Basic
import Mathlib.Logic.Equiv.Basic
import Mathlib.Order.Defs.LinearOrder

/-! Heap sort in place, by sifting up: after each extraction the heap of what is left is built
again from its first entry. -/

namespace QnxStartup.HeapSort

variable {α β : Type*}

def swap (i j : Nat) (a : Nat → α) : Nat → α := a ∘ Equiv.swap i j

theorem swap_left (i j : Nat) (a : Nat → α) : swap i j a i = a j :=
  congrArg a (Equiv.swap_apply_left i j)

theorem swap_right (i j : Nat) (a : Nat → α) : swap i j a j = a i :=
  congrArg a (Equiv.swap_apply_right i j)

theorem swap_of_ne {i j k : Nat} (a : Nat → α) (hi : k ≠ i) (hj : k ≠ j) : swap i j a k = a k :=
  congrArg a (Equiv.swap_apply_of_ne_of_ne hi hj)

def parent (child : Nat) : Nat := (child - 1) / 2

theorem parent_lt {child : Nat} (h : 0 < child) : parent child < child := by
  unfold parent
  omega

section
variable [LinearOrder β]

/-- Moves the entry at `child` towards the root. `fuel` of at least `child` is enough. -/
def siftUp (key : α → β) : Nat → Nat → (Nat → α) → Nat → α
  | 0, _, a => a
  | fuel + 1, child, a =>
    if child = 0 ∨ key (a child) ≤ key (a (parent child)) then a
    else siftUp key fuel (parent child) (swap (parent child) child a)

/-- Makes the first `count` entries a heap. -/
def heapify (key : α → β) : Nat → (Nat → α) → Nat → α
  | 0, a => a
  | count + 1, a => siftUp key count count (heapify key count a)

/-- Extracts the entries from `stop` down. -/
def sortDown (key : α → β) : Nat → (Nat → α) → Nat → α
  | 0, a => a
  | stop + 1, a => sortDown key stop (heapify key (stop + 1) (swap (stop + 1) 0 a))

def sort (key : α → β) (n : Nat) (a : Nat → α) : Nat → α := sortDown key (n - 1) (heapify key n a)

end

/-! ### Rearrangements -/

/-- `b` is `a` with its first `n` entries in another order. -/
def Rearranges (n : Nat) (a b : Nat → α) : Prop :=
  ∃ σ : Equiv.Perm Nat, (∀ i, n ≤ i → σ i = i) ∧ b = a ∘ σ

theorem Rearranges.refl (n : Nat) (a : Nat → α) : Rearranges n a a := ⟨1, fun _ _ => rfl, rfl⟩

theorem Rearranges.trans {n : Nat} {a b c : Nat → α} (h : Rearranges n a b)
    (h' : Rearranges n b c) : Rearranges n a c := by
  obtain ⟨σ, hσ, rfl⟩ := h
  obtain ⟨τ, hτ, rfl⟩ := h'
  refine ⟨σ * τ, fun i hi => ?_, rfl⟩
  rw [Equiv.Perm.mul_apply, hτ i hi, hσ i hi]

theorem Rearranges.mono {m n : Nat} {a b : Nat → α} (h : Rearranges m a b) (hle : m ≤ n) :
    Rearranges n a b := by
  obtain ⟨σ, hσ, rfl⟩ := h
  exact ⟨σ, fun i hi => hσ i (hle.trans hi), rfl⟩

theorem Rearranges.swap {n i j : Nat} (a : Nat → α) (hi : i < n) (hj : j < n) :
    Rearranges n a (swap i j a) :=
  ⟨Equiv.swap i j, fun k hk => Equiv.swap_apply_of_ne_of_ne (by omega) (by omega), rfl⟩

theorem Rearranges.of_le {n i : Nat} {a b : Nat → α} (h : Rearranges n a b) (hi : n ≤ i) :
    b i = a i := by
  obtain ⟨σ, hσ, rfl⟩ := h
  exact congrArg a (hσ i hi)

theorem Rearranges.source {n i : Nat} {a b : Nat → α} (h : Rearranges n a b) (hi : i < n) :
    ∃ k < n, b i = a k := by
  obtain ⟨σ, hσ, rfl⟩ := h
  refine ⟨σ i, ?_, rfl⟩
  by_contra hc
  have hfix := σ.injective (hσ (σ i) (not_lt.mp hc))
  omega

theorem Rearranges.perm {n : Nat} {a b : Nat → α} (h : Rearranges n a b) :
    ((List.range n).map b).Perm ((List.range n).map a) := by
  obtain ⟨σ, hσ, rfl⟩ := h
  have hrange : ((List.range n).map σ).Perm (List.range n) := by
    rw [List.perm_ext_iff_of_nodup (List.nodup_range.map σ.injective) List.nodup_range]
    intro i
    rw [List.mem_map, List.mem_range]
    constructor
    · rintro ⟨k, hk, rfl⟩
      by_contra hc
      have hfix := σ.injective (hσ (σ k) (not_lt.mp hc))
      have := List.mem_range.mp hk
      omega
    · intro hi
      refine ⟨σ.symm i, List.mem_range.mpr ?_, σ.apply_symm_apply i⟩
      by_contra hc
      have hfix := hσ _ (not_lt.mp hc)
      rw [σ.apply_symm_apply] at hfix
      omega
  rw [← List.map_map]
  exact hrange.map a

/-! ### The heap -/

section
variable [LinearOrder β] {key : α → β} {a : Nat → α} {n : Nat}

/-- No entry below `n` is before its parent. -/
def IsHeap (key : α → β) (n : Nat) (a : Nat → α) : Prop :=
  ∀ c, 0 < c → c < n → key (a c) ≤ key (a (parent c))

/-- A heap but for the entry at `child`, over whose children its parent stands. -/
structure HeapBut (key : α → β) (n child : Nat) (a : Nat → α) : Prop where
  others : ∀ c, 0 < c → c < n → c ≠ child → key (a c) ≤ key (a (parent c))
  grand : 0 < child → ∀ c, 0 < c → c < n → parent c = child → key (a c) ≤ key (a (parent child))

theorem HeapBut.finish {child : Nat} (h : HeapBut key n child a)
    (hstop : child = 0 ∨ key (a child) ≤ key (a (parent child))) :
    IsHeap key n a := by
  intro c hc hlt
  by_cases hne : c = child
  · subst hne
    exact hstop.resolve_left (by omega)
  · exact h.others c hc hlt hne

theorem HeapBut.move {child : Nat} (h : HeapBut key n child a) (hpos : 0 < child)
    (hbig : key (a (parent child)) < key (a child)) :
    HeapBut key n (parent child) (swap (parent child) child a) := by
  have hlt := parent_lt hpos
  constructor
  · intro c hc hcn hne
    by_cases hcc : c = child
    · subst hcc
      rw [swap_right, swap_left]
      exact hbig.le
    rw [swap_of_ne a hne hcc]
    by_cases hpc : parent c = child
    · rw [hpc, swap_right]
      exact h.grand hpos c hc hcn hpc
    by_cases hpp : parent c = parent child
    · rw [hpp, swap_left]
      exact (hpp ▸ h.others c hc hcn hcc).trans hbig.le
    · rw [swap_of_ne a hpp hpc]
      exact h.others c hc hcn hcc
  · intro hp c hc hcn hpc
    have hup := parent_lt hp
    rw [swap_of_ne a hup.ne (hup.trans hlt).ne]
    have hroot := h.others (parent child) hp
    by_cases hcc : c = child
    · subst hcc
      rw [swap_right]
      exact hroot (hlt.trans hcn) hlt.ne
    · have hne : c ≠ parent child := by
        rintro rfl
        omega
      rw [swap_of_ne a hne hcc]
      have hc' := h.others c hc hcn hcc
      rw [hpc] at hc'
      exact hc'.trans (hroot (by have := parent_lt hc; omega) hlt.ne)

theorem siftUp_heap {fuel child : Nat} (h : HeapBut key n child a) (hfuel : child ≤ fuel) :
    IsHeap key n (siftUp key fuel child a) := by
  induction fuel generalizing child a with
  | zero => exact h.finish (.inl (by omega))
  | succ fuel ih =>
    rw [siftUp]
    split
    · next hstop => exact h.finish hstop
    · next hgo =>
      rw [not_or, not_le] at hgo
      have hpos := Nat.pos_of_ne_zero hgo.1
      have := parent_lt hpos
      exact ih (h.move hpos hgo.2) (by omega)

theorem siftUp_rearranges (fuel child : Nat) (a : Nat → α) :
    Rearranges (child + 1) a (siftUp key fuel child a) := by
  induction fuel generalizing child a with
  | zero => exact .refl _ a
  | succ fuel ih =>
    rw [siftUp]
    split
    · exact .refl _ a
    · next hgo =>
      have := parent_lt (Nat.pos_of_ne_zero (not_or.mp hgo).1)
      exact (Rearranges.swap a (by omega) (by omega)).trans ((ih _ _).mono (by omega))

theorem heapify_rearranges (count : Nat) (a : Nat → α) :
    Rearranges count a (heapify key count a) := by
  induction count with
  | zero => exact .refl _ a
  | succ count ih => exact (ih.mono (by omega)).trans (siftUp_rearranges count count _)

theorem heapify_heap (count : Nat) (a : Nat → α) : IsHeap key count (heapify key count a) := by
  induction count with
  | zero => exact fun c _ hlt => absurd hlt (by omega)
  | succ count ih =>
    refine siftUp_heap ⟨fun c hc hlt hne => ih c hc (by omega), fun _ c hc hlt hp => ?_⟩ le_rfl
    have := parent_lt hc
    omega

theorem IsHeap.le_root (h : IsHeap key n a) {i : Nat} (hi : i < n) : key (a i) ≤ key (a 0) := by
  induction i using Nat.strong_induction_on with
  | _ i ih =>
    by_cases h0 : i = 0
    · rw [h0]
    · have hp := parent_lt (Nat.pos_of_ne_zero h0)
      exact (h i (Nat.pos_of_ne_zero h0) hi).trans (ih _ hp (hp.trans hi))

/-! ### Sorting -/

/-- The entries behind `stop` are in their final places. -/
def SortedBehind (key : α → β) (n stop : Nat) (a : Nat → α) : Prop :=
  ∀ i j, i ≤ j → stop < j → j < n → key (a i) ≤ key (a j)

theorem SortedBehind.extract {stop : Nat} (hs : SortedBehind key n (stop + 1) a)
    (hh : IsHeap key (stop + 2) a) :
    SortedBehind key n stop (heapify key (stop + 1) (swap (stop + 1) 0 a)) := by
  have hheap := @heapify_rearranges _ _ _ key (stop + 1) (swap (stop + 1) 0 a)
  have hall : Rearranges (stop + 2) a (heapify key (stop + 1) (swap (stop + 1) 0 a)) :=
    (Rearranges.swap a (by omega) (by omega)).trans (hheap.mono (by omega))
  intro i j hij hj hjn
  by_cases hlast : j = stop + 1
  · -- the root went there
    subst hlast
    rw [hheap.of_le le_rfl, swap_left]
    obtain ⟨k, hk, heq⟩ := hall.source (show i < stop + 2 by omega)
    rw [heq]
    exact hh.le_root hk
  · rw [hall.of_le (show stop + 2 ≤ j by omega)]
    by_cases hi : i < stop + 2
    · obtain ⟨k, hk, heq⟩ := hall.source hi
      rw [heq]
      exact hs k j (by omega) (by omega) hjn
    · rw [hall.of_le (not_lt.mp hi)]
      exact hs i j hij (by omega) hjn

theorem sortDown_sorted {stop : Nat} (hs : SortedBehind key n stop a)
    (hh : IsHeap key (stop + 1) a) :
    SortedBehind key n 0 (sortDown key stop a) := by
  induction stop generalizing a with
  | zero => exact hs
  | succ stop ih => exact ih (hs.extract hh) (heapify_heap _ _)

theorem sortDown_rearranges (stop : Nat) (a : Nat → α) :
    Rearranges (stop + 1) a (sortDown key stop a) := by
  induction stop generalizing a with
  | zero => exact .refl _ a
  | succ stop ih =>
    exact ((Rearranges.swap a (by omega) (by omega)).trans ((heapify_rearranges _ _).mono
      (by omega))).trans ((ih _).mono (by omega))

theorem sort_rearranges (key : α → β) (n : Nat) (a : Nat → α) : Rearranges n a (sort key n a) := by
  cases n with
  | zero => exact .refl 0 a
  | succ n => exact (heapify_rearranges _ _).trans (sortDown_rearranges n _)

theorem sort_sorted (key : α → β) (n : Nat) (a : Nat → α) {i j : Nat} (hij : i ≤ j) (hj : j < n) :
    key (sort key n a i) ≤ key (sort key n a j) := by
  obtain ⟨m, rfl⟩ : ∃ m, n = m + 1 := ⟨n - 1, by omega⟩
  have hs : SortedBehind key (m + 1) m (heapify key (m + 1) a) :=
    fun _ _ _ h h' => absurd h (by omega)
  by_cases h0 : j = 0
  · obtain rfl : i = j := by omega
    exact le_rfl
  · exact sortDown_sorted hs (heapify_heap _ _) i j hij (Nat.pos_of_ne_zero h0) hj

/-! ### Entries seen through a function that keeps their keys -/

variable {γ : Type*} (g : γ → α) (key)

theorem siftUp_comp (fuel child : Nat) (b : Nat → γ) :
    siftUp key fuel child (g ∘ b) = g ∘ siftUp (key ∘ g) fuel child b := by
  induction fuel generalizing child b with
  | zero => rfl
  | succ fuel ih =>
    rw [siftUp, siftUp, Function.comp_apply, Function.comp_apply, Function.comp_apply,
      Function.comp_apply]
    split
    · rfl
    · exact ih _ (swap (parent child) child b)

theorem heapify_comp (count : Nat) (b : Nat → γ) :
    heapify key count (g ∘ b) = g ∘ heapify (key ∘ g) count b := by
  induction count with
  | zero => rfl
  | succ count ih => rw [heapify, ih, siftUp_comp, heapify]

theorem sortDown_comp (stop : Nat) (b : Nat → γ) :
    sortDown key stop (g ∘ b) = g ∘ sortDown (key ∘ g) stop b := by
  induction stop generalizing b with
  | zero => rfl
  | succ stop ih =>
    rw [sortDown, sortDown, ← ih, ← heapify_comp]
    rfl

theorem sort_comp (n : Nat) (b : Nat → γ) : sort key n (g ∘ b) = g ∘ sort (key ∘ g) n b := by
  rw [sort, heapify_comp, sortDown_comp, sort]

end

end QnxStartup.HeapSort
