import Mathlib.Order.Interval.Set.Disjoint
import Mathlib.Data.Set.Lattice

/-! Finite lists of half-open ranges over a linear order: the set they cover,
lists that are sorted with a gap between neighbours, merging and cutting. -/

namespace Ranges

variable {α : Type*} [LinearOrder α]

structure Span (α : Type*) where
  lo : α
  hi : α
  deriving DecidableEq

def Span.set (r : Span α) : Set α := Set.Ico r.lo r.hi

theorem Span.mem_set {r : Span α} {x : α} : x ∈ r.set ↔ r.lo ≤ x ∧ x < r.hi := Iff.rfl

def cover (l : List (Span α)) : Set α := {x | ∃ r ∈ l, x ∈ r.set}

theorem mem_cover {l : List (Span α)} {x : α} :
    x ∈ cover l ↔ ∃ r ∈ l, r.lo ≤ x ∧ x < r.hi := Iff.rfl

@[simp] theorem cover_nil : cover ([] : List (Span α)) = ∅ := by
  simp [cover]

@[simp] theorem cover_cons (r : Span α) (l : List (Span α)) : cover (r :: l) = r.set ∪ cover l := by
  ext x
  simp [cover]

@[simp] theorem cover_append (l m : List (Span α)) : cover (l ++ m) = cover l ∪ cover m := by
  ext x
  simp [cover, or_and_right, exists_or]

theorem cover_flatMap (f : Span α → List (Span α)) (l : List (Span α)) :
    cover (l.flatMap f) = {x | ∃ r ∈ l, x ∈ cover (f r)} := by
  ext x
  simp only [cover, List.mem_flatMap, Set.mem_ofPred_eq]
  constructor
  · rintro ⟨r, ⟨a, ha, hr⟩, hx⟩
    exact ⟨a, ha, r, hr, hx⟩
  · rintro ⟨a, ha, r, hr, hx⟩
    exact ⟨r, ⟨a, ha, hr⟩, hx⟩

theorem subset_cover {l : List (Span α)} {r : Span α} (h : r ∈ l) : r.set ⊆ cover l :=
  fun _ hx => ⟨r, h, hx⟩

/-- Nonempty ranges in ascending order with a gap between neighbours, so no two
of them overlap or touch. -/
def Separated (l : List (Span α)) : Prop :=
  (∀ r ∈ l, r.lo < r.hi) ∧ l.Pairwise (fun r r' => r.hi < r'.lo)

theorem Separated.nil : Separated ([] : List (Span α)) := ⟨by simp, .nil⟩

theorem separated_cons {r : Span α} {l : List (Span α)} :
    Separated (r :: l) ↔ r.lo < r.hi ∧ (∀ r' ∈ l, r.hi < r'.lo) ∧ Separated l := by
  simp only [Separated, List.mem_cons, forall_eq_or_imp, List.pairwise_cons]
  tauto

theorem separated_append {l m : List (Span α)} :
    Separated (l ++ m) ↔ Separated l ∧ Separated m ∧ ∀ r ∈ l, ∀ r' ∈ m, r.hi < r'.lo := by
  simp only [Separated, List.mem_append, List.pairwise_append]
  constructor
  · rintro ⟨hp, hl, hm, hlm⟩
    exact ⟨⟨fun r hr => hp r (.inl hr), hl⟩, ⟨fun r hr => hp r (.inr hr), hm⟩, hlm⟩
  · rintro ⟨⟨hl, hl'⟩, ⟨hm, hm'⟩, hlm⟩
    exact ⟨fun r hr => hr.elim (hl r) (hm r), hl', hm', hlm⟩

theorem Separated.sorted {l : List (Span α)} (h : Separated l) :
    l.Pairwise (fun r r' => r.lo ≤ r'.lo) := by
  refine h.2.imp_of_mem fun {r r'} hr _ hlt => ?_
  exact ((h.1 r hr).trans hlt).le

/-- A set of points has at most one separated list of ranges. -/
theorem Separated.eq_of_cover_eq {l m : List (Span α)} (hl : Separated l) (hm : Separated m)
    (h : cover l = cover m) : l = m := by
  induction l generalizing m with
  | nil =>
    cases m with
    | nil => rfl
    | cons r m =>
      have hr : r.lo ∈ cover (r :: m) := subset_cover (by simp) ⟨le_rfl, hm.1 r (by simp)⟩
      simp [← h] at hr
  | cons r l ih =>
    have lo_mem : ∀ {a : Span α} {k : List (Span α)}, Separated (a :: k) → a.lo ∈ cover (a :: k) :=
      fun hk => subset_cover (by simp) ⟨le_rfl, hk.1 _ (by simp)⟩
    have lo_le : ∀ {a : Span α} {k : List (Span α)} {x : α}, Separated (a :: k) →
        x ∈ cover (a :: k) → a.lo ≤ x := by
      rintro a k x hk ⟨b, hb, hx⟩
      rcases List.mem_cons.mp hb with rfl | hb
      · exact hx.1
      · exact ((List.pairwise_cons.mp hk.sorted).1 b hb).trans hx.1
    have hi_not_mem : ∀ {a : Span α} {k : List (Span α)}, Separated (a :: k) →
        a.hi ∉ cover (a :: k) := by
      rintro a k hk ⟨b, hb, hx⟩
      rcases List.mem_cons.mp hb with rfl | hb
      · exact lt_irrefl _ hx.2
      · exact not_lt.mpr hx.1 ((separated_cons.mp hk).2.1 b hb)
    have tail_mem : ∀ {a : Span α} {k : List (Span α)} {x : α}, Separated (a :: k) →
        (x ∈ cover k ↔ x ∈ cover (a :: k) ∧ a.hi ≤ x) := by
      intro a k x hk
      constructor
      · rintro ⟨b, hb, hx⟩
        exact ⟨⟨b, by simp [hb], hx⟩, ((separated_cons.mp hk).2.1 b hb).le.trans hx.1⟩
      · rintro ⟨⟨b, hb, hx⟩, hle⟩
        rcases List.mem_cons.mp hb with rfl | hb
        · exact absurd hx.2 (not_lt.mpr hle)
        · exact ⟨b, hb, hx⟩
    cases m with
    | nil =>
      have hr := lo_mem hl
      simp [h] at hr
    | cons r' m =>
      have hlo : r.lo = r'.lo :=
        le_antisymm (lo_le hl (h ▸ lo_mem hm)) (lo_le hm (h ▸ lo_mem hl))
      have hhi : r.hi = r'.hi := by
        rcases lt_trichotomy r.hi r'.hi with hlt | he | hlt
        · exact absurd (h ▸ subset_cover (List.mem_cons_self) ⟨hlo ▸ (hl.1 r (by simp)).le, hlt⟩)
            (hi_not_mem hl)
        · exact he
        · exact absurd (h.symm ▸ subset_cover (List.mem_cons_self)
            ⟨hlo.symm ▸ (hm.1 r' (by simp)).le, hlt⟩) (hi_not_mem hm)
      have hr : r = r' := by
        cases r
        cases r'
        simp_all
      subst hr
      rw [ih (separated_cons.mp hl).2.2 (separated_cons.mp hm).2.2]
      ext x
      rw [tail_mem hl, tail_mem hm, h]

/-- Merge `prev` with the ranges after it that start at or before its end. -/
def coalesce (prev : Span α) : List (Span α) → List (Span α)
  | [] => [prev]
  | r :: rest =>
    if r.lo ≤ prev.hi then coalesce ⟨prev.lo, max prev.hi r.hi⟩ rest
    else prev :: coalesce r rest

theorem cover_coalesce (prev : Span α) (l : List (Span α))
    (hprev : prev.lo ≤ prev.hi) (hsorted : (prev :: l).Pairwise (fun r r' => r.lo ≤ r'.lo))
    (hpos : ∀ r ∈ l, r.lo < r.hi) : cover (coalesce prev l) = prev.set ∪ cover l := by
  induction l generalizing prev with
  | nil => simp [coalesce]
  | cons r rest ih =>
    have hs := List.pairwise_cons.mp hsorted
    have hrest : ∀ r ∈ rest, r.lo < r.hi := fun r' hr' => hpos r' (List.mem_cons_of_mem _ hr')
    by_cases ht : r.lo ≤ prev.hi
    · have hs' : ((⟨prev.lo, max prev.hi r.hi⟩ : Span α) :: rest).Pairwise
          (fun r r' => r.lo ≤ r'.lo) :=
        List.pairwise_cons.mpr ⟨fun r' hr' => hs.1 r' (List.mem_cons_of_mem _ hr'),
          (List.pairwise_cons.mp hs.2).2⟩
      rw [coalesce, if_pos ht, ih ⟨prev.lo, max prev.hi r.hi⟩ (hprev.trans
        (le_max_left _ _)) hs' hrest, cover_cons, ← Set.union_assoc]
      congr 1
      have hle : prev.lo ≤ r.lo := hs.1 r (by simp)
      simp only [Span.set]
      rw [Set.Ico_union_Ico' ht (hle.trans (hpos r (by simp)).le), min_eq_left hle]
    · rw [coalesce, if_neg ht, cover_cons, ih r (hpos r (by simp)).le hs.2 hrest, cover_cons]

theorem coalesce_lo {prev r : Span α} {l : List (Span α)} {b : α} (hprev : b < prev.lo)
    (hl : ∀ r ∈ l, b < r.lo) (hr : r ∈ coalesce prev l) : b < r.lo := by
  induction l generalizing prev with
  | nil => simpa [coalesce, List.mem_singleton.mp hr] using hprev
  | cons a rest ih =>
    have hrest : ∀ r ∈ rest, b < r.lo := fun r' hr' => hl r' (List.mem_cons_of_mem _ hr')
    by_cases ht : a.lo ≤ prev.hi
    · rw [coalesce, if_pos ht] at hr
      exact @ih ⟨prev.lo, max prev.hi a.hi⟩ hprev hrest hr
    · rw [coalesce, if_neg ht] at hr
      rcases List.mem_cons.mp hr with rfl | hr
      · exact hprev
      · exact ih (hl a (by simp)) hrest hr

theorem coalesce_separated (prev : Span α) (l : List (Span α))
    (hprev : prev.lo < prev.hi) (hsorted : (prev :: l).Pairwise (fun r r' => r.lo ≤ r'.lo))
    (hpos : ∀ r ∈ l, r.lo < r.hi) : Separated (coalesce prev l) := by
  induction l generalizing prev with
  | nil => exact separated_cons.mpr ⟨hprev, by simp, Separated.nil⟩
  | cons r rest ih =>
    have hs := List.pairwise_cons.mp hsorted
    have hrest : ∀ r ∈ rest, r.lo < r.hi := fun r' hr' => hpos r' (List.mem_cons_of_mem _ hr')
    by_cases ht : r.lo ≤ prev.hi
    · rw [coalesce, if_pos ht]
      refine ih _ (hprev.trans_le (le_max_left _ _)) ?_ hrest
      exact List.pairwise_cons.mpr ⟨fun r' hr' => hs.1 r' (List.mem_cons_of_mem _ hr'),
        (List.pairwise_cons.mp hs.2).2⟩
    · rw [coalesce, if_neg ht]
      refine separated_cons.mpr ⟨hprev, ?_, ih r (hpos r (by simp)) hs.2 hrest⟩
      intro r' hr'
      refine coalesce_lo (not_le.mp ht) (fun a ha => ?_) hr'
      exact (not_le.mp ht).trans_le ((List.pairwise_cons.mp hs.2).1 a ha)

/-- A range with the points of `[a, b)` taken out, as at most two ranges. -/
def cut (a b : α) (r : Span α) : List (Span α) :=
  (if r.lo < a then [⟨r.lo, min r.hi a⟩] else []) ++
    (if b < r.hi then [⟨max r.lo b, r.hi⟩] else [])

theorem mem_cut {a b : α} {r p : Span α} (h : p ∈ cut a b r) :
    (r.lo < a ∧ p = ⟨r.lo, min r.hi a⟩) ∨ (b < r.hi ∧ p = ⟨max r.lo b, r.hi⟩) := by
  rcases List.mem_append.mp h with h | h
  · split at h <;> simp_all
  · split at h <;> simp_all

theorem cover_cut (a b : α) (r : Span α) : cover (cut a b r) = r.set \ Set.Ico a b := by
  ext x
  simp only [cut, cover_append, Set.mem_union, Set.mem_sdiff, Set.mem_Ico,
    Span.set, not_and, not_lt]
  constructor
  · rintro (h | h)
    · split at h
      · simp only [cover_cons, cover_nil, Set.union_empty, Span.mem_set, lt_min_iff] at h
        exact ⟨⟨h.1, h.2.1⟩, fun hx => absurd hx (not_le.mpr h.2.2)⟩
      · simp at h
    · split at h
      · simp only [cover_cons, cover_nil, Set.union_empty, Span.mem_set, max_le_iff] at h
        exact ⟨⟨h.1.1, h.2⟩, fun _ => h.1.2⟩
      · simp at h
  · rintro ⟨⟨hlo, hhi⟩, hx⟩
    by_cases hxa : x < a
    · left
      rw [if_pos (hlo.trans_lt hxa)]
      exact ⟨_, List.mem_singleton_self _, hlo, lt_min hhi hxa⟩
    · have hbx := hx (not_lt.mp hxa)
      right
      rw [if_pos (hbx.trans_lt hhi)]
      exact ⟨_, List.mem_singleton_self _, max_le hlo hbx, hhi⟩

theorem cover_flatMap_cut (a b : α) (l : List (Span α)) :
    cover (l.flatMap (cut a b)) = cover l \ Set.Ico a b := by
  ext x
  simp only [cover_flatMap, cover_cut, Set.mem_ofPred_eq, Set.mem_sdiff, mem_cover, Span.mem_set]
  constructor
  · rintro ⟨r, hr, hx, hn⟩
    exact ⟨⟨r, hr, hx⟩, hn⟩
  · rintro ⟨⟨r, hr, hx⟩, hn⟩
    exact ⟨r, hr, hx, hn⟩

theorem cut_separated {a b : α} (hab : a < b) {r : Span α} (hr : r.lo < r.hi) :
    Separated (cut a b r) := by
  refine ⟨fun p hp => ?_, ?_⟩
  · rcases mem_cut hp with ⟨h, rfl⟩ | ⟨h, rfl⟩
    · exact lt_min hr h
    · exact max_lt hr h
  · unfold cut
    split <;> split <;> simp
    exact .inr (.inr hab)

theorem flatMap_cut_separated {a b : α} (hab : a < b) {l : List (Span α)} (h : Separated l) :
    Separated (l.flatMap (cut a b)) := by
  induction l with
  | nil => exact h
  | cons r rest ih =>
    obtain ⟨hr, hlt, hrest⟩ := separated_cons.mp h
    rw [List.flatMap_cons, separated_append]
    refine ⟨cut_separated hab hr, ih hrest, fun p hp p' hp' => ?_⟩
    obtain ⟨r', hr', hp'⟩ := List.mem_flatMap.mp hp'
    have hle : p.hi ≤ r.hi := by
      rcases mem_cut hp with ⟨_, rfl⟩ | ⟨_, rfl⟩
      · exact min_le_left _ _
      · exact le_rfl
    have hge : r'.lo ≤ p'.lo := by
      rcases mem_cut hp' with ⟨_, rfl⟩ | ⟨_, rfl⟩
      · exact le_rfl
      · exact le_max_left _ _
    exact (hle.trans_lt (hlt r' hr')).trans_le hge

end Ranges
