import Mathlib.Data.Nat.ModEq

/-! A ring of slots into which the entries of a log are written one after the other, and from which
they are read in the same order. -/

namespace QnxStartup

variable {α : Type*}

/-- The entries of the log from the `lo`-th to before the `hi`-th lie in their slots of the `n`
slots; the first entry has its place at `b`. -/
def RingHolds (n b : Nat) (slot log : Nat → α) (lo hi : Nat) : Prop :=
  ∀ k, lo ≤ k → k < hi → slot ((b + k) % n) = log k

section

variable {n b lo lo' hi hi' : Nat} {slot slot' log : Nat → α}

theorem mod_ne_of_lt_add {i j : Nat} (hij : i < j) (hj : j < i + n) :
    (b + i) % n ≠ (b + j) % n := by
  intro h
  have hmod := Nat.ModEq.add_left_cancel' b (show b + i ≡ b + j [MOD n] from h)
  have hdvd := (Nat.modEq_iff_dvd' hij.le).mp hmod
  exact absurd (Nat.le_of_dvd (Nat.sub_pos_of_lt hij) hdvd) (by omega)

theorem RingHolds.mono (h : RingHolds n b slot log lo hi) (hlo : lo ≤ lo') (hhi : hi' ≤ hi) :
    RingHolds n b slot log lo' hi' :=
  fun k hle hlt => h k (hlo.trans hle) (hlt.trans_le hhi)

theorem RingHolds.congr (h : RingHolds n b slot log lo hi) (hn : 0 < n)
    (heq : ∀ p < n, slot' p = slot p) :
    RingHolds n b slot' log lo hi :=
  fun k hle hlt => (heq _ (Nat.mod_lt _ hn)).trans (h k hle hlt)

/-- One more entry, as long as its slot does not hold one that is still to be read. -/
theorem RingHolds.push (h : RingHolds n b slot log lo hi) (hroom : hi < lo + n)
    (hself : slot' ((b + hi) % n) = log hi) (hrest : ∀ p < n, p ≠ (b + hi) % n → slot' p = slot p) :
    RingHolds n b slot' log lo (hi + 1) := by
  intro k hle hlt
  rcases Nat.lt_succ_iff_lt_or_eq.mp hlt with hlt | rfl
  · rw [← h k hle hlt]
    exact hrest _ (Nat.mod_lt _ (by omega)) (mod_ne_of_lt_add hlt (by omega))
  · exact hself

end

end QnxStartup
