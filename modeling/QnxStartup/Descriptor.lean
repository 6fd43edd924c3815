import Mathlib.Tactic.IntervalCases
import QnxStartup.PageTable

/-! The descriptors that `set_pte` makes, and what the walk reads back from them. -/

namespace QnxStartup

theorem IsAttr.or {a b : Nat} (ha : IsAttr a) (hb : IsAttr b) : IsAttr (a ||| b) where
  lt := Nat.or_lt_two_pow ha.lt hb.lt
  low := by
    rw [Nat.or_mod_two_pow]
    exact Nat.or_lt_two_pow ha.low hb.low
  contig := by
    have h : ∀ n : Nat, n / 2 ^ 52 % 2 = (n.testBit 52).toNat := fun n => by
      rw [Nat.testBit_eq_decide_div_mod_eq]
      rcases Nat.mod_two_eq_zero_or_one (n / 2 ^ 52) with h | h <;> rw [h] <;> rfl
    have h1 := ha.contig
    have h2 := hb.contig
    rw [h] at h1 h2 ⊢
    rw [Nat.testBit_or]
    revert h1 h2
    cases a.testBit 52 <;> cases b.testBit 52 <;> decide

theorem isAttr_pteValid : IsAttr pteValid := by
  constructor <;> decide

theorem IsAttr.ite {a b : Nat} (ha : IsAttr a) (hb : IsAttr b) (c : Prop) [Decidable c] :
    IsAttr (if c then a else b) := by
  split
  · exact ha
  · exact hb

theorem isAttr_zero : IsAttr 0 := by
  constructor <;> decide

theorem or_ite (c : Prop) [Decidable c] (p a b : Nat) :
    (if c then p ||| a else p ||| b) = p ||| if c then a else b := by
  split <;> rfl

theorem or_ite_self (c : Prop) [Decidable c] (p a : Nat) :
    (if c then p ||| a else p) = p ||| if c then a else 0 := by
  split <;> simp

theorem pteValid_or (a : Nat) : (pteValid ||| a) % 4 = 3 := by
  have := Nat.mod_lt a (show 0 < 2 ^ 2 by decide)
  rw [show 4 = 2 ^ 2 from rfl, Nat.or_mod_two_pow]
  generalize a % 2 ^ 2 = b at this
  interval_cases b <;> decide

theorem IsAttr.paddr_or {a pa : Nat} (ha : IsAttr a) (hd : 2 ^ 12 ∣ pa) (hlt : pa < 2 ^ 48) :
    pa ||| a = pa + a := by
  obtain ⟨q, rfl⟩ := hd
  have hsplit : a = 2 ^ 48 * (a / 2 ^ 48) ||| a % 2 ^ 48 := by
    rw [← Nat.two_pow_add_eq_or_of_lt (Nat.mod_lt _ (Nat.two_pow_pos 48)), Nat.div_add_mod]
  have hlow : 2 ^ 12 * q ||| a % 2 ^ 48 = 2 ^ 12 * q + a % 2 ^ 48 :=
    (Nat.two_pow_add_eq_or_of_lt ha.low q).symm
  have hsum : 2 ^ 12 * q + a % 2 ^ 48 < 2 ^ 48 := by
    have := ha.low
    omega
  calc 2 ^ 12 * q ||| a = 2 ^ 48 * (a / 2 ^ 48) ||| (2 ^ 12 * q ||| a % 2 ^ 48) := by
        conv_lhs => rw [hsplit]
        rw [← Nat.or_assoc, Nat.or_comm (2 ^ 12 * q), Nat.or_assoc]
    _ = 2 ^ 48 * (a / 2 ^ 48) + (2 ^ 12 * q + a % 2 ^ 48) := by
        rw [hlow, Nat.two_pow_add_eq_or_of_lt hsum]
    _ = 2 ^ 12 * q + a := by
        have := Nat.div_add_mod a (2 ^ 48)
        omega

theorem or_pteContig {v : Nat} (h : v / 2 ^ 52 % 2 = 0) : v ||| pteContig = v + pteContig := by
  have h2 : v = 2 ^ 53 * (v / 2 ^ 53) ||| v % 2 ^ 52 := by
    rw [← Nat.two_pow_add_eq_or_of_lt (by omega)]
    omega
  have h3 : v % 2 ^ 52 ||| pteContig = v % 2 ^ 52 + pteContig := by
    rw [Nat.or_comm, show pteContig = 2 ^ 52 * 1 from rfl,
      ← Nat.two_pow_add_eq_or_of_lt (Nat.mod_lt _ (Nat.two_pow_pos 52))]
    omega
  calc v ||| pteContig = 2 ^ 53 * (v / 2 ^ 53) ||| (v % 2 ^ 52 ||| pteContig) := by
        conv_lhs => rw [h2]
        rw [Nat.or_assoc]
    _ = 2 ^ 53 * (v / 2 ^ 53) + (v % 2 ^ 52 + pteContig) := by
        rw [h3, ← Nat.two_pow_add_eq_or_of_lt (by simp only [pteContig]; omega)]
    _ = v + pteContig := by omega

theorem and_compl64_pteContig {v : Nat} (h : v / 2 ^ 52 % 2 = 0) (hlt : v + pteContig < 2 ^ 64) :
    (v + pteContig) &&& compl64 pteContig = v := by
  have hv : v < 2 ^ 64 := by omega
  have hbit : v.testBit 52 = false := by
    rw [Nat.testBit_eq_decide_div_mod_eq, h]
    rfl
  have hc : compl64 pteContig = 2 ^ 64 - (pteContig + 1) := by decide
  rw [← or_pteContig h, hc]
  apply Nat.eq_of_testBit_eq
  intro i
  rw [Nat.testBit_and, Nat.testBit_or, Nat.testBit_two_pow_sub_succ (by decide), pteContig,
    Nat.testBit_two_pow]
  by_cases hi : 52 = i
  · subst hi
    simp [hbit]
  · by_cases h64 : i < 64
    · simp [hi, h64]
    · have : v.testBit i = false :=
        Nat.testBit_lt_two_pow (hv.trans_le (Nat.pow_le_pow_right (by decide) (not_lt.mp h64)))
      simp [hi, this]

section
variable [MmuHeader]
open MmuHeader

theorem page_cases :
    useLargePage = false ∧ pagesz = 2 ^ 12 ∧ npte = 512 ∧ contigPages = 16 ∨
      useLargePage = true ∧ pagesz = 2 ^ 16 ∧ npte = 8192 ∧ contigPages = 32 := by
  cases h : (largePage : Bool) <;> simp [useLargePage, pagesz, npte, contigPages, h]

/-- The attribute bits that `set_pte` derives from `flags`. -/
def pteAttr (flags : Nat) (s : MapState) : Nat := setPte 0 flags s

theorem setPte_eq (paddr flags : Nat) (s : MapState) :
    setPte paddr flags s = paddr ||| pteAttr flags s := by
  simp only [pteAttr, setPte, or_ite, or_ite_self, Nat.or_assoc, Nat.zero_or]

theorem isAttr_pteAttr (flags : Nat) (s : MapState) : IsAttr (pteAttr flags s) := by
  have h : ∀ v ∈ [pteAf, pteUrw, pteKrw, pteUro, pteKro, pteUxn, ptePxn, pteSodev,
      pteDev, pteNc, pteWbwa, pteIsh, pteNg], IsAttr v := attrs
  simp only [List.mem_cons, List.not_mem_nil, or_false, forall_eq_or_imp, forall_eq] at h
  obtain ⟨af, urw, krw, uro, kro, uxn, pxn, sodev, dev, nc, wbwa, ish, ng⟩ := h
  simp only [pteAttr, setPte, or_ite, or_ite_self, Nat.or_assoc, Nat.zero_or]
  exact isAttr_pteValid.or (af.or (((urw.ite krw _).ite (uro.ite kro _) _).or
    (((uxn.or pxn).ite isAttr_zero _).or
    (((sodev.ite dev _).ite ((nc.ite wbwa _).or (ish.ite isAttr_zero _)) _).or
      (ng.ite isAttr_zero _)))))

theorem pteAttr_type (flags : Nat) (s : MapState) : pteAttr flags s % 4 = 3 := by
  simp only [pteAttr, setPte, or_ite, or_ite_self, Nat.or_assoc, Nat.zero_or]
  exact pteValid_or _

theorem page_dvd : 2 ^ 12 ∣ pagesz := by
  rcases page_cases with ⟨-, hp, -⟩ | ⟨-, hp, -⟩
  · rw [hp]
  · rw [hp]
    decide

theorem IsAttr.paddr_add_lt {a pa : Nat} (ha : IsAttr a) (hd : pagesz ∣ pa) (hlt : pa < 2 ^ 48) :
    pa + a < 2 ^ 64 := by
  rw [← ha.paddr_or (page_dvd.trans hd) hlt]
  exact Nat.or_lt_two_pow (hlt.trans (by decide)) ha.lt

theorem IsAttr.contig_room {a pa : Nat} (ha : IsAttr a) (hd : pagesz ∣ pa) (hlt : pa < 2 ^ 48) :
    (pa + a) / 2 ^ 52 % 2 = 0 ∧ pa + a + pteContig < 2 ^ 64 := by
  obtain ⟨q, rfl⟩ := page_dvd.trans hd
  have h1 := ha.lt
  have h2 := ha.low
  have h3 := ha.contig
  simp only [pteContig]
  omega

theorem and_compl64_pagesz (x : Nat) (hx : x < 2 ^ 64) :
    x &&& compl64 (pagesz - 1) = x / pagesz * pagesz := by
  have h : ∀ k ≤ 63, x &&& compl64 (2 ^ k - 1) = x / 2 ^ k * 2 ^ k := fun k hk => by
    have hlt : 2 ^ k < 2 ^ 64 := Nat.pow_lt_pow_right (by decide) (by omega)
    have hpos := Nat.two_pow_pos k
    have hc : compl64 (2 ^ k - 1) = 2 ^ 64 - 2 ^ k := by
      rw [compl64, u64_of_lt (by omega)]
      omega
    have := and_compl64_two_pow (k := k) (by omega) x
    rwa [u64_of_lt hx, ← hc] at this
  rcases page_cases with ⟨-, hp, -⟩ | ⟨-, hp, -⟩ <;> rw [hp] <;> exact h _ (by decide)

theorem ptpPaddr_eq (e : Nat) : ptpPaddr e = e % 2 ^ 48 / pagesz * pagesz := by
  have hmask : e &&& 0x0000fffffffff000 = e % 2 ^ 48 / 2 ^ 12 * 2 ^ 12 := by
    have h1 : e &&& 0x0000fffffffff000 = e % 2 ^ 48 &&& (2 ^ 64 - 2 ^ 12) := by
      rw [← Nat.and_two_pow_sub_one_eq_mod, Nat.and_assoc]
      rfl
    have h2 := and_compl64_two_pow (k := 12) (by decide) (e % 2 ^ 48)
    rw [u64_of_lt (by omega)] at h2
    rw [h1, h2]
  rw [ptpPaddr, hmask, and_compl64_pagesz _ (by omega)]
  rcases page_cases with ⟨-, hp, -⟩ | ⟨-, hp, -⟩ <;> rw [hp] <;> omega

theorem IsAttr.ptpPaddr_add {a pa : Nat} (ha : IsAttr a) (hd : pagesz ∣ pa) (hlt : pa < 2 ^ 48) :
    ptpPaddr (pa + a) = pa := by
  obtain ⟨q, rfl⟩ := hd
  have := ha.low
  rw [ptpPaddr_eq]
  rcases page_cases with ⟨-, hp, -⟩ | ⟨-, hp, -⟩ <;> rw [hp] at hlt ⊢ <;> omega

end

end QnxStartup
