import Mathlib.Data.List.TakeWhile
import QnxStartup.Ram

/-! What `find_ram` and `alloc_ram` may return: a range of the free list that meets
none of the ranges to avoid. -/

namespace QnxStartup

def avoided (l : List AvoidEntry) : Set Nat := {x | ∃ a ∈ l, a.start ≤ x ∧ x < a.stop}

theorem avoided_append (l m : List AvoidEntry) : avoided (l ++ m) = avoided l ∪ avoided m := by
  ext x
  simp [avoided, or_and_right, exists_or]

theorem avoided_singleton (a : AvoidEntry) : avoided [a] = Set.Ico a.start a.stop := by
  ext x
  simp [avoided]

def inForce (l : List AvoidEntry) : List AvoidEntry := l.takeWhile fun a => a.stop ≠ 0

theorem fixSizes_inForce (l : List AvoidEntry) (c : Nat × Nat) :
    fixSizes (inForce l) c = fixSizes l c := by
  induction l generalizing c with
  | nil => rfl
  | cons a l ih =>
    by_cases ha : a.stop = 0
    · simp [inForce, fixSizes, ha]
    · rw [inForce, List.takeWhile_cons_of_pos (by simpa using ha), fixSizes, fixSizes,
        if_neg ha, if_neg ha]
      cases fixSize c.1 c.2 a.start a.stop with
      | none => rfl
      | some c => exact ih c

theorem stop_ne_of_inForce {l : List AvoidEntry} {a : AvoidEntry} (h : a ∈ inForce l) :
    a.stop ≠ 0 := by
  simpa using List.mem_takeWhile_imp h

theorem inForce_eq_self {l : List AvoidEntry} (h : ∀ a ∈ l, a.stop ≠ 0) : inForce l = l :=
  List.takeWhile_eq_self_iff.mpr fun a ha => by simpa using h a ha

theorem fixSize_sound {s e as ae s' e' : Nat} (h : fixSize s e as ae = some (s', e')) (hse : s < e)
    (he : e < 2 ^ 64) :
    s ≤ s' ∧ s' < e' ∧ e' ≤ e ∧ ∀ x, s' ≤ x → x < e' → ¬ (as ≤ x ∧ x < ae) := by
  have key : ((s' = s ∧ e' = e) ∧ (s ≥ ae ∨ e ≤ as)) ∨ ((s' = ae ∧ e' = e) ∧ s ≤ ae ∧ ae < e) ∨
      ((s' = s ∧ e' = as) ∧ s < as ∧ as ≤ e) := by
    unfold fixSize at h
    by_cases h1 : s ≥ ae ∨ e ≤ as
    · rw [if_pos h1] at h
      simp only [Option.some.injEq, Prod.mk.injEq] at h
      omega
    rw [if_neg h1] at h
    by_cases h2 : s ≥ as
    · rw [if_pos h2] at h
      by_cases h3 : e ≤ ae
      · simp [h3] at h
      · simp only [h3, if_false, Option.some.injEq, Prod.mk.injEq] at h
        omega
    rw [if_neg h2] at h
    by_cases h3 : e < ae
    · simp only [h3, if_true, Option.some.injEq, Prod.mk.injEq] at h
      omega
    rw [if_neg h3, sub64_of_le (by omega) (by omega), sub64_of_le (by omega) (by omega)] at h
    by_cases h4 : as - s > e - ae
    · simp only [h4, if_true, Option.some.injEq, Prod.mk.injEq] at h
      omega
    · simp only [h4, if_false, Option.some.injEq, Prod.mk.injEq] at h
      omega
  refine ⟨by omega, by omega, by omega, fun x h1 h2 => by omega⟩

theorem fixSizes_le {l : List AvoidEntry} {s e s' e' : Nat} (h : fixSizes l (s, e) = some (s', e'))
    (hse : s < e) (he : e < 2 ^ 64) : s ≤ s' ∧ s' < e' ∧ e' ≤ e := by
  induction l generalizing s e with
  | nil =>
    simp only [fixSizes, Option.some.injEq, Prod.mk.injEq] at h
    omega
  | cons a rest ih =>
    rw [fixSizes] at h
    by_cases ha : a.stop = 0
    · simp only [ha, if_true, Option.some.injEq, Prod.mk.injEq] at h
      omega
    rw [if_neg ha] at h
    cases hf : fixSize s e a.start a.stop with
    | none => simp [hf] at h
    | some c =>
      obtain ⟨s1, e1⟩ := c
      simp only [hf] at h
      obtain ⟨h1, h2, h3, -⟩ := fixSize_sound hf hse he
      have hh := ih h h2 (by omega)
      omega

theorem fixSizes_sound {l : List AvoidEntry} {s e s' e' : Nat}
    (h : fixSizes l (s, e) = some (s', e')) (hl : ∀ a ∈ l, a.stop ≠ 0) (hse : s < e)
    (he : e < 2 ^ 64) :
    ∀ x, s' ≤ x → x < e' → x ∉ avoided l := by
  induction l generalizing s e with
  | nil => simp [avoided]
  | cons a rest ih =>
    rw [fixSizes, if_neg (hl a (by simp))] at h
    cases hf : fixSize s e a.start a.stop with
    | none => simp [hf] at h
    | some c =>
      obtain ⟨s1, e1⟩ := c
      simp only [hf] at h
      obtain ⟨h1, h2, h3, hno⟩ := fixSize_sound hf hse he
      have hle := fixSizes_le h h2 (by omega)
      intro x hx hx' hxa
      obtain ⟨b, hb, hxb⟩ := hxa
      rcases List.mem_cons.mp hb with rfl | hb
      · exact hno x (by omega) (by omega) hxb
      · exact ih h (fun b hb => hl b (by simp [hb])) h2 (by omega) x hx hx' ⟨b, hb, hxb⟩

theorem adjustEnd_le (rangeEnd e : Nat) : adjustEnd rangeEnd e ≤ e := by
  unfold adjustEnd
  split
  · split <;> omega
  · exact le_rfl

theorem adjustStart_plain (align s : Nat) : adjustStart 0 align 0 0 s = round s align := by
  simp [adjustStart]

theorem findInBlock_some {rs re size align colour mask : Nat} {avoid : List AvoidEntry}
    {r : RamEntry} {a : Nat} (h : findInBlock rs re size align colour mask avoid r = some a)
    (hr : 0 < r.size) (hb : r.addr + r.size < 2 ^ 64) :
    ∃ s e, fixSizes avoid (r.addr, r.addr + r.size) = some (s, e) ∧
      a = adjustStart rs align colour mask s ∧ a + size ≤ e := by
  unfold findInBlock at h
  rw [u64_of_lt hb] at h
  cases hf : fixSizes avoid (r.addr, r.addr + r.size) with
  | none => simp [hf] at h
  | some c =>
    obtain ⟨s, e⟩ := c
    have hle := fixSizes_le hf (by omega) hb
    have hee := adjustEnd_le re e
    simp only [hf, ge_iff_le, Option.ite_none_left_eq_some, Option.ite_none_right_eq_some, not_le,
      Option.some.injEq] at h
    obtain ⟨hlt, hsz, rfl⟩ := h
    rw [sub64_of_le (by omega) (by omega)] at hsz
    exact ⟨s, e, rfl, rfl, by omega⟩

theorem takeWhile_holds {l : RamList} {f : FreeList} (h : l.Holds f) :
    l.entries.takeWhile (fun r => r.size != 0) = f.entries := by
  obtain ⟨last, hlast, rfl⟩ := h
  rw [RamList.ofEntries, List.takeWhile_append_of_pos (fun r hr => by simpa using (f.pos hr).ne')]
  simp [hlast]

theorem findRam_mem {s : RamState} {f : FreeList} (hf : s.ramList.Holds f)
    {size align colour mask : Nat} (h : findRam size align colour mask s ≠ nullPaddr) :
    ∃ r ∈ f.entries, findInBlock 0 nullPaddr size align colour mask s.avoidList r =
      some (findRam size align colour mask s) := by
  unfold findRam findRamInRange at h ⊢
  rw [takeWhile_holds hf] at h ⊢
  cases hs : f.entries.findSome? (findInBlock 0 nullPaddr size align colour mask s.avoidList) with
  | none => simp [hs] at h
  | some a =>
    obtain ⟨r, hr, ha⟩ := List.exists_of_findSome?_eq_some hs
    exact ⟨r, hr, by simpa using ha⟩

theorem findRam_bound {s : RamState} {f : FreeList} (hf : s.ramList.Holds f)
    {size align colour mask : Nat} (h : findRam size align colour mask s ≠ nullPaddr) :
    findRam size align colour mask s + size < 2 ^ 64 := by
  obtain ⟨r, hr, ha⟩ := findRam_mem hf h
  have hb := f.bound r hr
  obtain ⟨s', e, hfix, -, hle⟩ := findInBlock_some ha (f.pos hr) hb
  have := fixSizes_le hfix (by have := f.pos hr; omega) hb
  omega

theorem findRam_found {s : RamState} {f : FreeList} (hf : s.ramList.Holds f) {size k : Nat}
    (hk : k ≤ 63) (hb : ∀ x ∈ f.bytes, x + 2 ^ k < 2 ^ 64)
    (h : findRam size (2 ^ k) 0 0 s ≠ nullPaddr) :
    ∃ r ∈ f.entries, ∃ s' e, fixSizes s.avoidList (r.addr, r.addr + r.size) = some (s', e) ∧
      r.addr ≤ s' ∧
      e ≤ r.addr + r.size ∧ s' ≤ findRam size (2 ^ k) 0 0 s ∧
        findRam size (2 ^ k) 0 0 s + size ≤ e ∧
      2 ^ k ∣ findRam size (2 ^ k) 0 0 s := by
  obtain ⟨r, hr, ha⟩ := findRam_mem hf h
  have hpos := f.pos hr
  have hlast := hb (r.addr + r.size - 1) (FreeList.mem_bytes.mpr ⟨r, hr, by omega, by omega⟩)
  obtain ⟨s', e, hfix, haddr, hend⟩ := findInBlock_some ha hpos (f.bound r hr)
  have hle := fixSizes_le hfix (by omega) (f.bound r hr)
  have hround := round_two_pow hk (x := s') (by omega)
  rw [← adjustStart_plain, ← haddr] at hround
  exact ⟨r, hr, s', e, hfix, hle.1, hle.2.2, hround.1, hend, hround.2.1⟩

theorem findRam_free {s : RamState} {f : FreeList} (hf : s.ramList.Holds f) {size k : Nat}
    (hk : k ≤ 63) (hb : ∀ x ∈ f.bytes, x + 2 ^ k < 2 ^ 64)
    (h : findRam size (2 ^ k) 0 0 s ≠ nullPaddr) :
    2 ^ k ∣ findRam size (2 ^ k) 0 0 s ∧ bytes (findRam size (2 ^ k) 0 0 s) size ⊆ f.bytes := by
  obtain ⟨r, hr, s', e, -, hlo, hhi, hs', hend, hd⟩ := findRam_found hf hk hb h
  refine ⟨hd, fun x hx => ?_⟩
  rw [mem_bytes] at hx
  exact FreeList.mem_bytes.mpr ⟨r, hr, by omega, by omega⟩

/-- `find_ram` returns an aligned range of free RAM outside everything to avoid. -/
theorem findRam_sound {s : RamState} {f : FreeList} (hf : s.ramList.Holds f)
    (havoid : ∀ a ∈ s.avoidList, a.stop ≠ 0) {size k : Nat} (hk : k ≤ 63)
    (hb : ∀ x ∈ f.bytes, x + 2 ^ k < 2 ^ 64) (h : findRam size (2 ^ k) 0 0 s ≠ nullPaddr) :
    2 ^ k ∣ findRam size (2 ^ k) 0 0 s ∧
      bytes (findRam size (2 ^ k) 0 0 s) size ⊆ f.bytes \ avoided s.avoidList := by
  obtain ⟨r, hr, s', e, hfix, hlo, hhi, hs', hend, -⟩ := findRam_found hf hk hb h
  have hfree := findRam_free hf hk hb h
  refine ⟨hfree.1, fun x hx => ⟨hfree.2 hx, ?_⟩⟩
  rw [mem_bytes] at hx
  have hpos := f.pos hr
  exact fixSizes_sound hfix havoid (by omega) (f.bound r hr) x (by omega) (by omega)

/-- Without any bound on the free list, the range that `find_ram` returns is aligned, and free and
not to be avoided unless it was wrapped round to address 0. -/
theorem findRam_placed {s : RamState} {f : FreeList} (hf : s.ramList.Holds f) {size k : Nat}
    (hk : k ≤ 63) (h : findRam size (2 ^ k) 0 0 s ≠ nullPaddr) :
    2 ^ k ∣ findRam size (2 ^ k) 0 0 s ∧
      (bytes (findRam size (2 ^ k) 0 0 s) size ⊆ f.bytes \ avoided (inForce s.avoidList) ∨
        findRam size (2 ^ k) 0 0 s = 0) := by
  obtain ⟨r, hr, ha⟩ := findRam_mem hf h
  have hpos := f.pos hr
  have hb := f.bound r hr
  obtain ⟨s', e, hfix, haddr, hend⟩ := findInBlock_some ha hpos hb
  rw [adjustStart_plain] at haddr
  obtain ⟨hlo, hmid, hhi⟩ := fixSizes_le hfix (by omega) hb
  refine ⟨haddr ▸ two_pow_dvd_round hk s', ?_⟩
  by_cases hw : 2 ^ 64 < s' + 2 ^ k
  · exact .inr (haddr.trans (round_wraps hk (by omega) hw))
  · have hround := (round_two_pow hk (not_lt.mp hw)).1
    rw [← haddr] at hround
    rw [← fixSizes_inForce] at hfix
    refine .inl fun x hx => ?_
    rw [mem_bytes] at hx
    exact ⟨FreeList.mem_bytes.mpr ⟨r, hr, by omega, by omega⟩,
      fixSizes_sound hfix (fun a ha => stop_ne_of_inForce ha) (by omega) hb x (by omega) (by omega)⟩

/-- What a call of `ws_alloc` behind the first one has done: before any RAM is known it
takes the next early block, then it takes what `find_ram` finds, if there is
something. -/
theorem wsAlloc_cases {boot : Boot} {s s' : RamState} {size : Nat} {p : Option Nat}
    (hready : s.wsReady = true) (h : wsAlloc boot size s = .ok (s', p)) :
    (s.ramList.size ≤ sizeofRamEntry ∧ p = some s.wsEarlyNext ∧
        noteAvoid s.wsEarlyNext (round size 8) { s with
          wsEarlyNext := u64 (s.wsEarlyNext + round size 8) } = .ok s') ∨
      (¬ s.ramList.size ≤ sizeofRamEntry ∧ findRam (round size 8) 8 0 0 s = nullPaddr ∧
        s' = s ∧ p = none) ∨
      (¬ s.ramList.size ≤ sizeofRamEntry ∧ findRam (round size 8) 8 0 0 s ≠ nullPaddr ∧
        p = some (findRam (round size 8) 8 0 0 s) ∧
          noteAvoid (findRam (round size 8) 8 0 0 s) (round size 8) s = .ok s') := by
  rw [wsAlloc, ensureWs, if_pos hready] at h
  simp only [Except.bind, takeWorkspace] at h
  by_cases hphase : s.ramList.size ≤ sizeofRamEntry
  · rw [if_pos hphase] at h
    obtain ⟨s₁, hs₁, h⟩ := bind_eq_ok.mp h
    obtain ⟨rfl, rfl⟩ := Prod.mk.inj (Except.ok.inj h)
    exact .inl ⟨hphase, rfl, hs₁⟩
  · rw [if_neg hphase] at h
    by_cases hnone : findRam (round size 8) 8 0 0 s = nullPaddr
    · rw [if_pos hnone] at h
      obtain ⟨rfl, rfl⟩ := Prod.mk.inj (Except.ok.inj h)
      exact .inr (.inl ⟨hphase, hnone, rfl, rfl⟩)
    · rw [if_neg hnone] at h
      obtain ⟨s₁, hs₁, h⟩ := bind_eq_ok.mp h
      obtain ⟨rfl, rfl⟩ := Prod.mk.inj (Except.ok.inj h)
      exact .inr (.inr ⟨hphase, hnone, rfl, hs₁⟩)

end QnxStartup
