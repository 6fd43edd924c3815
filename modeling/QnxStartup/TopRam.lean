import Mathlib.Data.List.TakeWhile
import QnxStartup.FindRam

/-! The search from the top of RAM, down from a limit. -/

namespace QnxStartup

/-- What `find_top_ram_aligned_limit` considers in one block: where the candidate begins after
`fix_size`, and the address it would take. -/
def topInBlock (size align : Nat) (avoid : List AvoidEntry) (r : RamEntry) : Option (Nat × Nat) :=
  match fixSizes avoid (r.addr, u64 (r.addr + r.size)) with
  | none => none
  | some (s, e) =>
    if sub64 e s ≥ size then
      let chk := if align ≠ 0 then trunc (sub64 e size) align else sub64 e size
      if chk ≥ s then some (s, chk) else none
    else none

/-- The loop over `ram_list`, with the best address so far. -/
def findTopScan (size align limit : Nat) (avoid : List AvoidEntry) : Nat → List RamEntry → Nat
  | top, [] => top
  | top, r :: rest =>
    match topInBlock size align avoid r with
    | none => findTopScan size align limit avoid top rest
    | some (s, chk) =>
      if chk > top then
        if u64 (chk + size) ≥ limit then
          if sub64 limit size < s then top else sub64 limit size
        else findTopScan size align limit avoid chk rest
      else findTopScan size align limit avoid top rest

def findTopRamAlignedLimit (size align pagesize limit : Nat) (s : RamState) : Nat :=
  if limit < size then nullPaddr
  else
    let top := findTopScan (round size pagesize) align limit s.avoidList 0
      (s.ramList.entries.takeWhile (fun r => r.size != 0))
    if top = 0 then nullPaddr else top

/-- The first block whose candidate reaches up to the limit. -/
def reachingLimit (size align limit : Nat) (avoid : List AvoidEntry)
    (es : List RamEntry) : Option (Nat × Nat) :=
  es.findSome? fun r => (topInBlock size align avoid r).filter fun c => 0 < c.2 ∧ limit ≤ c.2 + size

structure TopSound (es : List RamEntry) (avoid : List AvoidEntry)
    (size align limit a : Nat) : Prop where
  aligned : align ≠ 0 → align ∣ a
  inside : ∃ r ∈ es, r.addr ≤ a ∧ a + size ≤ r.addr + r.size
  avoids : ∀ x ∈ bytes a size, x ∉ avoided avoid
  below : a + size ≤ limit

theorem topInBlock_some {size align s chk : Nat} {avoid : List AvoidEntry} {r : RamEntry}
    (hpos : 0 < r.size) (hb : r.addr + r.size < 2 ^ 64) (ha : align = 0 ∨ ∃ k < 32, align = 2 ^ k)
    (h : topInBlock size align avoid r = some (s, chk)) :
    ∃ e, fixSizes avoid (r.addr, r.addr + r.size) = some (s, e) ∧ r.addr ≤ s ∧ s < e ∧
      e ≤ r.addr + r.size ∧ s ≤ chk ∧
      chk + size ≤ e ∧ (align ≠ 0 → align ∣ chk) := by
  unfold topInBlock at h
  rw [u64_of_lt hb] at h
  cases hf : fixSizes avoid (r.addr, r.addr + r.size) with
  | none => simp [hf] at h
  | some c =>
    obtain ⟨s', e⟩ := c
    have hle := fixSizes_le hf (by omega) hb
    simp only [hf] at h
    rw [sub64_of_le (by omega) (by omega)] at h
    by_cases hsz : e - s' ≥ size
    · rw [if_pos hsz, sub64_of_le (by omega) (by omega)] at h
      simp only [Option.ite_none_right_eq_some, Option.some.injEq, Prod.mk.injEq] at h
      obtain ⟨hge, rfl, hchk⟩ := h
      rcases ha with rfl | ⟨k, hk, rfl⟩
      · rw [if_neg (by decide)] at hchk hge
        exact ⟨e, rfl, hle.1, hle.2.1, hle.2.2, by omega, by omega, fun h => absurd rfl h⟩
      · rw [if_pos (Nat.two_pow_pos k).ne', trunc_two_pow (by omega) (by omega)] at hchk hge
        have hdiv := Nat.div_mul_le_self (e - size) (2 ^ k)
        refine ⟨e, rfl, hle.1, hle.2.1, hle.2.2, by omega, by omega, fun _ => ?_⟩
        exact hchk ▸ Dvd.intro_left _ rfl
    · simp [hsz] at h

theorem topInBlock_sound {es : List RamEntry} {avoid : List AvoidEntry}
    {size align limit s chk : Nat} {r : RamEntry} (hr : r ∈ es) (hpos : 0 < r.size)
    (hb : r.addr + r.size < 2 ^ 64) (ha : align = 0 ∨ ∃ k < 32, align = 2 ^ k)
    (havoid : ∀ a ∈ avoid, a.stop ≠ 0) (h : topInBlock size align avoid r = some (s, chk)) {a : Nat}
    (hs : s ≤ a) (hchk : a ≤ chk) (hd : align ≠ 0 → align ∣ a) (hlim : a + size ≤ limit) :
    TopSound es avoid size align limit a := by
  obtain ⟨e, hfix, hlo, hse, hhi, -, hend, -⟩ := topInBlock_some hpos hb ha h
  refine ⟨hd, ⟨r, hr, by omega, by omega⟩, fun x hx => ?_, hlim⟩
  rw [mem_bytes] at hx
  exact fixSizes_sound hfix havoid (by omega) hb x (by omega) (by omega)

/-- The loop ends with `top`, or with a candidate that stays below the limit. -/
def TopKept (size align limit : Nat) (avoid : List AvoidEntry) (es : List RamEntry)
    (top a : Nat) : Prop :=
  a = top ∨ ∃ r ∈ es, ∃ s, topInBlock size align avoid r = some (s, a) ∧ a + size < limit

section
variable {size align limit : Nat} {avoid : List AvoidEntry} {r : RamEntry} {rest es : List RamEntry}
  {top s chk a : Nat}

theorem TopKept.skip (h : TopKept size align limit avoid rest top a) :
    TopKept size align limit avoid (r :: rest) top a := by
  rcases h with rfl | ⟨r', hr', hs⟩
  · exact .inl rfl
  · exact .inr ⟨r', by simp [hr'], hs⟩

theorem TopKept.better (hr : topInBlock size align avoid r = some (s, chk))
    (hchk : chk + size < limit) (h : TopKept size align limit avoid rest chk a) :
    TopKept size align limit avoid (r :: rest) top a := by
  rcases h with rfl | ⟨r', hr', hs⟩
  · exact .inr ⟨r, by simp, s, hr, hchk⟩
  · exact .inr ⟨r', by simp [hr'], hs⟩

theorem reachingLimit_none (hr : topInBlock size align avoid r = none) :
    reachingLimit size align limit avoid (r :: rest) =
      reachingLimit size align limit avoid rest := by
  rw [reachingLimit, List.findSome?_cons, hr]
  rfl

theorem reachingLimit_some (hr : topInBlock size align avoid r = some (s, chk)) :
    reachingLimit size align limit avoid (r :: rest) =
      if 0 < chk ∧ limit ≤ chk + size then some (s, chk)
        else reachingLimit size align limit avoid rest := by
  rw [reachingLimit, List.findSome?_cons, hr]
  by_cases h : 0 < chk ∧ limit ≤ chk + size
  · rw [if_pos h, Option.filter_some_pos (by simpa using h)]
  · rw [if_neg h, Option.filter_some_neg (by simpa using h)]
    rfl

theorem findTopScan_low (hr : topInBlock size align avoid r = some (s, chk))
    (hb : chk + size < 2 ^ 64) (hlow : ¬ (0 < chk ∧ limit ≤ chk + size)) :
    findTopScan size align limit avoid top (r :: rest) = findTopScan size align limit avoid
      (max top chk) rest := by
  simp only [findTopScan, hr, u64_of_lt hb]
  by_cases hgt : chk > top
  · rw [if_pos hgt, if_neg (by omega), max_eq_right hgt.le]
  · rw [if_neg hgt, max_eq_left (by omega)]

theorem findTopScan_kept (ha : align = 0 ∨ ∃ k < 32, align = 2 ^ k)
    (hes : ∀ r ∈ es, 0 < r.size ∧ r.addr + r.size < 2 ^ 64) (htop : top = 0 ∨ top + size < limit)
    (h : reachingLimit size align limit avoid es = none) :
    TopKept size align limit avoid es top (findTopScan size align limit avoid top es) := by
  induction es generalizing top with
  | nil => exact .inl rfl
  | cons r rest ih =>
    obtain ⟨hpos, hb⟩ := hes r (by simp)
    cases hr : topInBlock size align avoid r with
    | none =>
      rw [reachingLimit_none hr] at h
      simp only [findTopScan, hr]
      exact (ih (fun r hr => hes r (by simp [hr])) htop h).skip
    | some c =>
      obtain ⟨s, chk⟩ := c
      obtain ⟨e, -, -, -, hhi, -, hend, -⟩ := topInBlock_some hpos hb ha hr
      by_cases hlow : 0 < chk ∧ limit ≤ chk + size
      · rw [reachingLimit_some hr, if_pos hlow] at h
        cases h
      · rw [reachingLimit_some hr, if_neg hlow] at h
        rw [findTopScan_low hr (by omega) hlow]
        have hrest := ih (fun r hr => hes r (by simp [hr]))
          (by omega : max top chk = 0 ∨ max top chk + size < limit) h
        by_cases hgt : chk > top
        · rw [max_eq_right hgt.le] at hrest ⊢
          exact hrest.better hr (by omega)
        · rw [max_eq_left (by omega)] at hrest ⊢
          exact hrest.skip

theorem findTopScan_reached (ha : align = 0 ∨ ∃ k < 32, align = 2 ^ k)
    (hes : ∀ r ∈ es, 0 < r.size ∧ r.addr + r.size < 2 ^ 64) (htop : top = 0 ∨ top + size < limit)
    (h : reachingLimit size align limit avoid es = some (s, chk)) :
    (∃ r ∈ es, topInBlock size align avoid r = some (s, chk)) ∧ limit ≤ chk + size ∧
      if sub64 limit size < s then
        TopKept size align limit avoid es top (findTopScan size align limit avoid top es)
      else findTopScan size align limit avoid top es = sub64 limit size := by
  induction es generalizing top with
  | nil => cases h
  | cons r rest ih =>
    obtain ⟨hpos, hb⟩ := hes r (by simp)
    have hes' : ∀ r ∈ rest, 0 < r.size ∧ r.addr + r.size < 2 ^ 64 :=
      fun r hr => hes r (by simp [hr])
    cases hr : topInBlock size align avoid r with
    | none =>
      rw [reachingLimit_none hr] at h
      obtain ⟨⟨r', hr', hc⟩, hlim, hres⟩ := ih hes' htop h
      refine ⟨⟨r', by simp [hr'], hc⟩, hlim, ?_⟩
      simp only [findTopScan, hr]
      split
      · next hlt => exact (by simpa [hlt] using hres : TopKept ..).skip
      · next hlt => simpa [hlt] using hres
    | some c =>
      obtain ⟨s', chk'⟩ := c
      obtain ⟨e, -, -, -, hhi, -, hend, -⟩ := topInBlock_some hpos hb ha hr
      by_cases hlow : 0 < chk' ∧ limit ≤ chk' + size
      · rw [reachingLimit_some hr, if_pos hlow] at h
        obtain ⟨rfl, rfl⟩ := Prod.mk.inj (Option.some.inj h)
        refine ⟨⟨r, by simp, hr⟩, hlow.2, ?_⟩
        simp only [findTopScan, hr, u64_of_lt (by omega : chk' + size < 2 ^ 64)]
        rw [if_pos (by omega : chk' > top), if_pos hlow.2]
        split
        · exact .inl rfl
        · rfl
      · rw [reachingLimit_some hr, if_neg hlow] at h
        obtain ⟨⟨r', hr', hc⟩, hlim, hres⟩ :=
          ih hes' (by omega : max top chk' = 0 ∨ max top chk' + size < limit) h
        refine ⟨⟨r', by simp [hr'], hc⟩, hlim, ?_⟩
        rw [findTopScan_low hr (by omega) hlow]
        split
        · next hlt =>
          rw [if_pos hlt] at hres
          by_cases hgt : chk' > top
          · rw [max_eq_right hgt.le] at hres ⊢
            exact hres.better hr (by omega)
          · rw [max_eq_left (by omega)] at hres ⊢
            exact hres.skip
        · next hlt => rwa [if_neg hlt] at hres

theorem TopKept.sound (ha : align = 0 ∨ ∃ k < 32, align = 2 ^ k)
    (hes : ∀ r ∈ es, 0 < r.size ∧ r.addr + r.size < 2 ^ 64) (havoid : ∀ a ∈ avoid, a.stop ≠ 0)
    (h : TopKept size align limit avoid es 0 a) : a = 0 ∨ TopSound es avoid size align limit a := by
  rcases h with rfl | ⟨r, hr, s, hs, hlt⟩
  · exact .inl rfl
  · obtain ⟨hpos, hb⟩ := hes r hr
    obtain ⟨-, -, -, -, -, hge, -, hd⟩ := topInBlock_some hpos hb ha hs
    exact .inr (topInBlock_sound hr hpos hb ha havoid hs hge le_rfl hd hlt.le)

/-- The loop's result when the first candidate that reaches the limit begins at `s`. -/
theorem reached_sound_iff (ha : align = 0 ∨ ∃ k < 32, align = 2 ^ k)
    (hes : ∀ r ∈ es, 0 < r.size ∧ r.addr + r.size < 2 ^ 64) (havoid : ∀ a ∈ avoid, a.stop ≠ 0)
    (hlim : limit < 2 ^ 64) (hsize : size < 2 ^ 64)
    (h : reachingLimit size align limit avoid es = some (s, chk)) :
    let a := findTopScan size align limit avoid 0 es
    (a = 0 ∨ a = nullPaddr ∨ TopSound es avoid size align limit a) ↔
      size = limit + 1 ∨ size ≤ limit ∧ (limit - size < s ∨ align = 0 ∨ align ∣ limit - size) := by
  obtain ⟨⟨r, hr, hc⟩, hreach, hres⟩ := findTopScan_reached ha hes (.inl rfl) h
  obtain ⟨hpos, hb⟩ := hes r hr
  obtain ⟨e, -, -, -, hhi, hge, hend, hd⟩ := topInBlock_some hpos hb ha hc
  by_cases hle : size ≤ limit
  · rw [sub64_of_le hlim hle] at hres
    by_cases hlow : limit - size < s
    · -- the previous address is kept
      rw [if_pos hlow] at hres
      have := hres.sound ha hes havoid
      exact ⟨fun _ => .inr ⟨hle, .inl hlow⟩, fun _ => this.imp_right .inr⟩
    · rw [if_neg hlow] at hres
      rw [hres]
      by_cases hal : align = 0 ∨ align ∣ limit - size
      · refine ⟨fun _ => .inr ⟨hle, .inr hal⟩, fun _ => .inr (.inr ?_)⟩
        exact topInBlock_sound hr hpos hb ha havoid hc (by omega) (by omega)
          (fun h0 => hal.resolve_left h0) (by omega)
      · rw [not_or] at hal
        refine iff_of_false ?_ (by omega)
        rintro (h0 | hn | hsound)
        · exact hal.2 (h0 ▸ Nat.dvd_zero _)
        · -- the candidate is not above `NULL_PADDR`, and not equal to it
          have hdvd := hd hal.1
          have hchk : chk = nullPaddr := by
            unfold nullPaddr at hn ⊢
            omega
          obtain ⟨k, hk, rfl⟩ := ha.resolve_left hal.1
          have hk0 : k ≠ 0 := by
            rintro rfl
            exact hal.2 (one_dvd _)
          have h2 : 2 ∣ chk := (dvd_pow_self 2 hk0).trans hdvd
          rw [hchk] at h2
          exact absurd h2 (by decide)
        · exact hal.2 (hsound.aligned hal.1)
  · have hsub : sub64 limit size = limit + 2 ^ 64 - size := by
      unfold sub64 u64
      omega
    rw [hsub, if_neg (by omega)] at hres
    rw [hres]
    unfold nullPaddr
    by_cases h1 : size = limit + 1
    · exact iff_of_true (.inr (.inl (by omega))) (.inl h1)
    · refine iff_of_false ?_ (by omega)
      rintro (h0 | hn | hsound)
      · omega
      · omega
      · have := hsound.below
        omega

end

/-- The block that the limit cuts, if there is one, can end there: the rounded size fits
below the limit, and what is left either begins below the block or is aligned. The
wrapped address may also happen to be `NULL_PADDR`. -/
def LimitFits (size align limit : Nat) (s : RamState) : Prop :=
  ∀ start chk, reachingLimit size align limit s.avoidList (s.ramList.entries.takeWhile
    (fun r => r.size != 0)) = some (start, chk) →
    size = limit + 1 ∨ size ≤ limit ∧ (limit - size < start ∨ align = 0 ∨ align ∣ limit - size)

theorem round_lt (x a : Nat) : round x a < 2 ^ 64 := Nat.and_lt_two_pow _ (by unfold compl64; omega)

/-- The address that `find_top_ram_aligned_limit` returns is aligned, inside one free
block, outside the ranges to avoid and below the limit exactly when the limit does not
cut a block at a bad place. -/
theorem top_ram_sound {s : RamState} {size align pagesize limit : Nat}
    (ha : align = 0 ∨ ∃ k < 32, align = 2 ^ k) (hlim : limit < 2 ^ 64)
    (havoid : ∀ a ∈ s.avoidList, a.start < a.stop)
    (hes : ∀ r ∈ s.ramList.entries.takeWhile (fun r => r.size != 0), r.addr + r.size < 2 ^ 64) :
    (findTopRamAlignedLimit size align pagesize limit s = nullPaddr ∨
      TopSound (s.ramList.entries.takeWhile (fun r => r.size != 0)) s.avoidList
        (round size pagesize) align limit
        (findTopRamAlignedLimit size align pagesize limit s)) ↔
      limit < size ∨ LimitFits (round size pagesize) align limit s := by
  have hes' : ∀ r ∈ s.ramList.entries.takeWhile (fun r => r.size != 0),
      0 < r.size ∧ r.addr + r.size < 2 ^ 64 :=
    fun r hr => ⟨Nat.pos_of_ne_zero (by simpa using List.mem_takeWhile_imp hr), hes r hr⟩
  have havoid' : ∀ a ∈ s.avoidList, a.stop ≠ 0 := fun a ha => (Nat.zero_lt_of_lt (havoid a ha)).ne'
  unfold findTopRamAlignedLimit
  by_cases hsmall : limit < size
  · rw [if_pos hsmall]
    exact iff_of_true (.inl rfl) (.inl hsmall)
  rw [if_neg hsmall]
  simp only [hsmall, false_or]
  have hres : ∀ a, ((if a = 0 then nullPaddr else a) = nullPaddr ∨
      TopSound (s.ramList.entries.takeWhile (fun r => r.size != 0))
      s.avoidList (round size pagesize) align limit (if a = 0 then nullPaddr else a)) ↔
      (a = 0 ∨ a = nullPaddr ∨ TopSound (s.ramList.entries.takeWhile
        (fun r => r.size != 0)) s.avoidList
        (round size pagesize) align limit a) := fun a => by
    by_cases h0 : a = 0
    · simp [h0]
    · simp [h0]
  rw [hres, LimitFits]
  cases hR : reachingLimit (round size pagesize) align limit s.avoidList
      (s.ramList.entries.takeWhile (fun r => r.size != 0)) with
  | none =>
    have hkept := (findTopScan_kept ha hes' (.inl rfl) hR).sound ha hes' havoid'
    exact iff_of_true (hkept.imp_right .inr) fun _ _ h => absurd h (by simp)
  | some c =>
    obtain ⟨start, chk⟩ := c
    have hiff := reached_sound_iff ha hes' havoid' hlim (round_lt _ _) hR
    dsimp only at hiff
    rw [hiff]
    exact ⟨fun h _ _ heq => by
      obtain ⟨rfl, rfl⟩ := Prod.mk.inj (Option.some.inj heq); exact h, fun h => h _ _ rfl⟩

theorem top_ram_sound_example :
    let s := { RamState.atBoot false fun _ => 0 with
      ramList := .ofEntries [⟨0x80000000, 0x1000000⟩, ⟨0, 0⟩],
      avoidList := [⟨0x80ff0000, 0x81000000⟩] }
    findTopRamAlignedLimit 0x1800 0x10000 0x1000 0x90000000 s = nullPaddr ∨
      TopSound [⟨0x80000000, 0x1000000⟩] [⟨0x80ff0000, 0x81000000⟩] 0x2000 0x10000 0x90000000
        (findTopRamAlignedLimit 0x1800 0x10000 0x1000 0x90000000 s) := by
  intro s
  have hfits : LimitFits (round 0x1800 0x1000) 0x10000 0x90000000 s := fun start chk h =>
    absurd h (by rw [show reachingLimit _ _ _ _ _ = none by decide]; simp)
  exact (top_ram_sound (.inr ⟨16, by decide, rfl⟩) (by decide) (by decide) (by decide)).mpr
    (.inr hfits)

theorem top_ram_unaligned :
    let s := { RamState.atBoot false fun _ => 0 with
      ramList := .ofEntries [⟨0x80000000, 0x1000000⟩, ⟨0, 0⟩] }
    findTopRamAlignedLimit 0x1000 0x10000 0x1000 0x80808000 s = 0x80807000 ∧
      ¬ (findTopRamAlignedLimit 0x1000 0x10000 0x1000 0x80808000 s = nullPaddr ∨
        TopSound [⟨0x80000000, 0x1000000⟩] [] 0x1000 0x10000 0x80808000
          (findTopRamAlignedLimit 0x1000 0x10000 0x1000 0x80808000 s)) := by
  intro s
  have hres : findTopRamAlignedLimit 0x1000 0x10000 0x1000 0x80808000 s = 0x80807000 := by decide
  refine ⟨hres, ?_⟩
  rw [hres]
  rintro (h | h)
  · exact absurd h (by decide)
  · exact absurd (h.aligned (by decide)) (by decide)

end QnxStartup
