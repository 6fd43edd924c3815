import QnxStartup.FdtIntrCells

/-! `fdt_get_intr`: a window of the specifiers in "interrupts", one array entry each. -/

namespace QnxStartup

/-- The caller's array, by entry and cell. -/
abbrev IntrArray := Nat → Nat → Int

def IntrArray.set (intr : IntrArray) (i r : Nat) (v : Int) : IntrArray :=
  fun i' r' => if i' = i ∧ r' = r then v else intr i' r'

/-- The cell `intprop` points to, counted in cells of the property; a read outside it is
undefined. -/
def readCell (p : List UInt8) (intprop : Int) : Startup Int :=
  if 0 ≤ intprop ∧ 4 * (intprop + 1) ≤ p.length then
    .ok (int32 (cellsValue ((p.drop (4 * intprop.toNat)).take 4)))
  else .error .fault

/-- The `for` over `r`, from `r` on for `count` cells; `present` is `i < len`. -/
def copyCells (p : List UInt8) (present : Bool) (i : Nat) :
    Nat → Nat → Int → IntrArray → Startup (Int × IntrArray)
  | 0, _, intprop, intr => .ok (intprop, intr)
  | count + 1, r, intprop, intr =>
    if present then (readCell p intprop).bind fun v =>
      copyCells p present i count (r + 1) (intprop + 1) (intr.set i r v)
    else copyCells p present i count (r + 1) intprop (intr.set i r 0)

/-- The `while` after it. -/
def padCells (i : Nat) : Nat → Nat → IntrArray → IntrArray
  | 0, _, intr => intr
  | count + 1, r, intr => padCells i count (r + 1) (intr.set i r 0)

/-- The `for` over `i`, from `i` on for `count` entries. -/
def copyEntries (p : List UInt8) (maxNcells intrCells len : Nat) :
    Nat → Nat → Int → IntrArray → Startup IntrArray
  | 0, _, _, intr => .ok intr
  | count + 1, i, intprop, intr =>
    (copyCells p (decide (i < len)) i intrCells 0 intprop intr).bind fun (intprop, intr) =>
      copyEntries p maxNcells intrCells len count (i + 1) intprop
        (padCells i (maxNcells - intrCells) intrCells intr)

structure IntrOut where
  ret : Int
  intr : Option IntrArray
  controller : Option Int
  cache : IntrCache

/-- `intr` is the caller's array unless it passes NULL, `controller` what is stored
through that pointer. -/
def fdtGetIntr (t : DeviceTree) (maxNcells fuel : Nat) (cache : IntrCache) (node index : Int)
    (intr : Option IntrArray) (num : Int) :
    Startup IntrOut :=
  match t.getprop node "interrupts" with
  | .error len => .ok ⟨len, intr, none, cache⟩
  | .ok p =>
    (fdtGetIntrCells t maxNcells fuel cache node).result.bind fun (intrCells, parent, cache) =>
      if intrCells < 0 then .ok ⟨intrCells, intr, none, cache⟩
      else if (maxNcells : Int) ≤ intrCells then .ok ⟨-fdtErrBadstructure, intr, none, cache⟩
      else
        match parent with
        | none => .error .fault -- `parent` is not initialised
        | some parent =>
          match t.getprop parent "interrupt-controller" with
          | .error _ => .ok ⟨-fdtErrBadstructure, intr, none, cache⟩
          | .ok _ =>
            if (p.length : Int) % (intrCells * 4) ≠ 0 then
              .ok ⟨-fdtErrBadstructure, intr, some parent, cache⟩
            else
              let len := (p.length : Int) / (intrCells * 4) - index
              if len ≤ 0 then .ok ⟨0, intr, some parent, cache⟩
              else
                match intr with
                | none => .ok ⟨len, none, some parent, cache⟩
                | some intr =>
                  (copyEntries p maxNcells intrCells.toNat len.toNat num.toNat 0
                    (index * intrCells) intr).bind fun intr =>
                    .ok ⟨if num < len then num else len, some intr, some parent, cache⟩

/-- Cell `r` of specifier `j` of a property with `c` cells each, in CPU byte order. -/
def specifierCell (p : List UInt8) (c j r : Nat) : Int :=
  int32 (cellsValue ((p.drop (4 * (j * c + r))).take 4))

def intrEntry (p : List UInt8) (maxNcells c j : Nat) : List Int :=
  (List.range maxNcells).map fun r => if r < c then specifierCell p c j r else 0

/-- A caller's loop: chunks of `k` entries, until a call returns none. -/
def readIntrs (t : DeviceTree) (maxNcells fuel : Nat) (node : Int) (k : Nat) :
    Nat → IntrCache → Int → IntrArray → Startup (List (List Int))
  | 0, _, _, _ => .error .noReturn
  | rounds + 1, cache, index, intr =>
    (fdtGetIntr t maxNcells fuel cache node index (some intr) k).bind fun out =>
      if out.ret ≤ 0 then .ok []
      else
        let entries := (List.range out.ret.toNat).map fun i => (List.range maxNcells).map
          (out.intr.getD intr i)
        (readIntrs t maxNcells fuel node k rounds out.cache (index + out.ret)
          (out.intr.getD intr)).bind fun rest => .ok (entries ++ rest)

/-! ### The window -/

def Filled (intr intr' : IntrArray) (i r count : Nat) (f : Nat → Int) : Prop :=
  ∀ i' r', intr' i' r' = if i' = i ∧ r ≤ r' ∧ r' < r + count then f r' else intr i' r'

/-- What the window from `index` on, in which `len` specifiers are there, shows in entry `i`. -/
def windowCell (p : List UInt8) (c index len i r : Nat) : Int :=
  if i < len ∧ r < c then specifierCell p c (index + i) r else 0

section
variable {p : List UInt8} {maxNcells c index len i r count : Nat} {intr intr' : IntrArray}
  {f : Nat → Int}

theorem readCell_ok {k : Nat} (h : 4 * (k + 1) ≤ p.length) :
    readCell p k = .ok (int32 (cellsValue ((p.drop (4 * k)).take 4))) :=
  if_pos ⟨Int.natCast_nonneg k, by omega⟩

theorem Filled.zero (intr : IntrArray) (i r : Nat) (f : Nat → Int) : Filled intr intr i r 0 f :=
  fun _ _ => (if_neg (by omega)).symm

theorem Filled.succ (h : Filled (intr.set i r (f r)) intr' i (r + 1) count f) :
    Filled intr intr' i r (count + 1) f := by
  intro i' r'
  rw [h]
  by_cases hin : i' = i ∧ r ≤ r' ∧ r' < r + (count + 1)
  · rw [if_pos hin]
    by_cases hr : r' = r
    · obtain ⟨rfl, _, _⟩ := hin
      subst hr
      rw [if_neg (by omega)]
      exact if_pos ⟨rfl, rfl⟩
    · rw [if_pos (by omega)]
  · rw [if_neg hin, if_neg (by omega)]
    exact if_neg (by omega)

theorem copyCells_present {k : Nat}
    (hf : ∀ r' < r + count, f r' = int32 (cellsValue ((p.drop (4 * (k + r'))).take 4)))
    (h : 4 * (k + r + count) ≤ p.length) (intr : IntrArray) :
    ∃ intr', copyCells p true i count r (k + r : Nat) intr = .ok ((k + r + count : Nat), intr') ∧
      Filled intr intr' i r count f := by
  induction count generalizing r intr with
  | zero => exact ⟨intr, rfl, .zero intr i r f⟩
  | succ count ih =>
    obtain ⟨intr', hrun, hfilled⟩ := ih (r := r + 1) (fun r' hr' => hf r' (by omega)) (by omega)
      (intr.set i r (f r))
    refine ⟨intr', ?_, hfilled.succ⟩
    rw [copyCells, if_pos rfl, readCell_ok (by omega), ok_bind, ← hf r (by omega)]
    refine Eq.trans hrun ?_
    rw [← Nat.add_assoc, Nat.add_right_comm]
    rfl

theorem copyCells_absent (i count r : Nat) (intprop : Int) (intr : IntrArray) :
    ∃ intr', copyCells p false i count r intprop intr = .ok (intprop, intr') ∧
      Filled intr intr' i r count fun _ => 0 := by
  induction count generalizing r intr with
  | zero => exact ⟨intr, rfl, .zero intr i r _⟩
  | succ count ih =>
    obtain ⟨intr', hrun, hfilled⟩ := ih (r + 1) (intr.set i r 0)
    exact ⟨intr', hrun, hfilled.succ⟩

theorem padCells_filled (i count r : Nat) (intr : IntrArray) :
    Filled intr (padCells i count r intr) i r count fun _ => 0 := by
  induction count generalizing r intr with
  | zero => exact .zero intr i r _
  | succ count ih => exact (ih (r + 1) (intr.set i r 0)).succ

theorem copyEntry (hp : p.length = (index + len) * c * 4) (hc : c ≤ maxNcells) (i : Nat)
    (intr : IntrArray) :
    ∃ intr', copyCells p (decide (i < len)) i c 0 ((index + min i len) * c : Nat) intr =
        .ok (((index + min (i + 1) len) * c : Nat), intr') ∧
      Filled intr (padCells i (maxNcells - c) c intr') i 0 maxNcells
        (windowCell p c index len i) := by
  have hpad : ∀ intr', Filled intr intr' i 0 c (windowCell p c index len i) →
      Filled intr (padCells i (maxNcells - c) c intr') i 0 maxNcells
        (windowCell p c index len i) := by
    intro intr' hcells i' r'
    rw [padCells_filled, hcells]
    by_cases hr : r' < c
    · rw [if_neg (by omega)]
      by_cases hi : i' = i
      · rw [if_pos (by omega), if_pos (by omega)]
      · rw [if_neg (by omega), if_neg (by omega)]
    · by_cases hin : i' = i ∧ r' < maxNcells
      · rw [if_pos (by omega), if_pos (by omega), windowCell, if_neg (by omega)]
      · rw [if_neg (by omega), if_neg (by omega), if_neg (by omega)]
  by_cases hi : i < len
  · have hlen : (index + i + 1) * c ≤ (index + len) * c := Nat.mul_le_mul_right c (by omega)
    have hexp : (index + i + 1) * c = (index + i) * c + c := Nat.succ_mul _ _
    have hval : ∀ r' < 0 + c, windowCell p c index len i r' =
        int32 (cellsValue ((p.drop (4 * ((index + i) * c + r'))).take 4)) := by
      intro r' hr'
      rw [windowCell, if_pos ⟨hi, by omega⟩, specifierCell]
    obtain ⟨intr', hrun, hfilled⟩ := copyCells_present (i := i) hval (by omega) intr
    refine ⟨intr', ?_, hpad intr' hfilled⟩
    have hnext : index + min (i + 1) len = index + i + 1 := by omega
    rw [decide_eq_true hi, Nat.min_eq_left hi.le, hnext, hexp]
    exact hrun
  · obtain ⟨intr', hrun, hfilled⟩ :=
      copyCells_absent (p := p) i c 0 ((index + min i len) * c : Nat) intr
    refine ⟨intr', ?_, hpad intr' fun i' r' => ?_⟩
    · rw [decide_eq_false hi, hrun, Nat.min_eq_right (by omega), Nat.min_eq_right (by omega)]
    · have hzero : windowCell p c index len i r' = 0 := if_neg fun h => hi h.1
      rw [hfilled, hzero]

theorem copyEntries_window (hp : p.length = (index + len) * c * 4) (hc : c ≤ maxNcells)
    (count i : Nat) (intr : IntrArray) :
    ∃ intr', copyEntries p maxNcells c len count i ((index + min i len) * c : Nat) intr =
      .ok intr' ∧ ∀ i' r', intr' i' r' =
      if i ≤ i' ∧ i' < i + count ∧ r' < maxNcells then windowCell p c index len i' r'
        else intr i' r' := by
  induction count generalizing i intr with
  | zero => exact ⟨intr, rfl, fun i' r' => (if_neg (by omega)).symm⟩
  | succ count ih =>
    obtain ⟨next, hrun, hfilled⟩ := copyEntry hp hc i intr
    obtain ⟨intr', hrest, hval⟩ := ih (i + 1) (padCells i (maxNcells - c) c next)
    refine ⟨intr', ?_, fun i' r' => ?_⟩
    · rw [copyEntries, hrun, ok_bind]
      exact hrest
    · rw [hval, hfilled]
      by_cases hi : i' = i
      · subst hi
        rw [if_neg (by omega)]
        by_cases hr : r' < maxNcells
        · rw [if_pos (by omega), if_pos (by omega)]
        · rw [if_neg (by omega), if_neg (by omega)]
      · by_cases hin : i + 1 ≤ i' ∧ i' < i + 1 + count ∧ r' < maxNcells
        · rw [if_pos hin, if_pos (by omega)]
        · rw [if_neg hin, if_neg (by omega), if_neg (by omega)]

end

section
variable {t : DeviceTree} {maxNcells fuel c n : Nat} {cache cache' : IntrCache} {node parent : Int}
  {p q : List UInt8}

theorem fdtGetIntr_window (hp : t.getprop node "interrupts" = .ok p)
    (hcells : (fdtGetIntrCells t maxNcells fuel cache node).result = .ok ((c : Int), some parent,
      cache')) (h1 : 1 ≤ c)
    (hmax : c < maxNcells) (hctl : t.getprop parent "interrupt-controller" = .ok q)
    (hlen : p.length = n * c * 4)
    (index num : Nat) (intr : IntrArray) :
    ∃ intr', fdtGetIntr t maxNcells fuel cache node index (some intr) num =
        .ok ⟨(min num (n - index) : Nat), some intr', some parent, cache'⟩ ∧ ∀ i r, intr' i r =
      if index < n ∧ i < num ∧ r < maxNcells then windowCell p c index (n - index) i r
        else intr i r := by
  have hbytes : (p.length : Int) = n * ((c : Int) * 4) := by
    rw [hlen, Nat.mul_assoc]
    rfl
  have hcell : ((c : Int) * 4) ≠ 0 := by omega
  have hmod : ¬ (p.length : Int) % ((c : Int) * 4) ≠ 0 := by
    rw [hbytes, Int.mul_emod_left]
    exact fun h => h rfl
  have hdiv : (p.length : Int) / ((c : Int) * 4) = n := by
    rw [hbytes, Int.mul_ediv_cancel _ hcell]
  rw [fdtGetIntr, hp]
  dsimp only
  rw [hcells, ok_bind]
  dsimp only
  rw [if_neg (by omega), if_neg (by omega), hctl]
  dsimp only
  rw [if_neg hmod, hdiv]
  by_cases hin : index < n
  · have hwin : p.length = (index + (n - index)) * c * 4 := by rw [Nat.add_sub_cancel' hin.le, hlen]
    obtain ⟨intr', hrun, hval⟩ := copyEntries_window hwin hmax.le num 0 intr
    rw [Nat.zero_min, Nat.add_zero, Int.natCast_mul] at hrun
    rw [if_neg (by omega), Int.toNat_natCast, Int.toNat_natCast,
      show ((n : Int) - index).toNat = n - index by omega, hrun, ok_bind]
    refine ⟨intr', ?_, fun i r => ?_⟩
    · have hret : (if (num : Int) < n - index then (num : Int) else n - index) =
          (min num (n - index) : Nat) := by
        split <;> omega
      rw [hret]
    · rw [hval]
      by_cases h : i < num ∧ r < maxNcells
      · rw [if_pos (by omega), if_pos ⟨hin, h⟩]
      · rw [if_neg (by omega), if_neg fun hx => h hx.2]
  · have hzero : min num (n - index) = 0 := by omega
    rw [if_pos (by omega), hzero]
    exact ⟨intr, rfl, fun i r => (if_neg fun h => hin h.1).symm⟩

theorem fdtGetIntrCells_again {cache₂ : IntrCache} (hstray : NoStray t maxNcells)
    (hcache : CacheOk t maxNcells cache) (hcache₂ : CacheOk t maxNcells cache₂)
    (hcells : (fdtGetIntrCells t maxNcells fuel cache node).result =
      .ok ((c : Int), some parent, cache')) :
    ∃ cache', (fdtGetIntrCells t maxNcells fuel cache₂ node).result =
      .ok ((c : Int), some parent, cache') ∧
      CacheOk t maxNcells cache' := by
  have hsame := intrCellsLoop_answer hcache hcache₂ hstray fuel noPhandle node
  rw [fdtGetIntrCells] at hcells
  rw [IntrRun.answer, IntrRun.answer, hcells] at hsame
  cases hres : (intrCellsLoop t maxNcells fuel cache₂ noPhandle node).result with
  | error halt =>
    rw [hres] at hsame
    cases hsame
  | ok out =>
    obtain ⟨r, answer, next⟩ := out
    rw [hres] at hsame
    cases hsame
    exact ⟨next, hres, intrCellsLoop_cacheOk hcache₂ hstray hres⟩

theorem readIntrs_from (hstray : NoStray t maxNcells) (hcache : CacheOk t maxNcells cache)
    (hp : t.getprop node "interrupts" = .ok p)
    (hcells : (fdtGetIntrCells t maxNcells fuel cache node).result = .ok ((c : Int), some parent,
      cache')) (h1 : 1 ≤ c)
    (hmax : c < maxNcells) (hctl : t.getprop parent "interrupt-controller" = .ok q)
    (hlen : p.length = n * c * 4)
    {k : Nat} (hk : 1 ≤ k) {rounds index : Nat} (hrounds : n - index < rounds) {cache₂ : IntrCache}
    (hcache₂ : CacheOk t maxNcells cache₂)
    (intr : IntrArray) :
    readIntrs t maxNcells fuel node k rounds cache₂ index intr =
      .ok ((List.range (n - index)).map fun i => intrEntry p maxNcells c (index + i)) := by
  induction rounds generalizing index cache₂ intr with
  | zero => omega
  | succ rounds ih =>
    obtain ⟨next, hcells₂, hnext⟩ := fdtGetIntrCells_again hstray hcache hcache₂ hcells
    obtain ⟨intr', hrun, hval⟩ := fdtGetIntr_window hp hcells₂ h1 hmax hctl hlen index k intr
    rw [readIntrs, hrun, ok_bind]
    dsimp only
    by_cases hin : index < n
    · have hret : 1 ≤ min k (n - index) := by omega
      have hentries : ((List.range (min k (n - index))).map fun i => (List.range maxNcells).map
          (intr' i)) =
          (List.range (min k (n - index))).map fun i => intrEntry p maxNcells c (index + i) := by
        refine List.map_congr_left fun i hi => List.map_congr_left fun r hr => ?_
        have hi := List.mem_range.mp hi
        rw [hval, if_pos ⟨hin, by omega, List.mem_range.mp hr⟩, windowCell]
        by_cases hrc : r < c
        · rw [if_pos ⟨by omega, hrc⟩, if_pos hrc]
        · rw [if_neg fun h => hrc h.2, if_neg hrc]
      have hsplit : n - index = min k (n - index) + (n - (index + min k (n - index))) := by omega
      rw [if_neg (by omega), Int.toNat_natCast, Option.getD_some, ← Int.natCast_add, hentries,
        ih (by omega) hnext, ok_bind]
      conv_rhs => rw [hsplit, List.range_add, List.map_append, List.map_map]
      congr 3
      funext i
      rw [Function.comp_apply, Nat.add_assoc]
    · have hzero : n - index = 0 := by omega
      rw [hzero, Nat.min_zero, if_pos (by omega)]
      rfl

/-- Any window of "interrupts", and any chunk size: the entries hold the specifiers from
`index` on with zeros behind them, and a loop over chunks yields each specifier once, in
order. -/
theorem fdt_get_intr_windows {nodes : Set Int} {bound : Nat} {earlier : List Int}
    {answers : List (Int × Option Int)}
    (hdoc : t.Documented nodes)
    (hearlier : intrCellsCalls t maxNcells bound IntrCache.initial earlier = .ok (answers, cache))
    (hp : t.getprop node "interrupts" = .ok p)
    (hcells : (fdtGetIntrCells t maxNcells fuel cache node).result = .ok ((c : Int), some parent,
      cache')) (h1 : 1 ≤ c)
    (hmax : c < maxNcells) (hctl : t.getprop parent "interrupt-controller" = .ok q)
    (hlen : p.length = n * c * 4) :
    (∀ (index num : Nat) (intr : IntrArray), 1 ≤ num →
      ∃ intr', fdtGetIntr t maxNcells fuel cache node index (some intr) num =
          .ok ⟨(min num (n - index) : Nat), some intr', some parent, cache'⟩ ∧ ∀ i r, intr' i r =
        if index < n ∧ i < num ∧ r < maxNcells then if index + i < n ∧ r < c then
          specifierCell p c (index + i) r else 0
        else intr i r) ∧
    ∀ (k rounds : Nat) (intr : IntrArray), 1 ≤ k → n < rounds →
      readIntrs t maxNcells fuel node k rounds cache 0 intr =
        .ok ((List.range n).map (intrEntry p maxNcells c)) := by
  have hstray := hdoc.noStray maxNcells
  have hcache : CacheOk t maxNcells cache :=
    intrCellsCalls_cacheOk (cacheOk_initial t maxNcells) hstray hearlier
  refine ⟨fun index num intr _ => ?_, fun k rounds intr hk hrounds => ?_⟩
  · obtain ⟨intr', hrun, hval⟩ := fdtGetIntr_window hp hcells h1 hmax hctl hlen index num intr
    refine ⟨intr', hrun, fun i r => (hval i r).trans ?_⟩
    by_cases hin : index < n ∧ i < num ∧ r < maxNcells
    · rw [if_pos hin, if_pos hin, windowCell]
      exact if_congr (and_congr_left' (by omega)) rfl rfl
    · rw [if_neg hin, if_neg hin]
  · have hread : readIntrs t maxNcells fuel node k rounds cache (0 : Nat) intr =
        .ok ((List.range (n - 0)).map fun i => intrEntry p maxNcells c (0 + i)) :=
      readIntrs_from hstray hcache hp hcells h1 hmax hctl hlen hk hrounds hcache intr
    simp only [Nat.zero_add, Nat.sub_zero] at hread
    exact hread

end

def intrTable : List FdtEntry :=
  [⟨0, -fdtErrNotfound, 0, [("interrupt-parent", [0, 0, 0, 1])]⟩,
    ⟨24, 0, 1, [("#interrupt-cells", [0, 0, 0, 2]), ("interrupt-controller", [])]⟩,
    ⟨96, 0, 0, [("interrupt-parent", [0, 0, 0, 1]), ("interrupts",
      [0, 0, 0, 5, 0, 0, 0, 4, 0, 0, 0, 6, 0, 0, 0, 4, 0, 0, 1, 0, 0, 0, 0, 1])]⟩]

def intrBytes : List UInt8 :=
  [0, 0, 0, 5, 0, 0, 0, 4, 0, 0, 0, 6, 0, 0, 0, 4, 0, 0, 1, 0, 0, 0, 0, 1]

theorem fdt_get_intr_windows_example :
    (∀ (index num : Nat) (intr : IntrArray), 1 ≤ num →
      ∃ intr', fdtGetIntr (tableFdt intrTable) 4 2 IntrCache.initial 96 index (some intr) num =
          .ok ⟨(min num (3 - index) : Nat), some intr', some 24, ⟨0x4000000, 1, 24, 2⟩⟩ ∧
            ∀ i r, intr' i r =
        if index < 3 ∧ i < num ∧ r < 4 then if index + i < 3 ∧ r < 2 then
          specifierCell intrBytes 2 (index + i) r else 0
        else intr i r) ∧
    ∀ (k rounds : Nat) (intr : IntrArray), 1 ≤ k → 3 < rounds →
      readIntrs (tableFdt intrTable) 4 2 96 k rounds IntrCache.initial 0 intr =
        .ok ((List.range 3).map (intrEntry intrBytes 4 2)) := by
  have hdoc : (tableFdt intrTable).Documented {n | ∃ e ∈ intrTable, e.offset = n} :=
    tableFdt_documented (by simp [intrTable]) (by simp [intrTable, fdtErrNotfound])
  have hearlier : intrCellsCalls (tableFdt intrTable) 4 2 IntrCache.initial [] =
      .ok ([], IntrCache.initial) := rfl
  have hcells : (fdtGetIntrCells (tableFdt intrTable) 4 2 IntrCache.initial 96).result =
      .ok (((2 : Nat) : Int), some 24, ⟨0x4000000, 1, 24, 2⟩) := rfl
  exact fdt_get_intr_windows hdoc hearlier rfl hcells (by decide) (by decide) rfl rfl

end QnxStartup
