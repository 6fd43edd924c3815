import QnxStartup.SectionBytes

/-! The string table of the system page: `add_string` of `strings.c`. -/

namespace QnxStartup

/-- The search of `add_string`: whether it met `name`, and the offset it stopped at. With
as many rounds as `i` has values it goes round in circles. -/
def findString (m : Mem) (p : Nat) (name : List UInt8) : Nat → Nat → Startup (Bool × Nat)
  | 0, _ => .error .noReturn
  | n + 1, i =>
    match cstr m (p + i) with
    | none => .error .fault
    | some [] => .ok (false, i)
    | some str =>
      if name = str then .ok (true, i) else findString m p name n (u32 (i + str.length + 1))

/-- `add_string`, for a name outside the system page. -/
def addString (name : List UInt8) (c : Syspage) : Startup (Nat × Syspage) :=
  let p := (c.sects .strings).p
  (findString c.mem p name (2 ^ 32) 0).bind fun (found, i) =>
    if found then .ok (i, c)
    else
      let len := u32 (name.length + 2)
      let spare := sub32 (c.sects .strings).size i
      (if len > spare then growSyspageSection .strings (u32 (round (len - spare) 128)) c
        else .ok c).bind fun c =>
        .ok (i, { c with mem := strlcpy c.mem (p + i) name (sub32 (c.sects .strings).size i) })

/-- A name as C has it. -/
def IsName (name : List UInt8) : Prop := name ≠ [] ∧ 0 ∉ name

def encodeString (s : List UInt8) : List UInt8 := s ++ [0]

theorem encodeString_ne_nil (s : List UInt8) : encodeString s ≠ [] := by simp [encodeString]

theorem encodeString_length (s : List UInt8) : (encodeString s).length = s.length + 1 := by
  simp [encodeString]

theorem findString_eq {m : Mem} {p n i : Nat} {names : List (List UInt8)} {tail : List UInt8}
    (name : List UInt8) (h : Holds m (p + i) (names.flatMap encodeString ++ 0 :: tail))
    (hnames : ∀ s ∈ names, IsName s) (hlt : i + (names.flatMap encodeString).length < 2 ^ 32)
    (hn : names.length < n) :
    findString m p name n i = .ok (decide (name ∈ names),
      i + recordOffset encodeString id names name) := by
  induction names generalizing n i with
  | nil =>
    cases n with
    | zero => simp at hn
    | succ n =>
      have hc : cstr m (p + i) = some [] := cstr_eq ⟨h.1, trivial⟩ (by simp) (by simp)
      simp [findString, hc]
  | cons s names ih =>
    cases n with
    | zero => simp at hn
    | succ n =>
      obtain ⟨hne, hnul⟩ := hnames s (by simp)
      rw [List.flatMap_cons, List.append_assoc, holds_append, encodeString_length] at h
      rw [List.flatMap_cons, List.length_append, encodeString_length] at hlt
      have hc : cstr m (p + i) = some s := cstr_eq h.1 hnul (by omega)
      rw [findString, hc]
      obtain ⟨b, s', rfl⟩ := List.exists_cons_of_ne_nil hne
      simp only
      by_cases heq : name = b :: s'
      · subst heq
        rw [if_pos rfl, show recordOffset encodeString id ((b :: s') :: names) (b :: s') =
          0 from recordOffset_cons_self ..]
        simp
      · rw [if_neg heq, u32_of_lt (by omega)]
        have hh := ih (i := i + (b :: s').length + 1) (by simpa only [Nat.add_assoc] using h.2)
          (fun t ht => hnames t (by simp [ht])) (by omega) (by simpa using hn)
        rw [hh, recordOffset_cons_ne names (show id (b :: s') ≠ name from Ne.symm heq),
          encodeString_length]
        simp [heq, Nat.add_assoc]

/-- What `add_string` makes of a table of names. -/
def internName (names : List (List UInt8)) (name : List UInt8) : List (List UInt8) :=
  if name ∈ names then names else names ++ [name]

/-- The strings section is the table of `names`, and zeros. -/
structure StringTable (c : Syspage) (names : List (List UInt8)) : Prop where
  holds : ∃ k, SectionHolds c .strings (names.flatMap encodeString ++ List.replicate (k + 1) 0)
  valid : ∀ s ∈ names, IsName s
  nodup : names.Nodup

theorem length_le_flatMap_encodeString (names : List (List UInt8)) :
    names.length ≤ (names.flatMap encodeString).length := by
  induction names with
  | nil => simp
  | cons s names ih =>
    rw [List.flatMap_cons, List.length_append, encodeString_length, List.length_cons]
    omega

theorem StringTable.find {header : Nat} {c : Syspage} {names : List (List UInt8)}
    (h : StringTable c names) (hg : Growing header c) (name : List UInt8) :
    findString c.mem (c.sects .strings).p name (2 ^ 32) 0 =
      .ok (decide (name ∈ names), recordOffset encodeString id names name) := by
  obtain ⟨k, hsize, hold⟩ := h.holds
  have hle := (hg.size_le .strings).1
  have hlen := length_le_flatMap_encodeString names
  rw [List.length_append, List.length_replicate] at hsize
  simp only [tempSyspageSize] at hle
  rw [List.replicate_succ] at hold
  have hfind := findString_eq name (i := 0) hold h.valid (by omega) (n := 2 ^ 32) (by omega)
  rwa [Nat.zero_add] at hfind

def StringFits (name : List UInt8) (c : Syspage) : Prop :=
  c.totalSize + (name.length + 2) + 128 ≤ 2 ^ 32

theorem chunk_bounds {n : Nat} (h : n + 128 ≤ 2 ^ 32) :
    n ≤ round n 128 ∧ round n 128 < n + 128 ∧ u32 (round n 128) = round n 128 ∧
      u32 (round (round n 128) 8) = round n 128 := by
  obtain ⟨h1, h2, h3⟩ := round_two_pow (k := 7) (by decide) (x := n) (by omega)
  change n ≤ round n 128 at h1
  change 128 ∣ round n 128 at h2
  change round n 128 < n + 128 at h3
  have h8 : round (round n 128) 8 = round n 128 :=
    round_eq_self (k := 3) (by decide) (by omega) ((show (8 : Nat) ∣ 128 by decide).trans h2)
  rw [h8, u32_of_lt (by omega)]
  exact ⟨h1, h3, rfl, rfl⟩

theorem addString_new {header i : Nat} {c c' : Syspage} {names : List (List UInt8)}
    {name : List UInt8} (hpos : 0 < header) (hg : Growing header c) (h : StringTable c names)
    (hmem : name ∉ names) (hfits : StringFits name c) (hrun : addString name c = .ok (i, c')) :
    i = (names.flatMap encodeString).length ∧
      (∃ j, SectionHolds c' .strings
        (names.flatMap encodeString ++ encodeString name ++ List.replicate (j + 1) 0)) ∧
      Growing header c' ∧ ∀ t ≠ .syspage, t ≠ .strings → Elsewhere header t c c' := by
  obtain ⟨⟨found, o⟩, hfind, hrun⟩ := bind_eq_ok.mp hrun
  rw [h.find hg, recordOffset_of_not_mem (by simpa using hmem)] at hfind
  cases hfind
  simp only [hmem, decide_false, Bool.false_eq_true, if_false] at hrun
  obtain ⟨c₁, hgrow, hrun⟩ := bind_eq_ok.mp hrun
  cases hrun
  obtain ⟨k, hold⟩ := h.holds
  set e := (names.flatMap encodeString).length with he
  have hsize := hold.1
  rw [List.length_append, List.length_replicate, ← he] at hsize
  have hle := hg.size_le .strings
  simp only [tempSyspageSize] at hle
  rw [StringFits] at hfits
  have hspare : (c.sects .strings).size - e = k + 1 := by omega
  rw [u32_of_lt (by omega), sub32_of_le (by omega) (by omega), hspare] at hgrow
  -- the section has room for the name and the end of the table
  obtain ⟨z, hz, hold₁, hp, hg₁, hother⟩ :=
    hg.room hpos (by decide) (hg.behind (by decide)) hold (fun hlt => by
      obtain ⟨h1, h2, h3, h4⟩ := chunk_bounds (n := name.length + 2 - (k + 1)) (by omega)
      rw [h3, h4]
      omega) hgrow
  have hsize₁ := hold₁.1
  simp only [List.length_append, List.length_replicate, ← he] at hsize₁
  have hle₁ := (hg₁.size_le .strings).1
  simp only [tempSyspageSize] at hle₁
  rw [sub32_of_le (by omega) (by omega), strlcpy_eq (by omega)]
  obtain ⟨hold', hg', hother'⟩ := hg₁.append (encodeString name) (by decide) hold₁
    (by rw [encodeString_length]; omega) rfl
  rw [hp, ← he] at hold' hg' hother'
  rw [encodeString_length] at hold'
  obtain ⟨j, hj⟩ : ∃ j, z - (name.length + 1) = j + 1 := ⟨z - (name.length + 2), by omega⟩
  rw [hj] at hold'
  exact ⟨rfl, ⟨j, hold'⟩, hg', fun t ht hts => (hother t ht hts).trans (hother' t ht hts)⟩

/-- `add_string` is the interning of the name, and it leaves the other sections alone. -/
theorem addString_spec {header : Nat} {c c' : Syspage} {names : List (List UInt8)}
    {name : List UInt8} {i : Nat} (hpos : 0 < header) (hg : Growing header c)
    (h : StringTable c names) (hname : IsName name) (hfits : StringFits name c)
    (hrun : addString name c = .ok (i, c')) :
    StringTable c' (internName names name) ∧
      i = recordOffset encodeString id (internName names name) name ∧
      Growing header c' ∧ ∀ t ≠ .syspage, t ≠ .strings → Elsewhere header t c c' := by
  by_cases hmem : name ∈ names
  · rw [addString, h.find hg] at hrun
    simp only [Except.bind, hmem, decide_true, if_true] at hrun
    cases hrun
    rw [internName, if_pos hmem]
    exact ⟨h, rfl, hg, fun t _ _ => ⟨hg, rfl, fun _ _ => rfl⟩⟩
  · obtain ⟨hi, ⟨j, hold⟩, hg', hother⟩ := addString_new hpos hg h hmem hfits hrun
    have hoff : recordOffset encodeString id (names ++ [name]) name =
        (names.flatMap encodeString).length := by
      rw [recordOffset_append_of_not_mem [name] (by simpa using hmem)]
      exact congrArg _ (recordOffset_cons_self name [])
    rw [internName, if_neg hmem]
    refine ⟨⟨⟨j, ?_⟩, fun s hs => ?_, ?_⟩, hi.trans hoff.symm, hg', hother⟩
    · rw [List.flatMap_append, List.flatMap_singleton]
      exact hold
    · rcases List.mem_append.mp hs with hs | hs
      · exact h.valid s hs
      · rw [List.mem_singleton.mp hs]
        exact hname
    · exact h.nodup.append (by simp) (by simpa using hmem)

/-- `add_string` grows its own section only. -/
theorem addString_behind {header i : Nat} {t : SectionId} {c c' : Syspage} {name : List UInt8}
    (hb : Behind t c) (hg : Growing header c) (hpos : 0 < header)
    (hrun : addString name c = .ok (i, c')) : Behind t c' := by
  obtain ⟨⟨found, o⟩, -, hrun⟩ := bind_eq_ok.mp hrun
  dsimp only at hrun
  split at hrun
  · cases hrun
    exact hb
  obtain ⟨c₁, hgrow, hrun⟩ := bind_eq_ok.mp hrun
  cases hrun
  split at hgrow
  · have hb₁ : Behind t c₁ := hb.grow hg hpos (hg.behind (by decide)) hgrow
    exact hb₁
  · cases hgrow
    exact hb

theorem addString_keeps {header : Nat} {c c' : Syspage} {names : List (List UInt8)}
    {name : List UInt8} {i : Nat} (hpos : 0 < header) (hg : Growing header c)
    (h : StringTable c names) (hnul : 0 ∉ name) (hfits : StringFits name c)
    (hrun : addString name c = .ok (i, c')) :
    (∃ names', StringTable c' names') ∧ Growing header c' ∧
      ∀ t ≠ .syspage, t ≠ .strings → Elsewhere header t c c' := by
  by_cases hne : name = []
  · subst hne
    have hmem : [] ∉ names := fun hh => (h.valid [] hh).1 rfl
    obtain ⟨-, ⟨j, hold⟩, hg', hother⟩ := addString_new hpos hg h hmem hfits hrun
    refine ⟨⟨names, ⟨⟨j + 1, ?_⟩, h.valid, h.nodup⟩⟩, hg', hother⟩
    rw [List.append_assoc] at hold
    exact hold
  · obtain ⟨ht, -, hg', hother⟩ := addString_spec hpos hg h ⟨hne, hnul⟩ hfits hrun
    exact ⟨⟨_, ht⟩, hg', hother⟩

/-- The runs with the names added so far and what `add_string` returned for them; `ok`
restricts the calls. -/
inductive StringRun (sz : SyspageSizes) (ok : List UInt8 → Syspage → Prop) :
    Syspage → List (List UInt8 × Nat) → Prop
  | init {base maxSize : Nat} {mem : Mem} {c : Syspage} (hmax : maxSize ≤ tempSyspageSize)
      (h : initSyspageMemory sz base maxSize mem = .ok c) : StringRun sz ok c []
  | elsewhere {c c' : Syspage} {past : List (List UInt8 × Nat)} (run : StringRun sz ok c past)
      (h : Elsewhere sz.header .strings c c') : StringRun sz ok c' past
  | add {c c' : Syspage} {past : List (List UInt8 × Nat)} {name : List UInt8} {i : Nat}
      (run : StringRun sz ok c past) (hname : IsName name) (hok : ok name c)
      (h : addString name c = .ok (i, c')) : StringRun sz ok c' ((name, i) :: past)

/-- Every offset denotes its name, different names have different offsets, and the table
ends with an empty string inside the section, where every search stops. -/
structure Interned (c : Syspage) (past : List (List UInt8 × Nat)) : Prop where
  denotes : ∀ e ∈ past, cstr c.mem ((c.sects .strings).p + e.2) = some e.1 ∧
    e.2 + e.1.length < (c.sects .strings).size
  offset_eq : ∀ e ∈ past, ∀ e' ∈ past, e.2 = e'.2 ↔ e.1 = e'.1
  ends : ∃ stop < (c.sects .strings).size,
    (∀ k, stop ≤ k → k < (c.sects .strings).size → c.mem ((c.sects .strings).p + k) = 0) ∧
    ∀ name, ∃ found i, findString c.mem (c.sects .strings).p name (2 ^ 32) 0 = .ok (found, i) ∧
    i ≤ stop ∧ (found = false → i = stop)

theorem StringTable.elsewhere {header : Nat} {c c' : Syspage} {names : List (List UInt8)}
    (h : StringTable c names) (he : Elsewhere header .strings c c') : StringTable c' names := by
  obtain ⟨k, hold⟩ := h.holds
  exact ⟨⟨k, he.holds hold⟩, h.valid, h.nodup⟩

theorem StringRun.table {sz : SyspageSizes} {c : Syspage} {past : List (List UInt8 × Nat)}
    (run : StringRun sz StringFits c past) :
    ∃ names, Growing sz.header c ∧ StringTable c names ∧
      ∀ e ∈ past, e.1 ∈ names ∧ e.2 = recordOffset encodeString id names e.1 := by
  induction run with
  | init hmax h =>
    obtain ⟨hg, -, hold, -⟩ := init_growing h hmax
    exact ⟨[], hg, ⟨⟨7, by simpa using hold⟩, by simp, by simp⟩, by simp⟩
  | elsewhere _ h ih =>
    obtain ⟨names, -, ht, hpast⟩ := ih
    exact ⟨names, h.1, ht.elsewhere h, hpast⟩
  | @add c c' past name i _ hname hok h ih =>
    obtain ⟨names, hg, ht, hpast⟩ := ih
    obtain ⟨ht', hi, hg', -⟩ := addString_spec sz.header_bounds.1 hg ht hname hok h
    refine ⟨internName names name, hg', ht', fun e he => ?_⟩
    rcases List.mem_cons.mp he with rfl | he
    · refine ⟨?_, hi⟩
      unfold internName
      split <;> simp_all
    · obtain ⟨hmem, hoff⟩ := hpast e he
      unfold internName
      split
      · exact ⟨hmem, hoff⟩
      · exact ⟨List.mem_append_left _ hmem,
          hoff.trans (recordOffset_append [name] (by simpa using hmem)).symm⟩

theorem StringTable.interned {header : Nat} {c : Syspage} {names : List (List UInt8)}
    {past : List (List UInt8 × Nat)} (h : StringTable c names) (hg : Growing header c)
    (hpast : ∀ e ∈ past, e.1 ∈ names ∧ e.2 = recordOffset encodeString id names e.1) :
    Interned c past := by
  obtain ⟨k, hsize, hold⟩ := h.holds
  rw [holds_append] at hold
  have hle := (hg.size_le .strings).1
  simp only [tempSyspageSize] at hle
  rw [List.length_append, List.length_replicate] at hsize
  refine ⟨fun e he => ?_, fun e he e' he' => ?_, (names.flatMap encodeString).length,
    by omega, fun j hj hlt => ?_, fun name => ⟨_, _, h.find hg name, ?_, fun hf => ?_⟩⟩
  · obtain ⟨hmem, hoff⟩ := hpast e he
    have hnd : (names.map id).Nodup := by simpa using h.nodup
    have hend : recordOffset encodeString id names (id e.1) + (encodeString e.1).length ≤ _ :=
      recordOffset_add_le hmem hnd
    have hat : Holds c.mem (_ + recordOffset encodeString id names (id e.1)) (encodeString e.1) :=
      hold.1.at_offset hmem hnd
    rw [id_eq] at hend hat
    rw [← hoff] at hat hend
    rw [encodeString_length] at hend
    exact ⟨cstr_eq hat (h.valid _ hmem).2 (by omega), by omega⟩
  · obtain ⟨hmem, hoff⟩ := hpast e he
    obtain ⟨hmem', hoff'⟩ := hpast e' he'
    constructor
    · intro heq
      rw [hoff, hoff'] at heq
      exact recordOffset_inj encodeString_ne_nil (by simpa using hmem) (by simpa using hmem') heq
    · intro heq
      rw [hoff, hoff', heq]
  · have hz := holds_replicate.mp hold.2 (j - (names.flatMap encodeString).length) (by omega)
    rwa [Nat.add_assoc, Nat.add_sub_cancel' hj] at hz
  · exact recordOffset_le names name
  · exact recordOffset_of_not_mem (by simpa using hf)

/-- In a run whose requests fit 32 bits `add_string` interns its names. -/
theorem add_string_interns {sz : SyspageSizes} {c : Syspage} {past : List (List UInt8 × Nat)}
    (run : StringRun sz StringFits c past) : Interned c past := by
  obtain ⟨names, hg, ht, hpast⟩ := run.table
  exact ht.interned hg hpast

theorem add_string_interns_example :
    ∃ c past, StringRun exampleSizes StringFits c past ∧ past.map Prod.snd = [0, 0] ∧
      Interned c past := by
  let d := emptySyspage exampleSizes 0x1000 0x600 fun _ => 0
  let c := resultOr d (initSyspageMemory exampleSizes 0x1000 0x600 fun _ => 0)
  let r := resultOr (0, d) (addString [97, 98] c)
  let r' := resultOr (0, d) (addString [97, 98] r.2)
  have hname : IsName [97, 98] := ⟨by decide, by decide⟩
  have h₀ : initSyspageMemory exampleSizes 0x1000 0x600 (fun _ => 0) = .ok c :=
    eq_ok_resultOr d (by decide)
  have h₁ : addString [97, 98] c = .ok (r.1, r.2) := eq_ok_pair_resultOr (0, d) (by decide +kernel)
  have h₂ : addString [97, 98] r.2 = .ok (r'.1, r'.2) :=
    eq_ok_pair_resultOr (0, d) (by decide +kernel)
  have run : StringRun exampleSizes StringFits r'.2 [([97, 98], r'.1), ([97, 98], r.1)] :=
    ((StringRun.init (by decide) h₀).add hname (by unfold StringFits; decide +kernel) h₁).add hname
      (by unfold StringFits; decide +kernel) h₂
  exact ⟨_, _, run, by decide +kernel, add_string_interns run⟩

/-- A name of `2 ^ 32 - 2` bytes asks for no room, and is cut to what there is. -/
theorem add_string_truncates :
    ∃ c past, StringRun exampleSizes (fun _ _ => True) c past ∧ ¬ Interned c past := by
  let d := emptySyspage exampleSizes 0x1000 0x600 fun _ => 0
  let c := resultOr d (initSyspageMemory exampleSizes 0x1000 0x600 fun _ => 0)
  have hinit : initSyspageMemory exampleSizes 0x1000 0x600 (fun _ => 0) = .ok c :=
    eq_ok_resultOr d (by decide)
  obtain ⟨hg, -, hold, -⟩ := init_growing hinit (by decide)
  have htable : StringTable c [] := ⟨⟨7, by simpa using hold⟩, by simp, by simp⟩
  obtain ⟨n, hn⟩ : ∃ n, n = 2 ^ 32 - 2 := ⟨_, rfl⟩
  let name := List.replicate n (1 : UInt8)
  have hlen : name.length = n := List.length_replicate
  have hname : IsName name := by
    refine ⟨fun h => ?_, fun h => absurd (List.eq_of_mem_replicate h) (by decide)⟩
    rw [h, hn] at hlen
    exact absurd hlen (by decide)
  have hfind : findString c.mem (c.sects .strings).p name (2 ^ 32) 0 = .ok (false, 0) :=
    htable.find hg name
  have hsize : (c.sects .strings).size = 8 := hold.1
  let c' : Syspage := { c with mem := strlcpy c.mem (c.sects .strings).p name 8 }
  have hadd : addString name c = .ok (0, c') := by
    have hlarge : ¬ u32 (name.length + 2) > sub32 8 0 := by
      rw [hlen, hn]
      decide
    simp only [addString, hfind, hsize, Except.bind, if_neg hlarge, Bool.false_eq_true, if_false]
    rfl
  have hcut : strlcpy c.mem (c.sects .strings).p name 8 =
      writeBytes c.mem (c.sects .strings).p (List.replicate 7 1 ++ [0]) := by
    rw [strlcpy, if_neg (by decide), List.take_replicate, Nat.min_eq_left (by omega)]
  have hstr : cstr c'.mem ((c'.sects .strings).p + 0) = some (List.replicate 7 1) := by
    change cstr (strlcpy c.mem (c.sects .strings).p name 8) (c.sects .strings).p = _
    rw [hcut]
    exact cstr_eq (holds_writeBytes _ _ _) (by decide) (by decide)
  refine ⟨c', _, .add (.init (by decide) hinit) hname trivial hadd, fun h => ?_⟩
  have hd := (h.denotes (name, 0) (by simp)).1
  rw [hstr] at hd
  have h7 : 7 = n := (congrArg List.length (Option.some.inj hd)).trans hlen
  omega

end QnxStartup
