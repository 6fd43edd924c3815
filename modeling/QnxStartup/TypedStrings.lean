import QnxStartup.SectionBytes

/-! The typed strings of the system page: `find_typed_string`, `del_typed_string` and
`add_typed_string` of `strings.c`. -/

namespace QnxStartup

/-- `_CS_NONE`: the zero that a fresh section begins with. -/
def csNone : Nat := 0

/-- The walk of `find_typed_string` from `i` on; `none` when it meets the terminator first. -/
def findTyped (m : Mem) (p type : Nat) : Nat → Nat → Startup (Option Nat)
  | 0, _ => .error .noReturn
  | n + 1, i =>
    if read32 m (p + i) = type then .ok (some i)
    else if read32 m (p + i) = csNone then .ok none
    else
      let i := u32 (i + 4)
      match cstr m (p + i) with
      | none => .error .fault
      | some str => findTyped m p type n (u32 (round (u32 (i + str.length + 1)) 4))

/-- `find_typed_string`; its result is an `int`, so offsets from `2 ^ 31` on are negative. -/
def findTypedString (type : Nat) (c : Syspage) : Startup Int :=
  (findTyped c.mem (c.sects .typedStrings).p type (2 ^ 32) 0).bind fun r =>
    .ok (match r with
      | none => -1
      | some i => if i < 2 ^ 31 then i else i - 2 ^ 32)

/-- `p[i++] = p[j++]`, `n` times. -/
def copyDown (m : Mem) (p i j : Nat) : Nat → Mem
  | 0 => m
  | n + 1 => copyDown (pokeByte m (p + i) (m (p + j))) p (i + 1) (j + 1) n

/-- `del_typed_string`. An end of the record that is no `int` lies before the section. -/
def delTypedString (type : Nat) (c : Syspage) : Startup (Nat × Syspage) :=
  let p := (c.sects .typedStrings).p
  (findTypedString type c).bind fun i =>
    if i < 0 then .ok (0, c)
    else
      let i := i.toNat
      match cstr c.mem (p + (i + 4)) with
      | none => .error .fault
      | some str =>
        let j := u32 (round (u32 (i + 4 + (str.length + 1))) 4)
        if 2 ^ 31 ≤ j then .error .fault
        else (findTypedString csNone c).bind fun stop =>
          let n := (stop - j).toNat
          .ok (1, { c with mem := memset (copyDown c.mem p i j n) (p + (i + n)) 0 (j - i) })

/-- `add_typed_string`, for a value outside the system page. -/
def addTypedString (type : Nat) (name : List UInt8) (c : Syspage) : Startup (Nat × Syspage) :=
  let p := (c.sects .typedStrings).p
  (delTypedString type c).bind fun (_, c) =>
    (findTypedString csNone c).bind fun i =>
      let i := (i % 2 ^ 32).toNat
      let len := u32 (round (u32 (name.length + 1)) 4)
      let need := u32 (len + 2 * 4)
      let spare := sub32 (c.sects .typedStrings).size i
      (if spare < need then growSyspageSection .typedStrings (need - spare) c
        else .ok c).bind fun c =>
        let m := writeBytes c.mem (p + i) (le32 type)
        .ok (i,
          { c with mem := strlcpy m (p + (i + 4)) name (sub32 (c.sects .typedStrings).size i) })

structure TypedRecord where
  type : Nat
  value : List UInt8
  deriving DecidableEq

def TypedRecord.Valid (r : TypedRecord) : Prop := r.type ≠ csNone ∧ r.type < 2 ^ 32 ∧ 0 ∉ r.value

/-- The bytes of a value with its NUL, rounded up to four. -/
def paddedLength (v : List UInt8) : Nat := (v.length + 4) / 4 * 4

def TypedRecord.encode (r : TypedRecord) : List UInt8 :=
  le32 r.type ++ (r.value ++ [0]) ++ List.replicate (paddedLength r.value - (r.value.length + 1)) 0

theorem paddedLength_bounds (v : List UInt8) :
    v.length + 1 ≤ paddedLength v ∧ paddedLength v < v.length + 5 ∧ 4 ∣ paddedLength v := by
  unfold paddedLength
  omega

theorem TypedRecord.encode_length (r : TypedRecord) :
    r.encode.length = paddedLength r.value + 4 := by
  have h := paddedLength_bounds r.value
  simp only [encode, le32, List.length_append, List.length_cons, List.length_nil,
    List.length_replicate]
  omega

theorem round_four {n : Nat} (h : n + 4 ≤ 2 ^ 64) : round n 4 = (n + 3) / 4 * 4 := by
  obtain ⟨h1, h2, h3⟩ := round_two_pow (k := 2) (by decide) (x := n) (by omega)
  change n ≤ round n 4 at h1
  change 4 ∣ round n 4 at h2
  change round n 4 < n + 4 at h3
  omega

theorem round_record {i : Nat} (v : List UInt8) (hi : 4 ∣ i) (hlt : i + paddedLength v < 2 ^ 32) :
    u32 (round (u32 (i + (v.length + 1))) 4) = i + paddedLength v := by
  have hp := paddedLength_bounds v
  have hround : (i + (v.length + 1) + 3) / 4 * 4 = i + paddedLength v := by
    unfold paddedLength
    omega
  rw [u32_of_lt (n := i + (v.length + 1)) (by omega), round_four (by omega), hround, u32_of_lt hlt]

theorem TypedRecord.read {m : Mem} {a : Nat} {r : TypedRecord} (hr : r.Valid)
    (hlen : r.value.length < 2 ^ 32) (h : Holds m a r.encode) :
    read32 m a = r.type ∧ cstr m (a + 4) = some r.value := by
  rw [encode, holds_append, holds_append] at h
  exact ⟨h.1.1.read32 hr.2.1, cstr_eq h.1.2 hr.2.2 (by omega)⟩

theorem length_le_flatMap_encode (recs : List TypedRecord) :
    recs.length ≤ (recs.flatMap TypedRecord.encode).length := by
  induction recs with
  | nil => simp
  | cons r recs ih =>
    rw [List.flatMap_cons, List.length_append, TypedRecord.encode_length, List.length_cons]
    omega

theorem findTyped_eq {m : Mem} {p n i type : Nat} {recs : List TypedRecord} {tail : List UInt8}
    (h : Holds m (p + i) (recs.flatMap TypedRecord.encode ++ (le32 csNone ++ tail))) (hi : 4 ∣ i)
    (hrecs : ∀ r ∈ recs, r.Valid) (hlt : i + (recs.flatMap TypedRecord.encode).length < 2 ^ 31)
    (hn : recs.length < n) :
    findTyped m p type n i =
      .ok (if type = csNone ∨ type ∈ recs.map TypedRecord.type then
        some (i + recordOffset TypedRecord.encode TypedRecord.type recs type) else none) := by
  induction recs generalizing n i with
  | nil =>
    cases n with
    | zero => simp at hn
    | succ n =>
      rw [List.flatMap_nil, List.nil_append, holds_append] at h
      rw [findTyped, h.1.read32 (by decide)]
      by_cases ht : type = csNone
      · subst ht
        simp
      · rw [if_neg (Ne.symm ht)]
        simp [ht]
  | cons r recs ih =>
    cases n with
    | zero => simp at hn
    | succ n =>
      have hr := hrecs r (by simp)
      have hb := paddedLength_bounds r.value
      rw [List.flatMap_cons, List.append_assoc, holds_append, r.encode_length] at h
      rw [List.flatMap_cons, List.length_append, r.encode_length] at hlt
      obtain ⟨htype, hval⟩ := TypedRecord.read hr (by omega) h.1
      rw [findTyped, htype]
      by_cases heq : r.type = type
      · subst heq
        rw [if_pos rfl, recordOffset_cons_self]
        simp
      · rw [if_neg heq, if_neg hr.1]
        simp only
        have hi' : 4 ∣ i + 4 + paddedLength r.value := by omega
        have hround := round_record (i := i + 4) r.value (by omega) (by omega)
        rw [u32_of_lt (by omega), ← Nat.add_assoc, hval]
        simp only
        rw [Nat.add_assoc (i + 4), hround]
        have hnext : p + (i + 4 + paddedLength r.value) = p + i + (paddedLength r.value + 4) := by
          omega
        have hh := ih (i := i + 4 + paddedLength r.value) (by rw [hnext]; exact h.2)
          hi' (fun t ht => hrecs t (by simp [ht])) (by omega) (by simpa using hn)
        rw [hh, recordOffset_cons_ne _ heq, r.encode_length]
        simp only [List.map_cons, List.mem_cons, Ne.symm heq, false_or]
        congr 3
        omega

structure TypedTable (c : Syspage) (recs : List TypedRecord) : Prop where
  holds : ∃ k, SectionHolds c .typedStrings (recs.flatMap TypedRecord.encode ++
    List.replicate (k + 4) 0)
  valid : ∀ r ∈ recs, r.Valid
  nodup : (recs.map TypedRecord.type).Nodup

theorem replicate_terminator (k : Nat) :
    List.replicate (k + 4) 0 = le32 csNone ++ List.replicate k 0 := by
  simp only [List.replicate_succ]
  rfl

theorem TypedTable.length_lt {header : Nat} {c : Syspage} {recs : List TypedRecord}
    (h : TypedTable c recs) (hg : Growing header c) :
    (recs.flatMap TypedRecord.encode).length + 4 ≤ tempSyspageSize := by
  obtain ⟨k, hsize, -⟩ := h.holds
  have hle := (hg.size_le .typedStrings).1
  rw [List.length_append, List.length_replicate] at hsize
  omega

theorem TypedTable.find {header : Nat} {c : Syspage} {recs : List TypedRecord}
    (h : TypedTable c recs) (hg : Growing header c) (type : Nat) :
    findTypedString type c =
      .ok (if type = csNone ∨ type ∈ recs.map TypedRecord.type then
        (recordOffset TypedRecord.encode TypedRecord.type recs type : Int) else -1) := by
  have hlt := h.length_lt hg
  simp only [tempSyspageSize] at hlt
  obtain ⟨k, -, hold⟩ := h.holds
  rw [replicate_terminator] at hold
  have hlen := length_le_flatMap_encode recs
  have hle : recordOffset TypedRecord.encode TypedRecord.type recs type ≤ _ :=
    recordOffset_le recs type
  have hfind : findTyped c.mem _ type (2 ^ 32) 0 = _ :=
    findTyped_eq hold ⟨0, rfl⟩ h.valid (by omega) (by omega)
  rw [findTypedString, hfind, Nat.zero_add]
  by_cases hc : type = csNone ∨ type ∈ recs.map TypedRecord.type
  · rw [if_pos hc, if_pos hc]
    simp only [Except.bind]
    rw [if_pos (by omega)]
  · rw [if_neg hc, if_neg hc]
    rfl

theorem copyDown_eq {m : Mem} {p i j n : Nat} (hij : i < j) :
    copyDown m p i j n = memmove m (p + i) (p + j) n := by
  induction n generalizing m i j with
  | zero =>
    funext x
    exact (memmove_of_not_mem (by omega)).symm
  | succ n ih =>
    rw [copyDown, ih (by omega)]
    funext x
    simp only [memmove, pokeByte]
    by_cases hx : x = p + i
    · subst hx
      rw [if_neg (by omega), if_pos rfl, if_pos (by omega), Nat.sub_self, Nat.add_zero]
    · by_cases hin : p + (i + 1) ≤ x ∧ x < p + (i + 1) + n
      · rw [if_pos hin, if_neg (by omega), if_pos (by omega)]
        congr 1
        omega
      · rw [if_neg hin, if_neg hx, if_neg (by omega)]

theorem closeGap_eq {m : Mem} {p i j n : Nat} {gap rest : List UInt8}
    (h : Holds m (p + i) (gap ++ rest)) (hij : i < j) (hgap : gap.length = j - i)
    (hrest : rest.length = n) :
    memset (copyDown m p i j n) (p + (i + n)) 0 (j - i) =
      writeBytes m (p + i) (rest ++ List.replicate (j - i) 0) := by
  rw [copyDown_eq hij]
  rw [holds_append] at h
  have hr := holds_iff.mp h.2
  have hw := holds_iff.mp (holds_writeBytes m (p + i) (rest ++ List.replicate (j - i) 0))
  simp only [List.length_append, List.length_replicate] at hw
  funext x
  by_cases h1 : p + i ≤ x ∧ x < p + i + n
  · have h2 := hw (x - (p + i)) (by omega)
    rw [Nat.add_sub_cancel' h1.1, List.getElem_append_left (by omega)] at h2
    rw [h2, memset_of_not_mem (by omega), memmove_of_mem h1, ← hr (x - (p + i)) (by omega), hgap]
    congr 1
    omega
  · by_cases h2 : p + (i + n) ≤ x ∧ x < p + (i + n) + (j - i)
    · have h3 := hw (x - (p + i)) (by omega)
      rw [Nat.add_sub_cancel' (by omega), List.getElem_append_right (by omega),
        List.getElem_replicate] at h3
      rw [h3, memset_of_mem h2]
    · rw [memset_of_not_mem h2, memmove_of_not_mem h1, writeBytes_of_not_mem]
      simp only [List.length_append, List.length_replicate]
      omega

theorem delTypedString_eq {type i j stop : Nat} {c : Syspage} {str : List UInt8}
    (hi : findTypedString type c = .ok (i : Int))
    (hstr : cstr c.mem ((c.sects .typedStrings).p + (i + 4)) = some str)
    (hj : u32 (round (u32 (i + 4 + (str.length + 1))) 4) = j) (hlt : j < 2 ^ 31)
    (hstop : findTypedString csNone c = .ok (stop : Int)) :
    delTypedString type c = .ok (1, { c with
      mem := memset (copyDown c.mem (c.sects .typedStrings).p i j (stop - j))
        ((c.sects .typedStrings).p + (i + (stop - j))) 0 (j - i) }) := by
  have hn : ((stop : Int) - (j : Int)).toNat = stop - j := by omega
  rw [delTypedString, hi]
  simp only [Except.bind, Int.toNat_natCast]
  rw [if_neg (by omega), hstr]
  simp only [hj, hstop, if_neg (not_le.mpr hlt), hn]

theorem encode_dvd (recs : List TypedRecord) : 4 ∣ (recs.flatMap TypedRecord.encode).length := by
  induction recs with
  | nil => exact ⟨0, rfl⟩
  | cons r recs ih =>
    have hb := paddedLength_bounds r.value
    rw [List.flatMap_cons, List.length_append, r.encode_length]
    omega

theorem TypedTable.csNone_not_mem {c : Syspage} {recs : List TypedRecord} (h : TypedTable c recs) :
    csNone ∉ recs.map TypedRecord.type := by
  intro hh
  obtain ⟨s, hs, he⟩ := List.mem_map.mp hh
  exact (h.valid s hs).1 he

theorem TypedTable.find_end {header : Nat} {c : Syspage} {recs : List TypedRecord}
    (hg : Growing header c) (h : TypedTable c recs) :
    findTypedString csNone c = .ok ((recs.flatMap TypedRecord.encode).length : Int) := by
  rw [h.find hg, if_pos (.inl rfl), recordOffset_of_not_mem h.csNone_not_mem]

theorem filter_type_ne {type : Nat} {recs : List TypedRecord}
    (h : type ∉ recs.map TypedRecord.type) :
    recs.filter (·.type ≠ type) = recs :=
  List.filter_eq_self.mpr fun r hr => by simpa using fun he => h (List.mem_map.mpr ⟨r, hr, he⟩)

theorem delTypedString_absent {header type : Nat} {c : Syspage} {recs : List TypedRecord}
    (hg : Growing header c) (h : TypedTable c recs) (htype : type ≠ csNone)
    (hmem : type ∉ recs.map TypedRecord.type) :
    delTypedString type c = .ok (0, c) := by
  rw [delTypedString, h.find hg, if_neg (by simp only [htype, hmem, or_self, not_false_eq_true])]
  rfl

theorem delTypedString_present {header k : Nat} {c : Syspage} {pre post : List TypedRecord}
    {r : TypedRecord} (hg : Growing header c) (h : TypedTable c (pre ++ r :: post))
    (hpre : r.type ∉ pre.map TypedRecord.type)
    (hold : SectionHolds c .typedStrings (pre.flatMap TypedRecord.encode ++
      (r.encode ++ post.flatMap TypedRecord.encode) ++ List.replicate (k + 4) 0)) :
    delTypedString r.type c = .ok (1, { c with
      mem := writeBytes c.mem ((c.sects .typedStrings).p + (pre.flatMap TypedRecord.encode).length)
        (post.flatMap TypedRecord.encode ++ List.replicate (paddedLength r.value + 4) 0) }) := by
  have hmem : r.type ∈ (pre ++ r :: post).map TypedRecord.type := List.mem_map.mpr ⟨r, by simp, rfl⟩
  have hlt := h.length_lt hg
  have hstop := h.find_end hg
  have hb := paddedLength_bounds r.value
  have hvalid := h.valid r (by simp)
  have hoff : recordOffset TypedRecord.encode TypedRecord.type (pre ++ r :: post) r.type =
      (pre.flatMap TypedRecord.encode).length := by
    rw [recordOffset_append_of_not_mem _ hpre, recordOffset_cons_self, Nat.add_zero]
  have hfind := h.find hg r.type
  rw [if_pos (.inr hmem), hoff] at hfind
  simp only [List.flatMap_append, List.flatMap_cons, List.length_append, r.encode_length,
    tempSyspageSize] at hlt hstop
  set e := (pre.flatMap TypedRecord.encode).length with he
  have hat := hold.2
  rw [holds_append, holds_append, ← he] at hat
  have hgap := hat.1.2
  have hval := (TypedRecord.read hvalid (by omega) (holds_append.mp hgap).1).2
  have hround := round_record (i := e + 4) r.value (Nat.dvd_add (encode_dvd pre) dvd_rfl) (by omega)
  have hrun := delTypedString_eq hfind (Nat.add_assoc .. ▸ hval) hround (by omega) hstop
  have hn : e + (paddedLength r.value + 4 + (post.flatMap TypedRecord.encode).length) -
      (e + 4 + paddedLength r.value) = (post.flatMap TypedRecord.encode).length := by omega
  have hj : e + 4 + paddedLength r.value - e = paddedLength r.value + 4 := by omega
  rw [hn, closeGap_eq hgap (by omega) (by rw [r.encode_length, hj]) rfl, hj] at hrun
  exact hrun

/-- `del_typed_string` drops the record of the type and nothing else. -/
theorem delTypedString_spec {header type : Nat} {c : Syspage} {recs : List TypedRecord}
    (hg : Growing header c) (h : TypedTable c recs) (htype : type ≠ csNone) :
    ∃ rc c', delTypedString type c = .ok (rc, c') ∧ TypedTable c' (recs.filter (·.type ≠ type)) ∧
      Growing header c' ∧ c'.totalSize = c.totalSize ∧ c'.sects = c.sects ∧
      ∀ t ≠ .syspage, t ≠ .typedStrings → Elsewhere header t c c' := by
  by_cases hmem : type ∈ recs.map TypedRecord.type
  swap
  · rw [filter_type_ne hmem]
    exact ⟨0, c, delTypedString_absent hg h htype hmem, h, hg, rfl, rfl,
      fun t _ _ => ⟨hg, rfl, fun _ _ => rfl⟩⟩
  obtain ⟨r, hr, rfl⟩ := List.mem_map.mp hmem
  obtain ⟨pre, post, rfl⟩ := List.append_of_mem hr
  obtain ⟨k, hold⟩ := h.holds
  have hnd := h.nodup
  simp only [List.map_append, List.map_cons, List.nodup_append, List.nodup_cons] at hnd
  have hpre : r.type ∉ pre.map TypedRecord.type := fun hh => hnd.2.2 _ hh _ (by simp) rfl
  have hfilter : (pre ++ r :: post).filter (·.type ≠ r.type) = pre ++ post := by
    rw [List.filter_append, List.filter_cons_of_neg (by simp), filter_type_ne hpre,
      filter_type_ne hnd.2.1.1]
  have hold' : SectionHolds c .typedStrings (pre.flatMap TypedRecord.encode ++
      (r.encode ++ post.flatMap TypedRecord.encode) ++ List.replicate (k + 4) 0) := by
    simpa only [List.flatMap_append, List.flatMap_cons, List.append_assoc] using hold
  have hlen :
      (post.flatMap TypedRecord.encode ++ List.replicate (paddedLength r.value + 4) 0).length =
      (r.encode ++ post.flatMap TypedRecord.encode).length := by
    simp only [List.length_append, r.encode_length, List.length_replicate]
    omega
  obtain ⟨hnew, hg', hother⟩ := hg.write (by decide) hold' hlen rfl
  rw [hfilter]
  refine ⟨1, _, delTypedString_present hg h hpre hold',
    ⟨⟨k + (paddedLength r.value + 4), ?_⟩, fun s hs => ?_, ?_⟩, hg', rfl, rfl, hother⟩
  · rw [List.flatMap_append]
    simp only [List.append_assoc, List.replicate_append_replicate] at hnew ⊢
    rw [show k + (paddedLength r.value + 4) + 4 = paddedLength r.value + 4 + (k + 4) by omega]
    exact hnew
  · refine h.valid s ?_
    rcases List.mem_append.mp hs with hs | hs
    · exact List.mem_append_left _ hs
    · exact List.mem_append_right _ (List.mem_cons_of_mem _ hs)
  · rw [List.map_append, List.nodup_append]
    exact ⟨hnd.1, hnd.2.1.2, fun a ha b hb => hnd.2.2 a ha b (List.mem_cons_of_mem _ hb)⟩

/-- With the rounding the request for the value still fits 32 bits. -/
def TypedFits (name : List UInt8) (c : Syspage) : Prop := c.totalSize + name.length + 20 ≤ 2 ^ 32

theorem TypedTable.snoc {c c' : Syspage} {recs : List TypedRecord} {r : TypedRecord}
    (h : TypedTable c recs) (hr : r.Valid) (hnew : r.type ∉ recs.map TypedRecord.type)
    (hold : ∃ k, SectionHolds c' .typedStrings
      ((recs ++ [r]).flatMap TypedRecord.encode ++ List.replicate (k + 4) 0)) :
    TypedTable c' (recs ++ [r]) := by
  refine ⟨hold, fun t ht => ?_, ?_⟩
  · rcases List.mem_append.mp ht with ht | ht
    · exact h.valid t ht
    · rw [List.mem_singleton.mp ht]
      exact hr
  · rw [List.map_append]
    exact h.nodup.append (by simp) (by simpa using hnew)

/-- The type and the value, written into the zeros behind the records. -/
theorem Growing.storeTyped {header type z : Nat} {name l : List UInt8} {c c' : Syspage}
    (hg : Growing header c) (hl : SectionHolds c .typedStrings (l ++ List.replicate z 0))
    (hz : paddedLength name + 8 ≤ z)
    (hc' : c' = { c with
      mem := writeBytes (writeBytes c.mem ((c.sects .typedStrings).p + l.length) (le32 type))
        ((c.sects .typedStrings).p + (l.length + 4)) (name ++ [0]) }) :
    (∃ k, SectionHolds c' .typedStrings
      (l ++ TypedRecord.encode ⟨type, name⟩ ++ List.replicate (k + 4) 0)) ∧
      Growing header c' ∧ ∀ t ≠ .syspage, t ≠ .typedStrings → Elsewhere header t c c' := by
  have hb := paddedLength_bounds name
  have htype : (le32 type).length = 4 := rfl
  have hname : (name ++ [0]).length = name.length + 1 := by simp
  obtain ⟨hold₁, hg₁, hother₁⟩ := hg.append (le32 type) (by decide) hl (by rw [htype]; omega) rfl
  obtain ⟨hold₂, hg₂, hother₂⟩ := hg₁.append (name ++ [0]) (by decide) hold₁
    (by rw [htype, hname]; omega) rfl
  have hend : (l ++ le32 type).length = l.length + 4 := by rw [List.length_append, htype]
  rw [hend] at hold₂ hg₂ hother₂
  subst hc'
  refine ⟨⟨z - paddedLength name - 8, ?_⟩, hg₂,
    fun t ht hts => (hother₁ t ht hts).trans (hother₂ t ht hts)⟩
  have hpad : z - (le32 type).length - (name ++ [0]).length =
      paddedLength name - (name.length + 1) + (z - paddedLength name - 8 + 4) := by
    rw [htype, hname]
    omega
  rw [hpad, ← List.replicate_append_replicate] at hold₂
  rw [TypedRecord.encode]
  simpa only [List.append_assoc] using hold₂

theorem addTypedString_spec {header type i : Nat} {name : List UInt8} {c c' : Syspage}
    {recs : List TypedRecord} (hpos : 0 < header) (hg : Growing header c) (h : TypedTable c recs)
    (hvalid : TypedRecord.Valid ⟨type, name⟩) (hfits : TypedFits name c)
    (hrun : addTypedString type name c = .ok (i, c')) :
    TypedTable c' (recs.filter (·.type ≠ type) ++ [⟨type, name⟩]) ∧ Growing header c' ∧
      ∀ t ≠ .syspage, t ≠ .typedStrings → Elsewhere header t c c' := by
  obtain ⟨rc, c₁, hdel, h₁, hg₁, htotal, hsects, hother₁⟩ := delTypedString_spec hg h hvalid.1
  have hnew : type ∉ (recs.filter (·.type ≠ type)).map TypedRecord.type := fun hh => by
    obtain ⟨r, hr, he⟩ := List.mem_map.mp hh
    simp [he] at hr
  generalize recs.filter (·.type ≠ type) = kept at h₁ hnew ⊢
  obtain ⟨k, hold⟩ := h₁.holds
  obtain ⟨x, hx, hrun⟩ := bind_eq_ok.mp hrun
  rw [hdel] at hx
  cases hx
  obtain ⟨x, hx, hrun⟩ := bind_eq_ok.mp hrun
  rw [h₁.find_end hg₁] at hx
  cases hx
  obtain ⟨c₂, hgrow, hrun⟩ := bind_eq_ok.mp hrun
  set e := (kept.flatMap TypedRecord.encode).length with he
  have hle := hg₁.size_le .typedStrings
  have hsize := hold.1
  have hb := paddedLength_bounds name
  simp only [tempSyspageSize] at hle
  rw [List.length_append, List.length_replicate, ← he] at hsize
  rw [TypedFits, ← htotal] at hfits
  have hlen : u32 (round (u32 (name.length + 1)) 4) = paddedLength name := by
    simpa using round_record (i := 0) name ⟨0, rfl⟩ (by omega)
  have hi : ((e : Int) % 2 ^ 32).toNat = e := by omega
  have hspare : sub32 (c₁.sects .typedStrings).size e = k + 4 := by
    rw [sub32_of_le (by omega) (by omega)]
    omega
  rw [hi, hlen, hspare, u32_of_lt (by omega)] at hgrow
  obtain ⟨z, hz, hold₂, hp, hg₂, hother₂⟩ := hg₁.room hpos (by decide) (hg₁.behind (by decide))
    hold (fun hlt => by
      obtain ⟨h1, -, h3⟩ := round_two_pow (k := 3) (by decide)
        (x := paddedLength name + 2 * 4 - (k + 4)) (by omega)
      change _ ≤ round (paddedLength name + 2 * 4 - (k + 4)) 8 at h1
      change round (paddedLength name + 2 * 4 - (k + 4)) 8 < _ at h3
      rw [u32_of_lt (by omega)]
      omega) hgrow
  have hsize₂ := hold₂.1
  simp only [List.length_append, List.length_replicate, ← he] at hsize₂
  have hle₂ := (hg₂.size_le .typedStrings).1
  simp only [tempSyspageSize] at hle₂
  simp only [hi] at hrun
  rw [sub32_of_le (by omega) (by omega), strlcpy_eq (by omega), ← hsects, ← hp] at hrun
  obtain ⟨-, rfl⟩ := Prod.mk.inj (Except.ok.inj hrun)
  obtain ⟨⟨k', hold₃⟩, hg₃, hother₃⟩ := hg₂.storeTyped hold₂ hz rfl
  refine ⟨h₁.snoc hvalid hnew ⟨k', ?_⟩, hg₃, fun t ht hts =>
    ((hother₁ t ht hts).trans (hother₂ t ht hts)).trans (hother₃ t ht hts)⟩
  rw [List.flatMap_append, List.flatMap_singleton]
  exact hold₃

inductive TypedCall where
  | add (type : Nat) (value : List UInt8)
  | del (type : Nat)

def TypedCall.type : TypedCall → Nat
  | add type _ | del type => type

def TypedCall.Allowed : TypedCall → Prop
  | add type value => TypedRecord.Valid ⟨type, value⟩
  | del type => type ≠ csNone ∧ type < 2 ^ 32

def TypedCall.Fits : TypedCall → Syspage → Prop
  | add _ value, c => TypedFits value c
  | del _, _ => True

def TypedCall.run : TypedCall → Syspage → Startup (Nat × Syspage)
  | add type value, c => addTypedString type value c
  | del type, c => delTypedString type c

/-- The value of the latest call that names the type, the latest call first. -/
def latestValue (type : Nat) : List TypedCall → Option (List UInt8)
  | [] => none
  | .add t v :: past => if t = type then some v else latestValue type past
  | .del t :: past => if t = type then none else latestValue type past

/-- Looking a type up: `find_typed_string`, and the string behind the type word. -/
def lookupTyped (type : Nat) (c : Syspage) : Startup (Option (List UInt8)) :=
  (findTypedString type c).bind fun i =>
    if i < 0 then .ok none
    else match cstr c.mem ((c.sects .typedStrings).p + (i.toNat + 4)) with
      | none => .error .fault
      | some str => .ok (some str)

inductive TypedRun (sz : SyspageSizes) (ok : TypedCall → Syspage → Prop) :
    Syspage → List TypedCall → Prop
  | init {base maxSize : Nat} {mem : Mem} {c : Syspage} (hmax : maxSize ≤ tempSyspageSize)
      (h : initSyspageMemory sz base maxSize mem = .ok c) : TypedRun sz ok c []
  | elsewhere {c c' : Syspage} {past : List TypedCall} (run : TypedRun sz ok c past)
      (h : Elsewhere sz.header .typedStrings c c') : TypedRun sz ok c' past
  | call {c c' : Syspage} {past : List TypedCall} {op : TypedCall} {r : Nat}
      (run : TypedRun sz ok c past)
      (hallowed : op.Allowed) (hok : ok op c) (h : op.run c = .ok (r, c')) :
      TypedRun sz ok c' (op :: past)

def TypedCall.apply (recs : List TypedRecord) : TypedCall → List TypedRecord
  | add type value => recs.filter (·.type ≠ type) ++ [⟨type, value⟩]
  | del type => recs.filter (·.type ≠ type)

theorem TypedCall.spec {header r : Nat} {op : TypedCall} {c c' : Syspage} {recs : List TypedRecord}
    (hpos : 0 < header) (hg : Growing header c) (h : TypedTable c recs) (hallowed : op.Allowed)
    (hfits : op.Fits c) (hrun : op.run c = .ok (r, c')) :
    TypedTable c' (op.apply recs) ∧ Growing header c' := by
  cases op with
  | add type value =>
    obtain ⟨h', hg', -⟩ := addTypedString_spec hpos hg h hallowed hfits hrun
    exact ⟨h', hg'⟩
  | del type =>
    obtain ⟨rc, c₁, hdel, h', hg', -⟩ := delTypedString_spec hg h hallowed.1
    obtain ⟨-, rfl⟩ := Prod.mk.inj (Except.ok.inj (hdel.symm.trans hrun))
    exact ⟨h', hg'⟩

def tableValue (recs : List TypedRecord) (type : Nat) : Option (List UInt8) :=
  (recs.find? (·.type = type)).map TypedRecord.value

theorem tableValue_apply (op : TypedCall) (recs : List TypedRecord) (type : Nat) :
    tableValue (op.apply recs) type =
      match op with
      | .add t v => if t = type then some v else tableValue recs type
      | .del t => if t = type then none else tableValue recs type := by
  have hkept : ∀ t, tableValue (recs.filter (·.type ≠ t)) type = if t = type then none
      else tableValue recs type := by
    intro t
    unfold tableValue
    rw [List.find?_filter]
    split
    · next heq =>
      subst heq
      rw [List.find?_eq_none.mpr (by simp)]
      rfl
    · next hne =>
      have hp : (fun r : TypedRecord => decide (decide (r.type ≠ t) = true ∧
          decide (r.type = type) = true)) = fun r => decide (r.type = type) := by
        funext r
        by_cases hr : r.type = type
        · simp [hr, Ne.symm hne]
        · simp [hr]
      rw [hp]
  cases op with
  | del t => exact hkept t
  | add t v =>
    have h := hkept t
    unfold tableValue at h ⊢
    rw [TypedCall.apply, List.find?_append, Option.map_or, h]
    by_cases ht : t = type
    · simp [ht]
    · simp [ht]

theorem TypedTable.lookup {header type : Nat} {c : Syspage} {recs : List TypedRecord}
    (h : TypedTable c recs) (hg : Growing header c) (htype : type ≠ csNone) :
    lookupTyped type c = .ok (tableValue recs type) := by
  rw [lookupTyped, h.find hg, tableValue]
  cases hfind : recs.find? (·.type = type) with
  | none =>
    have hmem : type ∉ recs.map TypedRecord.type := by
      intro hh
      obtain ⟨r, hr, he⟩ := List.mem_map.mp hh
      exact absurd he (by simpa using List.find?_eq_none.mp hfind r hr)
    rw [if_neg (by simp only [htype, hmem, or_self, not_false_eq_true])]
    rfl
  | some r =>
    obtain rfl : r.type = type := by simpa using List.find?_some hfind
    have hr := List.mem_of_find?_eq_some hfind
    have hlt := h.length_lt hg
    simp only [tempSyspageSize] at hlt
    obtain ⟨k, -, hold⟩ := h.holds
    rw [holds_append] at hold
    have hend : _ + r.encode.length ≤ _ := recordOffset_add_le hr h.nodup
    have hb := paddedLength_bounds r.value
    rw [r.encode_length] at hend
    have hval := (TypedRecord.read (h.valid r hr) (by omega) (hold.1.at_offset hr h.nodup)).2
    rw [if_pos (.inr (List.mem_map_of_mem hr))]
    simp only [Except.bind, Int.toNat_natCast]
    rw [if_neg (by omega), ← Nat.add_assoc, hval]
    rfl

theorem TypedRun.table {sz : SyspageSizes} {c : Syspage} {past : List TypedCall}
    (run : TypedRun sz (fun op c => op.Fits c) c past) :
    ∃ recs, Growing sz.header c ∧ TypedTable c recs ∧
      ∀ type, tableValue recs type = latestValue type past := by
  induction run with
  | init hmax h =>
    obtain ⟨hg, hold, -⟩ := init_growing h hmax
    exact ⟨[], hg, ⟨⟨4, by simpa using hold⟩, by simp, by simp⟩, fun _ => rfl⟩
  | elsewhere _ h ih =>
    obtain ⟨recs, -, ht, hval⟩ := ih
    obtain ⟨k, hold⟩ := ht.holds
    exact ⟨recs, h.1, ⟨⟨k, h.holds hold⟩, ht.valid, ht.nodup⟩, hval⟩
  | @call c c' past op r _ hallowed hok h ih =>
    obtain ⟨recs, hg, ht, hval⟩ := ih
    obtain ⟨ht', hg'⟩ := TypedCall.spec sz.header_bounds.1 hg ht hallowed hok h
    refine ⟨_, hg', ht', fun type => ?_⟩
    rw [tableValue_apply, hval]
    cases op <;> rfl

/-- The section is a table with at most one record of each type and a terminator inside
the section, and looking a type up gives the value of the latest call that names it. -/
structure TypedMap (c : Syspage) (past : List TypedCall) : Prop where
  table : ∃ (recs : List TypedRecord) (k : Nat), SectionHolds c .typedStrings
      (recs.flatMap TypedRecord.encode ++ (le32 csNone ++ List.replicate k 0)) ∧
    (∀ r ∈ recs, r.Valid) ∧ (recs.map TypedRecord.type).Nodup
  lookup : ∀ type ≠ csNone, lookupTyped type c = .ok (latestValue type past)

/-- In a run whose requests fit 32 bits the typed strings are a finite map, and a call
leaves the other types alone. -/
theorem typed_strings_map {sz : SyspageSizes} {c : Syspage} {past : List TypedCall}
    (run : TypedRun sz (fun op c => op.Fits c) c past) :
    TypedMap c past ∧
      ∀ (op : TypedCall) (r : Nat) (c' : Syspage), op.Allowed → op.Fits c → op.run c = .ok (r, c') →
        ∀ type ≠ csNone, type ≠ op.type → lookupTyped type c' = lookupTyped type c := by
  obtain ⟨recs, hg, ht, hval⟩ := run.table
  refine ⟨⟨?_, fun type htype => ?_⟩, fun op r c' hallowed hfits hrun type htype hne => ?_⟩
  · obtain ⟨k, hold⟩ := ht.holds
    exact ⟨recs, k, replicate_terminator k ▸ hold, ht.valid, ht.nodup⟩
  · rw [ht.lookup hg htype, hval]
  · obtain ⟨ht', hg'⟩ := op.spec sz.header_bounds.1 hg ht hallowed hfits hrun
    rw [ht'.lookup hg' htype, ht.lookup hg htype, tableValue_apply]
    cases op with
    | add t v => exact congrArg _ (if_neg (Ne.symm hne))
    | del t => exact congrArg _ (if_neg (Ne.symm hne))

theorem typed_strings_map_example :
    ∃ c past, TypedRun exampleSizes (fun op c => op.Fits c) c past ∧ past.length = 3 ∧
      latestValue 1 past = none ∧
      TypedMap c past ∧
      ∀ (op : TypedCall) (r : Nat) (c' : Syspage), op.Allowed → op.Fits c → op.run c = .ok (r, c') →
        ∀ type ≠ csNone, type ≠ op.type → lookupTyped type c' = lookupTyped type c := by
  let d := emptySyspage exampleSizes 0x1000 0x600 fun _ => 0
  let c := resultOr d (initSyspageMemory exampleSizes 0x1000 0x600 fun _ => 0)
  let add (type : Nat) (b : UInt8) : TypedCall := .add type [b]
  let r₁ := resultOr (0, d) ((add 1 97).run c)
  let r₂ := resultOr (0, d) ((add 2 98).run r₁.2)
  let r₃ := resultOr (0, d) ((TypedCall.del 1).run r₂.2)
  have hvalid : ∀ type b, type ≠ 0 → type < 2 ^ 32 → b ≠ 0 → (add type b).Allowed :=
    fun type b h0 hlt hb => ⟨h0, hlt, by simpa using Ne.symm hb⟩
  have h₀ : initSyspageMemory exampleSizes 0x1000 0x600 (fun _ => 0) = .ok c :=
    eq_ok_resultOr d (by decide)
  have h₁ : (add 1 97).run c = .ok (r₁.1, r₁.2) := eq_ok_pair_resultOr (0, d) (by decide +kernel)
  have h₂ : (add 2 98).run r₁.2 = .ok (r₂.1, r₂.2) := eq_ok_pair_resultOr (0, d) (by decide +kernel)
  have h₃ : (TypedCall.del 1).run r₂.2 = .ok (r₃.1, r₃.2) :=
    eq_ok_pair_resultOr (0, d) (by decide +kernel)
  have f₁ : (add 1 97).Fits c := by
    change _ ≤ _
    decide +kernel
  have f₂ : (add 2 98).Fits r₁.2 := by
    change _ ≤ _
    decide +kernel
  have run : TypedRun exampleSizes (fun op c => op.Fits c) r₃.2 [.del 1, add 2 98, add 1 97] :=
    (((TypedRun.init (by decide) h₀).call (hvalid 1 97 (by decide) (by decide)
      (by decide)) f₁ h₁).call
      (hvalid 2 98 (by decide) (by decide) (by decide)) f₂ h₂).call
        ⟨by decide, by decide⟩ trivial h₃
  exact ⟨_, _, run, rfl, rfl, typed_strings_map run⟩

theorem findTyped_head {m : Mem} {p type i : Nat} (n : Nat) (h : read32 m (p + i) = type) :
    findTyped m p type (n + 1) i = .ok (some i) := if_pos h

/-- A value of `2 ^ 32 - 1` bytes asks for no room, and is cut. -/
theorem typed_string_cut :
    ∃ c past, TypedRun exampleSizes (fun _ _ => True) c past ∧ ¬ TypedMap c past := by
  let d := emptySyspage exampleSizes 0x1000 0x600 fun _ => 0
  let c := resultOr d (initSyspageMemory exampleSizes 0x1000 0x600 fun _ => 0)
  have hinit : initSyspageMemory exampleSizes 0x1000 0x600 (fun _ => 0) = .ok c :=
    eq_ok_resultOr d (by decide)
  obtain ⟨hg, hold, -⟩ := init_growing hinit (by decide)
  have htable : TypedTable c [] := ⟨⟨4, by simpa using hold⟩, by simp, by simp⟩
  have hsize : (c.sects .typedStrings).size = 8 := hold.1
  obtain ⟨n, hn⟩ : ∃ n, n = 2 ^ 32 - 1 := ⟨_, rfl⟩
  let value := List.replicate n (1 : UInt8)
  have hlen : value.length = n := List.length_replicate
  let p := (c.sects .typedStrings).p
  let c' : Syspage := { c with mem := strlcpy (writeBytes c.mem p (le32 1)) (p + 4) value 8 }
  have hdel : delTypedString 1 c = .ok (0, c) := by
    rw [delTypedString, htable.find hg]
    rfl
  have hadd : addTypedString 1 value c = .ok (0, c') := by
    have hneed : ¬ sub32 8 0 < u32 (u32 (round (u32 (value.length + 1)) 4) + 2 * 4) := by
      rw [hlen, hn]
      decide
    have hfind : findTypedString csNone c = .ok 0 := htable.find hg csNone
    have hzero : ((0 : Int) % 2 ^ 32).toNat = 0 := rfl
    simp only [addTypedString, hdel, hfind, hzero, hsize, Except.bind, if_neg hneed]
    rfl
  have hcut : c'.mem = writeBytes (writeBytes c.mem p (le32 1)) (p + 4)
      (List.replicate 7 1 ++ [0]) := by
    change strlcpy (writeBytes c.mem p (le32 1)) (p + 4) value 8 = _
    rw [strlcpy, if_neg (by decide), List.take_replicate, Nat.min_eq_left (by omega)]
  have hword : read32 c'.mem (p + 0) = 1 := by
    rw [hcut]
    exact Holds.read32 ((holds_writeBytes _ _ _).writeBytes_apart (.inl le_rfl)) (by decide)
  have hstr : cstr c'.mem (p + (0 + 4)) = some (List.replicate 7 1) := by
    rw [hcut]
    exact cstr_eq (holds_writeBytes _ _ _) (by decide) (by decide)
  have hlook : lookupTyped 1 c' = .ok (some (List.replicate 7 1)) := by
    have hwalk := findTyped_head n hword
    rw [show n + 1 = 2 ^ 32 by omega] at hwalk
    have hfind : findTypedString 1 c' = .ok 0 := congrArg (fun r => Except.bind r _) hwalk
    rw [lookupTyped, hfind]
    simp only [Except.bind]
    rw [if_neg (by decide)]
    simp only [Int.toNat_zero]
    rw [hstr]
  have hvalid : (TypedCall.add 1 value).Allowed :=
    ⟨Nat.one_ne_zero, show 1 < 2 ^ 32 by decide, fun h =>
      absurd (List.eq_of_mem_replicate h) (by decide)⟩
  refine ⟨c', _, .call (.init (by decide) hinit) hvalid trivial hadd, fun h => ?_⟩
  have hl := (h.lookup 1 (by decide)).symm.trans hlook
  have h7 : n = 7 := hlen.symm.trans (congrArg List.length (Option.some.inj (Except.ok.inj hl)))
  omega

end QnxStartup
