import QnxStartup.SectionBytes

/-! A section of the system page that is an array of entries of one size: a new entry goes into the
room that the section is grown by, and an entry may be written over. -/

namespace QnxStartup

/-- The bytes of an entry: its fields, with zeros where there is none. -/
structure EntryLayout (α : Type*) where
  sizeofEntry : Nat
  encode : α → List UInt8
  sizeof_pos : 0 < sizeofEntry
  sizeof_lt : sizeofEntry < 2 ^ 16
  sizeof_dvd : 8 ∣ sizeofEntry
  length_encode : ∀ e, (encode e).length = sizeofEntry

namespace EntryLayout

variable {α : Type*} {A : EntryLayout α} {header i : Nat} {s : SectionId} {c c' : Syspage}
  {l : List α} {e : α}

/-- The section's bytes are those of the entries. -/
structure Has (A : EntryLayout α) (s : SectionId) (c : Syspage) (l : List α) : Prop where
  behind : Behind s c
  holds : SectionHolds c s (l.flatMap A.encode)

/-- The stores to the fields of the entry at an index. -/
def put (A : EntryLayout α) (s : SectionId) (i : Nat) (e : α) (c : Syspage) : Syspage :=
  { c with mem := writeBytes c.mem ((c.sects s).p + A.sizeofEntry * i) (A.encode e) }

theorem length_flatMap_encode (A : EntryLayout α) (l : List α) :
    (l.flatMap A.encode).length = A.sizeofEntry * l.length := by
  induction l with
  | nil => rfl
  | cons e l ih =>
    rw [List.flatMap_cons, List.length_append, A.length_encode, ih, List.length_cons, Nat.mul_succ,
      Nat.add_comm]

theorem Has.size (h : A.Has s c l) : (c.sects s).size = A.sizeofEntry * l.length :=
  h.holds.1.trans (A.length_flatMap_encode l)

theorem Has.nil (hb : Behind s c) (hsize : (c.sects s).size = 0) : A.Has s c [] :=
  ⟨hb, hsize, trivial⟩

theorem has_init {sz : SyspageSizes} {base maxSize : Nat} {mem : Mem}
    (h : initSyspageMemory sz base maxSize mem = .ok c)
    (hfresh : (sz.initStore fun _ => false).kind s = .fresh) : A.Has s c [] := by
  have href : Refines sz.header c (sz.initStore fun _ => false) := initSyspageMemory_refines h
  refine .nil (href.behind s ?_) ?_
  · rw [hfresh]
    exact SectKind.noConfusion
  · rw [href.size]
    exact href.fresh s hfresh

theorem Has.elsewhere (h : A.Has s c l) (he : Elsewhere header s c c') (hb : Behind s c') :
    A.Has s c' l :=
  ⟨hb, he.holds h.holds⟩

theorem round_sizeofEntry (A : EntryLayout α) : u32 (round A.sizeofEntry 8) = A.sizeofEntry := by
  have hlt := A.sizeof_lt
  have h8 : round A.sizeofEntry 8 = A.sizeofEntry :=
    round_eq_self (k := 3) (by decide) (by omega) A.sizeof_dvd
  rw [h8, u32_of_lt (by omega)]

/-- The section is grown by one entry, which is written behind the others. -/
theorem Has.snoc (h : A.Has s c l) (hg : Growing header c) (hpos : 0 < header) (hs : s ≠ .syspage)
    (hrun : growSyspageSection s A.sizeofEntry c = .ok c') (e : α) :
    A.Has s (A.put s l.length e c') (l ++ [e]) ∧ Growing header (A.put s l.length e c') ∧
      ∀ t ≠ .syspage, t ≠ s → Elsewhere header t c (A.put s l.length e c') := by
  have hlt := A.sizeof_lt
  have hle := hg.size_le s
  simp only [tempSyspageSize] at hle
  obtain ⟨hold, -, -, hg₁, hother₁⟩ := hg.grow hpos hs h.behind h.holds
    (by rw [A.round_sizeofEntry]; omega) (by omega) hrun
  have hb₁ := h.behind.grow hg hpos h.behind hrun
  rw [A.round_sizeofEntry] at hold
  have hput : A.put s l.length e c' = { c' with
      mem := writeBytes c'.mem ((c'.sects s).p + (l.flatMap A.encode).length) (A.encode e) } := by
    rw [put, A.length_flatMap_encode]
  obtain ⟨hold₂, hg₂, hother₂⟩ := hg₁.append (A.encode e) hs hold (A.length_encode e).le hput
  rw [A.length_encode, Nat.sub_self, List.replicate_zero, List.append_nil] at hold₂
  refine ⟨⟨hb₁, ?_⟩, hg₂, fun t ht hts => (hother₁ t ht hts).trans (hother₂ t ht hts)⟩
  rw [List.flatMap_append, List.flatMap_singleton]
  exact hold₂

/-- An entry is written over. -/
theorem Has.set (h : A.Has s c l) (hg : Growing header c) (hs : s ≠ .syspage) (hi : i < l.length)
    (e : α) :
    A.Has s (A.put s i e c) (l.set i e) ∧ Growing header (A.put s i e c) ∧
      ∀ t ≠ .syspage, t ≠ s → Elsewhere header t c (A.put s i e c) := by
  have hsplit : l.flatMap A.encode = (l.take i).flatMap A.encode ++ A.encode l[i] ++
      (l.drop (i + 1)).flatMap A.encode := by
    rw [← List.flatMap_singleton (f := A.encode) (x := l[i]), ← List.flatMap_append,
      ← List.flatMap_append, List.append_assoc, List.singleton_append, List.getElem_cons_drop,
      List.take_append_drop]
  have hlen : ((l.take i).flatMap A.encode).length = A.sizeofEntry * i := by
    rw [A.length_flatMap_encode, List.length_take, Nat.min_eq_left hi.le]
  have hput : A.put s i e c = { c with
      mem := writeBytes c.mem ((c.sects s).p + ((l.take i).flatMap A.encode).length)
        (A.encode e) } := by
    rw [put, hlen]
  obtain ⟨hold', hg', hother⟩ := hg.write hs (hsplit ▸ h.holds)
    ((A.length_encode e).trans (A.length_encode l[i]).symm) hput
  refine ⟨⟨h.behind, ?_⟩, hg', hother⟩
  rw [List.set_eq_take_append_cons_drop, if_pos hi, List.flatMap_append, List.flatMap_cons,
    ← List.append_assoc]
  exact hold'

end EntryLayout

end QnxStartup
