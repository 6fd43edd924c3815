import QnxStartup.HwiAlloc

/-! The chain of tags in the hardware information: every allocation appends to it, and a
walk by the sizes visits it. -/

namespace QnxStartup

inductive TagKind where
  | pad | tag | item
  deriving DecidableEq, Repr

structure HwiTag where
  kind : TagKind
  size : Nat
  align : Nat
  deriving DecidableEq, Repr

def HwiTag.header (t : HwiTag) : Nat := if t.kind = .item then 12 else 4

/-- The sizes the callers ask for. -/
structure HwiTag.Shaped (t : HwiTag) : Prop where
  words : 4 ∣ t.size
  header_le : t.header ≤ t.size

def tagSpan (tags : List HwiTag) : Nat := (tags.map HwiTag.size).sum

@[simp] theorem tagSpan_nil : tagSpan [] = 0 := rfl

@[simp] theorem tagSpan_cons (t : HwiTag) (tags : List HwiTag) :
    tagSpan (t :: tags) = t.size + tagSpan tags := by
  simp [tagSpan]

@[simp] theorem tagSpan_append (tags tags' : List HwiTag) :
    tagSpan (tags ++ tags') = tagSpan tags + tagSpan tags' := by
  simp [tagSpan]

def located : Nat → List HwiTag → List (Nat × HwiTag)
  | _, [] => []
  | o, t :: tags => (o, t) :: located (o + t.size) tags

theorem located_append (o : Nat) (tags tags' : List HwiTag) :
    located o (tags ++ tags') = located o tags ++ located (o + tagSpan tags) tags' := by
  induction tags generalizing o with
  | nil => rfl
  | cons t tags ih =>
    rw [List.cons_append, located, located, ih, tagSpan_cons, Nat.add_assoc, List.cons_append]

theorem mem_located {o : Nat} {tags : List HwiTag} {e : Nat × HwiTag} :
    e ∈ located o tags ↔ ∃ pre post, tags = pre ++ e.2 :: post ∧ e.1 = o + tagSpan pre := by
  induction tags generalizing o with
  | nil => simp [located]
  | cons t tags ih =>
    rw [located, List.mem_cons, ih]
    constructor
    · rintro (rfl | ⟨pre, post, rfl, h⟩)
      · exact ⟨[], tags, rfl, rfl⟩
      · exact ⟨t :: pre, post, rfl, by rw [h, tagSpan_cons, Nat.add_assoc]⟩
    · rintro ⟨pre, post, h, he⟩
      cases pre with
      | nil =>
        obtain ⟨rfl, -⟩ := List.cons.inj h
        exact .inl (Prod.ext he rfl)
      | cons u pre =>
        obtain ⟨rfl, rfl⟩ := List.cons.inj h
        exact .inr ⟨pre, post, rfl, by rw [he, tagSpan_cons, Nat.add_assoc]⟩

theorem position_cases {pre post pre' post' : List HwiTag} {t t' : HwiTag}
    (h : pre ++ t :: post = pre' ++ t' :: post') :
    (∃ mid, pre' = pre ++ t :: mid ∧ post = mid ++ t' :: post') ∨
    (∃ mid, pre = pre' ++ t' :: mid ∧ post' = mid ++ t :: post) ∨
      (pre = pre' ∧ t = t' ∧ post = post') := by
  rcases List.append_eq_append_iff.mp h with ⟨l, h1, h2⟩ | ⟨l, h1, h2⟩
  · cases l with
    | nil =>
      obtain ⟨rfl, rfl⟩ := List.cons.inj h2
      exact .inr (.inr ⟨by simpa using h1.symm, rfl, rfl⟩)
    | cons u l =>
      obtain ⟨rfl, rfl⟩ := List.cons.inj h2
      exact .inl ⟨l, h1, rfl⟩
  · cases l with
    | nil =>
      obtain ⟨rfl, rfl⟩ := List.cons.inj h2
      exact .inr (.inr ⟨by simpa using h1, rfl, rfl⟩)
    | cons u l =>
      obtain ⟨rfl, rfl⟩ := List.cons.inj h2
      exact .inr (.inl ⟨l, h1, rfl⟩)

theorem snoc_cases {tags pre post : List HwiTag} {n t : HwiTag}
    (h : tags ++ [n] = pre ++ t :: post) :
    (pre = tags ∧ t = n ∧ post = []) ∨ ∃ post', post = post' ++ [n] ∧ tags = pre ++ t :: post' := by
  rcases List.eq_nil_or_concat post with rfl | ⟨post', u, rfl⟩
  · obtain ⟨rfl, hn⟩ := List.append_inj' h rfl
    obtain ⟨rfl, -⟩ := List.cons.inj hn
    exact .inl ⟨rfl, rfl, rfl⟩
  · rw [List.concat_eq_append, ← List.cons_append, ← List.append_assoc] at h
    obtain ⟨rfl, hn⟩ := List.append_inj' h rfl
    obtain ⟨rfl, -⟩ := List.cons.inj hn
    exact .inr ⟨post', List.concat_eq_append, rfl⟩

/-- The tags from an item on, up to the next one. -/
def itemTags (post : List HwiTag) : List HwiTag := post.takeWhile (·.kind ≠ .item)

theorem itemTags_of_item {post tags : List HwiTag} {t : HwiTag} (ht : t ∈ post)
    (hk : t.kind = .item) :
    itemTags (post ++ tags) = itemTags post := by
  induction post with
  | nil => simp at ht
  | cons u post ih =>
    unfold itemTags at ih ⊢
    rw [List.cons_append, List.takeWhile_cons, List.takeWhile_cons]
    split
    · next hu =>
      rcases List.mem_cons.mp ht with rfl | ht
      · simp [hk] at hu
      · rw [ih ht]
    · rfl

theorem itemTags_eq_self {post : List HwiTag} (h : ∀ t ∈ post, t.kind ≠ .item) :
    itemTags post = post :=
  List.takeWhile_eq_self_iff.mpr fun t ht => by simpa using h t ht

theorem itemTags_append_item {post : List HwiTag} {n : HwiTag} (hn : n.kind = .item) :
    itemTags (post ++ [n]) = itemTags post := by
  induction post with
  | nil => simp [itemTags, hn]
  | cons u post ih =>
    unfold itemTags at ih ⊢
    rw [List.cons_append, List.takeWhile_cons, List.takeWhile_cons, ih]

/-- The table is the chain of `tags`. -/
structure Chain (a : HwiTable) (tags : List HwiTag) : Prop where
  offset : a.offset = tagSpan tags
  shaped : ∀ t ∈ tags, t.Shaped
  sizes : ∀ pre t post, tags = pre ++ t :: post → 4 * read16 a.content (tagSpan pre) = t.size
  aligned : ∀ pre t post, tags = pre ++ t :: post → t.align ∣ tagSpan pre
  items : ∀ pre t post, tags = pre ++ t :: post → t.kind = .item →
    4 * read16 a.content (tagSpan pre + 4) = t.size + tagSpan (itemTags post)
  last : tags ≠ [] → ∃ pre t post, tags = pre ++ t :: post ∧ t.kind = .item ∧
    (∀ u ∈ post, u.kind ≠ .item) ∧ a.lastItem = tagSpan pre

theorem Chain.congr {a : HwiTable} {tags : List HwiTag} {m : Mem} (h : Chain a tags)
    (heq : ∀ pre t post, tags = pre ++ t :: post →
      read16 m (tagSpan pre) = read16 a.content (tagSpan pre) ∧
        (t.kind = .item → read16 m (tagSpan pre + 4) = read16 a.content (tagSpan pre + 4))) :
    Chain { a with content := m } tags :=
  ⟨h.offset, h.shaped, fun pre t post ht => by
    rw [← h.sizes pre t post ht, ← (heq pre t post ht).1],
    h.aligned, fun pre t post ht hk => by
      rw [← h.items pre t post ht hk, ← (heq pre t post ht).2 hk], h.last⟩

/-- Where a tag lies with respect to an item of the same chain. -/
theorem span_cases {tags pre post pre₀ post₀ : List HwiTag} {t t₀ : HwiTag}
    (ht : tags = pre ++ t :: post) (ht₀ : tags = pre₀ ++ t₀ :: post₀) (hsize₀ : 12 ≤ t₀.size) :
    (tagSpan pre + t.size ≤ tagSpan pre₀ ∧ t₀ ∈ post) ∨
      (tagSpan pre₀ + 12 ≤ tagSpan pre ∧ t ∈ post₀) ∨
      (pre = pre₀ ∧ t = t₀ ∧ post = post₀) := by
  rcases position_cases (ht.symm.trans ht₀) with ⟨mid, rfl, rfl⟩ | ⟨mid, rfl, rfl⟩ | hsame
  · refine .inl ⟨?_, by simp⟩
    simp only [tagSpan_append, tagSpan_cons]
    omega
  · refine .inr (.inl ⟨?_, by simp⟩)
    simp only [tagSpan_append, tagSpan_cons]
    omega
  · exact .inr (.inr hsame)

theorem Chain.write_field {a : HwiTable} {tags pre post : List HwiTag} {t : HwiTag} {d : Nat}
    (n : Nat) (h : Chain a tags) (ht : tags = pre ++ t :: post) (hk : t.kind = .item)
    (hd : 6 ≤ d ∧ d ≤ 10) :
    Chain { a with content := write16 a.content (tagSpan pre + d) n } tags := by
  have hsize := (h.shaped t (by simp [ht])).header_le
  rw [HwiTag.header, if_pos hk] at hsize
  refine h.congr fun pre' t' post' ht' => ?_
  have hsize' := (h.shaped t' (by simp [ht'])).header_le
  have hpos : tagSpan pre' + t'.size ≤ tagSpan pre ∨ tagSpan pre + 12 ≤ tagSpan pre' ∨
      tagSpan pre' = tagSpan pre := by
    rcases span_cases ht' ht hsize with ⟨hle, -⟩ | ⟨hle, -⟩ | ⟨rfl, -, -⟩
    · exact .inl hle
    · exact .inr (.inl hle)
    · exact .inr (.inr rfl)
  unfold HwiTag.header at hsize'
  constructor
  · refine read16_write16_apart ?_
    split at hsize' <;> omega
  · intro hk'
    rw [if_pos hk'] at hsize'
    exact read16_write16_apart (by omega)

theorem add16_self (m : Mem) (a n : Nat) : read16 (add16 m a n) a = (read16 m a + n) % 2 ^ 16 :=
  read16_write16 ..

section Reads

variable {a : HwiTable} {nameOff size b : Nat}

theorem HwiTable.read_tag (h : b + 2 ≤ a.offset)
    (h' : b + 2 ≤ a.lastItem + 4 ∨ a.lastItem + 6 ≤ b) :
    read16 (a.tag nameOff size).content b = read16 a.content b := by
  rw [tag, read16_write16_apart (by omega), read16_write16_apart (by omega), add16,
    read16_write16_apart (by omega)]

theorem HwiTable.read_tag_size (hsize : size / 4 < 2 ^ 16) :
    read16 (a.tag nameOff size).content a.offset = size / 4 := by
  rw [tag, read16_write16_apart (by omega), read16_write16, Nat.mod_eq_of_lt hsize]

theorem HwiTable.read_tag_count (h : a.lastItem + 6 ≤ a.offset ∨ a.offset ≤ a.lastItem) :
    read16 (a.tag nameOff size).content (a.lastItem + 4) =
      (read16 a.content (a.lastItem + 4) + size / 4) % 2 ^ 16 := by
  rw [tag, read16_write16_apart (by omega), read16_write16_apart (by omega), add16_self]

end Reads

theorem HwiTag.four_le_header (t : HwiTag) : 4 ≤ t.header := by
  unfold header
  split <;> omega

theorem Chain.header_bound {a : HwiTable} {tags pre post : List HwiTag} {t : HwiTag}
    (h : Chain a tags) (ht : tags = pre ++ t :: post) : tagSpan pre + t.header ≤ a.offset := by
  have hle := (h.shaped t (by simp [ht])).header_le
  rw [h.offset, ht, tagSpan_append, tagSpan_cons]
  omega

section

variable {a : HwiTable} {tags pre₀ post₀ : List HwiTag} {n t₀ : HwiTag} (nameOff : Nat)

/-- A new tag counts in the last item, and in no other one. -/
theorem Chain.tag_items (h : Chain a tags) (ht₀ : tags = pre₀ ++ t₀ :: post₀)
    (hk₀ : t₀.kind = .item) (hpost₀ : ∀ u ∈ post₀, u.kind ≠ .item)
    (hlast : a.lastItem = tagSpan pre₀) (hk : n.kind ≠ .item) (hn : n.Shaped)
    (hfit : a.offset + n.size ≤ tempSyspageSize) {pre post : List HwiTag} {t : HwiTag}
    (ht : tags ++ [n] = pre ++ t :: post) (hkt : t.kind = .item) :
    4 * read16 (a.tag nameOff n.size).content (tagSpan pre + 4) =
      t.size + tagSpan (itemTags post) := by
  have hsize₀ := (h.shaped t₀ (by simp [ht₀])).header_le
  rw [HwiTag.header, if_pos hk₀] at hsize₀
  have hheader := hn.header_le
  rw [HwiTag.header, if_neg hk] at hheader
  have hwords := hn.words
  simp only [tempSyspageSize] at hfit
  have hend : tagSpan pre₀ + t₀.size + tagSpan post₀ = a.offset := by
    rw [h.offset, ht₀, tagSpan_append, tagSpan_cons, Nat.add_assoc]
  rcases snoc_cases ht with ⟨rfl, rfl, rfl⟩ | ⟨post', rfl, ht'⟩
  · exact absurd hkt hk
  have hb := h.header_bound ht'
  rw [HwiTag.header, if_pos hkt] at hb
  have hold := h.items pre t post' ht' hkt
  rcases span_cases ht' ht₀ hsize₀ with ⟨hp, hin⟩ | ⟨-, hin⟩ | ⟨rfl, rfl, rfl⟩
  · have hsz := (h.shaped t (by simp [ht'])).header_le
    rw [HwiTag.header, if_pos hkt] at hsz
    rw [HwiTable.read_tag (by omega) (by omega), hold, itemTags_of_item hin hk₀]
  · exact absurd hkt (hpost₀ t hin)
  · have hall : ∀ u ∈ post' ++ [n], u.kind ≠ .item := fun u hu => by
      rcases List.mem_append.mp hu with hu | hu
      · exact hpost₀ u hu
      · rw [List.mem_singleton.mp hu]
        exact hk
    rw [itemTags_eq_self hpost₀] at hold
    rw [← hlast, HwiTable.read_tag_count (by omega), itemTags_eq_self hall, tagSpan_append,
      tagSpan_cons, tagSpan_nil, hlast]
    omega

theorem Chain.tag (h : Chain a tags) (hne : tags ≠ []) (hk : n.kind ≠ .item) (hn : n.Shaped)
    (halign : n.align ∣ a.offset) (hfit : a.offset + n.size ≤ tempSyspageSize) :
    Chain (a.tag nameOff n.size) (tags ++ [n]) := by
  obtain ⟨pre₀, t₀, post₀, ht₀, hk₀, hpost₀, hlast⟩ := h.last hne
  have hsize₀ := (h.shaped t₀ (by simp [ht₀])).header_le
  rw [HwiTag.header, if_pos hk₀] at hsize₀
  have hwords := hn.words
  have hoffset := h.offset
  refine ⟨?_, ?_, ?_, ?_, fun pre t post ht hkt =>
    h.tag_items nameOff ht₀ hk₀ hpost₀ hlast hk hn hfit ht hkt, ?_⟩
  · simp [HwiTable.tag, hoffset]
  · intro t ht
    rcases List.mem_append.mp ht with ht | ht
    · exact h.shaped t ht
    · rw [List.mem_singleton.mp ht]
      exact hn
  · intro pre t post ht
    simp only [tempSyspageSize] at hfit
    rcases snoc_cases ht with ⟨rfl, rfl, rfl⟩ | ⟨post', rfl, ht'⟩
    · rw [← hoffset, HwiTable.read_tag_size (by omega)]
      omega
    · have hb := h.header_bound ht'
      have hsz := (h.shaped t (by simp [ht'])).header_le
      have h4 := t.four_le_header
      rw [HwiTable.read_tag (by omega), h.sizes pre t post' ht']
      rcases span_cases ht' ht₀ hsize₀ with hp | hp | ⟨rfl, -, -⟩ <;> omega
  · intro pre t post ht
    rcases snoc_cases ht with ⟨rfl, rfl, rfl⟩ | ⟨post', rfl, ht'⟩
    · rw [← hoffset]
      exact halign
    · exact h.aligned pre t post' ht'
  · intro _
    refine ⟨pre₀, t₀, post₀ ++ [n], by rw [ht₀, List.append_assoc, List.cons_append], hk₀,
      fun u hu => ?_, hlast⟩
    rcases List.mem_append.mp hu with hu | hu
    · exact hpost₀ u hu
    · rw [List.mem_singleton.mp hu]
      exact hk

end

theorem Chain.item {a : HwiTable} {tags : List HwiTag} {n : HwiTag} (nameOff : Nat)
    (h : Chain a tags) (hclear : ∀ k, a.offset ≤ k → a.content k = 0) (hk : n.kind = .item)
    (hn : n.Shaped) (halign : n.align ∣ a.offset) (hfit : a.offset + n.size ≤ tempSyspageSize) :
    Chain (a.startItem.tag nameOff n.size) (tags ++ [n]) := by
  have hheader := hn.header_le
  rw [HwiTag.header, if_pos hk] at hheader
  have hwords := hn.words
  simp only [tempSyspageSize] at hfit
  have hoffset := h.offset
  have hread : ∀ b, b + 2 ≤ a.offset → read16 (a.startItem.tag nameOff n.size).content b =
      read16 a.content b :=
    fun b hb => HwiTable.read_tag hb (.inl (show b + 2 ≤ a.offset + 4 by omega))
  have hcount : read16 (a.startItem.tag nameOff n.size).content (a.offset + 4) = n.size / 4 := by
    have hc : read16 (a.startItem.tag nameOff n.size).content (a.offset + 4) =
        (read16 a.content (a.offset + 4) + n.size / 4) % 2 ^ 16 :=
      HwiTable.read_tag_count (.inr le_rfl)
    rw [hc, read16_of_zero (hclear _ (by omega)) (hclear _ (by omega)), Nat.zero_add,
      Nat.mod_eq_of_lt (by omega)]
  refine ⟨?_, ?_, ?_, ?_, ?_, ?_⟩
  · simp [HwiTable.tag, HwiTable.startItem, hoffset]
  · intro t ht
    rcases List.mem_append.mp ht with ht | ht
    · exact h.shaped t ht
    · rw [List.mem_singleton.mp ht]
      exact hn
  · intro pre t post ht
    rcases snoc_cases ht with ⟨rfl, rfl, rfl⟩ | ⟨post', rfl, ht'⟩
    · have hnew : read16 (a.startItem.tag nameOff t.size).content a.offset = t.size / 4 :=
        HwiTable.read_tag_size (by omega)
      rw [← hoffset, hnew]
      omega
    · have hb := h.header_bound ht'
      have h4 := t.four_le_header
      rw [hread _ (by omega), h.sizes pre t post' ht']
  · intro pre t post ht
    rcases snoc_cases ht with ⟨rfl, rfl, rfl⟩ | ⟨post', rfl, ht'⟩
    · rw [← hoffset]
      exact halign
    · exact h.aligned pre t post' ht'
  · intro pre t post ht hkt
    rcases snoc_cases ht with ⟨rfl, rfl, rfl⟩ | ⟨post', rfl, ht'⟩
    · rw [← hoffset, hcount]
      simp only [itemTags, List.takeWhile_nil, tagSpan_nil]
      omega
    · have hb := h.header_bound ht'
      rw [HwiTag.header, if_pos hkt] at hb
      rw [hread _ (by omega), h.items pre t post' ht' hkt, itemTags_append_item hk]
  · intro _
    exact ⟨tags, n, [], rfl, hk, by simp, hoffset⟩

theorem Chain.four_dvd {a : HwiTable} {tags : List HwiTag} (h : Chain a tags) : 4 ∣ a.offset := by
  rw [h.offset]
  have hs := h.shaped
  clear h
  induction tags with
  | nil => exact ⟨0, rfl⟩
  | cons t tags ih =>
    rw [tagSpan_cons]
    exact Nat.dvd_add (hs t (by simp)).words (ih fun u hu => hs u (by simp [hu]))

theorem align_distance {align o : Nat} (ha : align = 4 ∨ align = 8) (h4 : 4 ∣ o)
    (ho : o ≤ tempSyspageSize) :
    (align ∣ o ∧ sub32 (u32 (round o align)) o = 0) ∨
      (¬ align ∣ o ∧ align ∣ o + 4 ∧ sub32 (u32 (round o align)) o ≠ 0) := by
  simp only [tempSyspageSize] at ho
  have h := fun k hk => round_two_pow (k := k) (x := o) hk
  rcases ha with rfl | rfl
  · obtain ⟨h1, h2, h3⟩ := h 2 (by decide) (by omega)
    change o ≤ round o 4 at h1
    change 4 ∣ round o 4 at h2
    change round o 4 < o + 4 at h3
    rw [u32_of_lt (by omega), sub32_of_le (by omega) h1]
    exact .inl ⟨h4, by omega⟩
  · obtain ⟨h1, h2, h3⟩ := h 3 (by decide) (by omega)
    change o ≤ round o 8 at h1
    change 8 ∣ round o 8 at h2
    change round o 8 < o + 8 at h3
    rw [u32_of_lt (by omega), sub32_of_le (by omega) h1]
    omega

/-- Outside the current item's size the tags stay as they are. -/
def HwiTable.Keeps (a a' : HwiTable) : Prop :=
  ∀ k < a.offset, ¬ (a.lastItem + 4 ≤ k ∧ k < a.lastItem + 6) → a'.content k = a.content k

theorem HwiTable.keeps_tag (a : HwiTable) (nameOff size : Nat) : a.Keeps (a.tag nameOff size) := by
  intro k hk hn
  simp only [tag]
  rw [write16_of_not_mem (by omega), write16_of_not_mem (by omega), add16,
    write16_of_not_mem (by omega)]

theorem HwiTable.Keeps.trans {a a' a'' : HwiTable} (h : a.Keeps a') (h' : a'.Keeps a'')
    (ho : a.offset ≤ a'.offset) (hl : a'.lastItem = a.lastItem) : a.Keeps a'' := fun k hk hn =>
  (h' k (hk.trans_le ho) (by rwa [hl])).trans (h k hk hn)

def padTag : HwiTag := ⟨.pad, 4, 4⟩

theorem HwiHolds.offset_le {header : Nat} {s : HwiState} {a : HwiTable} (h : HwiHolds header s a) :
    a.offset ≤ tempSyspageSize := by
  have h1 := h.room
  have h2 := (h.growing.size_le .hwinfo).1
  omega

theorem Chain.lastItem_le {a : HwiTable} {tags : List HwiTag} (h : Chain a tags) (hne : tags ≠ []) :
    a.lastItem + 12 ≤ a.offset := by
  obtain ⟨pre, t, post, ht, hk, -, hl⟩ := h.last hne
  have hb := h.header_bound ht
  rw [HwiTag.header, if_pos hk] at hb
  omega

theorem alignTag_spec {header align : Nat} {s s' : HwiState} {a : HwiTable} {tags : List HwiTag}
    (hpos : 0 < header) (h : HwiHolds header s a) (hc : Chain a tags) (ha : align = 4 ∨ align = 8)
    (hrun : alignTag align s = .ok s') :
    ∃ a' pads, HwiHolds header s' a' ∧ Chain a' (tags ++ pads) ∧ (∀ p ∈ pads, p = padTag) ∧
      align ∣ a'.offset ∧
      a'.lastItem = a.lastItem ∧ a.offset ≤ a'.offset ∧ a.Keeps a' := by
  have hdist := align_distance ha hc.four_dvd h.offset_le
  have hdist₄ := align_distance (.inl rfl) hc.four_dvd h.offset_le
  unfold alignTag at hrun
  rw [h.offset] at hrun
  rcases hdist with ⟨hd, hz⟩ | ⟨hd, hd', hnz⟩
  · rw [if_neg (by rw [hz]; simp)] at hrun
    cases hrun
    exact ⟨a, [], h, by simpa using hc, by simp, hd, rfl, le_rfl, fun _ _ _ => rfl⟩
  · have hne : tags ≠ [] := by
      rintro rfl
      rw [hc.offset] at hd
      exact hd ⟨0, rfl⟩
    have hz₄ := (hdist₄.resolve_right fun hh => hh.1 hc.four_dvd).2
    rw [if_pos hnz, if_neg (by rw [hz₄]; simp)] at hrun
    obtain ⟨⟨t, s₁⟩, hplace, hrun⟩ := bind_eq_ok.mp hrun
    cases hrun
    have hlast := hc.lastItem_le hne
    obtain ⟨-, nameOff, h'⟩ := h.placeTag hpos ⟨by decide, by decide⟩ (by decide) le_rfl
      (by omega) hplace
    have hfit := h'.offset_le
    exact ⟨_, [padTag], h', hc.tag (n := padTag) nameOff hne (by decide) ⟨⟨1, rfl⟩,
      by decide⟩ hc.four_dvd hfit, by simp, hd', rfl, Nat.le_add_right _ _, a.keeps_tag nameOff 4⟩

theorem hwiAllocTag_spec {header t : Nat} {s s' : HwiState} {a : HwiTable} {tags : List HwiTag}
    {n : HwiTag} {name : List UInt8} (hpos : 0 < header) (h : HwiHolds header s a)
    (hc : Chain a tags) (hne : tags ≠ []) (hname : HwiName name) (hk : n.kind = .tag)
    (hn : n.Shaped) (hsize : n.size ≤ tempSyspageSize) (ha : n.align = 4 ∨ n.align = 8)
    (hrun : hwiAllocTag name n.size n.align s = .ok (t, s')) :
    ∃ a' pads, HwiHolds header s' a' ∧ Chain a' (tags ++ pads ++ [n]) ∧ (∀ p ∈ pads, p = padTag) ∧
      t = tagSpan (tags ++ pads) ∧ a.Keeps a' := by
  obtain ⟨s₁, halign, hplace⟩ := bind_eq_ok.mp hrun
  obtain ⟨a₁, pads, h₁, hc₁, hpads, hd, hlast, hle, hkeep⟩ := alignTag_spec hpos h hc ha halign
  have hheader := hn.header_le
  have h4 := n.four_le_header
  have hl := hc₁.lastItem_le (by simp [hne])
  obtain ⟨ht, nameOff, h₂⟩ := h₁.placeTag hpos hname hsize (by omega) (by omega) hplace
  have hfit := h₂.offset_le
  refine ⟨_, pads, h₂, hc₁.tag nameOff (by simp [hne]) (by rw [hk]; decide) hn hd hfit, hpads,
    ht.trans hc₁.offset, hkeep.trans (a₁.keeps_tag nameOff n.size) hle hlast⟩

def IsOwner (tags : List HwiTag) (owner : Nat) : Prop :=
  ∃ pre t post, tags = pre ++ t :: post ∧ t.kind = .item ∧ owner = tagSpan pre

theorem IsOwner.append {tags : List HwiTag} {owner : Nat} (h : IsOwner tags owner)
    (tags' : List HwiTag) :
    IsOwner (tags ++ tags') owner := by
  obtain ⟨pre, t, post, rfl, hk, ho⟩ := h
  exact ⟨pre, t, post ++ tags', by simp, hk, ho⟩

theorem Chain.owner_le {a : HwiTable} {tags : List HwiTag} {owner : Nat} (h : Chain a tags)
    (ho : IsOwner tags owner) : owner + 12 ≤ a.offset := by
  obtain ⟨pre, t, post, ht, hk, rfl⟩ := ho
  have hb := h.header_bound ht
  rwa [HwiTag.header, if_pos hk] at hb

theorem Chain.write_owner {a : HwiTable} {tags : List HwiTag} {owner d : Nat} (n : Nat)
    (h : Chain a tags) (ho : IsOwner tags owner) (hd : 6 ≤ d ∧ d ≤ 10) :
    Chain { a with content := write16 a.content (owner + d) n } tags := by
  obtain ⟨pre, t, post, ht, hk, rfl⟩ := ho
  exact h.write_field n ht hk hd

theorem Chain.setItem {a : HwiTable} {tags : List HwiTag} {t nameOff owner : Nat} (h : Chain a tags)
    (ht : IsOwner tags t) (ho : owner ≠ hwiNullOff → IsOwner tags owner) :
    Chain (a.setItem t nameOff owner) tags := by
  have h' := (h.write_owner nameOff ht (d := 6) (by omega)).write_owner owner ht (d := 8) (by omega)
  unfold HwiTable.setItem
  by_cases hnull : owner ≠ hwiNullOff
  · simp only [if_pos hnull]
    exact h'.write_owner _ (ho hnull) (by omega)
  · simp only [if_neg hnull]
    exact h'

theorem HwiHolds.setItem {header t nameOff owner : Nat} {s : HwiState} {a : HwiTable}
    (h : HwiHolds header s a) (ht : t + 12 ≤ a.offset)
    (ho : owner ≠ hwiNullOff → owner + 12 ≤ a.offset) :
    HwiHolds header { s with page := { s.page with
      mem :=
        let p := (s.page.sects .hwinfo).p
        let m := write16 (write16 s.page.mem (p + (t + 6)) nameOff) (p + (t + 8)) owner
        if owner ≠ hwiNullOff then add16 m (p + (owner + 10)) 1 else m } }
          (a.setItem t nameOff owner) := by
  have h' := (h.write nameOff (show t + 6 + 2 ≤ a.offset by omega)).write owner
    (show t + 8 + 2 ≤ a.offset by omega)
  unfold HwiTable.setItem
  by_cases hnull : owner ≠ hwiNullOff
  · have hle := ho hnull
    simp only [if_pos hnull]
    exact h'.add 1 (show owner + 10 + 2 ≤ a.offset by omega)
  · simp only [if_neg hnull]
    exact h'

theorem alignTag_of_dvd {align : Nat} {s : HwiState} (ha : align = 4 ∨ align = 8)
    (hd : align ∣ s.offset) (h4 : 4 ∣ s.offset) (ho : s.offset ≤ tempSyspageSize) :
    alignTag align s = .ok s := by
  have hz := ((align_distance ha h4 ho).resolve_right fun hh => hh.1 hd).2
  rw [alignTag, if_neg (by rw [hz]; simp)]

/-- An item's own `hwi_alloc_tag` finds the offset aligned already. -/
theorem HwiHolds.startItem {header align : Nat} {s : HwiState} {a : HwiTable} {tags : List HwiTag}
    (h : HwiHolds header s a) (hc : Chain a tags) (ha : align = 4 ∨ align = 8)
    (hd : align ∣ a.offset) :
    HwiHolds header { s with lastItem := s.offset } a.startItem ∧
      alignTag align { s with lastItem := s.offset } = .ok { s with lastItem := s.offset } :=
  ⟨⟨h.growing, h.strings, h.offset, h.offset, h.room, h.bytes, h.clear⟩,
    alignTag_of_dvd ha (by simpa only [h.offset] using hd)
      (by simpa only [h.offset] using hc.four_dvd)
      (by simpa only [h.offset] using h.offset_le)⟩

/-- `hwi_alloc_item` appends the item, and counts it with its owner. -/
theorem hwiAllocItem_spec {header t owner : Nat} {s s' : HwiState} {a : HwiTable}
    {tags : List HwiTag} {n : HwiTag} {name itemname : List UInt8} (hpos : 0 < header)
    (h : HwiHolds header s a) (hc : Chain a tags) (hname : HwiName name) (hitem : HwiName itemname)
    (hk : n.kind = .item) (hn : n.Shaped) (hsize : n.size ≤ tempSyspageSize)
    (ha : n.align = 4 ∨ n.align = 8) (ho : owner ≠ hwiNullOff → IsOwner tags owner)
    (hrun : hwiAllocItem name n.size n.align itemname owner s = .ok (t, s')) :
    ∃ a' pads, HwiHolds header s' a' ∧ Chain a' (tags ++ pads ++ [n]) ∧ (∀ p ∈ pads, p = padTag) ∧
      t = tagSpan (tags ++ pads) ∧
      ∀ k < a.offset, ¬ (a.lastItem + 4 ≤ k ∧ k < a.lastItem + 6) →
        (owner ≠ hwiNullOff → ¬ (owner + 10 ≤ k ∧ k < owner + 12)) →
          a'.content k = a.content k := by
  obtain ⟨⟨savedIn, c⟩, hadd, hrun⟩ := bind_eq_ok.mp hrun
  obtain ⟨s₁, halign, hrun⟩ := bind_eq_ok.mp hrun
  obtain ⟨⟨t', s₂⟩, htag, hrun⟩ := bind_eq_ok.mp hrun
  obtain ⟨rfl, rfl⟩ := Prod.mk.inj (Except.ok.inj hrun)
  have h₀ := h.addString hpos hitem hadd
  obtain ⟨a₁, pads, h₁, hc₁, hpads, hd, hlast, hle, hkeep⟩ := alignTag_spec hpos h₀ hc ha halign
  have hheader := hn.header_le
  rw [HwiTag.header, if_pos hk] at hheader
  obtain ⟨hstart, hnone⟩ := h₁.startItem hc₁ ha hd
  rw [hwiAllocTag, hnone] at htag
  obtain ⟨ht, nameOff, h₂⟩ := hstart.placeTag hpos hname hsize (by omega)
    (show a₁.offset + 6 ≤ a₁.offset + n.size by omega) htag
  have hfit := h₂.offset_le
  have hc₂ := hc₁.item nameOff h₁.clear hk hn hd hfit
  have htn : t' = tagSpan (tags ++ pads) := ht.trans hc₁.offset
  have hown : IsOwner (tags ++ pads ++ [n]) t' := ⟨_, n, [], rfl, hk, htn⟩
  have ho' : owner ≠ hwiNullOff → IsOwner (tags ++ pads ++ [n]) owner := fun hnull => by
    rw [List.append_assoc]
    exact (ho hnull).append _
  refine ⟨_, pads, h₂.setItem (hc₂.owner_le hown) (fun hnull => hc₂.owner_le (ho' hnull)),
    hc₂.setItem hown ho', hpads, htn, fun k hk hcount howner => ?_⟩
  have hk₁ : k < a₁.offset := hk.trans_le hle
  have hkeep' : (a₁.startItem.tag nameOff n.size).content k = a.content k := by
    have hstart := a₁.startItem.keeps_tag nameOff n.size k hk₁
      (by simp only [HwiTable.startItem]; omega)
    exact hstart.trans (hkeep k hk hcount)
  have ht₁ : t' = a₁.offset := ht
  unfold HwiTable.setItem
  by_cases hnull : owner ≠ hwiNullOff
  · have hko := howner hnull
    simp only [if_pos hnull, add16]
    rw [write16_of_not_mem (by omega), write16_of_not_mem (by omega),
      write16_of_not_mem (by omega), hkeep']
  · simp only [if_neg hnull]
    rw [write16_of_not_mem (by omega), write16_of_not_mem (by omega), hkeep']

end QnxStartup
