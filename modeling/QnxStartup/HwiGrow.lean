import QnxStartup.HwiWalk

/-! `hwi_grow_tag`. Its parameter has the name of the static offset at which the next tag goes,
and hides it. -/

namespace QnxStartup

def hwiGrowTag (offset size : Nat) (s : HwiState) : Startup (Nat × HwiState) :=
  (growSyspageSection .hwinfo size s.page).bind fun c =>
    let p := (c.sects .hwinfo).p
    let m := add16 c.mem (p + (s.lastItem + 4)) (size / 4)
    let m := add16 m (p + offset) (size / 4)
    .ok (offset, { s with page := { c with mem := m } })

def HwiTag.grown (t : HwiTag) (size : Nat) : HwiTag := { t with size := t.size + size }

/-- The table as it ought to be: the next tag goes behind the added bytes. -/
def HwiTable.growTag (a : HwiTable) (offset size : Nat) : HwiTable :=
  { a with
    content := add16 (add16 a.content (a.lastItem + 4) (size / 4)) offset (size / 4)
    offset := a.offset + size }

/-- The other parts of the library leave the sections at least as large as they are. -/
inductive HwiGrowRun (sz : SyspageSizes) : HwiState → List (Nat × HwiTag) → Prop
  | init {base maxSize : Nat} {mem : Mem} {c : Syspage} (hpre : sz.hwiPrefix = 4)
      (hmax : maxSize ≤ tempSyspageSize) (h : initSyspageMemory sz base maxSize mem = .ok c) :
      HwiGrowRun sz ⟨c, 0, 0⟩ []
  | elsewhere {s : HwiState} {c : Syspage} {past : List (Nat × HwiTag)} (run : HwiGrowRun sz s past)
      (h : HwiElsewhere sz.header past s c)
      (hsize : ∀ t, (s.page.sects t).size ≤ (c.sects t).size) :
      HwiGrowRun sz { s with page := c } past
  | call {s s' : HwiState} {past : List (Nat × HwiTag)} {op : HwiCall} {t : Nat}
      (run : HwiGrowRun sz s past)
      (hallowed : op.Allowed past) (h : op.run s = .ok (t, s')) :
      HwiGrowRun sz s' (past ++ [(t, op.entry)])

theorem HwiGrowRun.toRun {sz : SyspageSizes} {s : HwiState} {past : List (Nat × HwiTag)}
    (run : HwiGrowRun sz s past) :
    HwiRun sz s past := by
  induction run with
  | init hpre hmax h => exact .init hpre hmax h
  | elsewhere _ h _ ih => exact ih.elsewhere h
  | call _ hallowed h ih => exact ih.call hallowed h

section Growth

variable {header size : Nat} {s : HwiState} {a : HwiTable}

theorem HwiHolds.growTag {t off : Nat} {s' : HwiState} (hpos : 0 < header) (h : HwiHolds header s a)
    (hsize : size < 2 ^ 18) (hlast : a.lastItem + 6 ≤ a.offset) (hoff : off + 2 ≤ a.offset)
    (hrun : hwiGrowTag off size s = .ok (t, s')) :
    t = off ∧ s'.offset = s.offset ∧ s'.lastItem = s.lastItem ∧
      (s'.page.sects .hwinfo).size = (s.page.sects .hwinfo).size + u32 (round size 8) ∧
        size ≤ u32 (round size 8) ∧
      HwiHolds header { s' with offset := a.offset + size } (a.growTag off size) := by
  obtain ⟨c, hgrow, hrun⟩ := bind_eq_ok.mp hrun
  obtain ⟨rfl, rfl⟩ := Prod.mk.inj (Except.ok.inj hrun)
  have hroom := h.room
  have hle := h.growing.size_le .hwinfo
  simp only [tempSyspageSize] at hle
  have hround := round_two_pow (k := 3) (by decide) (x := size) (by omega)
  obtain ⟨h1, -, h3⟩ : size ≤ round size 8 ∧ 8 ∣ round size 8 ∧ round size 8 < size + 8 := hround
  have hu : u32 (round size 8) = round size 8 := u32_of_lt (by omega)
  obtain ⟨hold, -, -, hg, hother⟩ := h.growing.grow hpos (by decide)
    (h.growing.behind (by decide)) h.section
    (by omega) (by omega) hgrow
  have hsec := hold.1
  rw [List.append_assoc, List.replicate_append_replicate] at hold
  obtain ⟨names, ht⟩ := h.strings
  have hext := h.extend hg ⟨names, ht.elsewhere (hother .strings (by decide) (by decide))⟩
    (show size + 4 ≤ _ by omega) hold
  have h₁ := hext.add (size / 4) (show a.lastItem + 4 + 2 ≤ a.offset + size by omega)
  have h₂ := h₁.add (size / 4) (show off + 2 ≤ a.offset + size by omega)
  refine ⟨rfl, rfl, rfl, ?_, by omega, ?_⟩
  · simp only [List.length_append, List.length_map, List.length_range,
      List.length_replicate] at hsec
    simp only
    omega
  · rw [h.lastItem] at h₂ ⊢
    exact h₂

theorem HwiTable.read_growTag {off b : Nat} (h : b + 2 ≤ a.lastItem + 4 ∨ a.lastItem + 6 ≤ b)
    (h' : b + 2 ≤ off ∨ off + 2 ≤ b) :
    read16 (a.growTag off size).content b = read16 a.content b := by
  rw [growTag, add16, read16_write16_apart (by omega), add16, read16_write16_apart (by omega)]

theorem HwiTable.read_growTag_prefix {off : Nat}
    (h : off + 2 ≤ a.lastItem + 4 ∨ a.lastItem + 6 ≤ off) :
    read16 (a.growTag off size).content off = (read16 a.content off + size / 4) % 2 ^ 16 := by
  rw [growTag, add16_self, add16, read16_write16_apart (by omega)]

theorem HwiTable.read_growTag_count {off : Nat}
    (h : off + 2 ≤ a.lastItem + 4 ∨ a.lastItem + 6 ≤ off) :
    read16 (a.growTag off size).content (a.lastItem + 4) =
      (read16 a.content (a.lastItem + 4) + size / 4) % 2 ^ 16 := by
  rw [growTag, add16, read16_write16_apart (by omega), add16_self]

section LastTag

variable {l : List HwiTag} {t : HwiTag}

theorem Chain.lastItem_snoc (h : Chain a (l ++ [t])) :
    (t.kind = .item ∧ a.lastItem = tagSpan l) ∨ (t.kind ≠ .item ∧ a.lastItem + 12 ≤ tagSpan l) := by
  obtain ⟨pre₀, t₀, post₀, ht₀, hk₀, hpost₀, hlast⟩ := h.last (by simp)
  rcases snoc_cases ht₀ with ⟨rfl, rfl, -⟩ | ⟨post', rfl, rfl⟩
  · exact .inl ⟨hk₀, hlast⟩
  · have hsize₀ := (h.shaped t₀ (by simp)).header_le
    rw [HwiTag.header, if_pos hk₀] at hsize₀
    refine .inr ⟨hpost₀ t (by simp), ?_⟩
    rw [hlast, tagSpan_append, tagSpan_cons]
    omega

theorem Chain.header_before (h : Chain a (l ++ [t])) {pre post : List HwiTag} {t₁ : HwiTag}
    (hl : l = pre ++ t₁ :: post) :
    tagSpan pre + t₁.header ≤ tagSpan l ∧ t₁.header ≤ t₁.size := by
  have hle := (h.shaped t₁ (by simp [hl])).header_le
  rw [hl, tagSpan_append, tagSpan_cons]
  omega

theorem Chain.growTag_sizes (h : Chain a (l ++ [t])) (h4 : 4 ∣ size)
    (hfit : a.offset + size ≤ tempSyspageSize) {pre post : List HwiTag} {t₁ : HwiTag}
    (ht₁ : l ++ [t.grown size] = pre ++ t₁ :: post) :
    4 * read16 (a.growTag (tagSpan l) size).content (tagSpan pre) = t₁.size := by
  have hlast := h.lastItem_snoc
  rcases snoc_cases ht₁ with ⟨rfl, rfl, rfl⟩ | ⟨post', rfl, hl⟩
  · have hoffset := h.offset
    rw [tagSpan_append, tagSpan_cons, tagSpan_nil] at hoffset
    simp only [tempSyspageSize] at hfit
    have hold := h.sizes pre t [] rfl
    have hnew : (t.grown size).size = t.size + size := rfl
    rw [HwiTable.read_growTag_prefix (by omega)]
    omega
  · obtain ⟨pre₀, t₀, post₀, ht₀, hk₀, -, hlast₀⟩ := h.last (by simp)
    have hsize₀ := (h.shaped t₀ (by simp [ht₀])).header_le
    rw [HwiTag.header, if_pos hk₀] at hsize₀
    have hold : l ++ [t] = pre ++ t₁ :: (post' ++ [t]) := by rw [hl]; simp
    have hb := h.header_before hl
    have h4' := t₁.four_le_header
    rw [HwiTable.read_growTag _ (.inl (by omega)), h.sizes pre t₁ (post' ++ [t]) hold]
    rcases span_cases hold ht₀ hsize₀ with hp | hp | ⟨rfl, -, -⟩ <;> omega

theorem Chain.growTag_items (h : Chain a (l ++ [t])) (h4 : 4 ∣ size)
    (hfit : a.offset + size ≤ tempSyspageSize) {pre post : List HwiTag} {t₁ : HwiTag}
    (ht₁ : l ++ [t.grown size] = pre ++ t₁ :: post) (hk₁ : t₁.kind = .item) :
    4 * read16 (a.growTag (tagSpan l) size).content (tagSpan pre + 4) =
      t₁.size + tagSpan (itemTags post) := by
  have hoffset := h.offset
  rw [tagSpan_append, tagSpan_cons, tagSpan_nil] at hoffset
  simp only [tempSyspageSize] at hfit
  have hlast := h.lastItem_snoc
  have hnew : (t.grown size).size = t.size + size := rfl
  rcases snoc_cases ht₁ with ⟨rfl, rfl, rfl⟩ | ⟨post', rfl, hl⟩
  · have hitem : a.lastItem = tagSpan pre := (hlast.resolve_right fun hno => hno.1 hk₁).2
    have hold := h.items pre t [] rfl hk₁
    simp only [itemTags, List.takeWhile_nil, tagSpan_nil] at hold ⊢
    rw [← hitem] at hold ⊢
    rw [HwiTable.read_growTag_count (by omega)]
    omega
  · obtain ⟨pre₀, t₀, post₀, ht₀, hk₀, hpost₀, hlast₀⟩ := h.last (by simp)
    have hsize₀ := (h.shaped t₀ (by simp [ht₀])).header_le
    rw [HwiTag.header, if_pos hk₀] at hsize₀
    have hold : l ++ [t] = pre ++ t₁ :: (post' ++ [t]) := by rw [hl]; simp
    have hb := h.header_before hl
    rw [HwiTag.header, if_pos hk₁] at hb
    have hitem := h.items pre t₁ (post' ++ [t]) hold hk₁
    rcases span_cases hold ht₀ hsize₀ with ⟨hp, hin⟩ | ⟨-, hin⟩ | ⟨rfl, rfl, rfl⟩
    · rw [HwiTable.read_growTag (by omega) (.inl (by omega)), hitem]
      rcases List.mem_append.mp hin with hin | hin
      · rw [itemTags_of_item hin hk₀, itemTags_of_item hin hk₀]
      · rw [List.mem_singleton] at hin
        subst hin
        rw [itemTags_append_item hk₀, itemTags_append_item (n := t₀.grown size) hk₀]
    · exact absurd hk₁ (hpost₀ t₁ hin)
    · have hall : ∀ u ∈ post' ++ [t.grown size], u.kind ≠ .item := fun u hu => by
        rcases List.mem_append.mp hu with hu | hu
        · exact hpost₀ u (List.mem_append_left _ hu)
        · rw [List.mem_singleton.mp hu]
          exact hpost₀ t (by simp)
      have hspan : tagSpan l = tagSpan pre + (t₁.size + tagSpan post') := by
        rw [hl, tagSpan_append, tagSpan_cons]
      rw [itemTags_eq_self hpost₀] at hitem
      rw [itemTags_eq_self hall, ← hlast₀, HwiTable.read_growTag_count (by omega), hlast₀]
      simp only [tagSpan_append, tagSpan_cons, tagSpan_nil] at hitem ⊢
      omega

theorem Chain.growTag_last (h : Chain a (l ++ [t])) :
    ∃ pre t₁ post, l ++ [t.grown size] = pre ++ t₁ :: post ∧ t₁.kind = .item ∧
      (∀ u ∈ post, u.kind ≠ .item) ∧
      a.lastItem = tagSpan pre := by
  obtain ⟨pre₀, t₀, post₀, ht₀, hk₀, hpost₀, hlast⟩ := h.last (by simp)
  rcases snoc_cases ht₀ with ⟨rfl, rfl, rfl⟩ | ⟨post', rfl, hl⟩
  · exact ⟨pre₀, t₀.grown size, [], rfl, hk₀, by simp, hlast⟩
  · refine ⟨pre₀, t₀, post' ++ [t.grown size], by rw [hl]; simp, hk₀, fun u hu => ?_, hlast⟩
    rcases List.mem_append.mp hu with hu | hu
    · exact hpost₀ u (by simp [hu])
    · rw [List.mem_singleton.mp hu]
      exact hpost₀ t (by simp)

/-- The last tag of a chain gets longer, and the last item with it. -/
theorem Chain.growTag (h : Chain a (l ++ [t])) (h4 : 4 ∣ size)
    (hfit : a.offset + size ≤ tempSyspageSize) :
    Chain (a.growTag (tagSpan l) size) (l ++ [t.grown size]) := by
  have hoffset := h.offset
  have hshaped := h.shaped t (by simp)
  refine ⟨?_, ?_, fun _ _ _ => h.growTag_sizes h4 hfit, ?_, fun _ _ _ => h.growTag_items h4 hfit,
    fun _ => h.growTag_last⟩
  · simp only [HwiTable.growTag, tagSpan_append, tagSpan_cons, tagSpan_nil,
      HwiTag.grown] at hoffset ⊢
    omega
  · intro t₁ ht₁
    rcases List.mem_append.mp ht₁ with ht₁ | ht₁
    · exact h.shaped t₁ (List.mem_append_left _ ht₁)
    · rw [List.mem_singleton.mp ht₁]
      exact ⟨Nat.dvd_add hshaped.words h4, hshaped.header_le.trans (Nat.le_add_right ..)⟩
  · intro pre t₁ post ht₁
    rcases snoc_cases ht₁ with ⟨rfl, rfl, rfl⟩ | ⟨post', rfl, hl⟩
    · exact h.aligned pre t [] rfl
    · exact h.aligned pre t₁ (post' ++ [t]) (by rw [hl]; simp)

end LastTag

end Growth

theorem placeTag_offset {name : List UInt8} {size t : Nat} {s s' : HwiState}
    (h : placeTag name size s = .ok (t, s')) :
    s'.offset = u32 (t + size) := by
  obtain ⟨_, -, h⟩ := bind_eq_ok.mp h
  obtain ⟨_, -, h⟩ := bind_eq_ok.mp h
  obtain ⟨rfl, rfl⟩ := Prod.mk.inj (Except.ok.inj h)
  rfl

theorem hwiAllocTag_offset {name : List UInt8} {size align t : Nat} {s s' : HwiState}
    (h : hwiAllocTag name size align s = .ok (t, s')) : s'.offset = u32 (t + size) := by
  obtain ⟨_, -, h⟩ := bind_eq_ok.mp h
  exact placeTag_offset h

theorem HwiCall.run_offset {op : HwiCall} {t : Nat} {s s' : HwiState} (h : op.run s = .ok (t, s')) :
    s'.offset = u32 (t + op.entry.size) := by
  cases op with
  | tag name size align => exact hwiAllocTag_offset h
  | item name size align itemname owner =>
    obtain ⟨_, -, h⟩ := bind_eq_ok.mp h
    obtain ⟨_, -, h⟩ := bind_eq_ok.mp h
    obtain ⟨⟨t', s₂⟩, htag, h⟩ := bind_eq_ok.mp h
    obtain ⟨rfl, rfl⟩ := Prod.mk.inj (Except.ok.inj h)
    have hoffset : s₂.offset = u32 (t' + size) := hwiAllocTag_offset htag
    exact hoffset

section Last

variable {sz : SyspageSizes} {header size : Nat} {s s' : HwiState} {past init : List (Nat × HwiTag)}
  {e : Nat × HwiTag} {a : HwiTable} {tags : List HwiTag}

theorem HwiRun.offset_eq (run : HwiRun sz s past) (hpast : past = init ++ [e]) :
    s.offset = u32 (e.1 + e.2.size) := by
  induction run generalizing init e with
  | init => simp at hpast
  | elsewhere _ _ ih => exact ih hpast
  | call _ _ h _ =>
    obtain ⟨-, hlast⟩ := List.append_inj' hpast rfl
    rw [← List.singleton_inj.mp hlast]
    exact HwiCall.run_offset h

theorem HwiInv.last (h : HwiInv header s (init ++ [e]) a tags)
    (hoff : s.offset = u32 (e.1 + e.2.size)) :
    ∃ l, tags = l ++ [e.2] ∧ e.1 = tagSpan l ∧ (located 0 l).filter (·.2.kind ≠ .pad) = init ∧
      e.2.kind ≠ .pad := by
  have hmem : e ∈ init ++ [e] := by simp
  obtain ⟨l, post, ht, ho⟩ := h.position hmem
  have hle := h.holds.offset_le
  have hspan := h.chain.offset
  rw [ht, tagSpan_append, tagSpan_cons] at hspan
  simp only [tempSyspageSize] at hle
  rw [h.holds.offset, u32_of_lt (by omega)] at hoff
  obtain rfl : post = [] := by
    cases post with
    | nil => rfl
    | cons t post =>
      have hs := (h.chain.shaped t (by simp [ht])).header_le
      have h4 := t.four_le_header
      rw [tagSpan_cons] at hspan
      omega
  have hkind : e.2.kind ≠ .pad := by
    have hmem' := hmem
    rw [← h.past, List.mem_filter] at hmem'
    simpa using hmem'.2
  refine ⟨l, ht, ho, ?_, hkind⟩
  have hpast := h.past
  have hfilter := filter_snoc l [] e.2 (by simp) hkind
  rw [List.append_nil, ← ht, hpast] at hfilter
  exact (List.append_inj' hfilter rfl).1.symm

/-- If the static offset moved along, the section would hold the chain with the longer tag. -/
theorem HwiInv.growTag {t : Nat} (hpos : 0 < header) (h : HwiInv header s (init ++ [e]) a tags)
    (hoff : s.offset = u32 (e.1 + e.2.size)) (h4 : 4 ∣ size) (hsize : size < 2 ^ 18)
    (hrun : hwiGrowTag e.1 size s = .ok (t, s')) :
    t = e.1 ∧ s'.offset = s.offset ∧
      (s'.page.sects .hwinfo).size = (s.page.sects .hwinfo).size + u32 (round size 8) ∧
        size ≤ u32 (round size 8) ∧
      ∃ tags', HwiInv header { s' with offset := a.offset + size } (init ++ [(e.1, e.2.grown size)])
        (a.growTag e.1 size) tags' := by
  obtain ⟨l, rfl, ho, hinit, hkind⟩ := h.last hoff
  have hlast := h.chain.lastItem_le (by simp)
  have hbound := h.chain.header_bound (show l ++ [e.2] = l ++ e.2 :: [] from rfl)
  have hheader := e.2.four_le_header
  obtain ⟨ht, hoffset, -, hsect, hle, hholds⟩ :=
    h.holds.growTag hpos hsize (by omega) (show e.1 + 2 ≤ a.offset by omega) hrun
  refine ⟨ht, hoffset, hsect, hle, l ++ [e.2.grown size], hholds, ?_, ?_, fun u hu hk => ?_⟩
  · rw [ho]
    exact h.chain.growTag h4 hholds.offset_le
  · have hfilter := filter_snoc l [] (e.2.grown size) (by simp) hkind
    rw [List.append_nil] at hfilter
    rw [hfilter, hinit, ho]
  · rcases List.mem_append.mp hu with hu | hu
    · exact h.pads u (List.mem_append_left _ hu) hk
    · rw [List.mem_singleton.mp hu] at hk
      exact absurd hk hkind

end Last

/-- The walk over the section, with the last tag grown, and the bytes that stay. -/
structure GrownChain (s s' : HwiState) (init : List (Nat × HwiTag)) (e : Nat × HwiTag)
    (size : Nat) : Prop where
  walk : ∃ tags : List HwiTag,
    walkHwinfo s'.page.mem (s'.page.sects .hwinfo).p (2 ^ 64) 0 =
        .ok ((located 0 tags).map fun e => (e.1, e.2.size), tagSpan tags) ∧
      (located 0 tags).filter (·.2.kind ≠ .pad) = init ++ [(e.1, e.2.grown size)] ∧
      tagSpan tags + 4 ≤ (s'.page.sects .hwinfo).size ∧
      (∀ k < 4, s'.page.mem ((s'.page.sects .hwinfo).p + (tagSpan tags + k)) = 0) ∧
      ∀ pre t post, tags = pre ++ t :: post → t.kind = .item →
        4 * read16 s'.page.mem ((s'.page.sects .hwinfo).p + (tagSpan pre + 4)) =
        t.size + tagSpan (itemTags post)
  kept : ∀ k < e.1 + e.2.size, ¬ (s.lastItem + 4 ≤ k ∧ k < s.lastItem + 6) →
    ¬ (e.1 ≤ k ∧ k < e.1 + 2) →
    s'.page.mem ((s'.page.sects .hwinfo).p + k) = s.page.mem ((s.page.sects .hwinfo).p + k)

/-- The states after the growth, with the tags there are then. -/
inductive HwiAfter (header : Nat) (s : HwiState) (past : List (Nat × HwiTag)) :
    HwiState → List (Nat × HwiTag) → Prop
  | refl : HwiAfter header s past s past
  | elsewhere {s' : HwiState} {c : Syspage} {past' : List (Nat × HwiTag)}
      (run : HwiAfter header s past s' past')
      (h : HwiElsewhere header past' s' c) : HwiAfter header s past { s' with page := c } past'
  | call {s' s'' : HwiState} {past' : List (Nat × HwiTag)} {op : HwiCall} {t : Nat}
      (run : HwiAfter header s past s' past')
      (hallowed : op.Allowed past') (h : op.run s' = .ok (t, s'')) :
      HwiAfter header s past s'' (past' ++ [(t, op.entry)])

/-- What is asked of growing the last tag: the chain, and nothing allocated later lies
in the tag. -/
structure GrowKeeps (header : Nat) (s s' : HwiState) (init : List (Nat × HwiTag)) (e : Nat × HwiTag)
    (size : Nat) : Prop
    extends GrownChain s s' init e size where
  later : ∀ {s₁ s₂ : HwiState} {past : List (Nat × HwiTag)} {op : HwiCall} {t : Nat},
    HwiAfter header s' (init ++ [(e.1, e.2.grown size)]) s₁ past → op.Allowed past →
    op.run s₁ = .ok (t, s₂) → Disjoint (bytes t op.entry.size) (bytes e.1 (e.2.grown size).size)

section Later

variable {sz : SyspageSizes} {header size : Nat} {s s' : HwiState}
  {past past' init : List (Nat × HwiTag)}
  {e : Nat × HwiTag} {a : HwiTable} {tags : List HwiTag}

theorem HwiAfter.run (h : HwiAfter sz.header s past s' past') (run : HwiRun sz s past) :
    HwiRun sz s' past' ∧ ∀ e ∈ past, e ∈ past' := by
  induction h with
  | refl => exact ⟨run, fun _ he => he⟩
  | elsewhere _ h ih => exact ⟨ih.1.elsewhere h, ih.2⟩
  | call _ hallowed h ih =>
    exact ⟨ih.1.call hallowed h, fun e he => List.mem_append_left _ (ih.2 e he)⟩

theorem located_pairwise (o : Nat) (tags : List HwiTag) :
    (located o tags).Pairwise fun e e' => e.1 + e.2.size ≤ e'.1 := by
  induction tags generalizing o with
  | nil => exact List.Pairwise.nil
  | cons t tags ih =>
    rw [located, List.pairwise_cons]
    refine ⟨fun e he => ?_, ih _⟩
    obtain ⟨pre, post, -, ho⟩ := mem_located.mp he
    exact (Nat.le_add_right ..).trans_eq ho.symm

/-- What is allocated next lies behind every tag there is. -/
theorem HwiRun.call_above {op : HwiCall} {t : Nat} (run : HwiRun sz s past)
    (hallowed : op.Allowed past) (h : op.run s = .ok (t, s')) (he : e ∈ past) :
    e.1 + e.2.size ≤ t := by
  obtain ⟨a, tags, hinv⟩ := (run.call hallowed h).inv
  have hpairs := (located_pairwise 0 tags).filter (·.2.kind ≠ .pad)
  rw [hinv.past, List.pairwise_append] at hpairs
  exact hpairs.2.2 e he (t, op.entry) (List.mem_singleton_self _)

end Later

section Strings

variable {sz : SyspageSizes} {header : Nat} {s s' : HwiState} {past : List (Nat × HwiTag)}
  {a : HwiTable}
  {tags : List HwiTag} {name : List UInt8}

theorem growSyspageSection_size_of_ne {t u : SectionId} {add : Nat} {c c' : Syspage} (hne : u ≠ t)
    (h : growSyspageSection t add c = .ok c') : (c'.sects u).size = (c.sects u).size := by
  unfold growSyspageSection at h
  split at h
  · obtain ⟨-, h⟩ := crash_ite_eq_ok.mp h
    cases h
    rw [growSection_size, if_neg hne]
  · cases h
    rfl

theorem HwiHolds.addString_strings {i : Nat} {c : Syspage} (hpos : 0 < header)
    (h : HwiHolds header s a) (hname : HwiName name) (h2 : 2 ≤ (s.page.sects .strings).size)
    (hrun : QnxStartup.addString name s.page = .ok (i, c)) :
    2 ≤ (c.sects .strings).size := by
  obtain ⟨names, ht⟩ := h.strings
  by_cases hmem : name ∈ names
  · have hfind := ht.find h.growing name
    rw [decide_eq_true hmem] at hfind
    rw [QnxStartup.addString, hfind] at hrun
    cases hrun
    exact h2
  · obtain ⟨-, ⟨j, hold⟩, -⟩ := addString_new hpos h.growing ht hmem (hname.fits h.growing) hrun
    have hsize := hold.1
    simp only [List.length_append, encodeString_length, List.length_replicate] at hsize
    omega

theorem HwiHolds.placeTag_strings {size t : Nat} (hpos : 0 < header) (h : HwiHolds header s a)
    (hname : HwiName name) (h2 : 2 ≤ (s.page.sects .strings).size)
    (hrun : QnxStartup.placeTag name size s = .ok (t, s')) :
    2 ≤ (s'.page.sects .strings).size := by
  obtain ⟨⟨nameOff, c₁⟩, hadd, hrun⟩ := bind_eq_ok.mp hrun
  obtain ⟨c₂, hgrow, hrun⟩ := bind_eq_ok.mp hrun
  obtain ⟨rfl, rfl⟩ := Prod.mk.inj (Except.ok.inj hrun)
  have h2' := h.addString_strings hpos hname h2 hadd
  simp only
  split at hgrow
  · rwa [growSyspageSection_size_of_ne (by decide) hgrow]
  · cases hgrow
    exact h2'

theorem HwiHolds.alignTag_strings {align : Nat} (hpos : 0 < header) (h : HwiHolds header s a)
    (h2 : 2 ≤ (s.page.sects .strings).size) (hrun : QnxStartup.alignTag align s = .ok s') :
    2 ≤ (s'.page.sects .strings).size := by
  unfold QnxStartup.alignTag at hrun
  split at hrun
  · split at hrun
    · cases hrun
    · obtain ⟨⟨t, s₁⟩, hplace, hrun⟩ := bind_eq_ok.mp hrun
      cases hrun
      exact h.placeTag_strings hpos ⟨by decide, by decide⟩ h2 hplace
  · cases hrun
    exact h2

theorem HwiInv.call_strings {op : HwiCall} {t : Nat} (hpos : 0 < header)
    (h : HwiInv header s past a tags) (hallowed : op.Allowed past)
    (h2 : 2 ≤ (s.page.sects .strings).size) (hrun : op.run s = .ok (t, s')) :
    2 ≤ (s'.page.sects .strings).size := by
  obtain ⟨-, -, halign, hop⟩ := hallowed
  cases op with
  | tag name size align =>
    obtain ⟨s₁, hal, hplace⟩ := bind_eq_ok.mp hrun
    obtain ⟨a₁, pads, h₁, -⟩ := alignTag_spec hpos h.holds h.chain halign hal
    exact h₁.placeTag_strings hpos hop.2 (h.holds.alignTag_strings hpos h2 hal) hplace
  | item name size align itemname owner =>
    obtain ⟨⟨savedIn, c⟩, hadd, hrun⟩ := bind_eq_ok.mp hrun
    obtain ⟨s₁, hal, hrun⟩ := bind_eq_ok.mp hrun
    obtain ⟨⟨t', s₂⟩, htag, hrun⟩ := bind_eq_ok.mp hrun
    obtain ⟨rfl, rfl⟩ := Prod.mk.inj (Except.ok.inj hrun)
    have h₀ := h.holds.addString hpos hop.2.1 hadd
    have h2₀ := h.holds.addString_strings hpos hop.2.1 h2 hadd
    obtain ⟨a₁, pads, h₁, hc₁, -, hd, -⟩ := alignTag_spec hpos h₀ h.chain halign hal
    obtain ⟨hstart, hnone⟩ := h₁.startItem hc₁ halign hd
    have h2₁ := h₀.alignTag_strings hpos h2₀ hal
    obtain ⟨s₃, hal', hplace⟩ := bind_eq_ok.mp htag
    obtain rfl := Except.ok.inj (hnone.symm.trans hal')
    have h2₂ : 2 ≤ (s₂.page.sects .strings).size := hstart.placeTag_strings hpos hop.1 h2₁ hplace
    exact h2₂

theorem HwiGrowRun.strings (run : HwiGrowRun sz s past) : 2 ≤ (s.page.sects .strings).size := by
  induction run with
  | init hpre hmax h =>
    obtain ⟨-, -, hs, -⟩ := init_growing h hmax
    rw [hs.1]
    decide
  | elsewhere _ _ hsize ih => exact ih.trans (hsize .strings)
  | call run hallowed h ih =>
    obtain ⟨a, tags, hinv⟩ := run.toRun.inv
    exact hinv.call_strings sz.header_bounds.1 hallowed ih h

end Strings

section Overlap

variable {sz : SyspageSizes} {header size t : Nat} {s s' : HwiState} {init : List (Nat × HwiTag)}
  {e : Nat × HwiTag}

theorem add16_zero (m : Mem) (a : Nat) : add16 m a 0 = m := by
  have h0 := (m a).toNat_lt
  have h1 := (m (a + 1)).toNat_lt
  obtain ⟨hlo, hhi, -⟩ := holds_writeBytes m a (le16 (read16 m a))
  funext x
  rw [add16, Nat.add_zero, write16]
  by_cases hx : x = a
  · rw [hx, hlo]
    refine UInt8.toNat_inj.mp ?_
    rw [UInt8.toNat_ofNat', read16]
    omega
  · by_cases hx' : x = a + 1
    · rw [hx', hhi]
      refine UInt8.toNat_inj.mp ?_
      rw [UInt8.toNat_ofNat', read16]
      omega
    · exact write16_of_not_mem (by omega)

theorem hwiGrowTag_zero (off : Nat) (s : HwiState) : hwiGrowTag off 0 s = .ok (off, s) := by
  simp only [hwiGrowTag, growSyspageSection, lt_irrefl, if_false, Except.bind,
    Nat.zero_div, add16_zero]

theorem addString_of_room {c : Syspage} {name : List UInt8} {i : Nat}
    (hfind : findString c.mem (c.sects .strings).p name (2 ^ 32) 0 = .ok (false, i))
    (hroom : u32 (name.length + 2) ≤ sub32 (c.sects .strings).size i) :
    addString name c =
      .ok (i, { c with
        mem := strlcpy c.mem ((c.sects .strings).p + i) name
          (sub32 (c.sects .strings).size i) }) := by
  rw [addString, hfind]
  simp only [Except.bind, Bool.false_eq_true, if_false, if_neg (not_lt.mpr hroom)]

/-- Some name can be had without growing the strings section. -/
theorem StringTable.addString_ok {c : Syspage} {names : List (List UInt8)} (h : StringTable c names)
    (hg : Growing header c) (h2 : 2 ≤ (c.sects .strings).size) :
    ∃ name i c', HwiName name ∧ addString name c = .ok (i, c') ∧ c'.sects = c.sects := by
  obtain ⟨k, hsize, -⟩ := h.holds
  have hle := (hg.size_le .strings).1
  cases names with
  | nil =>
    have hfind := h.find hg []
    rw [recordOffset_of_not_mem (by simp)] at hfind
    rw [decide_eq_false (by simp), List.flatMap_nil, List.length_nil] at hfind
    simp only [tempSyspageSize] at hle
    refine ⟨[], 0, _, ⟨by simp, Nat.zero_le _⟩, addString_of_room hfind ?_, rfl⟩
    rw [sub32_of_le (by omega) (by omega), List.length_nil, u32_of_lt (by omega)]
    exact h2
  | cons name names =>
    have hname := h.valid name (by simp)
    have hlen : name.length ≤ (c.sects .strings).size := by
      simp only [List.flatMap_cons, List.length_append, encodeString_length] at hsize
      omega
    have hfind := h.find hg name
    rw [decide_eq_true (by simp)] at hfind
    refine ⟨name, recordOffset encodeString id (name :: names) name, c,
      ⟨hname.2, hlen.trans hle⟩, ?_, rfl⟩
    rw [addString, hfind]
    simp only [Except.bind, if_true]

theorem placeTag_ok {name : List UInt8} {n i : Nat} {c : Syspage}
    (hadd : addString name s.page = .ok (i, c)) (hsects : c.sects = s.page.sects)
    (hroom : u32 (n + 4) ≤ sub32 (s.page.sects .hwinfo).size s.offset) :
    ∃ s₂, placeTag name n s = .ok (s.offset, s₂) := by
  refine ⟨_, bind_eq_ok.mpr ⟨(i, c), hadd, bind_eq_ok.mpr ⟨c, if_neg ?_, rfl⟩⟩⟩
  rw [hsects]
  exact not_lt.mpr hroom

theorem hwiGrowTag_strings {off : Nat} (h : hwiGrowTag off size s = .ok (t, s')) :
    (s'.page.sects .strings).size = (s.page.sects .strings).size := by
  obtain ⟨c, hgrow, h⟩ := bind_eq_ok.mp h
  obtain ⟨rfl, rfl⟩ := Prod.mk.inj (Except.ok.inj h)
  have hsize := growSyspageSection_size_of_ne (u := .strings) (by decide) hgrow
  exact hsize

/-- The next tag goes where the last one ended before it was grown. -/
theorem hwiGrowTag_overlap (run : HwiGrowRun sz s (init ++ [e])) (h4 : 4 ∣ size)
    (hlt : size < 2 ^ 18) (hpos : 0 < size) (hgrow : hwiGrowTag e.1 size s = .ok (t, s')) :
    ∃ op s₂, HwiCall.Allowed (init ++ [(e.1, e.2.grown size)]) op ∧ op.entry.size = 4 ∧
      op.run s' = .ok (e.1 + e.2.size, s₂) := by
  obtain ⟨a, tags, hinv⟩ := run.toRun.inv
  have hoff := run.toRun.offset_eq rfl
  obtain ⟨l, rfl, ho, -⟩ := hinv.last hoff
  obtain ⟨-, hoffset, hsect, hle, tags', hinv'⟩ := hinv.growTag sz.header_bounds.1 hoff h4 hlt hgrow
  obtain ⟨names, ht⟩ := hinv'.holds.strings
  have h2 := run.strings
  rw [← hwiGrowTag_strings hgrow] at h2
  obtain ⟨name, i, c, hname, hadd, hsects⟩ := StringTable.addString_ok (c :=
    s'.page) ht hinv'.holds.growing h2
  have hroom := hinv.holds.room
  have hmax := (hinv'.holds.growing.size_le .hwinfo).1
  have hend := hinv.chain.offset
  rw [tagSpan_append, tagSpan_cons, tagSpan_nil, ← ho] at hend
  rw [hinv.holds.offset] at hoffset
  simp only [tempSyspageSize] at hmax
  have hspare : u32 (4 + 4) ≤ sub32 (s'.page.sects .hwinfo).size s'.offset := by
    rw [hoffset, hsect, u32_of_lt (by omega), sub32_of_le (by omega) (by omega)]
    omega
  obtain ⟨s₂, hplace⟩ := placeTag_ok hadd hsects hspare
  have halign : alignTag 4 s' = .ok s' := by
    have hdvd := hinv.chain.four_dvd
    exact alignTag_of_dvd (.inl rfl) (by rwa [hoffset]) (by rwa [hoffset])
      (by rw [hoffset]; exact hinv.holds.offset_le)
  refine ⟨.tag name 4 4, s₂, ⟨⟨⟨1, rfl⟩, le_rfl⟩, show 4 ≤ tempSyspageSize by decide, .inl rfl,
    by simp, hname⟩, rfl, ?_⟩
  rw [show e.1 + e.2.size = s'.offset by omega]
  exact bind_eq_ok.mpr ⟨s', halign, hplace⟩

theorem walkHwinfo_size_lt {m : Mem} {p n off stop : Nat} {l : List (Nat × Nat)}
    (h : walkHwinfo m p n off = .ok (l, stop)) : ∀ x ∈ l, x.2 < 2 ^ 18 := by
  induction n generalizing off l with
  | zero => cases h
  | succ n ih =>
    rw [walkHwinfo] at h
    simp only at h
    split at h
    · cases h
      simp
    · obtain ⟨⟨l', stop'⟩, hrest, h⟩ := bind_eq_ok.mp h
      cases h
      intro x hx
      rcases List.mem_cons.mp hx with rfl | hx
      · have h0 := (m (p + off)).toNat_lt
        have h1 := (m (p + off + 1)).toNat_lt
        simp only [read16]
        omega
      · exact ih hrest x hx

theorem GrownChain.size_lt (h : GrownChain s s' init e size) : size < 2 ^ 18 := by
  obtain ⟨tags, hwalk, hpast, -⟩ := h.walk
  have hmem : (e.1, e.2.grown size) ∈ (located 0 tags).filter (·.2.kind ≠ .pad) := by
    rw [hpast]
    simp
  have hlt := walkHwinfo_size_lt hwalk _ (List.mem_map_of_mem (List.mem_of_mem_filter hmem))
  simp only [HwiTag.grown] at hlt
  omega

theorem grownChain (run : HwiGrowRun sz s (init ++ [e])) (h4 : 4 ∣ size) (hlt : size < 2 ^ 18)
    (hgrow : hwiGrowTag e.1 size s = .ok (t, s')) : GrownChain s s' init e size := by
  obtain ⟨a, tags, hinv⟩ := run.toRun.inv
  have hoff := run.toRun.offset_eq rfl
  obtain ⟨l, rfl, ho, -⟩ := hinv.last hoff
  obtain ⟨-, -, -, -, tags', hinv'⟩ := hinv.growTag sz.header_bounds.1 hoff h4 hlt hgrow
  have hend := hinv.chain.offset
  rw [tagSpan_append, tagSpan_cons, tagSpan_nil, ← ho] at hend
  have hroom := hinv.holds.room
  have hroom' := hinv'.holds.room
  obtain ⟨hwalk, hfit, hzero, hitems⟩ := hinv'.walk
  refine ⟨⟨tags', hwalk, hinv'.past, hfit, hzero, hitems⟩, fun k hk hcount hprefix => ?_⟩
  rw [hinv.holds.lastItem] at hcount
  have hnew := hinv'.holds.bytes k (by simp only [HwiTable.growTag] at hroom' ⊢; omega)
  have hold := hinv.holds.bytes k (by omega)
  rw [hold]
  exact hnew.trans ((write16_of_not_mem hprefix).trans (write16_of_not_mem (by omega)))

/-- Growing the last tag leaves the chain as it should be, but the next tag goes on top of what has
been added: all is well exactly when nothing is added. -/
theorem hwi_grow_tag_iff (run : HwiGrowRun sz s (init ++ [e])) (h4 : 4 ∣ size)
    (hgrow : hwiGrowTag e.1 size s = .ok (t, s')) :
    (GrowKeeps sz.header s s' init e size ↔ size = 0) ∧
      (size < 2 ^ 18 → t = e.1 ∧ GrownChain s s' init e size) := by
  refine ⟨⟨fun h => ?_, ?_⟩, fun hlt => ⟨?_, grownChain run h4 hlt hgrow⟩⟩
  · by_contra hne
    obtain ⟨op, s₂, hallowed, h4, hop⟩ := hwiGrowTag_overlap run h4 h.toGrownChain.size_lt
      (Nat.pos_of_ne_zero hne) hgrow
    have hdisj := h.later .refl hallowed hop
    have hmem : e.1 + e.2.size ∈ bytes (e.1 + e.2.size) op.entry.size := by
      rw [mem_bytes, h4]
      omega
    have hsize : (e.2.grown size).size = e.2.size + size := rfl
    refine absurd (Set.disjoint_left.mp hdisj hmem) (not_not.mpr ?_)
    rw [mem_bytes, hsize]
    omega
  · rintro rfl
    have hchain := grownChain run h4 (by decide) hgrow
    rw [hwiGrowTag_zero] at hgrow
    obtain ⟨-, rfl⟩ := Prod.mk.inj (Except.ok.inj hgrow)
    refine ⟨hchain, fun hafter hallowed hop => ?_⟩
    have hrun₀ : HwiRun sz s (init ++ [(e.1, e.2.grown 0)]) := run.toRun
    have hrun := hafter.run hrun₀
    have habove := hrun.1.call_above hallowed hop (hrun.2 (e.1, e.2.grown 0) (by simp))
    exact Set.disjoint_left.mpr fun x hx hx' => absurd (hx'.2.trans_le habove) (not_lt.mpr hx.1)
  · obtain ⟨c, -, h⟩ := bind_eq_ok.mp hgrow
    exact (Prod.mk.inj (Except.ok.inj h)).1.symm

end Overlap

/-- An item and a tag of 16 bytes, growth by eight bytes, and one more tag. -/
theorem hwiGrow_run :
    ∃ (s s' s₂ : HwiState) (init : List (Nat × HwiTag)),
      HwiGrowRun exampleSizes s (init ++ [(16, ⟨.tag, 16, 8⟩)]) ∧
      hwiGrowTag 16 8 s = .ok (16, s') ∧ (HwiCall.tag [108] 4 4).run s' = .ok (32, s₂) := by
  let d : HwiState := ⟨emptySyspage exampleSizes 0x1000 0xc000 fun _ => 0, 0, 0⟩
  let c := resultOr d.page (initSyspageMemory exampleSizes 0x1000 0xc000 fun _ => 0)
  let group : HwiCall := .item [71] 12 4 [104, 119] hwiNullOff
  let location : HwiCall := .tag [108] 16 8
  let r₁ := resultOr (0, d) (group.run ⟨c, 0, 0⟩)
  let r₂ := resultOr (0, d) (location.run r₁.2)
  let r₃ := resultOr (0, d) (hwiGrowTag 16 8 r₂.2)
  let r₄ := resultOr (0, d) ((HwiCall.tag [108] 4 4).run r₃.2)
  have h₀ : initSyspageMemory exampleSizes 0x1000 0xc000 (fun _ => 0) = .ok c :=
    eq_ok_resultOr d.page (by decide)
  have h₁ : group.run ⟨c, 0, 0⟩ = .ok (r₁.1, r₁.2) := eq_ok_pair_resultOr (0, d) (by decide +kernel)
  have h₂ : location.run r₁.2 = .ok (r₂.1, r₂.2) := eq_ok_pair_resultOr (0, d) (by decide +kernel)
  have h₃ : hwiGrowTag 16 8 r₂.2 = .ok (r₃.1, r₃.2) :=
    eq_ok_pair_resultOr (0, d) (by decide +kernel)
  have h₄ : (HwiCall.tag [108] 4 4).run r₃.2 = .ok (r₄.1, r₄.2) :=
    eq_ok_pair_resultOr (0, d) (by decide +kernel)
  have a₁ : group.Allowed [] :=
    ⟨⟨⟨3, rfl⟩, by decide⟩, by decide, .inl rfl, ⟨by decide, by decide⟩, ⟨by decide, by decide⟩,
      fun h => absurd rfl h⟩
  have a₂ : location.Allowed [(r₁.1, group.entry)] :=
    ⟨⟨⟨4, rfl⟩, by decide⟩, by decide, .inr rfl, List.cons_ne_nil _ _, by decide, by decide⟩
  have run : HwiGrowRun exampleSizes r₂.2 [(r₁.1, group.entry), (r₂.1, location.entry)] :=
    ((HwiGrowRun.init rfl (by decide) h₀).call a₁ h₁).call a₂ h₂
  have h2 : r₂.1 = 16 := by decide +kernel
  have h3 : r₃.1 = 16 := by decide +kernel
  have h4 : r₄.1 = 32 := by decide +kernel
  rw [h2] at run
  rw [h3] at h₃
  rw [h4] at h₄
  exact ⟨r₂.2, r₃.2, r₄.2, [(r₁.1, group.entry)], run, h₃, h₄⟩

theorem hwi_grow_tag_example :
    ∃ (s s' : HwiState) (init : List (Nat × HwiTag)), hwiGrowTag 16 8 s = .ok (16, s') ∧
      GrownChain s s' init (16, ⟨.tag, 16, 8⟩) 8 ∧
      (GrowKeeps exampleSizes.header s s' init (16, ⟨.tag, 16, 8⟩) 8 ↔ 8 = 0) := by
  obtain ⟨s, s', _, init, run, hgrow, -⟩ := hwiGrow_run
  have h := hwi_grow_tag_iff (e := (16, ⟨.tag, 16, 8⟩)) run (show 4 ∣ 8 by decide) hgrow
  exact ⟨s, s', init, hgrow, (h.2 (by decide)).2, h.1⟩

theorem hwi_grow_tag_overlaps :
    ∃ (s s' : HwiState) (init : List (Nat × HwiTag)),
      HwiGrowRun exampleSizes s (init ++ [(16, ⟨.tag, 16, 8⟩)]) ∧
      hwiGrowTag 16 8 s = .ok (16, s') ∧
        ¬ GrowKeeps exampleSizes.header s s' init (16, ⟨.tag, 16, 8⟩) 8 := by
  obtain ⟨s, s', s₂, init, run, hgrow, hnext⟩ := hwiGrow_run
  refine ⟨s, s', init, run, hgrow, fun h => ?_⟩
  have hallowed : (HwiCall.tag [108] 4 4).Allowed (init ++ [(16, ⟨.tag, 24, 8⟩)]) :=
    ⟨⟨⟨1, rfl⟩, by decide⟩, by decide, .inl rfl, by simp, by decide, by decide⟩
  have hdisj := h.later .refl hallowed hnext
  exact Set.disjoint_left.mp hdisj (show 32 ∈ bytes 32 4 by simp [mem_bytes])
    (show 32 ∈ bytes 16 24 by simp [mem_bytes])

end QnxStartup
