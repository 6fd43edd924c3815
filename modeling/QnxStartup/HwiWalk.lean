import QnxStartup.HwiChain

/-! Runs of the allocator of hardware information, with what the callers do in between,
and the walk that readers make over the section. -/

namespace QnxStartup

/-- The walk of `print_hwinfo`: the offsets and sizes it visits, and where it ends. -/
def walkHwinfo (m : Mem) (p : Nat) : Nat → Nat → Startup (List (Nat × Nat) × Nat)
  | 0, _ => .error .noReturn
  | n + 1, off =>
    let size := read16 m (p + off)
    if size = 0 then .ok ([], off)
    else (walkHwinfo m p n (off + 4 * size)).bind fun (l, stop) => .ok ((off, 4 * size) :: l, stop)

inductive HwiCall where
  | tag (name : List UInt8) (size align : Nat)
  | item (name : List UInt8) (size align : Nat) (itemname : List UInt8) (owner : Nat)

def HwiCall.entry : HwiCall → HwiTag
  | tag _ size align => ⟨.tag, size, align⟩
  | item _ size align _ _ => ⟨.item, size, align⟩

def HwiCall.run : HwiCall → HwiState → Startup (Nat × HwiState)
  | tag name size align, s => hwiAllocTag name size align s
  | item name size align itemname owner, s => hwiAllocItem name size align itemname owner s

/-- The caller's side: the first call is an item, owners are earlier items, and nothing is
larger than the system page. -/
def HwiCall.Allowed (past : List (Nat × HwiTag)) (op : HwiCall) : Prop :=
  op.entry.Shaped ∧ op.entry.size ≤ tempSyspageSize ∧ (op.entry.align = 4 ∨ op.entry.align = 8) ∧
    match op with
    | tag name _ _ => past ≠ [] ∧ HwiName name
    | item name _ _ itemname owner => HwiName name ∧ HwiName itemname ∧
      (owner ≠ hwiNullOff → ∃ e ∈ past, e.1 = owner ∧ e.2.kind = .item)

/-- The owner whose kids a call counts. -/
def HwiCall.Counts (op : HwiCall) (owner : Nat) : Prop :=
  owner ≠ hwiNullOff ∧ match op with
    | tag _ _ _ => False
    | item _ _ _ _ o => o = owner

/-- Another part of the library: it may fill in what it has allocated, behind the header. -/
structure HwiElsewhere (header : Nat) (past : List (Nat × HwiTag)) (s : HwiState)
    (c : Syspage) : Prop where
  growing : Growing header c
  strings : ∀ names, StringTable s.page names → ∃ names', StringTable c names'
  size : (c.sects .hwinfo).size = (s.page.sects .hwinfo).size
  bytes : ∀ k < (s.page.sects .hwinfo).size,
    (∀ e ∈ past, ¬ (e.1 + e.2.header ≤ k ∧ k < e.1 + e.2.size)) →
    c.mem ((c.sects .hwinfo).p + k) = s.page.mem ((s.page.sects .hwinfo).p + k)

/-- The runs with the tags allocated so far and their offsets, the first one first. -/
inductive HwiRun (sz : SyspageSizes) : HwiState → List (Nat × HwiTag) → Prop
  | init {base maxSize : Nat} {mem : Mem} {c : Syspage} (hpre : sz.hwiPrefix = 4)
      (hmax : maxSize ≤ tempSyspageSize) (h : initSyspageMemory sz base maxSize mem = .ok c) :
      HwiRun sz ⟨c, 0, 0⟩ []
  | elsewhere {s : HwiState} {c : Syspage} {past : List (Nat × HwiTag)} (run : HwiRun sz s past)
      (h : HwiElsewhere sz.header past s c) : HwiRun sz { s with page := c } past
  | call {s s' : HwiState} {past : List (Nat × HwiTag)} {op : HwiCall} {t : Nat}
      (run : HwiRun sz s past)
      (hallowed : op.Allowed past) (h : op.run s = .ok (t, s')) :
      HwiRun sz s' (past ++ [(t, op.entry)])

/-- The section holds the chain of the allocated tags, and padding. -/
structure HwiInv (header : Nat) (s : HwiState) (past : List (Nat × HwiTag)) (a : HwiTable)
    (tags : List HwiTag) :
    Prop where
  holds : HwiHolds header s a
  chain : Chain a tags
  past : (located 0 tags).filter (·.2.kind ≠ .pad) = past
  pads : ∀ t ∈ tags, t.kind = .pad → t = padTag

section Invariant

variable {header : Nat} {s s' : HwiState} {past : List (Nat × HwiTag)} {a : HwiTable}
  {tags : List HwiTag}

theorem HwiInv.position (h : HwiInv header s past a tags) {e : Nat × HwiTag} (he : e ∈ past) :
    ∃ pre post, tags = pre ++ e.2 :: post ∧ e.1 = tagSpan pre := by
  rw [← h.past, List.mem_filter] at he
  obtain ⟨pre, post, ht, ho⟩ := mem_located.mp he.1
  exact ⟨pre, post, ht, ho.trans (Nat.zero_add _)⟩

theorem HwiInv.owner (h : HwiInv header s past a tags) {e : Nat × HwiTag} (he : e ∈ past)
    (hk : e.2.kind = .item) :
    IsOwner tags e.1 := by
  obtain ⟨pre, post, ht, ho⟩ := h.position he
  exact ⟨pre, e.2, post, ht, hk, ho⟩

theorem HwiInv.tags_ne_nil (h : HwiInv header s past a tags) (hne : past ≠ []) : tags ≠ [] := by
  rintro rfl
  exact hne h.past.symm

theorem filter_snoc (tags pads : List HwiTag) (n : HwiTag) (hpads : ∀ p ∈ pads, p = padTag)
    (hn : n.kind ≠ .pad) :
    (located 0 (tags ++ pads ++ [n])).filter (·.2.kind ≠ .pad) =
      (located 0 tags).filter (·.2.kind ≠ .pad) ++ [(tagSpan (tags ++ pads), n)] := by
  have hnone : (located (0 + tagSpan tags) pads).filter (·.2.kind ≠ .pad) = [] := by
    refine List.filter_eq_nil_iff.mpr fun e he => ?_
    obtain ⟨pre, post, hp, -⟩ := mem_located.mp he
    have hpad := hpads e.2 (by simp [hp])
    simp [hpad, padTag]
  rw [located_append, located_append, List.filter_append, List.filter_append, hnone,
    List.append_nil, Nat.zero_add]
  simp [located, hn]

theorem HwiInv.call {op : HwiCall} {t : Nat} (hpos : 0 < header) (h : HwiInv header s past a tags)
    (hallowed : op.Allowed past) (hrun : op.run s = .ok (t, s')) :
    ∃ a' tags', HwiInv header s' (past ++ [(t, op.entry)]) a' tags' ∧ a.offset ≤ a'.offset ∧
      ∀ k < a.offset, ¬ (a.lastItem + 4 ≤ k ∧ k < a.lastItem + 6) →
        (∀ owner, op.Counts owner → ¬ (owner + 10 ≤ k ∧ k < owner + 12)) →
          a'.content k = a.content k := by
  obtain ⟨hshaped, hsize, halign, hop⟩ := hallowed
  have hpads' : ∀ (pads : List HwiTag) (n : HwiTag), (∀ p ∈ pads, p = padTag) → n.kind ≠ .pad →
      ∀ t ∈ tags ++ pads ++ [n], t.kind = .pad → t = padTag := fun pads n hp hn t ht hk => by
    rcases List.mem_append.mp ht with ht | ht
    · rcases List.mem_append.mp ht with ht | ht
      · exact h.pads t ht hk
      · exact hp t ht
    · rw [List.mem_singleton.mp ht] at hk
      exact absurd hk hn
  have hle : ∀ {a' : HwiTable} {pads : List HwiTag} {n : HwiTag}, Chain a' (tags ++ pads ++ [n]) →
      a.offset ≤ a'.offset := fun hc => by
    rw [h.chain.offset, hc.offset]
    simp only [tagSpan_append]
    omega
  cases op with
  | tag name size align =>
    obtain ⟨a', pads, h', hc, hp, ht, hkeep⟩ :=
      hwiAllocTag_spec (n := ⟨.tag, size, align⟩) hpos h.holds h.chain
      (h.tags_ne_nil hop.1) hop.2 rfl hshaped hsize halign hrun
    refine ⟨a', _, ⟨h', hc, ?_, hpads' pads _ hp TagKind.noConfusion⟩, hle hc,
      fun k hk hn _ => hkeep k hk hn⟩
    rw [filter_snoc _ _ _ hp TagKind.noConfusion, h.past, ht]
    rfl
  | item name size align itemname owner =>
    have ho : owner ≠ hwiNullOff → IsOwner tags owner := fun hnull => by
      obtain ⟨e, he, rfl, hk⟩ := hop.2.2 hnull
      exact h.owner he hk
    obtain ⟨a', pads, h', hc, hp, ht, hkeep⟩ :=
      hwiAllocItem_spec (n := ⟨.item, size, align⟩) hpos h.holds h.chain
      hop.1 hop.2.1 rfl hshaped hsize halign ho hrun
    refine ⟨a', _, ⟨h', hc, ?_, hpads' pads _ hp TagKind.noConfusion⟩, hle hc, fun k hk hn howner =>
      hkeep k hk hn fun hnull => howner owner ⟨hnull, rfl⟩⟩
    rw [filter_snoc _ _ _ hp TagKind.noConfusion, h.past, ht]
    rfl

theorem HwiInv.header_kept (h : HwiInv header s past a tags) {pre post : List HwiTag} {t : HwiTag}
    (ht : tags = pre ++ t :: post) {d : Nat} (hd : d < t.header) {e : Nat × HwiTag}
    (he : e ∈ past) :
    ¬ (e.1 + e.2.header ≤ tagSpan pre + d ∧ tagSpan pre + d < e.1 + e.2.size) := by
  obtain ⟨pre', post', ht', ho⟩ := h.position he
  have hle := (h.chain.shaped t (by simp [ht])).header_le
  have h4 := e.2.four_le_header
  rcases position_cases (ht.symm.trans ht') with ⟨mid, hpre, -⟩ | ⟨mid, hpre, -⟩ | ⟨hpre, hsame, -⟩
  · rw [ho, hpre, tagSpan_append, tagSpan_cons]
    omega
  · rw [ho, hpre, tagSpan_append, tagSpan_cons]
    omega
  · rw [ho, ← hpre, ← hsame]
    omega

theorem HwiInv.elsewhere {c : Syspage} (h : HwiInv header s past a tags)
    (he : HwiElsewhere header past s c) :
    ∃ a', HwiInv header { s with page := c } past a' tags := by
  let m : Mem := fun k => if k < (c.sects .hwinfo).size then c.mem ((c.sects .hwinfo).p + k) else 0
  have hroom := h.holds.room
  have hsize := he.size
  have hkeep : ∀ k < (s.page.sects .hwinfo).size,
      (∀ e ∈ past, ¬ (e.1 + e.2.header ≤ k ∧ k < e.1 + e.2.size)) →
      m k = a.content k := fun k hk hn => by
    simp only [m]
    rw [if_pos (by omega), he.bytes k hk hn, h.holds.bytes k hk]
  have hclear : ∀ k, a.offset ≤ k → m k = 0 := fun k hk => by
    by_cases hks : k < (s.page.sects .hwinfo).size
    · rw [hkeep k hks fun e hee hin => ?_, h.holds.clear k hk]
      obtain ⟨pre, post, ht, ho⟩ := h.position hee
      have hspan := h.chain.offset
      rw [ht, tagSpan_append, tagSpan_cons, ← ho] at hspan
      omega
    · exact if_neg (by omega)
  obtain ⟨names, ht⟩ := h.holds.strings
  have hholds : HwiHolds header { s with page := c } { a with content := m } :=
    ⟨he.growing, he.strings names ht, h.holds.offset, h.holds.lastItem, by simp only; omega,
      fun k hk => (if_pos hk).symm, hclear⟩
  refine ⟨{ a with content := m }, hholds, h.chain.congr fun pre t post ht => ?_, h.past, h.pads⟩
  have hb := h.chain.header_bound ht
  have h4 := t.four_le_header
  have hbyte : ∀ d < t.header, m (tagSpan pre + d) = a.content (tagSpan pre + d) := fun d hd =>
    hkeep _ (by omega) fun e hee => h.header_kept ht hd hee
  refine ⟨read16_congr (hbyte 0 (by omega)) (hbyte 1 (by omega)), fun hk => ?_⟩
  rw [HwiTag.header, if_pos hk] at hbyte
  exact read16_congr (hbyte 4 (by omega)) (hbyte 5 (by omega))

end Invariant

theorem HwiRun.inv {sz : SyspageSizes} {s : HwiState} {past : List (Nat × HwiTag)}
    (run : HwiRun sz s past) :
    ∃ a tags, HwiInv sz.header s past a tags := by
  induction run with
  | init hpre hmax h =>
    obtain ⟨hg, -, hs, hw⟩ := init_growing h hmax
    rw [hpre] at hw
    have hsize : (_ : Nat) = 8 := hw.1
    refine ⟨⟨fun _ => 0, 0, 0⟩, [],
      ⟨hg, ⟨[], ⟨⟨7, by simpa using hs⟩, by simp, by simp⟩⟩, rfl, rfl, ?_, fun k hk => ?_,
        fun _ _ => rfl⟩,
      ⟨rfl, by simp, by simp, by simp, by simp, fun hne => absurd rfl hne⟩, rfl, by simp⟩
    · simp only
      omega
    · simp only at hk ⊢
      exact holds_replicate.mp hw.2 k (by
        rw [show u32 (round 4 8) = 8 by decide]
        omega)
  | elsewhere _ h ih =>
    obtain ⟨a, tags, hinv⟩ := ih
    obtain ⟨a', hinv'⟩ := hinv.elsewhere h
    exact ⟨a', tags, hinv'⟩
  | call _ hallowed h ih =>
    obtain ⟨a, tags, hinv⟩ := ih
    obtain ⟨a', tags', hinv', -, -⟩ := hinv.call sz.header_bounds.1 hallowed h
    exact ⟨a', tags', hinv'⟩

theorem walkHwinfo_eq {m : Mem} {p n stop : Nat} {tags : List HwiTag} (pre : List HwiTag)
    (hsizes : ∀ pre' t post, tags = pre' ++ t :: post →
      4 * read16 m (p + (tagSpan pre + tagSpan pre')) = t.size)
    (hpos : ∀ t ∈ tags, 0 < t.size) (hstop : tagSpan pre + tagSpan tags = stop)
    (hend : read16 m (p + stop) = 0)
    (hn : tags.length < n) :
    walkHwinfo m p n (tagSpan pre) = .ok ((located (tagSpan pre) tags).map fun e => (e.1, e.2.size),
      stop) := by
  induction tags generalizing n pre with
  | nil =>
    cases n with
    | zero => simp at hn
    | succ n =>
      rw [tagSpan_nil, Nat.add_zero] at hstop
      rw [walkHwinfo, hstop, hend]
      rfl
  | cons t tags ih =>
    cases n with
    | zero => simp at hn
    | succ n =>
      have ht := hsizes [] t tags rfl
      rw [tagSpan_nil, Nat.add_zero] at ht
      have hp := hpos t (by simp)
      have hspan : tagSpan (pre ++ [t]) = tagSpan pre + t.size := by simp
      have hrest := ih (n := n) (pre ++ [t]) (fun pre' u post hu => by
          have hh := hsizes (t :: pre') u post (by rw [hu]; rfl)
          rwa [tagSpan_cons, ← Nat.add_assoc (tagSpan pre), ← hspan] at hh)
        (fun u hu => hpos u (by simp [hu])) (by rw [← hstop, hspan, tagSpan_cons, Nat.add_assoc])
          (by simpa using hn)
      rw [hspan] at hrest
      rw [walkHwinfo]
      simp only
      rw [if_neg (by omega), ht, hrest]
      rfl

theorem length_le_tagSpan {tags : List HwiTag} (h : ∀ t ∈ tags, t.Shaped) :
    tags.length ≤ tagSpan tags := by
  induction tags with
  | nil => simp
  | cons t tags ih =>
    have hle := (h t (by simp)).header_le
    have h4 := t.four_le_header
    have hrest := ih fun u hu => h u (by simp [hu])
    rw [List.length_cons, tagSpan_cons]
    omega

theorem HwiInv.walk {header : Nat} {s : HwiState} {past : List (Nat × HwiTag)} {a : HwiTable}
    {tags : List HwiTag} (h : HwiInv header s past a tags) :
    walkHwinfo s.page.mem (s.page.sects .hwinfo).p (2 ^ 64) 0 =
        .ok ((located 0 tags).map fun e => (e.1, e.2.size), tagSpan tags) ∧
      tagSpan tags + 4 ≤ (s.page.sects .hwinfo).size ∧
      (∀ k < 4, s.page.mem ((s.page.sects .hwinfo).p + (tagSpan tags + k)) = 0) ∧
      ∀ pre t post, tags = pre ++ t :: post → t.kind = .item →
        4 * read16 s.page.mem ((s.page.sects .hwinfo).p + (tagSpan pre + 4)) =
          t.size + tagSpan (itemTags post) := by
  have hroom := h.holds.room
  have hoffset := h.chain.offset
  have hread : ∀ b, b + 2 ≤ a.offset + 4 →
      read16 s.page.mem ((s.page.sects .hwinfo).p + b) = read16 a.content b := fun b hb =>
    read16_congr (h.holds.bytes b (by omega)) (h.holds.bytes (b + 1) (by omega))
  refine ⟨?_, by omega, fun k hk => ?_, fun pre t post ht hk => ?_⟩
  · have hle := h.holds.offset_le
    have hlen := length_le_tagSpan h.chain.shaped
    simp only [tempSyspageSize] at hle
    refine walkHwinfo_eq [] (fun pre t post ht => ?_) (fun t ht => ?_) (by simp) ?_ (by omega)
    · have hb := h.chain.header_bound ht
      have h4 := t.four_le_header
      rw [tagSpan_nil, Nat.zero_add, hread _ (by omega), h.chain.sizes pre t post ht]
    · have hs := (h.chain.shaped t ht).header_le
      have h4 := t.four_le_header
      omega
    · rw [hread _ (by omega)]
      exact read16_of_zero (h.holds.clear _ (by omega)) (h.holds.clear _ (by omega))
  · rw [h.holds.bytes _ (by omega), h.holds.clear _ (by omega)]
  · have hb := h.chain.header_bound ht
    rw [HwiTag.header, if_pos hk] at hb
    rw [hread _ (by omega), h.chain.items pre t post ht hk]

/-- In every state of a run the walk from offset 0 visits the allocated tags in their order,
with padding in between, each at its alignment, and ends at a zero prefix inside the section;
an item's size counts the tags up to the next item; and the next call changes of the tags at
most the size of the current item and the kids of the owner. -/
theorem hwi_chain {sz : SyspageSizes} {s : HwiState} {past : List (Nat × HwiTag)}
    (run : HwiRun sz s past) :
    (∃ tags : List HwiTag,
      walkHwinfo s.page.mem (s.page.sects .hwinfo).p (2 ^ 64) 0 =
        .ok ((located 0 tags).map fun e => (e.1, e.2.size), tagSpan tags) ∧
      (located 0 tags).filter (·.2.kind ≠ .pad) = past ∧
      (∀ t ∈ tags, t.kind = .pad → t = padTag) ∧
      (∀ e ∈ located 0 tags, e.2.align ∣ e.1) ∧
      tagSpan tags + 4 ≤ (s.page.sects .hwinfo).size ∧
      (∀ k < 4, s.page.mem ((s.page.sects .hwinfo).p + (tagSpan tags + k)) = 0) ∧
      ∀ pre t post, tags = pre ++ t :: post → t.kind = .item →
        4 * read16 s.page.mem ((s.page.sects .hwinfo).p + (tagSpan pre + 4)) =
          t.size + tagSpan (itemTags post)) ∧
    ∀ (op : HwiCall) (t : Nat) (s' : HwiState), op.Allowed past → op.run s = .ok (t, s') →
      ∀ k < s.offset, ¬ (s.lastItem + 4 ≤ k ∧ k < s.lastItem + 6) →
        (∀ owner, op.Counts owner → ¬ (owner + 10 ≤ k ∧ k < owner + 12)) →
        s'.page.mem ((s'.page.sects .hwinfo).p + k) =
          s.page.mem ((s.page.sects .hwinfo).p + k) := by
  obtain ⟨a, tags, h⟩ := run.inv
  obtain ⟨hwalk, hfit, hend, hitems⟩ := h.walk
  have hroom := h.holds.room
  refine ⟨⟨tags, hwalk, h.past, h.pads, fun e he => ?_, hfit, hend, hitems⟩,
    fun op t s' hallowed hop k hk hcount howner => ?_⟩
  · obtain ⟨pre, post, ht, ho⟩ := mem_located.mp he
    rw [ho, Nat.zero_add]
    exact h.chain.aligned pre e.2 post ht
  · obtain ⟨a', tags', h', hle, hkeep⟩ := h.call sz.header_bounds.1 hallowed hop
    have hroom' := h'.holds.room
    rw [h.holds.offset] at hk
    rw [h.holds.lastItem] at hcount
    rw [h'.holds.bytes k (by omega), h.holds.bytes k (by omega), hkeep k hk hcount howner]

theorem hwi_chain_example :
    ∃ s past, HwiRun exampleSizes s past ∧ past = [(0, ⟨.item, 12, 4⟩), (16, ⟨.tag, 16, 8⟩)] ∧
      ∃ tags : List HwiTag,
        walkHwinfo s.page.mem (s.page.sects .hwinfo).p (2 ^ 64) 0 =
          .ok ((located 0 tags).map fun e => (e.1, e.2.size), tagSpan tags) ∧
        (located 0 tags).filter (·.2.kind ≠ .pad) = past := by
  let d : HwiState := ⟨emptySyspage exampleSizes 0x1000 0xc000 fun _ => 0, 0, 0⟩
  let c := resultOr d.page (initSyspageMemory exampleSizes 0x1000 0xc000 fun _ => 0)
  let group : HwiCall := .item [71] 12 4 [104, 119] hwiNullOff
  let location : HwiCall := .tag [108] 16 8
  let r₁ := resultOr (0, d) (group.run ⟨c, 0, 0⟩)
  let r₂ := resultOr (0, d) (location.run r₁.2)
  have h₀ : initSyspageMemory exampleSizes 0x1000 0xc000 (fun _ => 0) = .ok c :=
    eq_ok_resultOr d.page (by decide)
  have h₁ : group.run ⟨c, 0, 0⟩ = .ok (r₁.1, r₁.2) := eq_ok_pair_resultOr (0, d) (by decide +kernel)
  have h₂ : location.run r₁.2 = .ok (r₂.1, r₂.2) := eq_ok_pair_resultOr (0, d) (by decide +kernel)
  have a₁ : group.Allowed [] :=
    ⟨⟨⟨3, rfl⟩, by decide⟩, by decide, .inl rfl, ⟨by decide, by decide⟩, ⟨by decide, by decide⟩,
      fun h => absurd rfl h⟩
  have a₂ : location.Allowed [(r₁.1, group.entry)] :=
    ⟨⟨⟨4, rfl⟩, by decide⟩, by decide, .inr rfl, List.cons_ne_nil _ _, by decide, by decide⟩
  have run : HwiRun exampleSizes r₂.2 [(r₁.1, group.entry), (r₂.1, location.entry)] :=
    ((HwiRun.init rfl (by decide) h₀).call a₁ h₁).call a₂ h₂
  obtain ⟨tags, hwalk, hpast, -⟩ := (hwi_chain run).1
  have h1 : r₁.1 = 0 := by decide +kernel
  have h2 : r₂.1 = 16 := by decide +kernel
  exact ⟨_, _, run, by rw [h1, h2]; rfl, tags, hwalk, hpast⟩

end QnxStartup
