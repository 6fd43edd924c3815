import QnxStartup.Calloc
import QnxStartup.Descriptor
import QnxStartup.Radix

/-! The page tables as a forest of lookup tables: what is linked where, that no two
places share a table, and what hanging a new table or rewriting a last one changes. -/

namespace QnxStartup

theorem MapState.entry_eq {s s' : MapState} {a i : Nat}
    (h : ∀ o < 8, s'.ram.mem (a + 8 * i + o) = s.ram.mem (a + 8 * i + o)) :
    s'.entry a i = s.entry a i := by
  unfold MapState.entry
  exact readPtr_congr h

variable [MmuHeader]
open MmuHeader

/-- The two trees; `true` is the one of `ttbr1`. -/
def MapState.forest (s : MapState) : TableForest Bool Nat Nat where
  root b := if b then s.l1Ttbr1 else s.l1Ttbr0
  link t i := if s.entry t i = 0 then none else some (ptpPaddr (s.entry t i))

theorem MapState.forest_link (s : MapState) (t i : Nat) :
    s.forest.link t i = if s.entry t i = 0 then none else some (ptpPaddr (s.entry t i)) := by
  simp only [MapState.forest]

/-- How many indices lead to an `L3` table. -/
def depth : Nat := if useLargePage then 1 else 2

/-- The slots through which `aarch64_map_init` makes the tables visible in themselves. -/
def SelfLinked (b : Bool) (p : List Nat) : Prop :=
  b = true ∧ ([l1L1Idx] <+: p ∨ useLargePage = false ∧ [l1L2Idx, l2L2Idx] <+: p)

def Place (b : Bool) (p : List Nat) : Prop :=
  p.length ≤ depth ∧ (∀ i ∈ p, i < npte) ∧ ¬ SelfLinked b p

theorem place_prefixClosed : TableForest.PrefixClosed Place := by
  rintro b p i ⟨hlen, hlt, hself⟩
  refine ⟨by simp at hlen; omega, fun j hj => hlt j (by simp [hj]), fun ⟨hb, hp⟩ => hself ⟨hb, ?_⟩⟩
  exact hp.imp (·.trans (List.prefix_append p [i])) fun h =>
    ⟨h.1, h.2.trans (List.prefix_append p [i])⟩

theorem place_nil (b : Bool) : Place b [] :=
  ⟨Nat.zero_le _, by simp, by simp [SelfLinked]⟩

theorem Place.lt {b : Bool} {p : List Nat} {i : Nat} (h : Place b (p ++ [i])) : i < npte :=
  h.2.1 i (by simp)

def leafPath (c : Nat) : List Nat := if useLargePage then [c] else [c / npte, c % npte]

theorem leafPath_length (c : Nat) : (leafPath c).length = depth := by
  unfold leafPath depth
  split <;> rfl

theorem Place.ne_leafPath {b : Bool} {p : List Nat} {i : Nat} (h : Place b (p ++ [i])) (c : Nat) :
    p ≠ leafPath c := by
  rintro rfl
  have := h.1
  rw [List.length_append, leafPath_length] at this
  simp at this

theorem leafPath_inj {c c' : Nat} (h : leafPath c = leafPath c') : c = c' := by
  unfold leafPath at h
  split at h
  · simpa using h
  · simp only [List.cons.injEq, and_true] at h
    rw [← Nat.div_add_mod c npte, ← Nat.div_add_mod c' npte, h.1, h.2]

/-- The `L3` entry of a page, 0 when the walk ends above it. -/
def MapState.leaf (s : MapState) (b : Bool) (p : Nat) : Nat :=
  ((s.forest.table b (leafPath (p / npte))).map (s.entry · (p % npte))).getD 0

def MapState.tableBytes (s : MapState) : Set Nat :=
  {x | ∃ b p a, Place b p ∧ s.forest.table b p = some a ∧ x ∈ bytes a pagesz}

structure MapState.Tables (s : MapState) (f : FreeList) : Prop where
  fresh : FreshRam s.ram f
  apart : s.forest.Apart Place
  aligned : ∀ {b p a}, Place b p → s.forest.table b p = some a → pagesz ∣ a
  owned : ∀ {b p a}, Place b p → s.forest.table b p = some a → Disjoint (bytes a pagesz) f.bytes
  linked : ∀ {b p i a}, Place b (p ++ [i]) → s.forest.table b p = some a →
    s.entry a i = 0 ∨ s.entry a i % 4 = 3

/-- States in which `set_pte` makes the same descriptors. -/
structure SameCpus (s s' : MapState) : Prop where
  virtualMode : s'.virtualMode = s.virtualMode
  numCpu : s'.numCpu = s.numCpu
  meltdownActive : s'.meltdownActive = s.meltdownActive

omit [MmuHeader] in
theorem SameCpus.trans {s s' s'' : MapState} (h : SameCpus s s') (h' : SameCpus s' s'') :
    SameCpus s s'' :=
  ⟨h'.virtualMode.trans h.virtualMode, h'.numCpu.trans h.numCpu,
    h'.meltdownActive.trans h.meltdownActive⟩

theorem SameCpus.pteAttr {s s' : MapState} (h : SameCpus s s') (flags : Nat) :
    pteAttr flags s' = pteAttr flags s := by
  simp only [QnxStartup.pteAttr, setPte, h.numCpu, h.meltdownActive]

/-- From `s` to `s'` only free RAM became page tables, and nothing else was written. -/
structure Grows (s s' : MapState) (f f' : FreeList) : Prop where
  free : f'.bytes ⊆ f.bytes
  tables : s'.tableBytes ⊆ s.tableBytes ∪ f.bytes
  mem : ∀ x ∉ s.tableBytes ∪ f.bytes, s'.ram.mem x = s.ram.mem x
  ram : SameRam s.ram s'.ram
  rest : s' = { s with ram := s'.ram }

theorem Grows.refl (s : MapState) (f : FreeList) : Grows s s f f :=
  ⟨subset_rfl, Set.subset_union_left, fun _ _ => rfl, .refl _, rfl⟩

theorem Grows.trans {s s' s'' : MapState} {f f' f'' : FreeList} (h : Grows s s' f f')
    (h' : Grows s' s'' f' f'') :
    Grows s s'' f f'' where
  free := h'.free.trans h.free
  tables := h'.tables.trans (Set.union_subset h.tables (h.free.trans Set.subset_union_right))
  mem := fun x hx => by
    have hx' : x ∉ s'.tableBytes ∪ f'.bytes := fun hc =>
      hx (hc.elim (fun ht => h.tables ht) fun hf => .inr (h.free hf))
    rw [h'.mem x hx', h.mem x hx]
  ram := h.ram.trans h'.ram
  rest := by rw [h'.rest, h.rest]

theorem eight_mul_npte : 8 * npte = pagesz := by
  rcases page_cases with ⟨-, hp, hn, -⟩ | ⟨-, hp, hn, -⟩ <;> rw [hp, hn] <;> rfl

theorem npte_pos : 0 < npte := by
  rcases page_cases with ⟨-, -, hn, -⟩ | ⟨-, -, hn, -⟩ <;> rw [hn] <;> decide

theorem pages_disjoint {a a' : Nat} (ha : pagesz ∣ a) (ha' : pagesz ∣ a') (hne : a ≠ a') :
    Disjoint (bytes a pagesz) (bytes a' pagesz) := by
  obtain ⟨q, rfl⟩ := ha
  obtain ⟨q', rfl⟩ := ha'
  refine Set.disjoint_left.mpr fun x hx hx' => hne ?_
  rw [mem_bytes] at hx hx'
  rcases page_cases with ⟨-, hp, -⟩ | ⟨-, hp, -⟩ <;> rw [hp] at hx hx' ⊢ <;> omega

theorem entry_bytes {a i x : Nat} (hi : i < npte) (hx : a + 8 * i ≤ x ∧ x < a + 8 * i + 8) :
    x ∈ bytes a pagesz := by
  rw [mem_bytes, ← eight_mul_npte]
  omega

theorem MapState.entry_congr {s s' : MapState} {a i : Nat} (hi : i < npte)
    (h : ∀ x ∈ bytes a pagesz, s'.ram.mem x = s.ram.mem x) : s'.entry a i = s.entry a i :=
  MapState.entry_eq fun _ ho => h _ (entry_bytes hi (by omega))

theorem MapState.forest_eq (s s' : MapState) (hrest : s' = { s with ram := s'.ram }) (b : Bool) :
    s'.forest.root b = s.forest.root b := by
  rw [hrest]
  rfl

namespace MapState.Tables

variable {s : MapState} {f : FreeList}

theorem disjoint (h : s.Tables f) {b b' : Bool} {p p' : List Nat} {a a' : Nat} (hp : Place b p)
    (hp' : Place b' p') (ht : s.forest.table b p = some a) (ht' : s.forest.table b' p' = some a')
    (hne : ¬ (b = b' ∧ p = p')) :
    Disjoint (bytes a pagesz) (bytes a' pagesz) := by
  refine pages_disjoint (h.aligned hp ht) (h.aligned hp' ht') fun heq => hne ?_
  subst heq
  exact h.apart hp hp' ht ht'

theorem leaf_eq_entry {b : Bool} {p t : Nat}
    (ht : s.forest.table b (leafPath (p / npte)) = some t) :
    s.leaf b p = s.entry t (p % npte) := by
  rw [MapState.leaf, ht]
  rfl

theorem leaf_eq_zero {b : Bool} {p : Nat} (ht : s.forest.table b (leafPath (p / npte)) = none) :
    s.leaf b p = 0 := by
  rw [MapState.leaf, ht]
  rfl

theorem entry_withMem (h : s.Tables f) {b : Bool} {c t : Nat} {m : Mem} (hc : Place b (leafPath c))
    (ht : s.forest.table b (leafPath c) = some t) (hm : ∀ x ∉ bytes t pagesz, m x = s.ram.mem x)
    {k : Bool} {p : List Nat} {a i : Nat} (hp : Place k p) (ha : s.forest.table k p = some a)
    (hi : i < npte) (hne : ¬ (k = b ∧ p = leafPath c)) : (s.withMem m).entry a i = s.entry a i :=
  MapState.entry_congr hi fun x hx => hm x (Set.disjoint_left.mp (h.disjoint hp hc ha ht hne) hx)

theorem table_withMem (h : s.Tables f) {b : Bool} {c t : Nat} {m : Mem} (hc : Place b (leafPath c))
    (ht : s.forest.table b (leafPath c) = some t) (hm : ∀ x ∉ bytes t pagesz, m x = s.ram.mem x) :
    ∀ {k p}, Place k p → (s.withMem m).forest.table k p = s.forest.table k p := by
  intro k p
  have hroot : ∀ k, (s.withMem m).forest.root k = s.forest.root k := fun _ => rfl
  refine TableForest.table_congr place_prefixClosed hroot fun k p i a hp ha => ?_
  have he := h.entry_withMem hc ht hm (place_prefixClosed k p i hp) ha hp.lt fun hk =>
    hp.ne_leafPath c hk.2
  rw [MapState.forest_link, MapState.forest_link, he]

theorem withMem (h : s.Tables f) {b : Bool} {c t : Nat} {m : Mem} (hc : Place b (leafPath c))
    (ht : s.forest.table b (leafPath c) = some t) (hm : ∀ x ∉ bytes t pagesz, m x = s.ram.mem x) :
    (s.withMem m).Tables f where
  fresh := ⟨h.fresh.holds, h.fresh.physical, h.fresh.zeroes⟩
  apart := h.apart.congr (h.table_withMem hc ht hm)
  aligned := fun hp ha => h.aligned hp (h.table_withMem hc ht hm hp ▸ ha)
  owned := fun hp ha => h.owned hp (h.table_withMem hc ht hm hp ▸ ha)
  linked := fun {k p i a} hp ha => by
    have hpl := place_prefixClosed k p i hp
    rw [h.table_withMem hc ht hm hpl] at ha
    rw [h.entry_withMem hc ht hm hpl ha hp.lt fun hk => hp.ne_leafPath c hk.2]
    exact h.linked hp ha

theorem leaf_withMem (h : s.Tables f) {b : Bool} {c t : Nat} {m : Mem} (hc : Place b (leafPath c))
    (ht : s.forest.table b (leafPath c) = some t) (hm : ∀ x ∉ bytes t pagesz, m x = s.ram.mem x)
    {k : Bool} {p : Nat} (hp : Place k (leafPath (p / npte))) :
    (s.withMem m).leaf k p =
      if k = b ∧ p / npte = c then (s.withMem m).entry t (p % npte) else s.leaf k p := by
  have heq := h.table_withMem hc ht hm hp
  split
  · next hk =>
    obtain ⟨rfl, rfl⟩ := hk
    exact leaf_eq_entry (heq.trans ht)
  · next hk =>
    cases ha : s.forest.table k (leafPath (p / npte)) with
    | none => rw [leaf_eq_zero (heq.trans ha), leaf_eq_zero ha]
    | some a =>
      rw [leaf_eq_entry (heq.trans ha), leaf_eq_entry ha]
      exact h.entry_withMem hc ht hm hp ha (Nat.mod_lt _ npte_pos) fun hk' =>
        hk ⟨hk'.1, leafPath_inj hk'.2⟩

theorem grows_withMem (h : s.Tables f) {b : Bool} {c t : Nat} {m : Mem} (hc : Place b (leafPath c))
    (ht : s.forest.table b (leafPath c) = some t) (hm : ∀ x ∉ bytes t pagesz, m x = s.ram.mem x) :
    Grows s (s.withMem m) f f where
  free := subset_rfl
  tables := fun _ ⟨k, p, a, hp, ha, hx⟩ => .inl ⟨k, p, a, hp, h.table_withMem hc ht hm hp ▸ ha, hx⟩
  mem := fun x hx => hm x fun hx' => hx (.inl ⟨b, _, t, hc, ht, hx'⟩)
  ram := ⟨rfl, rfl⟩
  rest := rfl

end MapState.Tables

structure SameTables (s s' : MapState) : Prop where
  ram : s'.ram = s.ram
  ttbr0 : s'.l1Ttbr0 = s.l1Ttbr0
  ttbr1 : s'.l1Ttbr1 = s.l1Ttbr1

namespace SameTables

variable {s s' : MapState} {f : FreeList}

omit [MmuHeader] in
theorem entry (h : SameTables s s') (t i : Nat) : s'.entry t i = s.entry t i := by
  simp only [MapState.entry, h.ram]

theorem forest (h : SameTables s s') : s'.forest = s.forest := by
  simp only [MapState.forest, h.entry, h.ttbr0, h.ttbr1]

theorem leaf (h : SameTables s s') (b : Bool) (p : Nat) : s'.leaf b p = s.leaf b p := by
  simp only [MapState.leaf, h.forest, h.entry]

theorem tableBytes (h : SameTables s s') : s'.tableBytes = s.tableBytes := by
  simp only [MapState.tableBytes, h.forest]

theorem tables (h : SameTables s s') (hs : s.Tables f) : s'.Tables f where
  fresh := h.ram ▸ hs.fresh
  apart := h.forest ▸ hs.apart
  aligned := fun hp ht => hs.aligned hp (h.forest ▸ ht)
  owned := fun hp ht => hs.owned hp (h.forest ▸ ht)
  linked := fun hp ht => by
    rw [h.entry]
    exact hs.linked hp (h.forest ▸ ht)

end SameTables

/-- From `s` to `s'` no table was written, save perhaps in a self-linked slot. -/
structure Undisturbed (s s' : MapState) (f f' : FreeList) : Prop where
  ttbr0 : s'.l1Ttbr0 = s.l1Ttbr0
  ttbr1 : s'.l1Ttbr1 = s.l1Ttbr1
  fresh : FreshRam s'.ram f'
  free : f'.bytes ⊆ f.bytes
  entry : ∀ {b p t i}, Place b p → s.forest.table b p = some t → i < npte →
    p.length = depth ∨ Place b (p ++ [i]) → s'.entry t i = s.entry t i

namespace Undisturbed

variable {s s' : MapState} {f f' : FreeList}

theorem table_eq (h : Undisturbed s s' f f') {b : Bool} {p : List Nat} (hp : Place b p) :
    s'.forest.table b p = s.forest.table b p := by
  have hroot : ∀ k, s'.forest.root k = s.forest.root k := fun k => by
    simp only [MapState.forest, h.ttbr0, h.ttbr1]
  refine TableForest.table_congr place_prefixClosed hroot (fun k q i t hq ht => ?_) hp
  rw [MapState.forest_link, MapState.forest_link,
    h.entry (place_prefixClosed k q i hq) ht hq.lt (.inr hq)]

theorem tables (h : Undisturbed s s' f f') (hs : s.Tables f) : s'.Tables f' where
  fresh := h.fresh
  apart := hs.apart.congr h.table_eq
  aligned := fun hp ht => hs.aligned hp (h.table_eq hp ▸ ht)
  owned := fun hp ht => (hs.owned hp (h.table_eq hp ▸ ht)).mono_right h.free
  linked := fun {b p i t} hp ht => by
    have hp' := place_prefixClosed b p i hp
    rw [h.table_eq hp'] at ht
    rw [h.entry hp' ht hp.lt (.inr hp)]
    exact hs.linked hp ht

theorem leaf_eq (h : Undisturbed s s' f f') {b : Bool} {p : Nat}
    (hp : Place b (leafPath (p / npte))) :
    s'.leaf b p = s.leaf b p := by
  have heq := h.table_eq hp
  cases ht : s.forest.table b (leafPath (p / npte)) with
  | none => rw [MapState.Tables.leaf_eq_zero (heq.trans ht), MapState.Tables.leaf_eq_zero ht]
  | some t =>
    rw [MapState.Tables.leaf_eq_entry (heq.trans ht), MapState.Tables.leaf_eq_entry ht,
      h.entry hp ht (Nat.mod_lt _ npte_pos) (.inl (leafPath_length _))]

theorem tableBytes_eq (h : Undisturbed s s' f f') : s'.tableBytes = s.tableBytes := by
  unfold MapState.tableBytes
  simp only [Set.ext_iff, Set.mem_ofPred_eq]
  refine fun x => exists_congr fun b => exists_congr fun p => exists_congr fun t =>
    and_congr_right fun hp => ?_
  rw [h.table_eq hp]

theorem of_mem (hram : FreshRam s'.ram f') (hfree : f'.bytes ⊆ f.bytes)
    (h0 : s'.l1Ttbr0 = s.l1Ttbr0) (h1 : s'.l1Ttbr1 = s.l1Ttbr1)
    (hmem : ∀ x ∈ s.tableBytes, s'.ram.mem x = s.ram.mem x) :
    Undisturbed s s' f f' where
  ttbr0 := h0
  ttbr1 := h1
  fresh := hram
  free := hfree
  entry := fun {b p t _} hp ht hi _ => MapState.entry_congr hi fun x hx =>
    hmem x ⟨b, p, t, hp, ht, hx⟩

end Undisturbed

theorem ptAlloc_ok [SyspageHeader] {s s' : MapState} {f : FreeList} {e : Nat} (h : FreshRam s.ram f)
    (hs : ptAlloc s = .ok (s', e)) :
    ∃ n a, e = n + a ∧ IsAttr a ∧ a % 4 = 3 ∧ pagesz ∣ n ∧ bytes n pagesz ⊆ f.bytes ∧
      FreshRam s'.ram (f.erase n (n + pagesz)) ∧ s'.ram.mem = memset s.ram.mem n 0 pagesz ∧
      SameRam s.ram s'.ram ∧ s' = { s with ram := s'.ram } := by
  obtain ⟨⟨r, n⟩, hr, hs⟩ := bind_eq_ok.mp hs
  rw [crash_ite_eq_ok] at hs
  obtain ⟨hn, hs⟩ := hs
  cases hs
  have hk : ∃ k < 32, 12 ≤ k ∧ pagesz = 2 ^ k := by
    rcases page_cases with ⟨-, hp, -⟩ | ⟨-, hp, -⟩
    · exact ⟨12, by decide, le_rfl, hp⟩
    · exact ⟨16, by decide, by decide, hp⟩
  obtain ⟨k, hk, h12, hpk⟩ := hk
  rw [hpk] at hr ⊢
  rcases callocRam_fresh h (Nat.two_pow_pos k) hk hr
    with ⟨hn', -⟩ | ⟨-, hd, hsub, hfresh, hmem, hsame⟩
  · exact absurd hn' hn
  · have hlt := h.physical n (hsub (mem_bytes.mpr ⟨le_rfl, by have := Nat.two_pow_pos k; omega⟩))
    refine ⟨n, pteAttr (protRead ||| protWrite) s, ?_, isAttr_pteAttr _ s, pteAttr_type _ s,
      hd, hsub, hfresh, hmem, hsame, rfl⟩
    rw [setPte_eq, (isAttr_pteAttr _ s).paddr_or ((Nat.pow_dvd_pow 2 h12).trans hd) hlt]

/-- The zeroed page `n` was taken and linked into entry `i` of the table `t` at `p`. -/
structure Linked (s s' : MapState) (f f' : FreeList) (b : Bool) (p : List Nat)
    (i t n : Nat) : Prop where
  place : Place b (p ++ [i])
  table : s.forest.table b p = some t
  before : s.entry t i = 0
  aligned : pagesz ∣ n
  taken : bytes n pagesz ⊆ f.bytes
  free : f'.bytes = f.bytes \ bytes n pagesz
  fresh : FreshRam s'.ram f'
  after : s'.entry t i ≠ 0 ∧ s'.entry t i % 4 = 3 ∧ ptpPaddr (s'.entry t i) = n
  empty : ∀ j < npte, s'.entry n j = 0
  mem : ∀ x ∉ bytes n pagesz, ¬ (t + 8 * i ≤ x ∧ x < t + 8 * i + 8) → s'.ram.mem x = s.ram.mem x
  ram : SameRam s.ram s'.ram
  rest : s' = { s with ram := s'.ram }

namespace Linked

variable {s s' : MapState} {f f' : FreeList} {b : Bool} {p : List Nat} {i t n : Nat}

theorem not_table (h : Linked s s' f f' b p i t n) (hs : s.Tables f) {k : Bool} {q : List Nat}
    {a : Nat} (hq : Place k q) (ha : s.forest.table k q = some a) :
    Disjoint (bytes a pagesz) (bytes n pagesz) :=
  (hs.owned hq ha).mono_right h.taken

theorem entry_eq (h : Linked s s' f f' b p i t n) (hs : s.Tables f) {k : Bool} {q : List Nat}
    {a j : Nat} (hq : Place k q) (ha : s.forest.table k q = some a) (hj : j < npte)
    (hne : ¬ (a = t ∧ j = i)) :
    s'.entry a j = s.entry a j := by
  have hp := place_prefixClosed b p i h.place
  refine MapState.entry_eq fun o ho => h.mem _ ?_ ?_
  · exact Set.disjoint_left.mp (h.not_table hs hq ha) (entry_bytes hj (by omega))
  · by_cases hat : a = t
    · subst hat
      have : j ≠ i := fun hc => hne ⟨rfl, hc⟩
      omega
    · have hd := pages_disjoint (hs.aligned hq ha) (hs.aligned hp h.table) hat
      have hx := Set.disjoint_left.mp hd (entry_bytes hj (by omega : a + 8 * j ≤ a + 8 * j + o ∧ _))
      exact fun hc => hx (entry_bytes h.place.lt hc)

theorem hangs (h : Linked s s' f f' b p i t n) (hs : s.Tables f) :
    TableForest.Hangs s.forest s'.forest Place b p i t n where
  root := MapState.forest_eq s s' h.rest
  place := place_prefixClosed b p i h.place
  parent := h.table
  before := by rw [MapState.forest_link, if_pos h.before]
  after := by rw [MapState.forest_link, if_neg h.after.1, h.after.2.2]
  fresh := fun k q hq ha => by
    have hpos := npte_pos
    have hn : n ∈ bytes n pagesz := mem_bytes.mpr ⟨le_rfl, by rw [← eight_mul_npte]; omega⟩
    exact Set.disjoint_left.mp (h.not_table hs hq ha) hn hn
  empty := fun k q j hq => by rw [MapState.forest_link, if_pos (h.empty j hq.lt)]
  others := fun k q j a hq ha hne => by
    have he := h.entry_eq hs (place_prefixClosed k q j hq) ha hq.lt hne
    rw [MapState.forest_link, MapState.forest_link, he]

theorem table_eq (h : Linked s s' f f' b p i t n) (hs : s.Tables f) {k : Bool} {q : List Nat}
    (hq : Place k q) :
    s'.forest.table k q = if k = b ∧ q = p ++ [i] then some n else s.forest.table k q :=
  (h.hangs hs).table_eq place_prefixClosed hs.apart hq

theorem table_new (h : Linked s s' f f' b p i t n) (hs : s.Tables f) :
    s'.forest.table b (p ++ [i]) = some n := by
  rw [h.table_eq hs h.place, if_pos ⟨rfl, rfl⟩]

theorem tables (h : Linked s s' f f' b p i t n) (hs : s.Tables f) : s'.Tables f' where
  fresh := h.fresh
  apart := (h.hangs hs).apart place_prefixClosed hs.apart
  aligned := fun {k q a} hq ha => by
    rw [h.table_eq hs hq] at ha
    split at ha
    · cases ha
      exact h.aligned
    · exact hs.aligned hq ha
  owned := fun {k q a} hq ha => by
    rw [h.free]
    rw [h.table_eq hs hq] at ha
    split at ha
    · cases ha
      exact Set.disjoint_sdiff_right
    · exact (hs.owned hq ha).mono_right Set.sdiff_subset
  linked := fun {k q j a} hq ha => by
    have hq' := place_prefixClosed k q j hq
    rw [h.table_eq hs hq'] at ha
    split at ha
    · cases ha
      exact .inl (h.empty j hq.lt)
    · by_cases he : a = t ∧ j = i
      · obtain ⟨rfl, rfl⟩ := he
        exact .inr h.after.2.1
      · rw [h.entry_eq hs hq' ha hq.lt he]
        exact hs.linked hq ha

theorem leaf_eq (h : Linked s s' f f' b p i t n) (hs : s.Tables f) {k : Bool} {q : Nat}
    (hq : Place k (leafPath (q / npte))) : s'.leaf k q = s.leaf k q := by
  have hlt := Nat.mod_lt q npte_pos
  have heq := h.table_eq hs hq
  by_cases hnew : k = b ∧ leafPath (q / npte) = p ++ [i]
  · rw [if_pos hnew] at heq
    obtain ⟨rfl, hp⟩ := hnew
    have hnone : s.forest.table k (leafPath (q / npte)) = none := by
      rw [hp, TableForest.table_snoc, h.table]
      exact (h.hangs hs).before
    rw [MapState.Tables.leaf_eq_entry heq, MapState.Tables.leaf_eq_zero hnone, h.empty _ hlt]
  · rw [if_neg hnew] at heq
    cases ha : s.forest.table k (leafPath (q / npte)) with
    | none => rw [MapState.Tables.leaf_eq_zero (heq.trans ha), MapState.Tables.leaf_eq_zero ha]
    | some a =>
      rw [MapState.Tables.leaf_eq_entry (heq.trans ha), MapState.Tables.leaf_eq_entry ha]
      refine h.entry_eq hs hq ha hlt ?_
      rintro ⟨rfl, -⟩
      -- the table that got the link is not an `L3` table
      exact h.place.ne_leafPath _ (hs.apart hq (place_prefixClosed b p i h.place) ha h.table).2.symm

theorem grows (h : Linked s s' f f' b p i t n) (hs : s.Tables f) : Grows s s' f f' where
  free := h.free ▸ Set.sdiff_subset
  tables := by
    rintro x ⟨k, q, a, hq, ha, hx⟩
    rw [h.table_eq hs hq] at ha
    split at ha
    · cases ha
      exact .inr (h.taken hx)
    · exact .inl ⟨k, q, a, hq, ha, hx⟩
  mem := fun x hx => h.mem x (fun hn => hx (.inr (h.taken hn))) fun ht =>
    hx (.inl ⟨b, p, t, place_prefixClosed b p i h.place, h.table, entry_bytes h.place.lt ht⟩)
  ram := h.ram
  rest := h.rest

end Linked

theorem ptAlloc_linked [SyspageHeader] {s s' : MapState} {f : FreeList} {b : Bool} {p : List Nat}
    {i t e : Nat} (hs : s.Tables f) (hp : Place b (p ++ [i])) (ht : s.forest.table b p = some t)
    (hz : s.entry t i = 0) (h : ptAlloc s = .ok (s', e)) :
    ∃ f', Linked s (s'.setEntry t i e) f f' b p i t (ptpPaddr e) := by
  obtain ⟨n, a, rfl, ha, hty, hd, hsub, hfresh, hmem, hsame, hrest⟩ := ptAlloc_ok hs.fresh h
  have hp' := place_prefixClosed b p i hp
  have hpos : 0 < pagesz := by
    have := npte_pos
    rw [← eight_mul_npte]
    omega
  have hlt := hs.fresh.physical n (hsub (mem_bytes.mpr ⟨le_rfl, by omega⟩))
  have hdis : Disjoint (bytes t pagesz) (bytes n pagesz) := (hs.owned hp' ht).mono_right hsub
  have hself : (s'.setEntry t i (n + a)).entry t i = n + a :=
    readPtr_writePtr_self _ _ (ha.paddr_add_lt hd hlt)
  rw [ha.ptpPaddr_add hd hlt]
  refine ⟨f.erase n (n + pagesz), hp, ht, hz, hd, hsub, f.bytes_erase_size n pagesz,
    ?_, ?_, ?_, ?_, ?_, ?_⟩
  · exact ⟨hfresh.holds, hfresh.physical, hfresh.zeroes⟩
  · rw [hself]
    refine ⟨by omega, ?_, ha.ptpPaddr_add hd hlt⟩
    have h4 : n % 4 = 0 := by
      obtain ⟨q, rfl⟩ := hd
      rcases page_cases with ⟨-, hpg, -⟩ | ⟨-, hpg, -⟩ <;> rw [hpg] <;> omega
    omega
  · intro j hj
    refine readPtr_of_zero fun o ho => ?_
    have hx : n + 8 * j + o ∈ bytes n pagesz := entry_bytes hj (by omega)
    have hout : ¬ (t + 8 * i ≤ n + 8 * j + o ∧ n + 8 * j + o < t + 8 * i + 8) := fun hc =>
      Set.disjoint_left.mp hdis (entry_bytes hp.lt hc) hx
    change writePtr s'.ram.mem (t + 8 * i) (n + a) (n + 8 * j + o) = 0
    rw [writePtr_of_not_mem hout, hmem, memset_of_mem hx]
  · intro x hx hx'
    change writePtr s'.ram.mem (t + 8 * i) (n + a) x = s.ram.mem x
    rw [writePtr_of_not_mem hx', hmem, memset_of_not_mem hx]
  · exact ⟨hsame.avoidList, hsame.secureSystem⟩
  · rw [hrest]
    rfl

/-- The table under entry `i`, which `aarch64_map` makes when it is not there. -/
theorem ensureTable_ok [SyspageHeader] {s s' : MapState} {f : FreeList} {b : Bool} {p : List Nat}
    {i t : Nat} (hs : s.Tables f) (hp : Place b (p ++ [i])) (ht : s.forest.table b p = some t)
    (h : ensureTable t i s = .ok s') :
    ∃ f', s'.Tables f' ∧ Grows s s' f f' ∧ s'.forest.table b (p ++ [i]) =
      some (ptpPaddr (s'.entry t i)) ∧
      (∀ k q a, Place k q → s.forest.table k q = some a → s'.forest.table k q = some a) ∧
      ∀ k q, Place k (leafPath (q / npte)) → s'.leaf k q = s.leaf k q := by
  unfold ensureTable at h
  split at h
  · next hz =>
    obtain ⟨⟨s1, e⟩, h1, h⟩ := bind_eq_ok.mp h
    cases h
    obtain ⟨f', hl⟩ := ptAlloc_linked hs hp ht hz h1
    refine ⟨f', hl.tables hs, hl.grows hs,
      by rw [hl.table_new hs, hl.after.2.2], fun k q a hq ha => ?_, fun k q hq => hl.leaf_eq hs hq⟩
    rw [hl.table_eq hs hq, if_neg, ha]
    rintro ⟨rfl, rfl⟩
    rw [TableForest.table_snoc, ht, Option.bind_some, MapState.forest_link, if_pos hz] at ha
    cases ha
  · next hz =>
    cases h
    refine ⟨f, hs, .refl s f, ?_, fun _ _ _ _ ha => ha, fun _ _ _ => rfl⟩
    rw [TableForest.table_snoc, ht, Option.bind_some, MapState.forest_link, if_neg hz]

end QnxStartup
