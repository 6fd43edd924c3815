import QnxStartup.AsPieces
import QnxStartup.FreeRam

/-! The "sysram" elements of the asinfo section follow the free list: `add_sysram`
publishes it, and `alloc_ram` takes every later request out of both. -/

namespace QnxStartup

/-- The RAM that the "sysram" elements publish. -/
def sysramOf (t : List AsinfoEntry) : Set Nat := {x | ∃ as ∈ t, as.name = "sysram" ∧ x ∈ as.set}

theorem mem_sysramOf {t : List AsinfoEntry} {x : Nat} :
    x ∈ sysramOf t ↔ ∃ as ∈ t, as.name = "sysram" ∧ x ∈ as.set := Iff.rfl

def SysramDisjoint (t : List AsinfoEntry) : Prop :=
  t.Pairwise (fun a b => a.name = "sysram" → b.name = "sysram" → Disjoint a.set b.set)

/-- No "sysram" element owns another element. -/
structure Childless (t : List AsinfoEntry) : Prop where
  owned : Owned t
  owner : ∀ as ∈ t, ∀ o, as.owner = some o → ∀ a, t[o]? = some a → a.name ≠ "sysram"

/-- A section whose "sysram" elements are disjoint ranges with union `U`, none of
which owns another element. -/
structure SysramTable (t : List AsinfoEntry) (U : Set Nat) : Prop where
  childless : Childless t
  range : ∀ as ∈ t, as.name = "sysram" → as.start ≤ as.stop ∧ as.stop < 2 ^ 64
  disjoint : SysramDisjoint t
  union : sysramOf t = U

theorem getElem?_of_map_eq {α β : Type} {f : α → β} {t t' : List α} (h : t'.map f = t.map f)
    {i : Nat} {a' : α} (hi : t'[i]? = some a') : ∃ a, t[i]? = some a ∧ f a' = f a := by
  have hh := congrArg (·[i]?) h
  simp only [List.getElem?_map, hi, Option.map_some] at hh
  obtain ⟨a, ha, heq⟩ := Option.map_eq_some_iff.mp hh.symm
  exact ⟨a, ha, heq.symm⟩

theorem mem_of_map_eq {α β : Type} {f : α → β} {t t' : List α} (h : t'.map f = t.map f) {a' : α}
    (ha : a' ∈ t') : ∃ a ∈ t, f a' = f a := by
  obtain ⟨i, hi⟩ := List.mem_iff_getElem?.mp ha
  obtain ⟨a, ha, heq⟩ := getElem?_of_map_eq h hi
  exact ⟨a, List.mem_of_getElem? ha, heq⟩

def AsinfoEntry.kin (as : AsinfoEntry) : String × Option Nat := (as.name, as.owner)

theorem kin_of_plain {as as' : AsinfoEntry} (h : as'.plain = as.plain) : as'.kin = as.kin := by
  simp only [AsinfoEntry.plain, AsinfoEntry.mk.injEq] at h
  simp [AsinfoEntry.kin, h]

theorem plain_set (as : AsinfoEntry) : as.plain.set = as.set := rfl

theorem set_of_plain {as as' : AsinfoEntry} (h : as'.plain = as.plain) : as'.set = as.set := by
  simp only [AsinfoEntry.plain, AsinfoEntry.mk.injEq] at h
  simp [AsinfoEntry.set, h]

theorem map_kin_of_plain {t t' : List AsinfoEntry}
    (h : t'.map AsinfoEntry.plain = t.map AsinfoEntry.plain) :
    t'.map AsinfoEntry.kin = t.map AsinfoEntry.kin := by
  have hk : ∀ u : List AsinfoEntry,
      u.map AsinfoEntry.kin = (u.map AsinfoEntry.plain).map AsinfoEntry.kin := by
    simp [AsinfoEntry.kin]
  rw [hk, h, ← hk]

theorem Owned.of_kin {t t' : List AsinfoEntry} (h : t'.map AsinfoEntry.kin = t.map AsinfoEntry.kin)
    (ht : Owned t) : Owned t' := by
  intro i as' o hi ho
  obtain ⟨as, has, heq⟩ := getElem?_of_map_eq h hi
  exact ht i as o has ((Prod.mk.inj heq).2 ▸ ho)

theorem Childless.of_kin {t t' : List AsinfoEntry}
    (h : t'.map AsinfoEntry.kin = t.map AsinfoEntry.kin) (ht : Childless t) : Childless t' where
  owned := ht.owned.of_kin h
  owner := by
    intro as' has' o ho a' ha'
    obtain ⟨as, has, heq⟩ := mem_of_map_eq h has'
    obtain ⟨a, ha, heqa⟩ := getElem?_of_map_eq h ha'
    rw [(Prod.mk.inj heqa).1]
    exact ht.owner as has o ((Prod.mk.inj heq).2 ▸ ho) a ha

theorem SysramTable.of_plain {t t' : List AsinfoEntry} {U : Set Nat}
    (h : t'.map AsinfoEntry.plain = t.map AsinfoEntry.plain) (ht : SysramTable t U) :
    SysramTable t' U where
  childless := ht.childless.of_kin (map_kin_of_plain h)
  range := by
    intro as' has' hn
    obtain ⟨as, has, heq⟩ := mem_of_map_eq h has'
    have hr := ht.range as has ((Prod.mk.inj (kin_of_plain heq)).1 ▸ hn)
    simp only [AsinfoEntry.plain, AsinfoEntry.mk.injEq] at heq
    omega
  disjoint := by
    have hp : ∀ u : List AsinfoEntry, SysramDisjoint u ↔ SysramDisjoint (u.map AsinfoEntry.plain) :=
      fun u => by simp only [SysramDisjoint, List.pairwise_map, plain_name, plain_set]
    rw [hp, h, ← hp]
    exact ht.disjoint
  union := by
    have hu : ∀ u v : List AsinfoEntry, u.map AsinfoEntry.plain = v.map AsinfoEntry.plain →
        sysramOf u ⊆ sysramOf v := by
      rintro u v huv x ⟨as', has', hn, hx⟩
      obtain ⟨as, has, heq⟩ := mem_of_map_eq huv has'
      exact ⟨as, has, (Prod.mk.inj (kin_of_plain heq)).1 ▸ hn, set_of_plain heq ▸ hx⟩
    rw [← ht.union]
    exact (hu t' t h).antisymm (hu t t' h.symm)

theorem sysramOf_append (t u : List AsinfoEntry) : sysramOf (t ++ u) = sysramOf t ∪ sysramOf u := by
  ext x
  simp [sysramOf, or_and_right, exists_or]

theorem SysramTable.append {t u : List AsinfoEntry} {U : Set Nat} (ht : SysramTable t U)
    (hu : ∀ as ∈ u, as.name = "sysram" ∧ as.start ≤ as.stop ∧ as.stop < 2 ^ 64 ∧ Disjoint U as.set)
    (ho : ∀ as ∈ u, ∀ o, as.owner = some o → ∃ a, t[o]? = some a ∧ a.name ≠ "sysram")
    (hd : u.Pairwise (fun a b => Disjoint a.set b.set)) :
    SysramTable (t ++ u) (U ∪ sysramOf u) where
  childless := by
    constructor
    · intro i as o hi hao
      rcases lt_or_ge i t.length with hlt | hge
      · rw [List.getElem?_append_left hlt] at hi
        exact ht.childless.owned i as o hi hao
      · rw [List.getElem?_append_right hge] at hi
        obtain ⟨a, ha, -⟩ := ho as (List.mem_of_getElem? hi) o hao
        exact (List.getElem?_eq_some_iff.mp ha).1.trans_le hge
    · intro as has o hao a ha
      rcases List.mem_append.mp has with has | has
      · obtain ⟨i, hi⟩ := List.mem_iff_getElem?.mp has
        have hlt := (ht.childless.owned i as o hi hao).trans (List.getElem?_eq_some_iff.mp hi).1
        rw [List.getElem?_append_left hlt] at ha
        exact ht.childless.owner as has o hao a ha
      · obtain ⟨b, hb, hn⟩ := ho as has o hao
        rw [List.getElem?_append_left (List.getElem?_eq_some_iff.mp hb).1, hb] at ha
        cases ha
        exact hn
  range := by
    intro as has hn
    rcases List.mem_append.mp has with has | has
    · exact ht.range as has hn
    · exact ⟨(hu as has).2.1, (hu as has).2.2.1⟩
  disjoint := by
    refine List.pairwise_append.mpr ⟨ht.disjoint, hd.imp fun h _ _ => h, fun a ha b hb hn _ => ?_⟩
    refine (hu b hb).2.2.2.mono_left fun x hx => ?_
    rw [← ht.union]
    exact ⟨a, ha, hn, hx⟩
  union := by rw [sysramOf_append, ht.union]

theorem SysramTable.mem_union {pre post : List AsinfoEntry} {as : AsinfoEntry} {U : Set Nat}
    (ht : SysramTable (pre ++ as :: post) U) (hn : as.name = "sysram") : as.set ⊆ U := by
  intro x hx
  rw [← ht.union]
  exact ⟨as, by simp, hn, hx⟩

/-- What `add_sysram` starts from: free RAM inside elements that match "ram" and are
nested or disjoint ranges, enclosing ones first, and nothing published yet. -/
structure RamTable (t : List AsinfoEntry) (free : Set Nat) : Prop where
  owned : Owned t
  noSysram : ∀ as ∈ t, as.name ≠ "sysram"
  covered : free ⊆ contained t "ram"
  range : ∀ {i as}, t[i]? = some as → matchName t i "ram" = true → as.start ≤ as.stop
  nested : ∀ {i j a b}, i < j → t[i]? = some a → t[j]? = some b → matchName t i "ram" = true →
    matchName t j "ram" = true → b.set ⊆ a.set ∨ Disjoint b.set a.set

/-- The section after some blocks with union `U` have been published over `t0`. -/
structure Published (t0 t : List AsinfoEntry) (U : Set Nat) : Prop where
  table : SysramTable t U
  behind : ∃ u, t.map AsinfoEntry.plain = t0.map AsinfoEntry.plain ++ u ∧
    ∀ as ∈ u, as.start ≤ as.stop ∧ as.set ⊆ U

theorem matchName_of_plain {t t' u : List AsinfoEntry} (ht : Owned t)
    (h : t'.map AsinfoEntry.plain = t.map AsinfoEntry.plain ++ u) {i : Nat} (hi : i < t.length)
    (name : String) :
    matchName t' i name = matchName t i name := by
  have hown : Owned (t.map AsinfoEntry.plain) := ht.of_kin (by simp [AsinfoEntry.kin])
  rw [← matchName_plain t', h, matchName_append hown u name (by simpa using hi), matchName_plain]

theorem Published.old {t0 t : List AsinfoEntry} {U : Set Nat} (h : Published t0 t U)
    (hown : Owned t0) {start stop i : Nat} (hle : start ≤ stop)
    (hd : Disjoint U (Set.Icc start stop)) (hc : containsAt t start stop "ram" i = true) :
    ∃ as0 as, t0[i]? = some as0 ∧ t[i]? = some as ∧ as.plain = as0.plain ∧
      matchName t0 i "ram" = true := by
  obtain ⟨u, hplain, hu⟩ := h.behind
  obtain ⟨as, has, hm, ho⟩ := containsAt_iff.mp hc
  have hget : (t0.map AsinfoEntry.plain ++ u)[i]? = some as.plain := by
    rw [← hplain, List.getElem?_map, has]
    rfl
  rcases lt_or_ge i t0.length with hlt | hge
  · rw [List.getElem?_append_left (by simpa using hlt), List.getElem?_map] at hget
    obtain ⟨as0, has0, heq⟩ := Option.map_eq_some_iff.mp hget
    exact ⟨as0, as, has0, has, heq.symm, by rw [← matchName_of_plain hown hplain hlt]; exact hm⟩
  · rw [List.getElem?_append_right (by simpa using hge)] at hget
    obtain ⟨hr, hsub⟩ := hu _ (List.mem_of_getElem? hget)
    obtain ⟨h1, h2⟩ := (overlaps_iff hle hr).mp ho
    exfalso
    refine Set.disjoint_left.mp hd (hsub (show max start as.start ∈ as.set from ?_)) ?_
    · exact ⟨le_max_right _ _, max_le h2 hr⟩
    · exact ⟨le_max_left _ _, max_le hle h1⟩

theorem Published.laminar {t0 t : List AsinfoEntry} {U free : Set Nat} (h : Published t0 t U)
    (ht0 : RamTable t0 free) {start stop : Nat} (hle : start ≤ stop)
    (hd : Disjoint U (Set.Icc start stop)) :
    Laminar t start stop "ram" where
  range := by
    intro i as has hc
    obtain ⟨as0, as', has0, has', heq, hm⟩ := h.old ht0.owned hle hd hc
    cases has.symm.trans has'
    have hr := ht0.range has0 hm
    simp only [AsinfoEntry.plain, AsinfoEntry.mk.injEq] at heq
    omega
  nested := by
    intro i j a b hij ha hb hci hcj
    obtain ⟨a0, a', ha0, ha', heqa, hma⟩ := h.old ht0.owned hle hd hci
    obtain ⟨b0, b', hb0, hb', heqb, hmb⟩ := h.old ht0.owned hle hd hcj
    cases ha.symm.trans ha'
    cases hb.symm.trans hb'
    rw [set_of_plain heqa, set_of_plain heqb]
    exact ht0.nested hij ha0 hb0 hma hmb

theorem Published.contained {t0 t : List AsinfoEntry} {U : Set Nat} (h : Published t0 t U)
    (hown : Owned t0) :
    contained t0 "ram" ⊆ contained t "ram" := by
  rintro x ⟨i, as0, has0, hm, hx⟩
  obtain ⟨u, hplain, -⟩ := h.behind
  obtain ⟨hlt, -⟩ := List.getElem?_eq_some_iff.mp has0
  have hget : (t.map AsinfoEntry.plain)[i]? = some as0.plain := by
    rw [hplain, List.getElem?_append_left (by simpa using hlt), List.getElem?_map, has0]
    rfl
  rw [List.getElem?_map] at hget
  obtain ⟨as, has, heq⟩ := Option.map_eq_some_iff.mp hget
  exact ⟨i, as, has, by rw [matchName_of_plain hown hplain hlt]; exact hm, by
    rw [set_of_plain heq]; exact hx⟩

/-- The element that `add_sysram` adds for a piece. -/
def sysramEntry (r : AsRange) : AsinfoEntry := ⟨r.start, r.stop, some r.owner, "sysram", 0, 0⟩

theorem sysramOf_pieces (list : List AsRange) :
    sysramOf (list.map sysramEntry) = coverPieces list := by
  ext x
  simp only [mem_sysramOf, List.mem_map, coverPieces, Set.mem_ofPred_eq]
  constructor
  · rintro ⟨_, ⟨r, hr, rfl⟩, -, hx⟩
    exact ⟨r, hr, hx⟩
  · rintro ⟨r, hr, hx⟩
    exact ⟨_, ⟨r, hr, rfl⟩, rfl, hx⟩

theorem Published.step [SyspageHeader] {t0 t : List AsinfoEntry} {U free : Set Nat}
    (h : Published t0 t U) (ht0 : RamTable t0 free) {start size : Nat} (hpos : 0 < size)
    (hb : start + size < 2 ^ 64) (hfree : bytes start size ⊆ free)
    (hd : Disjoint U (bytes start size)) :
    Published t0 (asAddContaining start (sub64 (u64 (start + size)) 1) asAttrRam "sysram" "ram" t).1
      (U ∪ bytes start size) := by
  rw [u64_of_lt hb, sub64_of_le hb (by omega)]
  have hicc : Set.Icc start (start + size - 1) = bytes start size := by
    ext x
    simp only [Set.mem_Icc, mem_bytes]
    omega
  have hle : start ≤ start + size - 1 := by omega
  have hd' : Disjoint U (Set.Icc start (start + size - 1)) := hicc ▸ hd
  obtain ⟨list, hp, hcover, howner, hplain⟩ := asAddContaining_pieces asAttrRam "sysram" (by decide)
    (h.laminar ht0 hle hd') hle (by omega)
  have hall : coverPieces list = bytes start size := by
    rw [hcover, hicc]
    exact Set.inter_eq_left.mpr ((hfree.trans ht0.covered).trans (h.contained ht0.owned))
  have hsub : ∀ r ∈ list, r.set ⊆ bytes start size := fun r hr x hx => hall ▸ ⟨r, hr, hx⟩
  have hnew : ∀ as ∈ list.map sysramEntry, as.name = "sysram" ∧ as.start ≤ as.stop ∧
      as.stop < 2 ^ 64 ∧ Disjoint U as.set := by
    intro as has
    obtain ⟨r, hr, rfl⟩ := List.mem_map.mp has
    exact ⟨rfl, hp.pos r hr, hp.bound r hr, hd.mono_right (hsub r hr)⟩
  have howned : ∀ as ∈ list.map sysramEntry, ∀ o, as.owner = some o →
      ∃ a, t[o]? = some a ∧ a.name ≠ "sysram" := by
    intro as has o ho
    obtain ⟨r, hr, rfl⟩ := List.mem_map.mp has
    cases ho
    obtain ⟨as0, as, has0, has, heq, -⟩ := h.old ht0.owned hle hd' (howner r hr)
    refine ⟨as, has, ?_⟩
    rw [(Prod.mk.inj (kin_of_plain heq)).1]
    exact ht0.noSysram as0 (List.mem_of_getElem? has0)
  have happ := h.table.append hnew howned (List.pairwise_map.mpr hp.disjoint)
  rw [sysramOf_pieces, hall] at happ
  refine ⟨happ.of_plain (by rw [hplain]; simp [sysramEntry, AsinfoEntry.plain]), ?_⟩
  obtain ⟨u, hu, hur⟩ := h.behind
  refine ⟨u ++ list.map sysramEntry, by rw [hplain, hu, List.append_assoc]; rfl, fun as has => ?_⟩
  rcases List.mem_append.mp has with has | has
  · exact ⟨(hur as has).1, (hur as has).2.trans Set.subset_union_left⟩
  · obtain ⟨r, hr, rfl⟩ := List.mem_map.mp has
    exact ⟨hp.pos r hr, (hsub r hr).trans Set.subset_union_right⟩

theorem Published.foldl [SyspageHeader] {t0 : List AsinfoEntry} {free : Set Nat}
    (ht0 : RamTable t0 free)
    (es : List RamEntry) {t : List AsinfoEntry} {U : Set Nat} (h : Published t0 t U)
    (hes : ∀ r ∈ es, 0 < r.size ∧ r.addr + r.size < 2 ^ 64 ∧ bytes r.addr r.size ⊆ free ∧
      Disjoint U (bytes r.addr r.size))
    (hd : es.Pairwise (fun r r' => Disjoint (bytes r.addr r.size) (bytes r'.addr r'.size))) :
    Published t0 (es.foldl (fun t r =>
        (asAddContaining r.addr (sub64 (u64 (r.addr + r.size)) 1) asAttrRam "sysram" "ram" t).1) t)
      (U ∪ {x | ∃ r ∈ es, x ∈ bytes r.addr r.size}) := by
  induction es generalizing t U with
  | nil => simpa using h
  | cons r es ih =>
    obtain ⟨⟨hpos, hb, hfree, hdr⟩, hes⟩ := List.forall_mem_cons.mp hes
    obtain ⟨hdr', hd⟩ := List.pairwise_cons.mp hd
    have hh := ih (h.step ht0 hpos hb hfree hdr) (fun a ha => by
      obtain ⟨h1, h2, h3, h4⟩ := hes a ha
      exact ⟨h1, h2, h3, Set.disjoint_union_left.mpr ⟨h4, hdr' a ha⟩⟩) hd
    have heq : {x | ∃ a ∈ r :: es, x ∈ bytes a.addr a.size} =
        bytes r.addr r.size ∪ {x | ∃ a ∈ es, x ∈ bytes a.addr a.size} := by
      ext x
      simp
    rw [heq, ← Set.union_assoc]
    exact hh

end QnxStartup
