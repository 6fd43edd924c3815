import QnxStartup.Bytes
import QnxStartup.Ram
import QnxStartup.SyspageRun

/-! One section of the system page as a byte string that is appended to and written
into, with the other sections out of the way. -/

namespace QnxStartup

def SectionHolds (c : Syspage) (s : SectionId) (l : List UInt8) : Prop :=
  (c.sects s).size = l.length ∧ Holds c.mem (c.sects s).p l

/-- The sections that are built record by record. -/
def recordSections : List SectionId := [.typedStrings, .strings, .hwinfo]

def Growing (header : Nat) (c : Syspage) : Prop :=
  c.totalSize ≤ c.maxSize ∧ c.maxSize ≤ tempSyspageSize ∧
    ∃ a, Refines header c a ∧ ∀ s ∈ recordSections, a.kind s = .growable

/-- The section lies behind those of fixed place. -/
def Behind (s : SectionId) (c : Syspage) : Prop := c.base + c.fixedSize ≤ (c.sects s).p

def Elsewhere (header : Nat) (s : SectionId) (c c' : Syspage) : Prop :=
  Growing header c' ∧ (c'.sects s).size = (c.sects s).size ∧
    ∀ k < (c.sects s).size, c'.mem ((c'.sects s).p + k) = c.mem ((c.sects s).p + k)

theorem Elsewhere.holds {header : Nat} {s : SectionId} {c c' : Syspage} {l : List UInt8}
    (h : Elsewhere header s c c') (hl : SectionHolds c s l) : SectionHolds c' s l :=
  ⟨h.2.1.trans hl.1, hl.2.congr fun k hk => h.2.2 k (hl.1 ▸ hk)⟩

theorem Elsewhere.trans {header : Nat} {s : SectionId} {c c' c'' : Syspage}
    (h : Elsewhere header s c c') (h' : Elsewhere header s c' c'') : Elsewhere header s c c'' :=
  ⟨h'.1, h'.2.1.trans h.2.1, fun k hk => (h'.2.2 k (h.2.1 ▸ hk)).trans (h.2.2 k hk)⟩

theorem Growing.size_le {header : Nat} {c : Syspage} (h : Growing header c) (s : SectionId) :
    (c.sects s).size ≤ tempSyspageSize ∧ c.totalSize ≤ tempSyspageSize := by
  obtain ⟨hle, hmax, a, ha, -⟩ := h
  have hin := ha.inside s
  simp only [Sect.stop] at hin
  omega

theorem Growing.behind {header : Nat} {c : Syspage} {s : SectionId} (h : Growing header c)
    (hs : s ∈ recordSections) : Behind s c := by
  obtain ⟨-, -, a, ha, hk⟩ := h
  refine ha.behind s ?_
  rw [hk s hs]
  exact SectKind.noConfusion

/-- Any section behind those of fixed place may be taken for one that grows. -/
theorem Growing.marked {header : Nat} {c : Syspage} {s : SectionId} (h : Growing header c)
    (hs : s ≠ .syspage) (hb : Behind s c) :
    ∃ a, Refines header c a ∧ (∀ t ∈ recordSections, a.kind t = .growable) ∧
      a.kind s = .growable := by
  obtain ⟨-, -, a, ha, hk⟩ := h
  refine ⟨a.mark s .growable, ⟨ha.toLayout.mark _ _, ha.fixed_le, ha.boundary,
    fun t ht => ?_, fun t ht => ?_, ?_, ha.header_size, ha.header_le⟩, fun t ht => ?_, ?_⟩
  · rw [mark_kind] at ht
    split at ht
    · next heq => exact heq ▸ hb
    · exact ha.behind t ht
  · rw [mark_kind] at ht
    split at ht
    · cases ht
    · exact ha.fresh t ht
  · rw [mark_kind, if_neg hs.symm, ha.header_kind]
  · rw [mark_kind]
    split
    · rfl
    · exact hk t ht
  · rw [mark_kind, if_pos rfl]

theorem Refines.content_eq {header : Nat} {c c' : Syspage} {a a' : Store SectionId} {s : SectionId}
    (h : Refines header c a) (h' : Refines header c' a') (hs : s ≠ .syspage)
    (hsize : a'.size s = a.size s) (hcont : ∀ k < a.size s, a'.content s k = a.content s k) :
    (c'.sects s).size = (c.sects s).size ∧
      ∀ k < (c.sects s).size, c'.mem ((c'.sects s).p + k) = c.mem ((c.sects s).p + k) := by
  rw [h.size, h'.size]
  exact ⟨hsize, fun k hk => by rw [h.bytes s hs k hk, h'.bytes s hs k (hsize ▸ hk), hcont k hk]⟩

def SectionOp.target : SectionOp → Option SectionId
  | set s _ | grow s _ | write s _ _ => some s
  | _ => none

theorem SectionOp.apply_other {patcher : Nat → Bool} {op : SectionOp} {s : SectionId}
    (a : Store SectionId) (h : op.target ≠ some s) :
    (op.apply patcher a).size s = a.size s ∧ (op.apply patcher a).content s = a.content s ∧
      (op.apply patcher a).kind s = a.kind s := by
  cases op with
  | set t size =>
    have ht : s ≠ t := fun hh => h (congrArg some hh.symm)
    simp [apply, Store.extend, Store.mark, ht]
  | grow t add =>
    have ht : s ≠ t := fun hh => h (congrArg some hh.symm)
    simp [apply, Store.extend, Store.mark, ht]
  | write t off b =>
    have ht : s ≠ t := fun hh => h (congrArg some hh.symm)
    simp [apply, Store.poke, ht]
  | register t off data =>
    simp only [apply, Store.register]
    split
    · split <;> exact ⟨rfl, rfl, rfl⟩
    · exact ⟨rfl, rfl, rfl⟩
  | reloc => exact ⟨rfl, rfl, rfl⟩

theorem SectionOp.apply_growable {patcher : Nat → Bool} {op : SectionOp} {c : Syspage}
    {a : Store SectionId} {s : SectionId} (hop : op.Allowed c a) (hk : a.kind s = .growable) :
    (op.apply patcher a).kind s = .growable := by
  by_cases ht : op.target = some s
  · cases op with
    | set t size =>
      cases ht
      rw [hop.1] at hk
      cases hk
    | grow t add =>
      cases ht
      simp [apply, Store.mark]
    | write t off b => exact hk
    | register => cases ht
    | reloc => cases ht
  · rw [(apply_other a ht).2.2, hk]

theorem SectionOp.elsewhere {header : Nat} {patcher : Nat → Bool} {op : SectionOp} {c c' : Syspage}
    {a : Store SectionId} {s : SectionId} (hs : s ≠ .syspage) (h : Refines header c a)
    (hpos : 0 < header) (hk : ∀ t ∈ recordSections, a.kind t = .growable) (hop : op.Allowed c a)
    (hwrap : op.NoWrap c) (hrun : op.run patcher c = .ok c') (ht : op.target ≠ some s)
    (hmax : c'.totalSize ≤ c'.maxSize ∧ c'.maxSize ≤ tempSyspageSize) :
    Elsewhere header s c c' := by
  have h' := h.step hpos hop hwrap hrun
  have hother : (op.apply patcher a).size s = a.size s ∧
      (op.apply patcher a).content s = a.content s ∧ _ :=
    SectionOp.apply_other a ht
  refine ⟨⟨hmax.1, hmax.2, _, h', fun t ht => SectionOp.apply_growable hop (hk t ht)⟩, ?_⟩
  exact h.content_eq h' hs hother.1 fun k _ => congrFun hother.2.1 k

theorem pokeByte_eq (m : Mem) (p : Nat) (b : UInt8) : pokeByte m p b = Function.update m p b :=
  funext fun x => (Function.update_apply m p b x).symm

theorem Refines.writeBytes {header : Nat} {c : Syspage} {a : Store SectionId} {s : SectionId}
    {off : Nat} (l : List UInt8) (h : Refines header c a) (hs : s ≠ .syspage)
    (hoff : off + l.length ≤ a.size s) :
    ∃ a', Refines header { c with mem := QnxStartup.writeBytes c.mem ((c.sects s).p + off) l } a' ∧
      a'.kind = a.kind ∧ a'.size = a.size ∧ ∀ t ≠ s, a'.content t = a.content t := by
  induction l generalizing c a off with
  | nil =>
    rw [writeBytes_nil]
    exact ⟨a, h, rfl, rfl, fun _ _ => rfl⟩
  | cons b l ih =>
    rw [List.length_cons] at hoff
    have hb : off < a.size s := by omega
    have hrest : off + 1 + l.length ≤ (a.poke s off b).size s := by
      change _ ≤ a.size s
      omega
    obtain ⟨a', hr, hk, hz, hc⟩ := ih (h.write b hs hb) hrest
    rw [writeBytes_cons, ← pokeByte_eq, Nat.add_assoc]
    refine ⟨a', hr, hk, hz, fun t ht => (hc t ht).trans ?_⟩
    simp [Store.poke, ht]

theorem growSyspageSection_maxSize {s : SectionId} {add : Nat} {c c' : Syspage}
    (h : growSyspageSection s add c = .ok c') : c'.maxSize = c.maxSize := by
  unfold growSyspageSection at h
  split at h
  · rw [crash_ite_eq_ok] at h
    cases h.2
    rfl
  · cases h
    rfl

theorem growSyspageSection_totalSize_le {s : SectionId} {add : Nat} {c c' : Syspage}
    (hadd : 0 < add) (h : growSyspageSection s add c = .ok c') : c'.totalSize ≤ c'.maxSize := by
  rw [growSyspageSection, if_pos hadd, crash_ite_eq_ok] at h
  obtain ⟨hle, h⟩ := h
  cases h
  exact not_lt.mp hle

theorem Growing.grow {header : Nat} {s : SectionId} {add : Nat} {c c' : Syspage} {l : List UInt8}
    (h : Growing header c) (hpos : 0 < header) (hs : s ≠ .syspage) (hb : Behind s c)
    (hl : SectionHolds c s l)
    (hwrap : c.totalSize + u32 (round add 8) < 2 ^ 32) (hadd : add < 2 ^ 32)
    (hrun : growSyspageSection s add c = .ok c') :
    SectionHolds c' s (l ++ List.replicate (u32 (round add 8)) 0) ∧ (c'.sects s).p = (c.sects s).p ∧
      c'.totalSize = c.totalSize + u32 (round add 8) ∧ Growing header c' ∧
      ∀ t ≠ .syspage, t ≠ s → Elsewhere header t c c' := by
  obtain ⟨a, ha, hk, hks⟩ := h.marked hs hb
  obtain ⟨hle, hmax, -⟩ := h
  have hop : (SectionOp.grow s add).Allowed c a := ⟨by rw [hks]; exact SectKind.noConfusion, hadd⟩
  have hrun' : (SectionOp.grow s add).run (fun _ => false) c = .ok c' := hrun
  have hr := ha.step hpos hop hwrap hrun'
  have heq := growSyspageSection_eq ha.toLayout hrun
  have htotal : c'.totalSize = c.totalSize + u32 (round add 8) := by
    rw [heq]
    exact u32_of_lt hwrap
  have hmax' : c'.maxSize = c.maxSize := growSyspageSection_maxSize hrun
  have hle' : c'.totalSize ≤ c'.maxSize := by
    rcases Nat.eq_zero_or_pos add with rfl | hz
    · rw [htotal, hmax']
      exact hle
    · exact growSyspageSection_totalSize_le hz hrun
  have hp : (c'.sects s).p = (c.sects s).p := by
    rw [heq, growSection_p, if_neg (fun hh => hh.1 rfl)]
  have hall : ∀ t ≠ .syspage, t ≠ s → Elsewhere header t c c' := fun t ht hts =>
    SectionOp.elsewhere ht ha hpos hk hop hwrap hrun' (fun hh => hts (Option.some.inj hh).symm)
      ⟨hle', by rw [hmax']; exact hmax⟩
  refine ⟨⟨?_, ?_⟩, hp, htotal,
    ⟨hle', by rw [hmax']; exact hmax, _, hr, fun t ht => SectionOp.apply_growable hop (hk t ht)⟩,
    hall⟩
  · have hsz : a.size s = l.length := (ha.size s).symm.trans hl.1
    rw [hr.size]
    simp [SectionOp.apply, Store.extend, Store.mark, hsz]
  · have hsz : a.size s = l.length := (ha.size s).symm.trans hl.1
    have hbytes := hr.bytes s hs
    simp only [SectionOp.apply, Store.extend, Store.mark, Function.update_self, hsz] at hbytes
    rw [holds_append]
    refine ⟨hl.2.congr fun k hk => ?_, holds_replicate.mpr fun k hk => ?_⟩
    · rw [hbytes k (by omega), if_pos hk, ha.bytes s hs k (by omega)]
    · rw [Nat.add_assoc, hbytes _ (by omega), if_neg (by omega)]

/-- What lies behind the sections of fixed place moves up or stays. -/
theorem Behind.grow {header : Nat} {s t : SectionId} {add : Nat} {c c' : Syspage}
    (ht : Behind t c) (h : Growing header c) (hpos : 0 < header) (hb : Behind s c)
    (hrun : growSyspageSection s add c = .ok c') : Behind t c' := by
  obtain ⟨-, -, a, ha, -⟩ := h
  rw [Behind] at ht hb
  have hle := ha.header_le
  have hbase : ∀ n, (growSection s n c).base = c.base := fun n => growSection_base n (by
    rw [Sect.stop]
    omega)
  obtain rfl := growSyspageSection_eq ha.toLayout hrun
  change (growSection s _ c).base + c.fixedSize ≤ ((growSection s _ c).sects t).p
  rw [hbase, growSection_p]
  split <;> omega

theorem Growing.store {header off : Nat} {s : SectionId} {c c' : Syspage} (new : List UInt8)
    (h : Growing header c) (hs : s ≠ .syspage) (hoff : off + new.length ≤ (c.sects s).size)
    (hc' : c' = { c with mem := writeBytes c.mem ((c.sects s).p + off) new }) :
    Growing header c' ∧ ∀ t ≠ .syspage, t ≠ s → Elsewhere header t c c' := by
  obtain ⟨hle, hmax, a, ha, hk⟩ := h
  obtain ⟨a', hr, hkind, hsz, hcont⟩ := ha.writeBytes new hs (by rwa [← ha.size])
  subst hc'
  have hg : Growing header { c with
      mem := QnxStartup.writeBytes c.mem ((c.sects s).p + off) new } :=
    ⟨hle, hmax, a', hr, fun t ht => by rw [hkind]; exact hk t ht⟩
  refine ⟨hg, fun t ht hts => ⟨hg, ?_⟩⟩
  exact ha.content_eq hr ht (congrFun hsz t) fun k _ => congrFun (hcont t hts) k

theorem Growing.write {header : Nat} {s : SectionId} {c c' : Syspage} {l₁ old new l₂ : List UInt8}
    (h : Growing header c) (hs : s ≠ .syspage) (hl : SectionHolds c s (l₁ ++ old ++ l₂))
    (hlen : new.length = old.length)
    (hc' : c' = { c with mem := writeBytes c.mem ((c.sects s).p + l₁.length) new }) :
    SectionHolds c' s (l₁ ++ new ++ l₂) ∧ Growing header c' ∧
      ∀ t ≠ .syspage, t ≠ s → Elsewhere header t c c' := by
  obtain ⟨hsize, hold⟩ := hl
  simp only [List.length_append] at hsize
  rw [holds_append, holds_append, List.length_append] at hold
  obtain ⟨hg, hother⟩ := h.store new hs (by omega) hc'
  subst hc'
  refine ⟨⟨?_, ?_⟩, hg, hother⟩
  · simp only [List.length_append]
    omega
  · simp only
    rw [holds_append, holds_append, List.length_append]
    refine ⟨⟨hold.1.1.writeBytes_apart (.inl le_rfl), holds_writeBytes ..⟩, ?_⟩
    rw [hlen]
    exact hold.2.writeBytes_apart (.inr (by omega))

theorem Growing.room {header need z add : Nat} {s : SectionId} {c c' : Syspage} {l : List UInt8}
    (h : Growing header c) (hpos : 0 < header) (hs : s ≠ .syspage) (hb : Behind s c)
    (hl : SectionHolds c s (l ++ List.replicate z 0))
    (hadd : z < need → need - z ≤ u32 (round add 8) ∧ c.totalSize + u32 (round add 8) < 2 ^ 32 ∧
      add < 2 ^ 32)
    (hrun : (if z < need then growSyspageSection s add c else .ok c) = .ok c') :
    ∃ z', need ≤ z' ∧ SectionHolds c' s (l ++ List.replicate z' 0) ∧
      (c'.sects s).p = (c.sects s).p ∧
      Growing header c' ∧ ∀ t ≠ .syspage, t ≠ s → Elsewhere header t c c' := by
  split at hrun
  · next hlt =>
    obtain ⟨h1, h2, h3⟩ := hadd hlt
    obtain ⟨hold, hp, -, hg, hother⟩ := h.grow hpos hs hb hl h2 h3 hrun
    rw [List.append_assoc, List.replicate_append_replicate] at hold
    exact ⟨_, by omega, hold, hp, hg, hother⟩
  · next hle =>
    cases hrun
    exact ⟨z, not_lt.mp hle, hl, rfl, h, fun t _ _ => ⟨h, rfl, fun _ _ => rfl⟩⟩

theorem Growing.append {header z : Nat} {s : SectionId} {c c' : Syspage} {l : List UInt8}
    (new : List UInt8) (h : Growing header c) (hs : s ≠ .syspage)
    (hl : SectionHolds c s (l ++ List.replicate z 0)) (hlen : new.length ≤ z)
    (hc' : c' = { c with mem := writeBytes c.mem ((c.sects s).p + l.length) new }) :
    SectionHolds c' s (l ++ new ++ List.replicate (z - new.length) 0) ∧ Growing header c' ∧
      ∀ t ≠ .syspage, t ≠ s → Elsewhere header t c c' := by
  have hsplit : SectionHolds c s (l ++ List.replicate new.length 0 ++ List.replicate
      (z - new.length) 0) := by
    rwa [List.append_assoc, List.replicate_append_replicate, Nat.add_sub_cancel' hlen]
  exact h.write hs hsplit List.length_replicate.symm hc'

theorem Refines.zeros {header : Nat} {c : Syspage} {a : Store SectionId} {s : SectionId} {n : Nat}
    (h : Refines header c a) (hs : s ≠ .syspage) (hsize : a.size s = n)
    (hzero : ∀ k, a.content s k = 0) :
    SectionHolds c s (List.replicate n 0) := by
  refine ⟨by rw [h.size, hsize, List.length_replicate], holds_replicate.mpr fun k hk => ?_⟩
  rw [h.bytes s hs k (hsize ▸ hk), hzero]

theorem init_growing {sz : SyspageSizes} {base maxSize : Nat} {mem : Mem} {c : Syspage}
    (h : initSyspageMemory sz base maxSize mem = .ok c) (hmax : maxSize ≤ tempSyspageSize) :
    Growing sz.header c ∧ SectionHolds c .typedStrings (List.replicate 8 0) ∧
      SectionHolds c .strings (List.replicate 8 0) ∧
      SectionHolds c .hwinfo (List.replicate (u32 (round sz.hwiPrefix 8)) 0) := by
  have href : Refines sz.header c (sz.initStore fun _ => false) := initSyspageMemory_refines h
  obtain ⟨c₁, h₁, h⟩ := bind_eq_ok.mp h
  obtain ⟨c₂, h₂, h⟩ := bind_eq_ok.mp h
  obtain ⟨c₃, h₃, h⟩ := bind_eq_ok.mp h
  obtain ⟨c₄, h₄, h₅⟩ := bind_eq_ok.mp h
  have hm : c.maxSize = maxSize := by
    rw [growSyspageSection_maxSize h₅]
    exact (growSyspageSection_maxSize h₄).trans ((growSyspageSection_maxSize h₃).trans
      ((growSyspageSection_maxSize h₂).trans (growSyspageSection_maxSize h₁)))
  have hle : c.totalSize ≤ c.maxSize := growSyspageSection_totalSize_le (by decide) h₅
  have hzero : ∀ s k, (sz.initStore fun _ => false).content s k = 0 := by
    intro s k
    cases s <;> simp [SyspageSizes.initStore, SyspageSizes.initOps, SectionOp.apply,
      Store.extend, Store.mark, Store.header]
  refine ⟨⟨hle, by rw [hm]; exact hmax, _, href, fun s hs => ?_⟩,
    href.zeros (by decide) rfl (hzero _),
    href.zeros (by decide) rfl (hzero _), href.zeros (by decide) ?_ (hzero _)⟩
  · simp only [recordSections, List.mem_cons, List.not_mem_nil, or_false] at hs
    rcases hs with rfl | rfl | rfl <;> rfl
  · exact Nat.zero_add _

end QnxStartup
