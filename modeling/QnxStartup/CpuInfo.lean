import Mathlib.Data.List.Induction
import QnxStartup.CacheFlush
import QnxStartup.SectionArray
import QnxStartup.SharedList

/-! The caches that the system page describes: `add_cache_ways` shares the entries of
the section, and `init_cache` gives each processor the entries for its first level,
before those of the system. -/

namespace QnxStartup

/-- `struct cacheattr_entry` without its link. -/
structure CacheShape where
  flags : Nat
  lineSize : Nat
  numLines : Nat
  ways : Nat
  control : Nat
  deriving DecidableEq, Repr

/-- The flags, `CACHE_LIST_END`, the callouts and the layout of an entry, as the headers and the
linker give them. -/
class CacheHeader where
  flagUnified : Nat
  flagInstr : Nat
  flagData : Nat
  listEnd : Nat
  icacheRtn : Nat
  dcacheRtn : Nat
  layout : EntryLayout (SharedCell CacheShape)
  listEnd_far : tempSyspageSize ≤ listEnd

/-- The system page, and what its section for caches holds. -/
structure CacheTable where
  page : Syspage
  cacheattr : List (SharedCell CacheShape)

/-- With the two lists of each entry of `lsp.cpuinfo`. -/
structure CpuCaches extends CacheTable where
  insCache : Nat → Nat
  dataCache : Nat → Nat

/-- `cache_sizes`: the sets, the ways and the size of a line. -/
def cacheSizes (c : CacheInputs) (csel : Nat) : Nat × Nat × Nat :=
  let ccsidr := u32 (c.ccsidr csel)
  (ccsidr / 2 ^ 13 % 2 ^ 15 + 1, ccsidr / 2 ^ 3 % 2 ^ 10 + 1, 2 ^ (ccsidr % 8 + 4))

section

variable [CacheHeader]

/-- An entry like this one is looked for, and added behind the others if there is none. -/
def addCacheWays (next flags lineSize numLines ways rtn : Nat) (t : CacheTable) :
    Startup (Nat × CacheTable) :=
  let cell : SharedCell CacheShape := ⟨⟨flags, lineSize, numLines, ways, rtn⟩, next⟩
  let i := t.cacheattr.idxOf cell
  if i < t.cacheattr.length then .ok (i, t)
  else
    (growSyspageSection .cacheattr CacheHeader.layout.sizeofEntry t.page).bind fun page =>
      .ok (i, ⟨CacheHeader.layout.put .cacheattr i cell page, t.cacheattr ++ [cell]⟩)

def addCache (next flags lineSize numLines rtn : Nat) (t : CacheTable) :
    Startup (Nat × CacheTable) :=
  addCacheWays next flags lineSize numLines 0 rtn t

/-- The call of `add_cache_ways` for one cache of a processor. -/
def addCpuCache (c : CacheInputs) (csel flags rtn next : Nat) (t : CacheTable) :
    Startup (Nat × CacheTable) :=
  let (nsets, assoc, lsize) := cacheSizes c csel
  addCacheWays next flags lsize (u32 (nsets * assoc)) assoc rtn t

def setInsCache (c : CacheInputs) (csel flags rtn cpu : Nat) (s : CpuCaches) : Startup CpuCaches :=
  (addCpuCache c csel flags rtn (s.insCache cpu) s.toCacheTable).bind fun (i, t) =>
    .ok { s with toCacheTable := t, insCache := Function.update s.insCache cpu i }

def setDataCache (c : CacheInputs) (csel flags rtn cpu : Nat) (s : CpuCaches) :
    Startup CpuCaches :=
  (addCpuCache c csel flags rtn (s.dataCache cpu) s.toCacheTable).bind fun (i, t) =>
    .ok { s with toCacheTable := t, dataCache := Function.update s.dataCache cpu i }

/-- `init_cache` without its messages. -/
def initCache (snooped : Nat) (c : CacheInputs) (cpu : Nat) (s : CpuCaches) : Startup CpuCaches :=
  let clidr := u32 c.clidr
  if clidr &&& 4 ≠ 0 then
    setDataCache c 0 (CacheHeader.flagUnified ||| snooped) CacheHeader.dcacheRtn cpu s
  else
    (if clidr &&& 1 ≠ 0 then
      setInsCache c 1 CacheHeader.flagInstr CacheHeader.icacheRtn cpu s else .ok s).bind fun s =>
    if clidr &&& 2 ≠ 0 then
      setDataCache c 0 (CacheHeader.flagData ||| snooped) CacheHeader.dcacheRtn cpu s else .ok s

/-- `init_cpuinfo` gives every processor the caches of the system. -/
def initCpuinfo (icacheIdx dcacheIdx : Nat) (t : CacheTable) : CpuCaches :=
  ⟨t, fun _ => icacheIdx, fun _ => dcacheIdx⟩

/-- The runs of a board that adds caches, each one before a list that is there, with other work on
the system page in between. -/
inductive BoardCaches (sz : SyspageSizes) : CacheTable → Prop
  | init {base maxSize : Nat} {mem : Mem} {c : Syspage} (hmax : maxSize ≤ tempSyspageSize)
      (h : initSyspageMemory sz base maxSize mem = .ok c) : BoardCaches sz ⟨c, []⟩
  | elsewhere {t : CacheTable} {page : Syspage} (run : BoardCaches sz t)
      (h : Elsewhere sz.header .cacheattr t.page page) (hb : Behind .cacheattr page) :
      BoardCaches sz ⟨page, t.cacheattr⟩
  | add {t t' : CacheTable} {next flags lineSize numLines ways rtn i : Nat} (run : BoardCaches sz t)
      (hnext : next < t.cacheattr.length ∨ next = CacheHeader.listEnd)
      (h : addCacheWays next flags lineSize numLines ways rtn t = .ok (i, t')) : BoardCaches sz t'

/-- `init_one_cpuinfo` runs on one processor after the other. -/
inductive CpusRun (header snooped : Nat) (start : CpuCaches) :
    List (Nat × CacheInputs) → CpuCaches → Prop
  | start : CpusRun header snooped start [] start
  | elsewhere {cpus : List (Nat × CacheInputs)} {s : CpuCaches} {page : Syspage}
      (run : CpusRun header snooped start cpus s) (h : Elsewhere header .cacheattr s.page page)
      (hb : Behind .cacheattr page) :
      CpusRun header snooped start cpus { s with page := page }
  | cpu {cpus : List (Nat × CacheInputs)} {s s' : CpuCaches} {c : Nat × CacheInputs}
      (run : CpusRun header snooped start cpus s) (h : initCache snooped c.2 c.1 s = .ok s') :
      CpusRun header snooped start (cpus ++ [c]) s'

/-- A cache of the first level, as the registers describe it. -/
def cacheShape (c : CacheInputs) (csel flags rtn : Nat) : CacheShape :=
  let (nsets, assoc, lsize) := cacheSizes c csel
  ⟨flags, lsize, nsets * assoc, assoc, rtn⟩

def insCaches (c : CacheInputs) : List CacheShape :=
  if u32 c.clidr &&& 4 = 0 ∧ u32 c.clidr &&& 1 ≠ 0 then
    [cacheShape c 1 CacheHeader.flagInstr CacheHeader.icacheRtn] else []

def dataCaches (snooped : Nat) (c : CacheInputs) : List CacheShape :=
  if u32 c.clidr &&& 4 ≠ 0 then
    [cacheShape c 0 (CacheHeader.flagUnified ||| snooped) CacheHeader.dcacheRtn]
  else if u32 c.clidr &&& 2 ≠ 0 then
    [cacheShape c 0 (CacheHeader.flagData ||| snooped) CacheHeader.dcacheRtn]
  else []

/-- The section's bytes are those of the entries, and these are shared. -/
structure CacheInv (header : Nat) (t : CacheTable) : Prop where
  growing : Growing header t.page
  holds : CacheHeader.layout.Has .cacheattr t.page t.cacheattr
  shared : Shared CacheHeader.listEnd t.cacheattr

section

variable {header next flags lineSize numLines ways rtn i : Nat} {vs : List CacheShape}
  {t t' : CacheTable}

/-- The index that ends a list lies behind all that the system page has room for. -/
theorem CacheInv.length_lt (h : CacheInv header t) :
    t.cacheattr.length < CacheHeader.listEnd := by
  have hle := (h.growing.size_le .cacheattr).1
  have hfar : tempSyspageSize ≤ CacheHeader.listEnd := CacheHeader.listEnd_far
  have h8 : 8 ≤ CacheHeader.layout.sizeofEntry :=
    Nat.le_of_dvd CacheHeader.layout.sizeof_pos CacheHeader.layout.sizeof_dvd
  have hmul := Nat.mul_le_mul_right t.cacheattr.length h8
  rw [h.holds.size] at hle
  simp only [tempSyspageSize] at hle hfar
  omega

theorem CacheInv.elsewhere {page : Syspage} (h : CacheInv header t)
    (he : Elsewhere header .cacheattr t.page page) (hb : Behind .cacheattr page) :
    CacheInv header ⟨page, t.cacheattr⟩ :=
  ⟨he.1, h.holds.elsewhere he hb, h.shared⟩

/-- The call shares the cell in the section. -/
theorem addCacheWays_shareCell (hg : Growing header t.page) (hpos : 0 < header)
    (hl : CacheHeader.layout.Has .cacheattr t.page t.cacheattr)
    (hrun : addCacheWays next flags lineSize numLines ways rtn t = .ok (i, t')) :
    shareCell ⟨⟨flags, lineSize, numLines, ways, rtn⟩, next⟩ t.cacheattr = (i, t'.cacheattr) ∧
      Growing header t'.page ∧ CacheHeader.layout.Has .cacheattr t'.page t'.cacheattr := by
  simp only [addCacheWays] at hrun
  split at hrun
  · next hfound =>
    cases hrun
    exact ⟨if_pos hfound, hg, hl⟩
  · next hnew =>
    obtain ⟨page, hgrow, hrun⟩ := bind_eq_ok.mp hrun
    cases hrun
    have hidx := le_antisymm List.idxOf_le_length (not_lt.mp hnew)
    obtain ⟨hhas, hg', -⟩ := hl.snoc hg hpos (by decide) hgrow
      ⟨⟨flags, lineSize, numLines, ways, rtn⟩, next⟩
    rw [hidx]
    exact ⟨(if_neg hnew).trans (by rw [hidx]), hg', hhas⟩

theorem CacheInv.add (h : CacheInv header t) (hpos : 0 < header)
    (hc : CellsAt CacheHeader.listEnd t.cacheattr next vs)
    (hrun : addCacheWays next flags lineSize numLines ways rtn t = .ok (i, t')) :
    CacheInv header t' ∧ (∃ l', t'.cacheattr = t.cacheattr ++ l') ∧
      CellsAt CacheHeader.listEnd t'.cacheattr i
        (⟨flags, lineSize, numLines, ways, rtn⟩ :: vs) := by
  obtain ⟨heq, hg, hl⟩ := addCacheWays_shareCell h.growing hpos h.holds hrun
  obtain ⟨hshared, hat, hkept, -⟩ :=
    h.shared.share (c := ⟨⟨flags, lineSize, numLines, ways, rtn⟩, next⟩) h.length_lt hc
  rw [heq] at hshared hat hkept
  exact ⟨⟨hg, hl, hshared⟩, hkept, hat⟩

/-- With room for an entry the call returns. -/
theorem addCacheWays_returns
    (hroom : t.page.totalSize + CacheHeader.layout.sizeofEntry ≤ t.page.maxSize) :
    ∃ r, addCacheWays next flags lineSize numLines ways rtn t = .ok r ∧
      r.2.page.totalSize ≤ t.page.totalSize + CacheHeader.layout.sizeofEntry ∧
      r.2.page.maxSize = t.page.maxSize := by
  have hle : u32 (t.page.totalSize + CacheHeader.layout.sizeofEntry) ≤
      t.page.totalSize + CacheHeader.layout.sizeofEntry := Nat.mod_le _ _
  simp only [addCacheWays]
  split
  · exact ⟨_, rfl, Nat.le_add_right _ _, rfl⟩
  · rw [growSyspageSection, if_pos CacheHeader.layout.sizeof_pos]
    simp only [EntryLayout.round_sizeofEntry]
    rw [if_neg (not_lt.mpr (hle.trans hroom))]
    exact ⟨_, rfl, hle, rfl⟩

theorem BoardCaches.inv {sz : SyspageSizes} (run : BoardCaches sz t) : CacheInv sz.header t := by
  induction run with
  | init hmax h =>
    exact ⟨(init_growing h hmax).1, EntryLayout.has_init h rfl, .nil _⟩
  | elsewhere _ h hb ih => exact ih.elsewhere h hb
  | add _ hnext h ih =>
    obtain ⟨vs, hvs⟩ := ih.shared.cellsAt hnext
    exact (ih.add sz.header_bounds.1 hvs h).1

end

/-- What one or more caches of a processor add. -/
structure CachesAdded (header cpu : Nat) (ins data : List CacheShape)
    (s s' : CpuCaches) : Prop where
  inv : CacheInv header s'.toCacheTable
  kept : ∃ l', s'.cacheattr = s.cacheattr ++ l'
  ins : ∀ vs, CellsAt CacheHeader.listEnd s.cacheattr (s.insCache cpu) vs →
    CellsAt CacheHeader.listEnd s'.cacheattr (s'.insCache cpu) (ins ++ vs)
  data : ∀ vs, CellsAt CacheHeader.listEnd s.cacheattr (s.dataCache cpu) vs →
    CellsAt CacheHeader.listEnd s'.cacheattr (s'.dataCache cpu) (data ++ vs)
  others : ∀ j ≠ cpu, s'.insCache j = s.insCache j ∧ s'.dataCache j = s.dataCache j

section

variable {header cpu csel flags rtn : Nat} {c : CacheInputs}
  {ins ins' data data' vs : List CacheShape} {s s' s'' : CpuCaches}

theorem CachesAdded.keep (h : CachesAdded header cpu ins data s s') {i : Nat}
    (hi : CellsAt CacheHeader.listEnd s.cacheattr i vs) :
    CellsAt CacheHeader.listEnd s'.cacheattr i vs := by
  obtain ⟨l', hl⟩ := h.kept
  rw [hl]
  exact hi.append l'

theorem CachesAdded.refl (h : CacheInv header s.toCacheTable) :
    CachesAdded header cpu [] [] s s :=
  ⟨h, ⟨[], (List.append_nil _).symm⟩, fun _ hv => hv, fun _ hv => hv, fun _ _ => ⟨rfl, rfl⟩⟩

theorem CachesAdded.trans (h : CachesAdded header cpu ins data s s')
    (h' : CachesAdded header cpu ins' data' s' s'') :
    CachesAdded header cpu (ins' ++ ins) (data' ++ data) s s'' := by
  obtain ⟨l, hl⟩ := h.kept
  obtain ⟨l', hl'⟩ := h'.kept
  refine ⟨h'.inv, ⟨l ++ l', by rw [hl', hl, List.append_assoc]⟩, fun vs hv => ?_,
    fun vs hv => ?_, fun j hj => ?_⟩
  · rw [List.append_assoc]
    exact h'.ins _ (h.ins vs hv)
  · rw [List.append_assoc]
    exact h'.data _ (h.data vs hv)
  · exact ⟨(h'.others j hj).1.trans (h.others j hj).1, (h'.others j hj).2.trans (h.others j hj).2⟩

theorem addCpuCache_eq (c : CacheInputs) (csel flags rtn next : Nat) (t : CacheTable) :
    addCpuCache c csel flags rtn next t =
      addCacheWays next flags (cacheShape c csel flags rtn).lineSize
        (cacheShape c csel flags rtn).numLines (cacheShape c csel flags rtn).ways rtn t := by
  have hsets : u32 (c.ccsidr csel) / 2 ^ 13 % 2 ^ 15 < 2 ^ 15 := Nat.mod_lt _ (by decide)
  have hways : u32 (c.ccsidr csel) / 2 ^ 3 % 2 ^ 10 < 2 ^ 10 := Nat.mod_lt _ (by decide)
  have hlines : (u32 (c.ccsidr csel) / 2 ^ 13 % 2 ^ 15 + 1) * (u32 (c.ccsidr csel) / 2 ^ 3 %
      2 ^ 10 + 1) < 2 ^ 32 :=
    (Nat.mul_le_mul hsets hways).trans_lt (by decide)
  simp only [addCpuCache, cacheShape, cacheSizes, u32_of_lt hlines]

theorem setInsCache_added (h : CacheInv header s.toCacheTable) (hpos : 0 < header)
    (hi : CellsAt CacheHeader.listEnd s.cacheattr (s.insCache cpu) vs)
    (hrun : setInsCache c csel flags rtn cpu s = .ok s') :
    CachesAdded header cpu [cacheShape c csel flags rtn] [] s s' := by
  obtain ⟨⟨i, t⟩, hadd, hrun⟩ := bind_eq_ok.mp hrun
  cases hrun
  rw [addCpuCache_eq] at hadd
  obtain ⟨hinv, ⟨l', hl⟩, -⟩ := h.add hpos hi hadd
  refine ⟨hinv, ⟨l', hl⟩, fun ws hw => ?_, fun ws hw => ?_,
    fun j hj => ⟨Function.update_of_ne hj _ _, rfl⟩⟩
  · simp only [Function.update_self]
    exact (h.add hpos hw hadd).2.2
  · simp only [hl]
    exact hw.append l'

theorem setDataCache_added (h : CacheInv header s.toCacheTable) (hpos : 0 < header)
    (hd : CellsAt CacheHeader.listEnd s.cacheattr (s.dataCache cpu) vs)
    (hrun : setDataCache c csel flags rtn cpu s = .ok s') :
    CachesAdded header cpu [] [cacheShape c csel flags rtn] s s' := by
  obtain ⟨⟨i, t⟩, hadd, hrun⟩ := bind_eq_ok.mp hrun
  cases hrun
  rw [addCpuCache_eq] at hadd
  obtain ⟨hinv, ⟨l', hl⟩, -⟩ := h.add hpos hd hadd
  refine ⟨hinv, ⟨l', hl⟩, fun ws hw => ?_, fun ws hw => ?_,
    fun j hj => ⟨rfl, Function.update_of_ne hj _ _⟩⟩
  · simp only [hl]
    exact hw.append l'
  · simp only [Function.update_self]
    exact (h.add hpos hw hadd).2.2

/-- A processor gets its own caches before those that it had. -/
theorem initCache_added (h : CacheInv header s.toCacheTable) (hpos : 0 < header)
    {I D : List CacheShape} (hi : CellsAt CacheHeader.listEnd s.cacheattr (s.insCache cpu) I)
    (hd : CellsAt CacheHeader.listEnd s.cacheattr (s.dataCache cpu) D) {snooped : Nat}
    (hrun : initCache snooped c cpu s = .ok s') :
    CachesAdded header cpu (insCaches c) (dataCaches snooped c) s s' := by
  rw [initCache] at hrun
  by_cases hunified : u32 c.clidr &&& 4 ≠ 0
  · rw [insCaches, if_neg fun hh => hunified hh.1, dataCaches, if_pos hunified]
    simp only [if_pos hunified] at hrun
    exact setDataCache_added h hpos hd hrun
  have hzero : u32 c.clidr &&& 4 = 0 := not_not.mp hunified
  simp only [if_neg hunified] at hrun
  obtain ⟨s₁, hins, hdata⟩ := bind_eq_ok.mp hrun
  have hs₁ : CachesAdded header cpu (insCaches c) [] s s₁ := by
    rw [insCaches]
    split at hins
    · next hbit =>
      rw [if_pos ⟨hzero, hbit⟩]
      exact setInsCache_added h hpos hi hins
    · next hbit =>
      cases hins
      rw [if_neg fun hh => hbit hh.2]
      exact .refl h
  rw [dataCaches, if_neg hunified]
  split at hdata
  · next hbit =>
    rw [if_pos hbit]
    exact hs₁.trans (setDataCache_added hs₁.inv hpos (hs₁.data D hd) hdata)
  · next hbit =>
    cases hdata
    rw [if_neg hbit]
    exact hs₁

/-- With room for the caches of a processor its initialisation returns. -/
theorem initCache_returns (snooped : Nat) (c : CacheInputs) (cpu : Nat)
    (hroom : s.page.totalSize + 2 * CacheHeader.layout.sizeofEntry ≤ s.page.maxSize) :
    ∃ s', initCache snooped c cpu s = .ok s' := by
  have hdata : ∀ flags, ∀ s : CpuCaches,
      s.page.totalSize + CacheHeader.layout.sizeofEntry ≤ s.page.maxSize →
      ∃ s', setDataCache c 0 flags CacheHeader.dcacheRtn cpu s = .ok s' := fun flags s hs => by
    obtain ⟨r, hr, -⟩ := addCacheWays_returns hs
    exact ⟨_, bind_eq_ok.mpr ⟨r, (addCpuCache_eq ..).trans hr, rfl⟩⟩
  rw [initCache]
  by_cases hunified : u32 c.clidr &&& 4 ≠ 0
  · simp only [if_pos hunified]
    exact hdata _ s (by omega)
  simp only [if_neg hunified]
  have hins : ∃ s₁, (if u32 c.clidr &&& 1 ≠ 0 then
      setInsCache c 1 CacheHeader.flagInstr CacheHeader.icacheRtn cpu s else .ok s) = .ok s₁ ∧
      s₁.page.totalSize + CacheHeader.layout.sizeofEntry ≤ s₁.page.maxSize := by
    split
    · obtain ⟨r, hr, htotal, hmax⟩ := addCacheWays_returns (t := s.toCacheTable) (by omega)
      refine ⟨_, bind_eq_ok.mpr ⟨r, (addCpuCache_eq ..).trans hr, rfl⟩, ?_⟩
      simp only [hmax]
      omega
    · exact ⟨s, rfl, by omega⟩
  obtain ⟨s₁, hs₁, hroom₁⟩ := hins
  rw [hs₁]
  change ∃ s', (if u32 c.clidr &&& 2 ≠ 0 then _ else _) = _
  split
  · exact hdata _ s₁ hroom₁
  · exact ⟨s₁, rfl⟩

end

section

variable {header snooped : Nat} {cpus : List (Nat × CacheInputs)}
  {l : List (SharedCell CacheShape)} {t : CacheTable}
  {icacheIdx dcacheIdx : Nat} {I D : List CacheShape} {s s' : CpuCaches}

/-- The lists of all processors, once some of them have been initialised. -/
structure CpusHave (header snooped : Nat) (cpus : List (Nat × CacheInputs))
    (icacheIdx dcacheIdx : Nat) (I D : List CacheShape) (l : List (SharedCell CacheShape))
    (s : CpuCaches) : Prop where
  inv : CacheInv header s.toCacheTable
  kept : ∃ l', s.cacheattr = l ++ l'
  own : ∀ c ∈ cpus, CellsAt CacheHeader.listEnd s.cacheattr (s.insCache c.1) (insCaches c.2 ++ I) ∧
    CellsAt CacheHeader.listEnd s.cacheattr (s.dataCache c.1) (dataCaches snooped c.2 ++ D)
  others : ∀ cpu, cpu ∉ cpus.map Prod.fst → s.insCache cpu = icacheIdx ∧ s.dataCache cpu = dcacheIdx

theorem CpusHave.step (hs : CpusHave header snooped cpus icacheIdx dcacheIdx I D l s)
    (hpos : 0 < header) (hi : CellsAt CacheHeader.listEnd l icacheIdx I)
    (hd : CellsAt CacheHeader.listEnd l dcacheIdx D) {c : Nat × CacheInputs}
    (hc : c.1 ∉ cpus.map Prod.fst) (hrun : initCache snooped c.2 c.1 s = .ok s') :
    CpusHave header snooped (cpus ++ [c]) icacheIdx dcacheIdx I D l s' := by
  obtain ⟨l', hl⟩ := hs.kept
  obtain ⟨hinsIdx, hdataIdx⟩ := hs.others c.1 hc
  have hins : CellsAt CacheHeader.listEnd s.cacheattr (s.insCache c.1) I := by
    rw [hinsIdx, hl]
    exact hi.append l'
  have hdata : CellsAt CacheHeader.listEnd s.cacheattr (s.dataCache c.1) D := by
    rw [hdataIdx, hl]
    exact hd.append l'
  have hstep := initCache_added hs.inv hpos hins hdata hrun
  obtain ⟨l'', hl'⟩ := hstep.kept
  refine ⟨hstep.inv, ⟨l' ++ l'', by rw [hl', hl, List.append_assoc]⟩, fun b hb => ?_,
    fun cpu hcpu => ?_⟩
  · rcases List.mem_append.mp hb with hb | hb
    · have hne : b.1 ≠ c.1 := fun heq => hc (heq ▸ List.mem_map_of_mem hb)
      rw [(hstep.others b.1 hne).1, (hstep.others b.1 hne).2]
      exact ⟨hstep.keep (hs.own b hb).1, hstep.keep (hs.own b hb).2⟩
    · obtain rfl := List.mem_singleton.mp hb
      exact ⟨hstep.ins _ hins, hstep.data _ hdata⟩
  · rw [List.map_append, List.mem_append, not_or] at hcpu
    have hne : cpu ≠ c.1 := fun heq => hcpu.2 (by simp [heq])
    rw [(hstep.others cpu hne).1, (hstep.others cpu hne).2]
    exact hs.others cpu hcpu.1

theorem CpusRun.have (ht : CacheInv header t) (hpos : 0 < header)
    (hi : CellsAt CacheHeader.listEnd t.cacheattr icacheIdx I)
    (hd : CellsAt CacheHeader.listEnd t.cacheattr dcacheIdx D)
    (run : CpusRun header snooped (initCpuinfo icacheIdx dcacheIdx t) cpus s)
    (hnodup : (cpus.map Prod.fst).Nodup) :
    CpusHave header snooped cpus icacheIdx dcacheIdx I D t.cacheattr s := by
  induction run with
  | start => exact ⟨ht, ⟨[], (List.append_nil _).symm⟩, nofun, fun _ _ => ⟨rfl, rfl⟩⟩
  | elsewhere _ h hb ih =>
    have hs := ih hnodup
    exact ⟨hs.inv.elsewhere h hb, hs.kept, hs.own, hs.others⟩
  | @cpu cpus s s' c _ h ih =>
    rw [List.map_append, List.nodup_append] at hnodup
    have hc : c.1 ∉ cpus.map Prod.fst :=
      fun hmem => hnodup.2.2 _ hmem _ (List.mem_singleton.mpr rfl) rfl
    exact (ih hnodup.1).step hpos hi hd hc h

/-- The table stays shared and is what the section holds, each processor has its own caches before
those of the system, and two processors have one index exactly if their caches are the same. -/
theorem init_cpuinfo_caches {sz : SyspageSizes} (board : BoardCaches sz t)
    (hi : CellsAt CacheHeader.listEnd t.cacheattr icacheIdx I)
    (hd : CellsAt CacheHeader.listEnd t.cacheattr dcacheIdx D)
    (run : CpusRun sz.header snooped (initCpuinfo icacheIdx dcacheIdx t) cpus s)
    (hnodup : (cpus.map Prod.fst).Nodup) :
    CpusHave sz.header snooped cpus icacheIdx dcacheIdx I D t.cacheattr s ∧
      (∀ a ∈ cpus, ∀ b ∈ cpus,
        (s.insCache a.1 = s.insCache b.1 ↔ insCaches a.2 = insCaches b.2) ∧
        (s.dataCache a.1 = s.dataCache b.1 ↔ dataCaches snooped a.2 = dataCaches snooped b.2)) ∧
      ∀ c : Nat × CacheInputs,
        s.page.totalSize + 2 * CacheHeader.layout.sizeofEntry ≤ s.page.maxSize →
        ∃ s', initCache snooped c.2 c.1 s = .ok s' := by
  have hrun := run.have board.inv sz.header_bounds.1 hi hd hnodup
  refine ⟨hrun, fun a ha b hb => ?_, fun c => initCache_returns snooped c.2 c.1⟩
  have hshared := hrun.inv.shared
  obtain ⟨hai, had⟩ := hrun.own a ha
  obtain ⟨hbi, hbd⟩ := hrun.own b hb
  refine ⟨⟨fun heq => ?_, fun heq => ?_⟩, ⟨fun heq => ?_, fun heq => ?_⟩⟩
  · rw [heq] at hai
    exact List.append_cancel_right (hshared.unique hai hbi)
  · rw [heq] at hai
    exact hshared.index_unique hai hbi
  · rw [heq] at had
    exact List.append_cancel_right (hshared.unique had hbd)
  · rw [heq] at had
    exact hshared.index_unique had hbd

end

end

theorem exampleCacheEntry_pos : 0 < 32 := by decide

theorem exampleCacheEntry_lt : 32 < 2 ^ 16 := by decide

theorem exampleCacheEntry_dvd : 8 ∣ 32 := by decide

/-- The fields in their order, the callout's address and what is left. -/
def encodeExampleCache (e : SharedCell CacheShape) : List UInt8 :=
  le32 e.next ++ le32 e.val.lineSize ++ le32 e.val.numLines ++ le32 e.val.flags ++
    le32 e.val.control ++ le32 (e.val.control / 2 ^ 32) ++ le32 e.val.ways ++ List.replicate 4 0

theorem length_encodeExampleCache (e : SharedCell CacheShape) :
    (encodeExampleCache e).length = 32 := rfl

theorem exampleListEnd_far : tempSyspageSize ≤ 2 ^ 32 - 1 := by decide

abbrev exampleCacheHeader : CacheHeader where
  flagUnified := 0x200
  flagInstr := 0x1
  flagData := 0x2
  listEnd := 2 ^ 32 - 1
  icacheRtn := 0x1000
  dcacheRtn := 0x2000
  layout := ⟨32, encodeExampleCache, exampleCacheEntry_pos, exampleCacheEntry_lt,
    exampleCacheEntry_dvd, length_encodeExampleCache⟩
  listEnd_far := exampleListEnd_far

/-- Three processors; the last one has smaller caches. -/
def exampleCacheCpus : List (Nat × CacheInputs) :=
  [(0, exampleCaches), (1, exampleCaches), (2, ⟨0x2000023, fun _ => 63 * 2 ^ 13 + 3 * 2 ^ 3 + 2⟩)]

def exampleCachePage : Syspage :=
  resultOr (emptySyspage exampleSizes 0x1000 0x600 fun _ => 0)
    (initSyspageMemory exampleSizes 0x1000 0x600 fun _ => 0)

/-- A cache of the system, which the board adds. -/
def exampleSystemCache : SharedCell CacheShape := ⟨⟨0x200, 64, 8192, 0, 0x2000⟩, 2 ^ 32 - 1⟩

def exampleBoardCaches : Startup (Nat × CacheTable) :=
  @addCache exampleCacheHeader (2 ^ 32 - 1) 0x200 64 8192 0x2000 ⟨exampleCachePage, []⟩

def exampleCacheTable : CacheTable := (resultOr (0, ⟨exampleCachePage, []⟩) exampleBoardCaches).2

theorem exampleCacheTable_board :
    @BoardCaches exampleCacheHeader exampleSizes exampleCacheTable := by
  have hpage : initSyspageMemory exampleSizes 0x1000 0x600 (fun _ => 0) = .ok exampleCachePage :=
    eq_ok_resultOr _ (by decide)
  have hadd : exampleBoardCaches.isOk = true := by decide +kernel
  exact @BoardCaches.add exampleCacheHeader _ _ _ _ _ _ _ _ _ _
    (@BoardCaches.init exampleCacheHeader _ _ _ _ _ (by decide) hpage) (.inr rfl)
    (eq_ok_resultOr (0, ⟨exampleCachePage, []⟩) hadd)

def exampleInitCache (s : CpuCaches) (c : Nat × CacheInputs) : Startup CpuCaches :=
  @initCache exampleCacheHeader 0 c.2 c.1 s

theorem exampleCacheCpus_run :
    ∃ s, @CpusRun exampleCacheHeader exampleSizes.header 0
      (initCpuinfo (2 ^ 32 - 1) 0 exampleCacheTable) exampleCacheCpus s ∧
      s.cacheattr.length = 5 := by
  let s₀ := initCpuinfo (2 ^ 32 - 1) 0 exampleCacheTable
  let s₁ := resultOr s₀ (exampleInitCache s₀ exampleCacheCpus[0])
  let s₂ := resultOr s₁ (exampleInitCache s₁ exampleCacheCpus[1])
  have h₀ : (exampleInitCache s₀ exampleCacheCpus[0]).isOk = true := by decide +kernel
  have h₁ : (exampleInitCache s₁ exampleCacheCpus[1]).isOk = true := by decide +kernel
  have h₂ : (exampleInitCache s₂ exampleCacheCpus[2]).isOk = true := by decide +kernel
  have run₁ := @CpusRun.cpu exampleCacheHeader _ _ _ _ _ _ exampleCacheCpus[0]
    (@CpusRun.start exampleCacheHeader exampleSizes.header 0 s₀) (eq_ok_resultOr s₀ h₀)
  have run₂ := @CpusRun.cpu exampleCacheHeader _ _ _ _ _ _ exampleCacheCpus[1] run₁
    (eq_ok_resultOr s₁ h₁)
  exact ⟨_, @CpusRun.cpu exampleCacheHeader _ _ _ _ _ _ exampleCacheCpus[2] run₂
    (eq_ok_resultOr s₂ h₂), by decide +kernel⟩

theorem init_cpuinfo_caches_example :
    ∃ s, @CpusRun exampleCacheHeader exampleSizes.header 0
      (initCpuinfo (2 ^ 32 - 1) 0 exampleCacheTable) exampleCacheCpus s ∧
      s.cacheattr.length = 5 ∧ s.dataCache 0 = s.dataCache 1 ∧ s.dataCache 0 ≠ s.dataCache 2 := by
  obtain ⟨s, run, hlen⟩ := exampleCacheCpus_run
  have hlist : exampleCacheTable.cacheattr = [exampleSystemCache] := by decide +kernel
  have hsys : CellsAt (2 ^ 32 - 1) exampleCacheTable.cacheattr 0 [exampleSystemCache.val] := by
    rw [hlist]
    exact .cons rfl .nil
  have h := (@init_cpuinfo_caches exampleCacheHeader 0 exampleCacheCpus _ _ 0 [] _ _ _
    exampleCacheTable_board .nil hsys run (by decide)).2.1
  refine ⟨s, run, hlen, (h _ (List.mem_cons_self ..) _
    (List.mem_cons_of_mem _ (List.mem_cons_self ..))).2.mpr rfl, fun heq => ?_⟩
  have hsame := (h _ (List.mem_cons_self ..) _
    (List.mem_cons_of_mem _ (List.mem_cons_of_mem _ (List.mem_cons_self ..)))).2.mp heq
  exact absurd hsame (by decide)

end QnxStartup
