import QnxStartup.FdtTree

/-! `fdt_get_intr_cells`: from a node over its interrupt parents to the first with
"#interrupt-cells". -/

namespace QnxStartup

/-- The static variables. -/
structure IntrCache where
  fdt : Nat
  phandle : Nat
  parent : Int
  intrCells : Int
  deriving DecidableEq

def IntrCache.initial : IntrCache := ⟨0, 0, 0, 0⟩

/-- The offsets passed to the library, and the result, what is stored through `parent`,
and the static variables. -/
structure IntrRun where
  offsets : List Int
  result : Startup (Int × Option Int × IntrCache)

section

variable (t : DeviceTree) (maxNcells : Nat)

/-- Reads "#interrupt-cells"; without it the loop goes on. -/
def interruptCells (node : Int) : Option (Int × Option Int) :=
  let (r, cells) := fdtGetInt t node 0 "#interrupt-cells"
  let cells := cells.getD 0
  if 0 ≤ r then
    if r ≠ 0 ∨ cells ≤ 0 ∨ (maxNcells : Int) < cells then some (-fdtErrBadncells, none)
      else some (cells, some node)
  else if r ≠ -fdtErrNotfound then some (r, none)
  else none

/-- A parent that a phandle named is kept. -/
def IntrCache.store (cache : IntrCache) (phandle : Nat) (answer : Int × Option Int) : IntrCache :=
  match answer.2 with
  | some parent => if phandle ≠ noPhandle then ⟨t.addr, phandle, parent, answer.1⟩ else cache
  | none => cache

/-- Where the loop goes from a node, by what reading its "interrupt-parent" returned. -/
def parentLookup (node r : Int) (phandle : Nat) : Int × Nat × List Int :=
  if r = 0 then (t.nodeOffsetByPhandle phandle, phandle, [])
  else if r = -fdtErrNotfound then (t.parentOffset node, noPhandle, [node])
  else (r, phandle, [])

def intrCellsLoop : Nat → IntrCache → Nat → Int → IntrRun
  | 0, _, _, _ => ⟨[], .error .noReturn⟩
  | fuel + 1, cache, phandle, node =>
    let (r, value) := fdtGetU32 t node 0 "interrupt-parent"
    let phandle := value.getD phandle
    if r = 0 ∧ cache.fdt = t.addr ∧ phandle = cache.phandle then
      ⟨[node], .ok (cache.intrCells, some cache.parent, cache)⟩
    else
      let (r, phandle, offsets) := parentLookup t node r phandle
      if r < 0 then ⟨node :: offsets, .ok (r, none, cache)⟩
      else
        match interruptCells t maxNcells r with
        | some answer => ⟨node :: offsets ++ [r],
            .ok (answer.1, answer.2, cache.store t phandle answer)⟩
        | none =>
          let rest := intrCellsLoop fuel cache phandle r
          ⟨node :: offsets ++ r :: rest.offsets, rest.result⟩

def fdtGetIntrCells (fuel : Nat) (cache : IntrCache) (node : Int) : IntrRun :=
  intrCellsLoop t maxNcells fuel cache noPhandle node

/-- Calls on the nodes of a list, one after the other. -/
def intrCellsCalls (fuel : Nat) :
    IntrCache → List Int → Startup (List (Int × Option Int) × IntrCache)
  | cache, [] => .ok ([], cache)
  | cache, node :: nodes =>
    (fdtGetIntrCells t maxNcells fuel cache node).result.bind fun (r, parent, cache) =>
      (intrCellsCalls fuel cache nodes).bind fun (answers, cache) =>
        .ok ((r, parent) :: answers, cache)

def IntrRun.answer (run : IntrRun) : Startup (Int × Option Int) :=
  run.result.map fun (r, parent, _) => (r, parent)

/-! ### The chain of interrupt parents -/

/-- The node that "interrupt-parent" names, or the tree's own parent. -/
def interruptParent (node : Int) : Except Int Int :=
  match t.getprop node "interrupt-parent" with
  | .error len =>
    if len = -fdtErrNotfound then if 0 ≤ t.parentOffset node then .ok (t.parentOffset node)
      else .error (t.parentOffset node)
    else .error len
  | .ok p =>
    if p.length = 4 then
      if 0 ≤ t.nodeOffsetByPhandle (cellsValue p) then .ok (t.nodeOffsetByPhandle (cellsValue p))
      else .error (t.nodeOffsetByPhandle (cellsValue p))
    else .error (-fdtErrBadstructure)

def LongParent (node : Int) : Prop := ∃ p, t.getprop node "interrupt-parent" = .ok p ∧ 4 < p.length

/-- The interrupt parent of `node` is `parent`, which has no "#interrupt-cells". -/
def IntrHop (node parent : Int) : Prop :=
  interruptParent t node = .ok parent ∧ t.getprop parent "#interrupt-cells" =
    .error (-fdtErrNotfound)

/-- The first node on the chain of `node` with "#interrupt-cells" is `parent`, and its
value is `cells`. -/
def FirstIntrCells (node parent cells : Int) : Prop :=
  ∃ last, Relation.ReflTransGen (IntrHop t) node last ∧ interruptParent t last = .ok parent ∧
    ∃ p, t.getprop parent "#interrupt-cells" = .ok p ∧ p.length = 4 ∧ cells = int32 (cellsValue p)

/-- The call returns an error or that value, and passes only nodes to the library. -/
def Resolves (nodes : Set Int) (cache : IntrCache) (node : Int) : Prop :=
  ∃ fuel r parent cache', (fdtGetIntrCells t maxNcells fuel cache node).result =
    .ok (r, parent, cache') ∧
    (∀ offset ∈ (fdtGetIntrCells t maxNcells fuel cache node).offsets, offset ∈ nodes) ∧
    (r < 0 ∧ parent = none ∨ ∃ m, parent = some m ∧ FirstIntrCells t node m r)

end

/-! ### One turn of the loop -/

section
variable {t : DeviceTree} {maxNcells fuel phandle : Nat} {node m : Int} {cache : IntrCache}
  {a : Int × Option Int}

/-- What the static variables hold is what the look-ups say. -/
def CacheOk (t : DeviceTree) (maxNcells : Nat) (cache : IntrCache) : Prop :=
  cache.fdt = t.addr → interruptCells t maxNcells cache.parent =
    some (cache.intrCells, some cache.parent) ∧
    0 ≤ cache.parent ∧ t.nodeOffsetByPhandle cache.phandle = cache.parent

/-- A long "interrupt-parent" does not lead to cells. -/
def NoStray (t : DeviceTree) (maxNcells : Nat) : Prop :=
  ∀ node, LongParent t node →
    ∀ cells parent, interruptCells t maxNcells 4 ≠ some (cells, some parent)

theorem cacheOk_initial (t : DeviceTree) (maxNcells : Nat) :
    CacheOk t maxNcells IntrCache.initial :=
  fun h => absurd h.symm t.addr_ne

def intrTarget (t : DeviceTree) (phandle : Nat) (node : Int) : Int × Nat × List Int :=
  let (r, value) := fdtGetU32 t node 0 "interrupt-parent"
  parentLookup t node r (value.getD phandle)

/-- A turn without the static variables: the answer, or the phandle and node of the next turn. -/
def intrTurn (t : DeviceTree) (maxNcells phandle : Nat) (node : Int) :
    (Int × Option Int) ⊕ (Nat × Int) :=
  let (r, phandle, _) := intrTarget t phandle node
  if r < 0 then .inl (r, none)
  else
    match interruptCells t maxNcells r with
    | some answer => .inl answer
    | none => .inr (phandle, r)

theorem intrTarget_none {len : Int} (h : t.getprop node "interrupt-parent" = .error len) :
    intrTarget t phandle node =
      if len = -fdtErrNotfound then (t.parentOffset node, noPhandle, [node])
        else (len, phandle, []) := by
  rw [intrTarget, fdtGetU32_error h]
  exact if_neg (t.getprop_error _ _ _ h).ne

theorem intrTarget_short {p : List UInt8} (h : t.getprop node "interrupt-parent" = .ok p)
    (hlen : p.length < 4) :
    intrTarget t phandle node = (-fdtErrBadstructure, phandle, []) := by
  rw [intrTarget, fdtGetU32_short h hlen]
  rfl

theorem intrTarget_cell {p : List UInt8} (h : t.getprop node "interrupt-parent" = .ok p)
    (hlen : p.length = 4) :
    intrTarget t phandle node = (t.nodeOffsetByPhandle (cellsValue p), cellsValue p, []) := by
  rw [intrTarget, fdtGetU32_cell h hlen]
  rfl

theorem intrTarget_long {p : List UInt8} (h : t.getprop node "interrupt-parent" = .ok p)
    (hlen : 4 < p.length) :
    intrTarget t phandle node = (4, cellsValue (p.take 4), []) := by
  rw [intrTarget, fdtGetU32_long h hlen]
  rfl

theorem intrTarget_of_error (phandle : Nat) {e : Int} (h : interruptParent t node = .error e)
    (hlong : ¬ LongParent t node) :
    (intrTarget t phandle node).1 = e ∧ e < 0 := by
  rw [interruptParent] at h
  cases hp : t.getprop node "interrupt-parent" with
  | error len =>
    rw [hp] at h
    rw [intrTarget_none hp]
    dsimp only at h
    split at h
    · next hlen =>
      rw [if_pos hlen]
      split at h
      · cases h
      · next hneg =>
        cases h
        exact ⟨rfl, not_le.mp hneg⟩
    · next hlen =>
      rw [if_neg hlen]
      cases h
      exact ⟨rfl, t.getprop_error _ _ _ hp⟩
  | ok p =>
    rw [hp] at h
    dsimp only at h
    split at h
    · next hlen =>
      rw [intrTarget_cell hp hlen]
      split at h
      · cases h
      · next hneg =>
        cases h
        exact ⟨rfl, not_le.mp hneg⟩
    · next hlen =>
      have hshort : p.length < 4 := by
        by_contra hge
        exact hlong ⟨p, hp, by omega⟩
      rw [intrTarget_short hp hshort]
      cases h
      exact ⟨rfl, by decide⟩

theorem intrTarget_of_ok (phandle : Nat) (h : interruptParent t node = .ok m) :
    (intrTarget t phandle node).1 = m ∧ 0 ≤ m := by
  rw [interruptParent] at h
  cases hp : t.getprop node "interrupt-parent" with
  | error len =>
    rw [hp] at h
    rw [intrTarget_none hp]
    dsimp only at h
    split at h
    · next hlen =>
      rw [if_pos hlen]
      split at h
      · next hpos =>
        cases h
        exact ⟨rfl, hpos⟩
      · cases h
    · cases h
  | ok p =>
    rw [hp] at h
    dsimp only at h
    split at h
    · next hlen =>
      rw [intrTarget_cell hp hlen]
      split at h
      · next hpos =>
        cases h
        exact ⟨rfl, hpos⟩
      · cases h
    · cases h

theorem intrTarget_offsets (t : DeviceTree) (phandle : Nat) (node : Int) :
    ∀ o ∈ (intrTarget t phandle node).2.2, o = node := by
  rw [intrTarget]
  dsimp only
  rw [parentLookup]
  split
  · nofun
  · split
    · exact fun o ho => List.mem_singleton.mp ho
    · nofun

theorem intrTarget_phandle (hlong : ¬ LongParent t node)
    (hkeep : (intrTarget t phandle node).2.1 ≠ noPhandle)
    (hpos : 0 ≤ (intrTarget t phandle node).1) :
    t.nodeOffsetByPhandle (intrTarget t phandle node).2.1 = (intrTarget t phandle node).1 := by
  cases hp : t.getprop node "interrupt-parent" with
  | error len =>
    rw [intrTarget_none hp] at hkeep hpos ⊢
    split at hkeep
    · exact absurd rfl hkeep
    · next hlen =>
      rw [if_neg hlen] at hpos
      exact absurd hpos (not_le.mpr (t.getprop_error _ _ _ hp))
  | ok p =>
    rcases lt_trichotomy p.length 4 with hlt | heq | hgt
    · rw [intrTarget_short hp hlt] at hpos
      have hneg : ¬ 0 ≤ -fdtErrBadstructure := by decide
      exact absurd hpos hneg
    · rw [intrTarget_cell hp heq]
    · exact absurd ⟨p, hp, hgt⟩ hlong

def CacheHit (t : DeviceTree) (cache : IntrCache) (phandle : Nat) (node : Int) : Prop :=
  (fdtGetU32 t node 0 "interrupt-parent").1 = 0 ∧ cache.fdt = t.addr ∧
    (fdtGetU32 t node 0 "interrupt-parent").2.getD phandle = cache.phandle

theorem intrCellsLoop_hit (h : CacheHit t cache phandle node) :
    intrCellsLoop t maxNcells (fuel + 1) cache phandle node =
      ⟨[node], .ok (cache.intrCells, some cache.parent, cache)⟩ := by
  rw [intrCellsLoop]
  exact if_pos h

theorem intrTurn_hit (hcache : CacheOk t maxNcells cache) (h : CacheHit t cache phandle node) :
    intrTurn t maxNcells phandle node = .inl (cache.intrCells, some cache.parent) := by
  obtain ⟨hr, hfdt, hph⟩ := h
  obtain ⟨hcells, hpos, hnode⟩ := hcache hfdt
  have htarget : intrTarget t phandle node = (cache.parent, cache.phandle, []) := by
    rw [intrTarget]
    dsimp only
    rw [hr, hph, parentLookup, if_pos rfl, hnode]
  rw [intrTurn, htarget]
  dsimp only
  rw [if_neg (not_lt.mpr hpos), hcells]

theorem intrCellsLoop_miss (h : ¬ CacheHit t cache phandle node) :
    intrCellsLoop t maxNcells (fuel + 1) cache phandle node =
      if (intrTarget t phandle node).1 < 0 then
        ⟨node :: (intrTarget t phandle node).2.2, .ok ((intrTarget t phandle node).1, none, cache)⟩
      else
        match interruptCells t maxNcells (intrTarget t phandle node).1 with
        | some answer => ⟨node :: (intrTarget t phandle node).2.2 ++
            [(intrTarget t phandle node).1],
            .ok (answer.1, answer.2, cache.store t (intrTarget t phandle node).2.1 answer)⟩
        | none =>
          ⟨node :: (intrTarget t phandle node).2.2 ++ (intrTarget t phandle node).1 ::
              (intrCellsLoop t maxNcells fuel cache (intrTarget t phandle node).2.1
                (intrTarget t phandle node).1).offsets,
            (intrCellsLoop t maxNcells fuel cache (intrTarget t phandle node).2.1
              (intrTarget t phandle node).1).result⟩ := by
  rw [intrCellsLoop]
  exact if_neg h

theorem interruptCells_parent (h : interruptCells t maxNcells node = some a) (hp : a.2 = some m) :
    m = node := by
  rw [interruptCells] at h
  dsimp only at h
  split at h
  · split at h
    · cases h
      cases hp
    · cases h
      cases hp
      rfl
  · split at h
    · cases h
      cases hp
    · cases h

theorem CacheOk.store (hcache : CacheOk t maxNcells cache) (hstray : NoStray t maxNcells)
    (hpos : 0 ≤ (intrTarget t phandle node).1)
    (ha : interruptCells t maxNcells (intrTarget t phandle node).1 = some a) :
    CacheOk t maxNcells (cache.store t (intrTarget t phandle node).2.1 a) := by
  obtain ⟨cells, parent⟩ := a
  rw [IntrCache.store]
  cases parent with
  | none => exact hcache
  | some parent =>
    dsimp only
    split
    · next hkeep =>
      obtain rfl := interruptCells_parent ha rfl
      intro _
      refine ⟨ha, hpos, intrTarget_phandle (fun hlong => ?_) hkeep hpos⟩
      obtain ⟨p, hp, hlen⟩ := hlong
      rw [intrTarget_long hp hlen] at ha
      exact hstray node ⟨p, hp, hlen⟩ _ _ ha
    · exact hcache

theorem intrCellsLoop_done (fuel : Nat) (hcache : CacheOk t maxNcells cache)
    (hstray : NoStray t maxNcells) (h : intrTurn t maxNcells phandle node = .inl a) :
    ∃ cache', (intrCellsLoop t maxNcells (fuel + 1) cache phandle node).result =
      .ok (a.1, a.2, cache') ∧
      CacheOk t maxNcells cache' := by
  by_cases hhit : CacheHit t cache phandle node
  · rw [intrTurn_hit hcache hhit] at h
    cases h
    exact ⟨cache, by rw [intrCellsLoop_hit hhit], hcache⟩
  · rw [intrCellsLoop_miss hhit]
    rw [intrTurn] at h
    dsimp only at h
    split at h
    · next hneg =>
      cases h
      exact ⟨cache, by rw [if_pos hneg], hcache⟩
    · next hneg =>
      rw [if_neg hneg]
      cases ha : interruptCells t maxNcells (intrTarget t phandle node).1 with
      | some answer =>
        rw [ha] at h
        cases h
        exact ⟨_, rfl, hcache.store hstray (not_lt.mp hneg) ha⟩
      | none =>
        rw [ha] at h
        cases h

theorem intrCellsLoop_again {next : Nat} (hcache : CacheOk t maxNcells cache)
    (h : intrTurn t maxNcells phandle node = .inr (next, m)) :
    intrCellsLoop t maxNcells (fuel + 1) cache phandle node =
      ⟨node :: (intrTarget t phandle node).2.2 ++ m ::
        (intrCellsLoop t maxNcells fuel cache next m).offsets,
        (intrCellsLoop t maxNcells fuel cache next m).result⟩ := by
  have hmiss : ¬ CacheHit t cache phandle node :=
    fun hhit => nomatch h.symm.trans (intrTurn_hit hcache hhit)
  rw [intrCellsLoop_miss hmiss]
  rw [intrTurn] at h
  dsimp only at h
  split at h
  · cases h
  · next hneg =>
    rw [if_neg hneg]
    cases ha : interruptCells t maxNcells (intrTarget t phandle node).1 with
    | some answer =>
      rw [ha] at h
      cases h
    | none =>
      rw [ha] at h
      cases h
      rfl

end

/-! ### Sequences of calls -/

section
variable {t : DeviceTree} {maxNcells : Nat} {cache cache' : IntrCache}

theorem intrCellsLoop_answer (hcache : CacheOk t maxNcells cache)
    (hcache' : CacheOk t maxNcells cache') (hstray : NoStray t maxNcells) (fuel phandle : Nat)
    (node : Int) :
    (intrCellsLoop t maxNcells fuel cache phandle node).answer =
      (intrCellsLoop t maxNcells fuel cache' phandle node).answer := by
  induction fuel generalizing phandle node with
  | zero => rfl
  | succ fuel ih =>
    cases hturn : intrTurn t maxNcells phandle node with
    | inl a =>
      obtain ⟨c, hc, _⟩ := intrCellsLoop_done fuel hcache hstray hturn
      obtain ⟨c', hc', _⟩ := intrCellsLoop_done fuel hcache' hstray hturn
      rw [IntrRun.answer, IntrRun.answer, hc, hc']
      rfl
    | inr next =>
      rw [IntrRun.answer, IntrRun.answer, intrCellsLoop_again hcache hturn,
        intrCellsLoop_again hcache' hturn]
      exact ih next.1 next.2

theorem intrCellsLoop_cacheOk {fuel phandle : Nat} {node r : Int} {parent : Option Int}
    (hcache : CacheOk t maxNcells cache) (hstray : NoStray t maxNcells)
    (h : (intrCellsLoop t maxNcells fuel cache phandle node).result = .ok (r, parent, cache')) :
    CacheOk t maxNcells cache' := by
  induction fuel generalizing phandle node with
  | zero => cases h
  | succ fuel ih =>
    cases hturn : intrTurn t maxNcells phandle node with
    | inl a =>
      obtain ⟨c, hc, hok⟩ := intrCellsLoop_done fuel hcache hstray hturn
      rw [hc] at h
      cases h
      exact hok
    | inr next =>
      rw [intrCellsLoop_again hcache hturn] at h
      exact ih h

theorem intrCellsCalls_cacheOk {fuel : Nat} {nodes : List Int} {answers : List (Int × Option Int)}
    (hcache : CacheOk t maxNcells cache) (hstray : NoStray t maxNcells)
    (h : intrCellsCalls t maxNcells fuel cache nodes = .ok (answers, cache')) :
    CacheOk t maxNcells cache' := by
  induction nodes generalizing cache answers with
  | nil =>
    cases h
    exact hcache
  | cons node nodes ih =>
    obtain ⟨⟨r, parent, next⟩, hnode, h⟩ := bind_eq_ok.mp h
    obtain ⟨⟨rest, last⟩, hrest, h⟩ := bind_eq_ok.mp h
    cases h
    exact ih (intrCellsLoop_cacheOk hcache hstray hnode) hrest

theorem intrCellsCalls_answers {fuel : Nat} (hcache : CacheOk t maxNcells cache)
    (hstray : NoStray t maxNcells) (nodes : List Int) :
    (intrCellsCalls t maxNcells fuel cache nodes).map Prod.fst =
      nodes.mapM fun node => (fdtGetIntrCells t maxNcells fuel IntrCache.initial node).answer := by
  induction nodes generalizing cache with
  | nil => rfl
  | cons node nodes ih =>
    have hsame := intrCellsLoop_answer
      (cacheOk_initial t maxNcells) hcache hstray fuel noPhandle node
    rw [List.mapM_cons, fdtGetIntrCells, hsame, intrCellsCalls, fdtGetIntrCells, IntrRun.answer]
    cases hnode : (intrCellsLoop t maxNcells fuel cache noPhandle node).result with
    | error halt => rfl
    | ok out =>
      obtain ⟨r, parent, next⟩ := out
      have hrest := ih (intrCellsLoop_cacheOk hcache hstray hnode)
      change (Except.bind (intrCellsCalls t maxNcells fuel next nodes) _).map Prod.fst =
        Except.bind (nodes.mapM _) _
      rw [← hrest]
      cases intrCellsCalls t maxNcells fuel next nodes with
      | error halt => rfl
      | ok out => rfl

/-- Over any sequence of calls each answers as it would with the static variables in
their first state. -/
theorem intr_cells_cached {t : DeviceTree}
    (hone : ∀ node p, t.getprop node "interrupt-parent" = .ok p → p.length = 4)
    (maxNcells fuel : Nat) (nodes : List Int) :
    (intrCellsCalls t maxNcells fuel IntrCache.initial nodes).map Prod.fst =
      nodes.mapM fun node => (fdtGetIntrCells t maxNcells fuel IntrCache.initial node).answer :=
  intrCellsCalls_answers (cacheOk_initial t maxNcells) (fun node ⟨p, hp, hlen⟩ => absurd
    (hone node p hp) hlen.ne') nodes

def deviceTable (interruptParent : List UInt8) : List FdtEntry :=
  [⟨0, -fdtErrNotfound, 0, []⟩, ⟨24, 0, 1, [("#interrupt-cells", [0, 0, 0, 3])]⟩,
    ⟨72, 24, 0, [("interrupt-parent", interruptParent)]⟩]

theorem intr_cells_cached_example :
    (intrCellsCalls (tableFdt (deviceTable [0, 0, 0, 1])) 4 2 IntrCache.initial
        [72, 24, 72]).map Prod.fst =
      [72, 24, 72].mapM fun node => (fdtGetIntrCells (tableFdt (deviceTable [0, 0, 0, 1])) 4 2
        IntrCache.initial node).answer := by
  refine intr_cells_cached (fun node p h => ?_) 4 2 [72, 24, 72]
  obtain ⟨e, he, _, hp⟩ := tableGetprop_ok h
  simp only [deviceTable, List.mem_cons, List.not_mem_nil, or_false] at he
  rcases he with rfl | rfl | rfl
  · cases hp
  · cases hp
  · cases hp
    rfl

end

/-! ### Where the walk ends -/

section
variable {t : DeviceTree} {maxNcells fuel phandle next : Nat} {nodes : Set Int} {node m : Int}
  {cache : IntrCache}
  {a : Int × Option Int}

theorem interruptCells_none_iff :
    interruptCells t maxNcells node = none ↔
      t.getprop node "#interrupt-cells" = .error (-fdtErrNotfound) := by
  cases hp : t.getprop node "#interrupt-cells" with
  | error len =>
    have hneg : ¬ 0 ≤ len := not_le.mpr (t.getprop_error _ _ _ hp)
    simp [interruptCells, fdtGetInt, fdtGetU32_error hp, hneg]
  | ok p =>
    rcases lt_trichotomy p.length 4 with hlt | heq | hgt
    · simp [interruptCells, fdtGetInt, fdtGetU32_short hp hlt, fdtErrBadstructure, fdtErrNotfound]
    · simp [interruptCells, fdtGetInt, fdtGetU32_cell hp heq, ite_eq_iff]
    · simp [interruptCells, fdtGetInt, fdtGetU32_long hp hgt]

theorem interruptCells_some (h : interruptCells t maxNcells node = some a) :
    a.1 < 0 ∧ a.2 = none ∨ a.2 = some node ∧
      ∃ p, t.getprop node "#interrupt-cells" = .ok p ∧ p.length = 4 ∧
        a.1 = int32 (cellsValue p) := by
  rw [interruptCells] at h
  dsimp only at h
  split at h
  · split at h
    · cases h
      exact .inl ⟨by decide, rfl⟩
    · next hpos hgood =>
      cases h
      have hzero : (fdtGetInt t node 0 "#interrupt-cells").1 = 0 := by
        by_contra hne
        exact hgood (.inl hne)
      cases hp : t.getprop node "#interrupt-cells" with
      | error len =>
        rw [fdtGetInt, fdtGetU32_error hp] at hzero
        exact absurd hzero (t.getprop_error _ _ _ hp).ne
      | ok p =>
        rcases lt_trichotomy p.length 4 with hlt | heq | hgt
        · rw [fdtGetInt, fdtGetU32_short hp hlt] at hzero
          cases hzero
        · exact .inr ⟨rfl, p, rfl, heq, by rw [fdtGetInt, fdtGetU32_cell hp heq]; rfl⟩
        · rw [fdtGetInt, fdtGetU32_long hp hgt] at hzero
          cases hzero
  · next hneg =>
    split at h
    · cases h
      exact .inl ⟨not_le.mp hneg, rfl⟩
    · cases h

theorem intrTurn_of_error (maxNcells phandle : Nat) {e : Int}
    (h : interruptParent t node = .error e) (hlong : ¬ LongParent t node) :
    intrTurn t maxNcells phandle node = .inl (e, none) := by
  obtain ⟨htarget, hneg⟩ := intrTarget_of_error phandle h hlong
  rw [intrTurn]
  dsimp only
  rw [htarget, if_pos hneg]

theorem intrTurn_of_ok (maxNcells phandle : Nat) (h : interruptParent t node = .ok m) :
    intrTurn t maxNcells phandle node = match interruptCells t maxNcells m with
      | some answer => .inl answer
      | none => .inr ((intrTarget t phandle node).2.1, m) := by
  obtain ⟨htarget, hpos⟩ := intrTarget_of_ok phandle h
  rw [intrTurn]
  dsimp only
  rw [htarget, if_neg (not_lt.mpr hpos)]

theorem intrTurn_hop (maxNcells phandle : Nat) (h : IntrHop t node m) :
    intrTurn t maxNcells phandle node = .inr ((intrTarget t phandle node).2.1, m) := by
  rw [intrTurn_of_ok maxNcells phandle h.1, interruptCells_none_iff.mpr h.2]

theorem hop_of_intrTurn (hlong : ¬ LongParent t node)
    (h : intrTurn t maxNcells phandle node = .inr (next, m)) : IntrHop t node m := by
  cases hp : interruptParent t node with
  | error e => exact nomatch h.symm.trans (intrTurn_of_error maxNcells phandle hp hlong)
  | ok m' =>
    rw [intrTurn_of_ok maxNcells phandle hp] at h
    cases hc : interruptCells t maxNcells m' with
    | some answer =>
      rw [hc] at h
      cases h
    | none =>
      rw [hc] at h
      cases h
      exact ⟨hp, interruptCells_none_iff.mp hc⟩

theorem IntrHop.unique {m' : Int} (h : IntrHop t node m) (h' : IntrHop t node m') : m = m' :=
  Except.ok.inj (h.1.symm.trans h'.1)

theorem DeviceTree.Documented.noStray (hdoc : t.Documented nodes) (maxNcells : Nat) :
    NoStray t maxNcells := by
  intro node _ cells parent h
  rcases interruptCells_some h with ⟨_, hnone⟩ | ⟨_, p, hp, _⟩
  · cases hnone
  · rw [hdoc.getprop 4 hdoc.root_name] at hp
    cases hp

theorem DeviceTree.Documented.interruptParent_mem (hdoc : t.Documented nodes) (hn : node ∈ nodes)
    (h : interruptParent t node = .ok m) :
    m ∈ nodes := by
  rw [interruptParent] at h
  split at h
  · split at h
    · split at h
      · next hpos =>
        cases h
        exact hdoc.parent node hn hpos
      · cases h
    · cases h
  · split at h
    · split at h
      · next hpos =>
        cases h
        exact hdoc.phandle _ hpos
      · cases h
    · cases h

theorem intrTurn_offsets (hlong : ¬ LongParent t node) (hdoc : t.Documented nodes)
    (hn : node ∈ nodes)
    (hrest : ∀ next m, intrTurn t maxNcells phandle node = .inr (next, m) →
      ∀ o ∈ (intrCellsLoop t maxNcells fuel cache next m).offsets, o ∈ nodes) :
    ∀ o ∈ (intrCellsLoop t maxNcells (fuel + 1) cache phandle node).offsets, o ∈ nodes := by
  by_cases hhit : CacheHit t cache phandle node
  · rw [intrCellsLoop_hit hhit]
    intro o ho
    rw [List.mem_singleton.mp ho]
    exact hn
  have hown : ∀ o ∈ node :: (intrTarget t phandle node).2.2, o ∈ nodes := by
    intro o ho
    rcases List.mem_cons.mp ho with rfl | ho
    · exact hn
    · rw [intrTarget_offsets t phandle node o ho]
      exact hn
  rw [intrCellsLoop_miss hhit]
  cases hp : interruptParent t node with
  | error e =>
    obtain ⟨htarget, hneg⟩ := intrTarget_of_error phandle hp hlong
    rw [htarget, if_pos hneg]
    exact hown
  | ok m =>
    obtain ⟨htarget, hpos⟩ := intrTarget_of_ok phandle hp
    have hm : m ∈ nodes := hdoc.interruptParent_mem hn hp
    rw [htarget, if_neg (not_lt.mpr hpos)]
    cases hc : interruptCells t maxNcells m with
    | some answer =>
      intro o ho
      rcases List.mem_append.mp ho with ho | ho
      · exact hown o ho
      · rw [List.mem_singleton.mp ho]
        exact hm
    | none =>
      have hturn := intrTurn_hop maxNcells phandle ⟨hp, interruptCells_none_iff.mp hc⟩
      intro o ho
      rcases List.mem_append.mp ho with ho | ho
      · exact hown o ho
      · rcases List.mem_cons.mp ho with rfl | ho
        · exact hm
        · exact hrest _ _ hturn o ho

theorem intrCellsLoop_resolves (hdoc : t.Documented nodes) (hacc : Acc (flip (IntrHop t)) node)
    (hlong : ∀ m, Relation.ReflTransGen (IntrHop t) node m → ¬ LongParent t m) (hn : node ∈ nodes)
    (hcache : CacheOk t maxNcells cache) (phandle : Nat) :
    ∃ fuel r parent cache', (intrCellsLoop t maxNcells fuel cache phandle node).result =
      .ok (r, parent, cache') ∧
      (∀ o ∈ (intrCellsLoop t maxNcells fuel cache phandle node).offsets, o ∈ nodes) ∧
      (r < 0 ∧ parent = none ∨ ∃ m, parent = some m ∧ FirstIntrCells t node m r) := by
  have hstray := hdoc.noStray maxNcells
  induction hacc generalizing phandle with
  | intro node _ ih =>
    have hnode : ¬ LongParent t node := hlong node .refl
    cases hp : interruptParent t node with
    | error e =>
      have hturn := intrTurn_of_error maxNcells phandle hp hnode
      obtain ⟨cache', hres, _⟩ := intrCellsLoop_done 0 hcache hstray hturn
      refine ⟨1, e, none, cache', hres, intrTurn_offsets hnode hdoc hn fun _ _ h =>
        (nomatch hturn.symm.trans h), .inl ⟨?_, rfl⟩⟩
      exact (intrTarget_of_error phandle hp hnode).2
    | ok m =>
      have hm : m ∈ nodes := hdoc.interruptParent_mem hn hp
      have hturn := intrTurn_of_ok maxNcells phandle hp
      cases hc : interruptCells t maxNcells m with
      | some a =>
        rw [hc] at hturn
        obtain ⟨cache', hres, _⟩ := intrCellsLoop_done 0 hcache hstray hturn
        refine ⟨1, a.1, a.2, cache', hres, intrTurn_offsets hnode hdoc hn fun _ _ h =>
          (nomatch hturn.symm.trans h), ?_⟩
        rcases interruptCells_some hc with hneg | ⟨hparent, hcell⟩
        · exact .inl hneg
        · exact .inr ⟨m, hparent, node, .refl, hp, hcell⟩
      | none =>
        have hhop : IntrHop t node m := ⟨hp, interruptCells_none_iff.mp hc⟩
        have hagain := intrTurn_hop maxNcells phandle hhop
        obtain ⟨fuel, r, parent, cache', hres, hoff, hans⟩ :=
          ih m hhop (fun m' h => hlong m' (.head hhop h)) hm
          (intrTarget t phandle node).2.1
        refine ⟨fuel + 1, r, parent, cache',
          (congrArg IntrRun.result (intrCellsLoop_again hcache hagain)).trans hres, ?_, ?_⟩
        · refine intrTurn_offsets hnode hdoc hn fun next m' h => ?_
          cases hagain.symm.trans h
          exact hoff
        · rcases hans with hneg | ⟨m', hparent, last, hchain, hfirst⟩
          · exact .inl hneg
          · exact .inr ⟨m', hparent, last, .head hhop hchain, hfirst⟩

theorem acc_of_intrCellsLoop {r : Int} {parent : Option Int} {cache' : IntrCache}
    (hroot : (4 : Int) ∉ nodes) (hcache : CacheOk t maxNcells cache)
    (hres : (intrCellsLoop t maxNcells fuel cache phandle node).result = .ok (r, parent, cache'))
    (hoff : ∀ o ∈ (intrCellsLoop t maxNcells fuel cache phandle node).offsets, o ∈ nodes) :
    Acc (flip (IntrHop t)) node ∧ ∀ m, Relation.ReflTransGen (IntrHop t) node m →
      ¬ LongParent t m := by
  induction fuel generalizing phandle node with
  | zero => cases hres
  | succ fuel ih =>
    have hlong : ¬ LongParent t node := by
      rintro ⟨p, hp, hlen⟩
      have hmiss : ¬ CacheHit t cache phandle node := fun hhit => by
        have hfour : (4 : Int) = 0 := (congrArg Prod.fst (fdtGetU32_long hp hlen)).symm.trans hhit.1
        exact absurd hfour (by decide)
      have hfour : ¬ (4 : Int) < 0 := by decide
      rw [intrCellsLoop_miss hmiss, intrTarget_long hp hlen] at hoff
      dsimp only at hoff
      rw [if_neg hfour] at hoff
      refine hroot (hoff 4 ?_)
      cases interruptCells t maxNcells (4 : Int) <;> simp
    cases hturn : intrTurn t maxNcells phandle node with
    | inl a =>
      have hend : ∀ m, ¬ IntrHop t node m := fun m hhop =>
        nomatch hturn.symm.trans (intrTurn_hop maxNcells phandle hhop)
      refine ⟨⟨_, fun m hm => absurd hm (hend m)⟩, fun m hm => ?_⟩
      rcases Relation.ReflTransGen.cases_head hm with rfl | ⟨m', hhop, _⟩
      · exact hlong
      · exact absurd hhop (hend m')
    | inr turn =>
      obtain ⟨next, m⟩ := turn
      have hhop : IntrHop t node m := hop_of_intrTurn hlong hturn
      rw [intrCellsLoop_again hcache hturn] at hres hoff
      obtain ⟨hacc, hall⟩ := ih hres fun o ho =>
        hoff o (List.mem_append_right _ (List.mem_cons_of_mem _ ho))
      refine ⟨⟨_, fun m' hm' => hhop.unique hm' ▸ hacc⟩, fun m' hm' => ?_⟩
      rcases Relation.ReflTransGen.cases_head hm' with rfl | ⟨m'', hhop', hchain⟩
      · exact hlong
      · exact hall m' (hhop.unique hhop' ▸ hchain)

theorem chain_of_resolves (hroot : (4 : Int) ∉ nodes) (hcache : CacheOk t maxNcells cache)
    (h : Resolves t maxNcells nodes cache node) :
    ∀ m, Relation.ReflTransGen (IntrHop t) node m → ¬ LongParent t m ∧
      ¬ Relation.TransGen (IntrHop t) m m := by
  obtain ⟨fuel, r, parent, cache', hres, hoff, _⟩ := h
  obtain ⟨hacc, hlong⟩ := acc_of_intrCellsLoop hroot hcache hres hoff
  intro m hm
  exact ⟨hlong m hm, acc_no_cycle (acc_reached hacc hm)⟩

/-- After any earlier calls: a call returns an error or the value of the first
"#interrupt-cells" on the chain, and passes only nodes, if and only if the chain meets
no long "interrupt-parent" and no cycle. -/
theorem fdt_get_intr_cells_iff {bound : Nat} {earlier : List Int}
    {answers : List (Int × Option Int)} (hdoc : t.Documented nodes)
    (hearlier : intrCellsCalls t maxNcells bound IntrCache.initial earlier = .ok (answers, cache))
    (hn : node ∈ nodes) :
    Resolves t maxNcells nodes cache node ↔
      ∀ m, Relation.ReflTransGen (IntrHop t) node m → ¬ LongParent t m ∧
        ¬ Relation.TransGen (IntrHop t) m m := by
  have hcache : CacheOk t maxNcells cache :=
    intrCellsCalls_cacheOk (cacheOk_initial t maxNcells) (hdoc.noStray maxNcells) hearlier
  constructor
  · exact chain_of_resolves hdoc.root_name hcache
  · intro hchain
    have hacc : Acc (flip (IntrHop t)) node := by
      refine acc_of_no_cycle hdoc.finite (fun a ha b hab => ?_) hn fun m hm => (hchain m hm).2
      exact hdoc.interruptParent_mem ha hab.1
    exact intrCellsLoop_resolves hdoc hacc (fun m hm => (hchain m hm).1) hn hcache noPhandle

end

/-! ### Trees -/

def mutualTable : List FdtEntry :=
  [⟨0, -fdtErrNotfound, 0, []⟩, ⟨24, 0, 1, [("interrupt-parent", [0, 0, 0, 2])]⟩,
    ⟨72, 0, 2, [("interrupt-parent", [0, 0, 0, 1])]⟩]

theorem deviceTable_documented (p : List UInt8) :
    (tableFdt (deviceTable p)).Documented {n | ∃ e ∈ deviceTable p, e.offset = n} :=
  tableFdt_documented (by simp [deviceTable]) (by simp [deviceTable, fdtErrNotfound])

theorem fdt_get_intr_cells_iff_example :
    Resolves (tableFdt (deviceTable [0, 0, 0, 1])) 4 {n | ∃ e ∈ deviceTable [0, 0, 0, 1],
      e.offset = n} ⟨0x4000000, 1, 24, 3⟩ 72 ↔
      ∀ m, Relation.ReflTransGen (IntrHop (tableFdt (deviceTable [0, 0, 0, 1]))) 72 m →
        ¬ LongParent (tableFdt (deviceTable [0, 0, 0, 1])) m ∧
          ¬ Relation.TransGen (IntrHop (tableFdt (deviceTable [0, 0, 0, 1]))) m m := by
  have hearlier : intrCellsCalls (tableFdt (deviceTable [0, 0, 0, 1])) 4 2 IntrCache.initial [72] =
      .ok ([(3, some 24)], ⟨0x4000000, 1, 24, 3⟩) := rfl
  exact fdt_get_intr_cells_iff (deviceTable_documented _) hearlier (by simp [deviceTable])

/-- A long "interrupt-parent" makes 4 a node; two nodes that name each other are walked for ever. -/
theorem intr_cells_stray :
    (tableFdt (deviceTable [0, 0, 0, 1, 0, 0, 0, 0])).Documented
      {n | ∃ e ∈ deviceTable [0, 0, 0, 1, 0, 0, 0, 0], e.offset = n} ∧
      ¬ Resolves (tableFdt (deviceTable [0, 0, 0, 1, 0, 0, 0, 0])) 4
        {n | ∃ e ∈ deviceTable [0, 0, 0, 1, 0, 0, 0, 0], e.offset = n} IntrCache.initial 72 ∧
      (tableFdt mutualTable).Documented {n | ∃ e ∈ mutualTable, e.offset = n} ∧
      ¬ Resolves (tableFdt mutualTable) 4 {n | ∃ e ∈ mutualTable,
        e.offset = n} IntrCache.initial 24 := by
  have hmutual : (tableFdt mutualTable).Documented {n | ∃ e ∈ mutualTable, e.offset = n} :=
    tableFdt_documented (by simp [mutualTable]) (by simp [mutualTable, fdtErrNotfound])
  refine ⟨deviceTable_documented _, fun h => ?_, hmutual, fun h => ?_⟩
  · have hchain := chain_of_resolves (deviceTable_documented _).root_name
      (cacheOk_initial _ _) h 72 .refl
    exact hchain.1 ⟨_, rfl, by decide⟩
  · have hchain := chain_of_resolves hmutual.root_name (cacheOk_initial _ _) h 24 .refl
    have hout : IntrHop (tableFdt mutualTable) 24 72 := ⟨rfl, rfl⟩
    have hback : IntrHop (tableFdt mutualTable) 72 24 := ⟨rfl, rfl⟩
    exact hchain.2 (.head hout (.single hback))

end QnxStartup
