import QnxStartup.AsPieces

/-! What `as_add_containing` appends, element by element, and whose the pieces are. -/

namespace QnxStartup

open SyspageHeader

/-- Each piece lies inside the container that owns it, the last one found that meets it. -/
structure Innermost (t : List AsinfoEntry) (found : List Nat) (list : List AsRange) : Prop where
  inside : ∀ r ∈ list, r.owner ∈ found ∧ ∃ as, t[r.owner]? = some as ∧ r.set ⊆ as.set
  latest : ∀ r ∈ list, ∀ i ∈ found, ∀ as, t[i]? = some as → ¬ Disjoint r.set as.set → i ≤ r.owner

theorem placePiece_parts {list : List AsRange} {ps pe owner : Nat} (h : Pieces list) (hle : ps ≤ pe)
    (hf : Fits (Set.Icc ps pe) list) {r : AsRange} (hr : r ∈ placePiece ps pe owner list) :
    r = ⟨ps, pe, owner⟩ ∨ Disjoint r.set (Set.Icc ps pe) ∧
      ∃ r' ∈ list, r.owner = r'.owner ∧ r.set ⊆ r'.set := by
  have hps : ps ∈ Set.Icc ps pe := ⟨le_rfl, hle⟩
  rcases hf with ⟨q, hq, hI⟩ | hd
  · obtain ⟨pre, post, rfl⟩ := List.append_of_mem hq
    have hdis := List.pairwise_append.mp h.disjoint
    have hpre : ∀ r ∈ pre, Disjoint r.set (Set.Icc ps pe) :=
      fun r hr => (hdis.2.2 r hr q (by simp)).mono_right hI
    have hpost : ∀ r ∈ post, Disjoint r.set (Set.Icc ps pe) := fun r hr =>
      ((List.pairwise_cons.mp hdis.2.1).1 r hr).symm.mono_right hI
    have hpe : pe ≤ q.stop := (hI ⟨hle, le_rfl⟩ : pe ∈ q.set).2
    have hlo : q.start ≤ ps := (hI hps).1
    rw [placePiece_append ps pe owner (q :: post) (fun r hr hx => Set.disjoint_left.mp
      (hpre r hr) hx hps), placePiece_inside post hlo hle hpe (h.bound q (by simp))] at hr
    simp only [List.mem_append] at hr
    rcases hr with hr | hr | hr
    · exact .inr ⟨hpre r hr, r, by simp [hr], rfl, subset_rfl⟩
    · rcases mem_splitPiece.mp hr with ⟨hlt, rfl⟩ | rfl | ⟨hlt, rfl⟩
      · refine .inr ⟨Set.disjoint_left.mpr fun x hx hx' => ?_, q, by simp, rfl,
          splitPiece_subset hlo hle hpe hr⟩
        have h1 : x ≤ ps - 1 := hx.2
        have h2 : ps ≤ x := hx'.1
        omega
      · exact .inl rfl
      · refine .inr ⟨Set.disjoint_left.mpr fun x hx hx' => ?_, q, by simp, rfl,
          splitPiece_subset hlo hle hpe hr⟩
        have h1 : pe + 1 ≤ x := hx.1
        have h2 : x ≤ pe := hx'.2
        omega
    · exact .inr ⟨hpost r hr, r, by simp [hr], rfl, subset_rfl⟩
  · rw [placePiece_new ps pe owner (fun r hr hx => Set.disjoint_left.mp (hd r hr) hps hx)] at hr
    rcases List.mem_append.mp hr with hr | hr
    · exact .inr ⟨(hd r hr).symm, r, hr, rfl, subset_rfl⟩
    · exact .inl (List.mem_singleton.mp hr)

theorem innermost_step {t : List AsinfoEntry} {start stop j : Nat} {container : String}
    {found : List Nat} {list : List AsRange} (h : Innermost t found list)
    (hg : Gathered t start stop found list) (hlam : Laminar t start stop container)
    (hle : start ≤ stop) (hb : stop < 2 ^ 64) (hj : containsAt t start stop container j = true)
    (hfound : ∀ i ∈ found, i < j ∧ containsAt t start stop container i = true) :
    Innermost t (found ++ [j]) (gatherPiece start stop t list j) := by
  obtain ⟨c, hc, -, -⟩ := containsAt_iff.mp hj
  obtain ⟨ps, pe, heq, hpse, hpe, hinter, hfits⟩ := gatherPiece_placed hg hlam hle hb hj hfound hc
  rw [heq]
  constructor
  · intro r hr
    rcases placePiece_parts hg.pieces hpse hfits hr with rfl | ⟨-, r', hr', ho, hsub⟩
    · exact ⟨by simp, c, hc, fun x hx => (hinter ▸ hx : x ∈ Set.Icc start stop ∩ c.set).2⟩
    · obtain ⟨hmem, as, has, hsub'⟩ := h.inside r' hr'
      exact ⟨by simp [ho, hmem], as, ho ▸ has, hsub.trans hsub'⟩
  · intro r hr i hi as has hmeet
    rcases placePiece_parts hg.pieces hpse hfits hr with rfl | ⟨hdis, r', hr', ho, hsub⟩
    · rcases List.mem_append.mp hi with hi | hi
      · exact (hfound i hi).1.le
      · exact (List.mem_singleton.mp hi).le
    · rcases List.mem_append.mp hi with hi | hi
      · exact ho ▸ h.latest r' hr' i hi as has fun hd => hmeet (hd.mono_left hsub)
      · -- what is left of an old piece has no address of the new container
        obtain rfl := List.mem_singleton.mp hi
        obtain rfl := Option.some.inj (hc.symm.trans has)
        refine absurd (Set.disjoint_left.mpr fun x hx hx' => ?_) hmeet
        have hrange : x ∈ Set.Icc start stop := by
          have : x ∈ coverPieces list := ⟨r', hr', hsub hx⟩
          rw [hg.cover] at this
          exact this.1
        exact Set.disjoint_left.mp hdis hx (hinter ▸ ⟨hrange, hx'⟩)

theorem gatherPieces_innermost {t : List AsinfoEntry} {start stop : Nat} {container : String}
    (hlam : Laminar t start stop container) (hle : start ≤ stop) (hb : stop < 2 ^ 64) :
    Innermost t ((List.range' 0 t.length).filter (containsAt t start stop container))
      (gatherPieces start stop container t (t.length + 1) none []) := by
  refine (gatherPieces_induction (P := fun found list => Gathered t start stop found list ∧
    Innermost t found list)
    ⟨gathered_nil t start stop, by simp, by simp⟩ fun h hj hfound => ?_).2
  exact ⟨gathered_step h.1 hlam hle hb hj hfound, innermost_step h.2 h.1 hlam hle hb hj hfound⟩

section
variable [SyspageHeader]

def pieceEntry (pieceAttr : Nat) (name : String) (r : AsRange) : AsinfoEntry :=
  ⟨r.start, r.stop, some r.owner, name, pieceAttr % 2 ^ 16, asPriorityDefault⟩

def markOwners (list : List AsRange) (t : List AsinfoEntry) : List AsinfoEntry :=
  list.foldl (fun t r => setKids (some r.owner) t) t

theorem setKids_append {o : Nat} {t : List AsinfoEntry} (ho : o < t.length) (u : List AsinfoEntry) :
    setKids (some o) (t ++ u) = setKids (some o) t ++ u := by
  refine List.ext_getElem? fun i => ?_
  simp only [setKids, List.getElem?_modify, List.getElem?_append, List.length_modify]
  by_cases hi : i < t.length
  · simp [hi]
  · simp [hi, show o ≠ i by omega]

theorem markOwners_length (list : List AsRange) (t : List AsinfoEntry) :
    (markOwners list t).length = t.length := by
  induction list generalizing t with
  | nil => rfl
  | cons r list ih => exact (ih _).trans (List.length_modify _ _ _)

theorem markOwners_get (list : List AsRange) (t : List AsinfoEntry) (i : Nat) :
    (markOwners list t)[i]? = t[i]?.map fun as =>
      if ∃ r ∈ list, r.owner = i then { as with attr := as.attr ||| asAttrKids } else as := by
  induction list generalizing t with
  | nil => simp [markOwners]
  | cons r list ih =>
    have hstep : markOwners (r :: list) t = markOwners list (setKids (some r.owner) t) := rfl
    rw [hstep, ih, setKids, List.getElem?_modify, Option.map_eq_map, Option.map_map]
    congr 1
    funext as
    by_cases h : r.owner = i <;> by_cases h' : ∃ r ∈ list, r.owner = i <;> simp [h, h']

theorem addPieces_eq {pieceAttr : Nat} (h : pieceAttr &&& asOverlayIo = 0) (name : String)
    (list : List AsRange) (hpos : ∀ r ∈ list, r.start ≤ r.stop) (t done : List AsinfoEntry)
    (hown : ∀ r ∈ list, r.owner < t.length) (startOff : Option Nat) (off : Nat) :
    addPieces pieceAttr name list (t ++ done) startOff off =
      (markOwners list t ++ (done ++ list.map (pieceEntry pieceAttr name)),
        if list = [] then startOff else some (startOff.getD (t.length + done.length)),
        if list = [] then off else t.length + done.length + list.length - 1) := by
  induction list generalizing t done startOff off with
  | nil => simp [addPieces, markOwners]
  | cons r list ih =>
    have ho := hown r (by simp)
    have hadd : asAdd r.start r.stop pieceAttr name (some r.owner) (t ++ done) =
        (setKids (some r.owner) t ++ (done ++ [pieceEntry pieceAttr name r]),
          t.length + done.length) := by
      simp only [asAdd, h, ne_eq, not_true_eq_false, if_false, asAddEntry, List.length_append,
        List.append_assoc]
      rw [setKids_append ho]
      rfl
    have hlen : (setKids (some r.owner) t).length = t.length := List.length_modify _ _ _
    rw [addPieces, if_pos (hpos r (by simp)), hadd]
    dsimp only
    rw [ih (fun r' hr' => hpos r' (by simp [hr'])) _ _ fun r' hr' => hlen.symm ▸
      hown r' (by simp [hr'])]
    have hoff : (if startOff = none then some (t.length + done.length) else startOff) =
        some (startOff.getD (t.length + done.length)) := by
      cases startOff <;> rfl
    rw [hoff, hlen]
    refine Prod.ext ?_ (Prod.ext ?_ ?_)
    · simp [markOwners]
    · cases list <;> simp
    · cases list with
      | nil => simp
      | cons r' list =>
        simp
        omega

theorem pieceAttr_continued (a : Nat) :
    (a ||| asAttrContinued) % 2 ^ 16 &&& asAttrContinued ≠ 0 := by
  have heq : (a ||| asAttrContinued) % 2 ^ 16 &&& asAttrContinued = asAttrContinued := by
    apply Nat.eq_of_testBit_eq
    intro i
    rw [Nat.testBit_and, Nat.testBit_mod_two_pow, Nat.testBit_or]
    by_cases hi : i < 16
    · simp only [hi, decide_true, Bool.true_and]
      cases asAttrContinued.testBit i <;> simp
    · rw [Nat.testBit_lt_two_pow
        (continued_lt.trans_le (Nat.pow_le_pow_right (by decide) (not_lt.mp hi)))]
      simp
  rw [heq]
  exact continued_ne_zero

omit [SyspageHeader] in
theorem and_compl32_and {c : Nat} (hc : c < 2 ^ 32) (a : Nat) : (a &&& compl32 c) &&& c = 0 := by
  apply Nat.eq_of_testBit_eq
  intro i
  have hcompl : compl32 c = 2 ^ 32 - (c + 1) := by
    rw [compl32, u32_of_lt hc]
    omega
  rw [Nat.testBit_and, Nat.testBit_and, hcompl, Nat.testBit_two_pow_sub_succ hc, Nat.zero_testBit]
  cases c.testBit i <;> simp

omit [SyspageHeader] in
theorem modify_append_right (A B : List AsinfoEntry) (k : Nat) (f : AsinfoEntry → AsinfoEntry) :
    (A ++ B).modify (A.length + k) f = A ++ B.modify k f := by
  refine List.ext_getElem? fun i => ?_
  simp only [List.getElem?_modify, List.getElem?_append]
  by_cases hi : i < A.length
  · have hne : A.length + k ≠ i := by omega
    simp [hi, hne]
  · have hiff : A.length + k = i ↔ k = i - A.length := by omega
    simp [hi, hiff]

/-- The elements that match the container, by their own name or an owner's, form a laminar family:
a later one lies inside an earlier one or apart from it. -/
structure LaminarFamily (t : List AsinfoEntry) (container : String) : Prop where
  range : ∀ {i as}, t[i]? = some as → matchName t i container = true → as.start ≤ as.stop
  nested : ∀ {i j a b}, i < j → t[i]? = some a → t[j]? = some b →
    matchName t i container = true → matchName t j container = true →
    b.set ⊆ a.set ∨ Disjoint b.set a.set

omit [SyspageHeader] in
theorem LaminarFamily.laminar {t : List AsinfoEntry} {container : String}
    (h : LaminarFamily t container) (start stop : Nat) : Laminar t start stop container := by
  have hm : ∀ {i}, containsAt t start stop container i = true → matchName t i container = true :=
    fun hi => by
    obtain ⟨-, -, hm, -⟩ := containsAt_iff.mp hi
    exact hm
  exact ⟨fun hi hc => h.range hi (hm hc),
    fun hij hi hj hci hcj => h.nested hij hi hj (hm hci) (hm hcj)⟩

/-- The elements `new` split the part of `[start, stop]` that the containers of the section hold. -/
structure SplitsRange (t : List AsinfoEntry) (start stop : Nat) (name container : String)
    (new : List AsinfoEntry) :
    Prop where
  range : ∀ e ∈ new, e.start ≤ e.stop ∧ e.name = name
  disjoint : new.Pairwise fun e e' => Disjoint e.set e'.set
  cover : {x | ∃ e ∈ new, x ∈ e.set} = Set.Icc start stop ∩ contained t container
  innermost : ∀ e ∈ new, ∃ o c, e.owner = some o ∧ t[o]? = some c ∧ matchName t o container = true ∧
    e.set ⊆ c.set ∧
    ∀ i a, t[i]? = some a → matchName t i container = true → e.set ⊆ a.set → c.set ⊆ a.set ∧ i ≤ o
  continued : ∀ k e, new[k]? = some e → (e.attr &&& asAttrContinued = 0 ↔ k + 1 = new.length)

/-- The element with its `AS_ATTR_KIDS` set if one of `new` belongs to it. -/
def markKids (new : List AsinfoEntry) (i : Nat) (as : AsinfoEntry) : AsinfoEntry :=
  if ∃ e ∈ new, e.owner = some i then { as with attr := as.attr ||| asAttrKids } else as

theorem asAddContaining_eq {start stop attr : Nat} {name container : String} {t : List AsinfoEntry}
    (hattr : attr &&& asOverlayIo = 0) (list : List AsRange)
    (hlist : gatherPieces start stop container t (t.length + 1) none [] = list)
    (hpos : ∀ r ∈ list, r.start ≤ r.stop) (hown : ∀ r ∈ list, r.owner < t.length) :
    (asAddContaining start stop attr name container t).1 = markOwners list t ++
      (list.map (pieceEntry ((attr &&& compl32 asOverlayIo) ||| asAttrContinued) name)).modify
        (list.length - 1)
        fun as => { as with attr := as.attr &&& compl32 asAttrContinued } := by
  have hadd := addPieces_eq (pieceAttr_and_asOverlayIo attr) name list hpos t [] hown none 0
  rw [List.append_nil, List.nil_append, List.length_nil, Nat.add_zero] at hadd
  unfold asAddContaining
  simp only [hlist, hadd]
  cases list with
  | nil => simp [markOwners]
  | cons r list =>
    simp only [reduceCtorEq, if_false, hattr, ne_eq, not_true_eq_false]
    rw [clearContinued, List.length_cons, Nat.add_sub_assoc (by omega),
      ← markOwners_length (r :: list) t, modify_append_right]

theorem appended_plain (pieceAttr : Nat) (name : String) (list : List AsRange) (k : Nat) :
    ((list.map (pieceEntry pieceAttr name)).modify k fun as =>
      { as with attr := as.attr &&& compl32 asAttrContinued }).map AsinfoEntry.plain =
      list.map fun r => ⟨r.start, r.stop, some r.owner, name, 0, 0⟩ := by
  rw [map_modify_of_comp (fun as => plain_with_attr as _), List.map_map]
  rfl

omit [SyspageHeader] in
theorem appended_mem {name : String} {list : List AsRange} {new : List AsinfoEntry}
    (h : new.map AsinfoEntry.plain = list.map fun r => ⟨r.start, r.stop, some r.owner, name, 0, 0⟩)
    {e : AsinfoEntry} (he : e ∈ new) :
    ∃ r ∈ list, e.set = r.set ∧ e.owner = some r.owner ∧ e.name = name ∧
      (r.start ≤ r.stop → e.start ≤ e.stop) := by
  have hmem : e.plain ∈ new.map AsinfoEntry.plain := List.mem_map_of_mem he
  rw [h] at hmem
  obtain ⟨r, hr, heq⟩ := List.mem_map.mp hmem
  have h1 : e.start = r.start := (congrArg AsinfoEntry.start heq).symm
  have h2 : e.stop = r.stop := (congrArg AsinfoEntry.stop heq).symm
  have h3 : e.owner = some r.owner := (congrArg AsinfoEntry.owner heq).symm
  have h4 : e.name = name := (congrArg AsinfoEntry.name heq).symm
  exact ⟨r, hr, by rw [AsinfoEntry.set, AsRange.set, h1, h2], h3, h4, by rw [h1, h2]; exact id⟩

omit [SyspageHeader] in
theorem appended_of_mem {name : String} {list : List AsRange} {new : List AsinfoEntry}
    (h : new.map AsinfoEntry.plain = list.map fun r => ⟨r.start, r.stop, some r.owner, name, 0, 0⟩)
    {r : AsRange} (hr : r ∈ list) : ∃ e ∈ new, e.set = r.set ∧ e.owner = some r.owner := by
  have hmem : (⟨r.start, r.stop, some r.owner, name, 0, 0⟩ : AsinfoEntry) ∈
      new.map AsinfoEntry.plain := by
    rw [h]
    exact List.mem_map.mpr ⟨r, hr, rfl⟩
  obtain ⟨e, he, heq⟩ := List.mem_map.mp hmem
  have h1 : e.start = r.start := congrArg AsinfoEntry.start heq
  have h2 : e.stop = r.stop := congrArg AsinfoEntry.stop heq
  exact ⟨e, he, by rw [AsinfoEntry.set, AsRange.set, h1, h2], congrArg AsinfoEntry.owner heq⟩

omit [SyspageHeader] in
theorem appended_disjoint {name : String} {list : List AsRange} {new : List AsinfoEntry}
    (h : new.map AsinfoEntry.plain = list.map fun r => ⟨r.start, r.stop, some r.owner, name, 0, 0⟩)
    (hd : list.Pairwise fun r r' => Disjoint r.set r'.set) :
    new.Pairwise fun e e' => Disjoint e.set e'.set := by
  have hpair : (new.map AsinfoEntry.plain).Pairwise fun e e' => Disjoint e.set e'.set := by
    rw [h]
    exact List.pairwise_map.mpr hd
  exact (List.pairwise_map (f := AsinfoEntry.plain)
    (R := fun e e' => Disjoint e.set e'.set)).mp hpair

omit [SyspageHeader] in
theorem appended_cover {name : String} {list : List AsRange} {new : List AsinfoEntry}
    (h : new.map AsinfoEntry.plain =
      list.map fun r => ⟨r.start, r.stop, some r.owner, name, 0, 0⟩) :
    {x | ∃ e ∈ new, x ∈ e.set} = coverPieces list := by
  ext x
  constructor
  · rintro ⟨e, he, hx⟩
    obtain ⟨r, hr, hset, -⟩ := appended_mem h he
    exact ⟨r, hr, hset ▸ hx⟩
  · rintro ⟨r, hr, hx⟩
    obtain ⟨e, he, hset, -⟩ := appended_of_mem h hr
    exact ⟨e, he, hset ▸ hx⟩

/-- The elements that own a piece are those that get `AS_ATTR_KIDS`. -/
theorem markOwners_appended {name : String} {list : List AsRange} {new : List AsinfoEntry}
    (h : new.map AsinfoEntry.plain = list.map fun r => ⟨r.start, r.stop, some r.owner, name, 0, 0⟩)
    (t : List AsinfoEntry) : markOwners list t = t.mapIdx (markKids new) := by
  refine List.ext_getElem? fun i => ?_
  have hiff : (∃ r ∈ list, r.owner = i) ↔ ∃ e ∈ new, e.owner = some i := by
    constructor
    · rintro ⟨r, hr, rfl⟩
      obtain ⟨e, he, -, ho⟩ := appended_of_mem h hr
      exact ⟨e, he, ho⟩
    · rintro ⟨e, he, ho⟩
      obtain ⟨r, hr, -, ho', -⟩ := appended_mem h he
      exact ⟨r, hr, Option.some.inj (ho'.symm.trans ho)⟩
  rw [markOwners_get, List.getElem?_mapIdx]
  simp only [hiff]
  rfl

theorem appended_continued (attr : Nat) (name : String) (list : List AsRange) {k : Nat}
    {e : AsinfoEntry}
    (he : ((list.map (pieceEntry (attr ||| asAttrContinued) name)).modify (list.length - 1)
      fun as => { as with attr := as.attr &&& compl32 asAttrContinued })[k]? = some e) :
    e.attr &&& asAttrContinued = 0 ↔ k + 1 = list.length := by
  rw [List.getElem?_modify, List.getElem?_map] at he
  have hk : k < list.length := by
    by_contra hk
    rw [List.getElem?_eq_none (not_lt.mp hk)] at he
    cases he
  rw [List.getElem?_eq_getElem hk] at he
  by_cases hlast : list.length - 1 = k
  · simp only [hlast, if_true] at he
    obtain rfl := Option.some.inj he
    exact iff_of_true (and_compl32_and (continued_lt.trans (by decide)) _) (by omega)
  · simp only [hlast, if_false] at he
    obtain rfl := Option.some.inj he
    exact iff_of_false (pieceAttr_continued attr) (by omega)

omit [SyspageHeader] in
/-- The owner of a piece is the last and innermost of the containers that hold it. -/
theorem Innermost.owner {start stop : Nat} {container : String} {t : List AsinfoEntry}
    {list : List AsRange} (hlam : LaminarFamily t container)
    (hin : Innermost t ((List.range' 0 t.length).filter (containsAt t start stop container)) list)
    {r : AsRange} (hr : r ∈ list) (hpos : r.start ≤ r.stop)
    (hrange : r.start ∈ Set.Icc start stop) :
    ∃ c, t[r.owner]? = some c ∧ matchName t r.owner container = true ∧ r.set ⊆ c.set ∧
      ∀ i a, t[i]? = some a → matchName t i container = true → r.set ⊆ a.set →
        c.set ⊆ a.set ∧ i ≤ r.owner := by
  obtain ⟨hfound, c, hc, hsub⟩ := hin.inside r hr
  obtain ⟨-, -, hm, -⟩ := containsAt_iff.mp (List.mem_filter.mp hfound).2
  refine ⟨c, hc, hm, hsub, fun i a ha hma hea => ?_⟩
  have hx : r.start ∈ r.set := ⟨le_rfl, hpos⟩
  have hi : i ∈ (List.range' 0 t.length).filter (containsAt t start stop container) := by
    have hover := overlaps_of_mem hrange (hea hx)
    refine List.mem_filter.mpr ⟨?_, containsAt_iff.mpr ⟨a, ha, hma, hover⟩⟩
    obtain ⟨hi, -⟩ := List.getElem?_eq_some_iff.mp ha
    exact List.mem_range'_1.mpr (by omega)
  have hle := hin.latest r hr i hi a ha fun hd => Set.disjoint_left.mp hd hx (hea hx)
  refine ⟨?_, hle⟩
  rcases Nat.eq_or_lt_of_le hle with rfl | hlt
  · rw [Option.some.inj (hc.symm.trans ha)]
  · exact (hlam.nested hlt ha hc hma hm).resolve_right fun hd =>
      Set.disjoint_left.mp hd (hsub hx) (hea hx)

/-- `as_add_containing` on a laminar family of containers: it appends elements that split the range
along the innermost containers, and changes nothing else but the `AS_ATTR_KIDS` of their owners. -/
theorem as_add_containing_splits {start stop : Nat} {attr : Nat} (name : String)
    {container : String} {t : List AsinfoEntry} (hlam : LaminarFamily t container)
    (hattr : attr &&& asOverlayIo = 0) (hle : start ≤ stop) (hb : stop < 2 ^ 64) :
    ∃ new, (asAddContaining start stop attr name container t).1 = t.mapIdx (markKids new) ++ new ∧
      SplitsRange t start stop name container new := by
  have hg := gatherPieces_gathered (hlam.laminar start stop) hle hb
  have hin := gatherPieces_innermost (hlam.laminar start stop) hle hb
  obtain ⟨list, hlist⟩ : ∃ list,
      gatherPieces start stop container t (t.length + 1) none [] = list := ⟨_, rfl⟩
  rw [hlist] at hg hin
  have hown : ∀ r ∈ list, r.owner < t.length := fun r hr => by
    obtain ⟨-, as, has, -⟩ := hin.inside r hr
    exact (List.getElem?_eq_some_iff.mp has).1
  have heq : (asAddContaining start stop attr name container t).1 = _ :=
    asAddContaining_eq hattr list hlist hg.pieces.pos hown
  have hplain := appended_plain ((attr &&& compl32 asOverlayIo) ||| asAttrContinued) name list
    (list.length - 1)
  have hcont := fun k e => appended_continued (attr &&& compl32 asOverlayIo) name list
    (k := k) (e := e)
  generalize hnew :
    (list.map (pieceEntry ((attr &&& compl32 asOverlayIo) ||| asAttrContinued) name)).modify
    (list.length - 1) (fun as => { as with attr := as.attr &&& compl32 asAttrContinued }) =
    new at heq hplain hcont
  have hlen : new.length = list.length := by simpa using congrArg List.length hplain
  refine ⟨new, by rw [heq, markOwners_appended hplain], fun e he => ?_,
    appended_disjoint hplain hg.pieces.disjoint, ?_, fun e he => ?_, fun k e he => ?_⟩
  · obtain ⟨r, hr, -, -, hname, hle⟩ := appended_mem hplain he
    exact ⟨hle (hg.pieces.pos r hr), hname⟩
  · rw [appended_cover hplain, hg.cover_contained]
  · obtain ⟨r, hr, hset, ho, -⟩ := appended_mem hplain he
    have hpos := hg.pieces.pos r hr
    have hcov : r.start ∈ coverPieces list := ⟨r, hr, le_rfl, hpos⟩
    rw [hg.cover_contained] at hcov
    obtain ⟨c, hc, hm, hsub, hmost⟩ := hin.owner hlam hr hpos hcov.1
    rw [hset]
    exact ⟨r.owner, c, ho, hc, hm, hsub, hmost⟩
  · rw [hcont k e (hnew ▸ he), hlen]

end

/-- An address space with a smaller one inside it. -/
def nestedSpaces : List AsinfoEntry :=
  [⟨0, 0xffff, none, "memory", 0, 100⟩, ⟨0x1000, 0x2fff, some 0, "sram", 0, 100⟩]

theorem nestedSpaces_laminar : LaminarFamily nestedSpaces "memory" where
  range := fun {i as} hi _ => by
    match i with
    | 0 => cases hi; decide
    | 1 => cases hi; decide
    | i + 2 => cases hi
  nested := fun {i j a b} hij hi hj _ _ => by
    match i, j with
    | 0, 1 =>
      cases hi
      cases hj
      exact .inl (Set.Icc_subset_Icc (by decide) (by decide))
    | _, j + 2 => cases hj
    | i + 1, 0 => omega
    | i + 1, 1 => omega
    | 0, 0 => omega

theorem as_add_containing_splits_example :
    let _ := qnxSyspageHeader
    ∃ new, (asAddContaining 0x800 0x3fff asAttrRam "ram" "memory" nestedSpaces).1 =
      nestedSpaces.mapIdx (markKids new) ++ new ∧
      SplitsRange nestedSpaces 0x800 0x3fff "ram" "memory" new := by
  intro _
  exact as_add_containing_splits "ram" nestedSpaces_laminar (by decide) (by decide) (by decide)

/-- The owner of an appended element does not stay as it was. -/
theorem as_add_containing_marks_owner :
    let _ := qnxSyspageHeader
    LaminarFamily nestedSpaces "memory" ∧
      (asAddContaining 0x800 0x3fff asAttrRam "ram" "memory" nestedSpaces).1[0]? ≠
      nestedSpaces[0]? := by
  intro _
  exact ⟨nestedSpaces_laminar, by decide⟩

end QnxStartup
