import Mathlib.Data.Set.Lattice
import QnxStartup.Asinfo

/-! The pieces that `as_add_containing` cuts a range into. As long as the
containers are nested or disjoint, enclosing ones first, the pieces stay disjoint
and cover exactly the part of the range that some container covers. -/

namespace QnxStartup

def AsRange.set (r : AsRange) : Set Nat := Set.Icc r.start r.stop

def coverPieces (list : List AsRange) : Set Nat := {x | ∃ r ∈ list, x ∈ r.set}

structure Pieces (list : List AsRange) : Prop where
  pos : ∀ r ∈ list, r.start ≤ r.stop
  bound : ∀ r ∈ list, r.stop < 2 ^ 64
  disjoint : list.Pairwise (fun r r' => Disjoint r.set r'.set)

def Fits (I : Set Nat) (list : List AsRange) : Prop :=
  (∃ r ∈ list, I ⊆ r.set) ∨ ∀ r ∈ list, Disjoint I r.set

/-- A piece with the range `[ps, pe]` inside it handed to `owner`. -/
def splitPiece (ps pe owner : Nat) (q : AsRange) : List AsRange :=
  (if q.start < ps then [⟨q.start, ps - 1, q.owner⟩] else []) ++ ⟨ps, pe, owner⟩ ::
    (if pe < q.stop then [⟨pe + 1, q.stop, q.owner⟩] else [])

theorem placePiece_append (ps pe owner : Nat) {pre : List AsRange} (list : List AsRange)
    (h : ∀ r ∈ pre, ps ∉ r.set) :
    placePiece ps pe owner (pre ++ list) = pre ++ placePiece ps pe owner list := by
  induction pre with
  | nil => rfl
  | cons r pre ih =>
    have hr : ¬ (r.start ≤ ps ∧ r.stop ≥ ps) := h r (by simp)
    rw [List.cons_append, placePiece, if_neg hr, ih (fun r' hr' => h r' (by simp [hr']))]
    rfl

theorem placePiece_new (ps pe owner : Nat) {list : List AsRange} (h : ∀ r ∈ list, ps ∉ r.set) :
    placePiece ps pe owner list = list ++ [⟨ps, pe, owner⟩] := by
  simpa [placePiece] using placePiece_append ps pe owner [] h

theorem placePiece_inside {ps pe owner : Nat} {q : AsRange} (post : List AsRange)
    (hlo : q.start ≤ ps) (hle : ps ≤ pe) (hhi : pe ≤ q.stop) (hb : q.stop < 2 ^ 64) :
    placePiece ps pe owner (q :: post) = splitPiece ps pe owner q ++ post := by
  rw [placePiece, if_pos (by omega), splitPiece]
  by_cases hs : q.start = ps
  · rw [if_neg (by omega : ¬ q.start < ps)]
    by_cases he : q.stop = pe
    · rw [if_pos ⟨hs, he⟩, if_neg (by omega), ← hs, ← he]
      rfl
    · rw [if_neg (by omega), if_pos hs, if_pos (by omega), u64_of_lt (by omega)]
      rfl
  · rw [if_neg (by omega), if_neg hs, if_pos (by omega), sub64_of_le (by omega) (by omega)]
    dsimp only
    by_cases he : q.stop = pe
    · rw [if_neg (by omega), if_neg (by omega)]
      rfl
    · rw [if_pos he, if_pos (by omega), u64_of_lt (by omega)]
      rfl

theorem mem_splitPiece {ps pe owner : Nat} {q r : AsRange} :
    r ∈ splitPiece ps pe owner q ↔ (q.start < ps ∧ r = ⟨q.start, ps - 1, q.owner⟩) ∨
      r = ⟨ps, pe, owner⟩ ∨ (pe < q.stop ∧ r = ⟨pe + 1, q.stop, q.owner⟩) := by
  unfold splitPiece
  by_cases h1 : q.start < ps <;> by_cases h2 : pe < q.stop <;> simp [h1, h2]

theorem splitPiece_disjoint {ps pe : Nat} (owner : Nat) (q : AsRange) (hle : ps ≤ pe) :
    (splitPiece ps pe owner q).Pairwise (fun r r' => Disjoint r.set r'.set) := by
  have h1 : q.start < ps → Disjoint (Set.Icc q.start (ps - 1)) (Set.Icc ps pe) := fun _ =>
    Set.disjoint_left.mpr fun x hx hx' => by have := hx.2; have := hx'.1; omega
  have h2 : q.start < ps → Disjoint (Set.Icc q.start (ps - 1)) (Set.Icc (pe + 1) q.stop) := fun _ =>
    Set.disjoint_left.mpr fun x hx hx' => by have := hx.2; have := hx'.1; omega
  have h3 : Disjoint (Set.Icc ps pe) (Set.Icc (pe + 1) q.stop) :=
    Set.disjoint_left.mpr fun x hx hx' => by have := hx.2; have := hx'.1; omega
  unfold splitPiece
  split <;> split <;> simp_all [AsRange.set]

theorem cover_splitPiece {ps pe : Nat} (owner : Nat) {q : AsRange} (hlo : q.start ≤ ps)
    (hle : ps ≤ pe) (hhi : pe ≤ q.stop) : coverPieces (splitPiece ps pe owner q) = q.set := by
  ext x
  constructor
  · rintro ⟨r, hr, hx⟩
    rcases mem_splitPiece.mp hr with ⟨h, rfl⟩ | rfl | ⟨h, rfl⟩ <;>
      simp only [AsRange.set, Set.mem_Icc] at hx ⊢ <;> omega
  · intro hx
    simp only [AsRange.set, Set.mem_Icc] at hx
    rcases lt_or_ge x ps with h1 | h1
    · exact ⟨_, mem_splitPiece.mpr (.inl ⟨by omega, rfl⟩),
        by simp only [AsRange.set, Set.mem_Icc]; omega⟩
    rcases le_or_gt x pe with h2 | h2
    · exact ⟨_, mem_splitPiece.mpr (.inr (.inl rfl)), h1, h2⟩
    · exact ⟨_, mem_splitPiece.mpr (.inr (.inr ⟨by omega, rfl⟩)), h2, hx.2⟩

theorem coverPieces_append (list list' : List AsRange) :
    coverPieces (list ++ list') = coverPieces list ∪ coverPieces list' := by
  ext x
  simp [coverPieces, or_and_right, exists_or]

theorem coverPieces_singleton (r : AsRange) : coverPieces [r] = r.set := by
  ext x
  simp [coverPieces]

theorem coverPieces_cons (r : AsRange) (list : List AsRange) :
    coverPieces (r :: list) = r.set ∪ coverPieces list := by
  rw [← coverPieces_singleton, ← coverPieces_append]
  rfl

/-- What one more container does to the pieces. -/
structure Placed (list list' : List AsRange) (ps pe owner : Nat) : Prop where
  pieces : Pieces list'
  cover : coverPieces list' = coverPieces list ∪ Set.Icc ps pe
  owners : ∀ r ∈ list', r.owner = owner ∨ ∃ r' ∈ list, r.owner = r'.owner
  fits : ∀ a b, a ≤ b → Fits (Set.Icc a b) list →
    Set.Icc a b ⊆ Set.Icc ps pe ∨ Disjoint (Set.Icc a b) (Set.Icc ps pe) → Fits (Set.Icc a b) list'

theorem placed_new {list : List AsRange} {ps pe : Nat} (owner : Nat) (h : Pieces list)
    (hle : ps ≤ pe) (hb : pe < 2 ^ 64) (hd : ∀ r ∈ list, Disjoint (Set.Icc ps pe) r.set) :
    Placed list (list ++ [⟨ps, pe, owner⟩]) ps pe owner where
  pieces := by
    constructor
    · simpa [or_imp, forall_and] using ⟨h.pos, hle⟩
    · simpa [or_imp, forall_and] using ⟨h.bound, hb⟩
    · refine List.pairwise_append.mpr ⟨h.disjoint, by simp, fun r hr r' hr' => ?_⟩
      rw [List.mem_singleton.mp hr']
      exact (hd r hr).symm
  cover := by rw [coverPieces_append, coverPieces_singleton]; rfl
  owners := by
    intro r hr
    rcases List.mem_append.mp hr with hr | hr
    · exact .inr ⟨r, hr, rfl⟩
    · rw [List.mem_singleton.mp hr]
      exact .inl rfl
  fits := by
    rintro a b - hf (hs | hs)
    · exact .inl ⟨_, List.mem_append_right _ (List.mem_singleton_self _), hs⟩
    · rcases hf with ⟨r, hr, hI⟩ | hf
      · exact .inl ⟨r, List.mem_append_left _ hr, hI⟩
      · refine .inr fun r hr => ?_
        rcases List.mem_append.mp hr with hr | hr
        · exact hf r hr
        · rw [List.mem_singleton.mp hr]
          exact hs

theorem Icc_subset_splitPiece {ps pe a b : Nat} (owner : Nat) {q : AsRange} (hab : a ≤ b)
    (hle : ps ≤ pe) (hq : Set.Icc a b ⊆ q.set)
    (hs : Set.Icc a b ⊆ Set.Icc ps pe ∨ Disjoint (Set.Icc a b) (Set.Icc ps pe)) :
    ∃ r ∈ splitPiece ps pe owner q, Set.Icc a b ⊆ r.set := by
  have ha : q.start ≤ a ∧ a ≤ q.stop := hq (Set.left_mem_Icc.mpr hab)
  have hb : q.start ≤ b ∧ b ≤ q.stop := hq (Set.right_mem_Icc.mpr hab)
  rcases hs with hs | hs
  · exact ⟨_, mem_splitPiece.mpr (.inr (.inl rfl)), hs⟩
  · -- an interval that misses `[ps, pe]` lies on one side of it
    have hside : b < ps ∨ pe < a := by
      by_contra hc
      exact Set.disjoint_left.mp hs (show max a ps ∈ Set.Icc a b by rw [Set.mem_Icc]; omega)
        (by rw [Set.mem_Icc]; omega)
    rcases hside with h | h
    · refine ⟨_, mem_splitPiece.mpr (.inl ⟨by omega, rfl⟩), fun x hx => ?_⟩
      simp only [AsRange.set, Set.mem_Icc] at hx ⊢
      omega
    · refine ⟨_, mem_splitPiece.mpr (.inr (.inr ⟨by omega, rfl⟩)), fun x hx => ?_⟩
      simp only [AsRange.set, Set.mem_Icc] at hx ⊢
      omega

theorem splitPiece_subset {ps pe owner : Nat} {q r : AsRange} (hlo : q.start ≤ ps) (hle : ps ≤ pe)
    (hhi : pe ≤ q.stop) (hr : r ∈ splitPiece ps pe owner q) : r.set ⊆ q.set := by
  rw [← cover_splitPiece owner hlo hle hhi]
  exact fun x hx => ⟨r, hr, hx⟩

theorem placed_inside {pre post : List AsRange} {q : AsRange} {ps pe : Nat} (owner : Nat)
    (h : Pieces (pre ++ q :: post)) (hlo : q.start ≤ ps) (hle : ps ≤ pe) (hhi : pe ≤ q.stop) :
    Placed (pre ++ q :: post) (pre ++ (splitPiece ps pe owner q ++ post)) ps pe owner where
  pieces := by
    have hqb : q.stop < 2 ^ 64 := h.bound q (by simp)
    have hbounds : ∀ r ∈ splitPiece ps pe owner q, r.start ≤ r.stop ∧ r.stop < 2 ^ 64 := by
      intro r hr
      rcases mem_splitPiece.mp hr with ⟨h, rfl⟩ | rfl | ⟨h, rfl⟩ <;> simp only <;> omega
    have hkeep : ∀ r ∈ pre ++ (splitPiece ps pe owner q ++ post),
        r ∈ pre ++ q :: post ∨ r ∈ splitPiece ps pe owner q := by
      intro r hr
      simp only [List.mem_append, List.mem_cons] at hr ⊢
      tauto
    refine ⟨fun r hr => (hkeep r hr).elim (h.pos r) fun hr => (hbounds r hr).1,
      fun r hr => (hkeep r hr).elim (h.bound r) fun hr => (hbounds r hr).2, ?_⟩
    have hd := h.disjoint
    simp only [List.pairwise_append, List.pairwise_cons, List.mem_cons, List.mem_append] at hd ⊢
    refine ⟨hd.1, ⟨splitPiece_disjoint owner q hle, hd.2.1.2, fun r hr r' hr' => ?_⟩,
      fun r hr r' hr' => ?_⟩
    · exact (hd.2.1.1 r' hr').mono_left (splitPiece_subset hlo hle hhi hr)
    · rcases hr' with hr' | hr'
      · exact (hd.2.2 r hr q (.inl rfl)).mono_right (splitPiece_subset hlo hle hhi hr')
      · exact hd.2.2 r hr r' (.inr hr')
  cover := by
    have hsub : Set.Icc ps pe ⊆ q.set := fun x hx => ⟨hlo.trans hx.1, hx.2.trans hhi⟩
    simp only [coverPieces_append, coverPieces_cons, cover_splitPiece owner hlo hle hhi]
    ext x
    have hx := @hsub x
    simp only [Set.mem_union]
    tauto
  owners := by
    intro r hr
    simp only [List.mem_append] at hr
    rcases hr with hr | hr | hr
    · exact .inr ⟨r, by simp [hr], rfl⟩
    · rcases mem_splitPiece.mp hr with ⟨_, rfl⟩ | rfl | ⟨_, rfl⟩
      · exact .inr ⟨q, by simp, rfl⟩
      · exact .inl rfl
      · exact .inr ⟨q, by simp, rfl⟩
    · exact .inr ⟨r, by simp [hr], rfl⟩
  fits := by
    intro a b hab hf hs
    rcases hf with ⟨r, hr, hI⟩ | hf
    · rcases List.mem_append.mp hr with hr | hr
      · exact .inl ⟨r, by simp [hr], hI⟩
      rcases List.mem_cons.mp hr with rfl | hr
      · obtain ⟨r', hr', hI'⟩ := Icc_subset_splitPiece owner hab hle hI hs
        exact .inl ⟨r', by simp [hr'], hI'⟩
      · exact .inl ⟨r, by simp [hr], hI⟩
    · refine .inr fun r hr => ?_
      simp only [List.mem_append] at hr
      rcases hr with hr | hr | hr
      · exact hf r (by simp [hr])
      · exact (hf q (by simp)).mono_right (splitPiece_subset hlo hle hhi hr)
      · exact hf r (by simp [hr])

theorem placed_placePiece {list : List AsRange} {ps pe : Nat} (owner : Nat) (h : Pieces list)
    (hle : ps ≤ pe) (hb : pe < 2 ^ 64) (hf : Fits (Set.Icc ps pe) list) :
    Placed list (placePiece ps pe owner list) ps pe owner := by
  have hps : ps ∈ Set.Icc ps pe := ⟨le_rfl, hle⟩
  rcases hf with ⟨q, hq, hI⟩ | hd
  · obtain ⟨pre, post, rfl⟩ := List.append_of_mem hq
    have hpre : ∀ r ∈ pre, ps ∉ r.set := fun r hr hx => Set.disjoint_left.mp
      ((List.pairwise_append.mp h.disjoint).2.2 r hr q (by simp)) hx (hI hps)
    have hpe : pe ≤ q.stop := (hI ⟨hle, le_rfl⟩ : pe ∈ q.set).2
    have hlo : q.start ≤ ps := (hI hps).1
    rw [placePiece_append ps pe owner (q :: post) hpre,
      placePiece_inside post hlo hle hpe (h.bound q (by simp))]
    exact placed_inside owner h hlo hle hpe
  · rw [placePiece_new ps pe owner (fun r hr hx => Set.disjoint_left.mp (hd r hr) hps hx)]
    exact placed_new owner h hle hb hd

def AsinfoEntry.set (as : AsinfoEntry) : Set Nat := Set.Icc as.start as.stop

theorem overlaps_of_mem {as : AsinfoEntry} {start stop x : Nat} (hx : x ∈ Set.Icc start stop)
    (hx' : x ∈ as.set) : as.overlaps start stop = true := by
  have h1 := hx.1
  have h2 := hx.2
  have h3 := hx'.1
  have h4 := hx'.2
  simp only [AsinfoEntry.overlaps, Bool.or_eq_true, Bool.and_eq_true, decide_eq_true_eq]
  omega

theorem overlaps_iff {as : AsinfoEntry} {start stop : Nat} (hle : start ≤ stop)
    (has : as.start ≤ as.stop) :
    as.overlaps start stop = true ↔ as.start ≤ stop ∧ start ≤ as.stop := by
  simp only [AsinfoEntry.overlaps, Bool.or_eq_true, Bool.and_eq_true, decide_eq_true_eq]
  omega

theorem containsAt_iff {t : List AsinfoEntry} {start stop i : Nat} {container : String} :
    containsAt t start stop container i = true ↔
      ∃ as, t[i]? = some as ∧ matchName t i container = true ∧ as.overlaps start stop = true := by
  unfold containsAt
  cases t[i]? <;> simp

/-- The containers that the search for `[start, stop]` finds are nested or disjoint
ranges, enclosing ones first. -/
structure Laminar (t : List AsinfoEntry) (start stop : Nat) (container : String) : Prop where
  range : ∀ {i as}, t[i]? = some as → containsAt t start stop container i = true →
    as.start ≤ as.stop
  nested : ∀ {i j a b}, i < j → t[i]? = some a → t[j]? = some b →
    containsAt t start stop container i = true → containsAt t start stop container j = true →
      b.set ⊆ a.set ∨ Disjoint b.set a.set

structure Gathered (t : List AsinfoEntry) (start stop : Nat) (found : List Nat)
    (list : List AsRange) :
    Prop where
  pieces : Pieces list
  cover : coverPieces list = {x | x ∈ Set.Icc start stop ∧
    ∃ i ∈ found, ∃ as, t[i]? = some as ∧ x ∈ as.set}
  owners : ∀ r ∈ list, r.owner ∈ found
  fits : ∀ a b, a ≤ b → Set.Icc a b ⊆ Set.Icc start stop →
    (∀ i ∈ found, ∀ as, t[i]? = some as → Set.Icc a b ⊆ as.set ∨ Disjoint (Set.Icc a b) as.set) →
      Fits (Set.Icc a b) list

theorem gathered_nil (t : List AsinfoEntry) (start stop : Nat) : Gathered t start stop [] [] where
  pieces := ⟨by simp, by simp, .nil⟩
  cover := by simp [coverPieces]
  owners := by simp
  fits := fun _ _ _ _ _ => .inr (by simp)

theorem gatherPiece_placed {t : List AsinfoEntry} {start stop j : Nat} {container : String}
    {found : List Nat} {list : List AsRange} (h : Gathered t start stop found list)
    (hlam : Laminar t start stop container) (hle : start ≤ stop) (hb : stop < 2 ^ 64)
    (hj : containsAt t start stop container j = true)
    (hfound : ∀ i ∈ found, i < j ∧ containsAt t start stop container i = true) {c : AsinfoEntry}
    (hc : t[j]? = some c) :
    ∃ ps pe, gatherPiece start stop t list j = placePiece ps pe j list ∧ ps ≤ pe ∧ pe < 2 ^ 64 ∧
      Set.Icc ps pe = Set.Icc start stop ∩ c.set ∧ Fits (Set.Icc ps pe) list := by
  obtain ⟨c', hc', -, ho⟩ := containsAt_iff.mp hj
  obtain rfl : c = c' := Option.some.inj (hc.symm.trans hc')
  have hcr := hlam.range hc hj
  obtain ⟨h1, h2⟩ := (overlaps_iff hle hcr).mp ho
  set ps := if c.start > start then c.start else start with hps
  set pe := if c.stop < stop then c.stop else stop with hpe
  have hpse : ps ≤ pe ∧ pe < 2 ^ 64 := by
    constructor <;> rw [hpe] <;> try rw [hps]
    · split <;> split <;> omega
    · split <;> omega
  have hset : ∀ x, x ∈ Set.Icc ps pe ↔ x ∈ Set.Icc start stop ∧ x ∈ c.set := by
    intro x
    simp only [AsinfoEntry.set, Set.mem_Icc, hps, hpe]
    split <;> split <;> omega
  have hfits : Fits (Set.Icc ps pe) list := by
    refine h.fits ps pe hpse.1 (fun x hx => ((hset x).mp hx).1) fun i hi a ha => ?_
    obtain ⟨hij, hci⟩ := hfound i hi
    have hsub : Set.Icc ps pe ⊆ c.set := fun x hx => ((hset x).mp hx).2
    rcases hlam.nested hij ha hc hci hj with hn | hn
    · exact .inl (hsub.trans hn)
    · exact .inr (hn.mono_left hsub)
  have heq : gatherPiece start stop t list j = placePiece ps pe j list := by
    unfold gatherPiece
    rw [hc]
  exact ⟨ps, pe, heq, hpse.1, hpse.2, Set.ext hset, hfits⟩

theorem gathered_step {t : List AsinfoEntry} {start stop j : Nat} {container : String}
    {found : List Nat} {list : List AsRange} (h : Gathered t start stop found list)
    (hlam : Laminar t start stop container) (hle : start ≤ stop) (hb : stop < 2 ^ 64)
    (hj : containsAt t start stop container j = true)
    (hfound : ∀ i ∈ found, i < j ∧ containsAt t start stop container i = true) :
    Gathered t start stop (found ++ [j]) (gatherPiece start stop t list j) := by
  obtain ⟨c, hc, -, -⟩ := containsAt_iff.mp hj
  obtain ⟨ps, pe, heq, hpse, hpe, hinter, hfits⟩ := gatherPiece_placed h hlam hle hb hj hfound hc
  have hset : ∀ x, x ∈ Set.Icc ps pe ↔ x ∈ Set.Icc start stop ∧ x ∈ c.set :=
    fun x => by rw [hinter]; rfl
  have hp := placed_placePiece j h.pieces hpse hpe hfits
  rw [heq]
  refine ⟨hp.pieces, ?_, fun r hr => ?_, fun a b hab hsub hu => ?_⟩
  · rw [hp.cover, h.cover, hinter]
    ext x
    simp only [Set.mem_union, Set.mem_inter_iff, Set.mem_ofPred_eq, List.mem_append,
      List.mem_singleton]
    constructor
    · rintro (⟨hx, i, hi, as, has, hxa⟩ | ⟨hx, hxc⟩)
      · exact ⟨hx, i, .inl hi, as, has, hxa⟩
      · exact ⟨hx, j, .inr rfl, c, hc, hxc⟩
    · rintro ⟨hx, i, hi | rfl, as, has, hxa⟩
      · exact .inl ⟨hx, i, hi, as, has, hxa⟩
      · obtain rfl : c = as := Option.some.inj (hc.symm.trans has)
        exact .inr ⟨hx, hxa⟩
  · rcases hp.owners r hr with h' | ⟨r', hr', h'⟩
    · simp [h']
    · simp [h', h.owners r' hr']
  · refine hp.fits a b hab (h.fits a b hab hsub fun i hi as has => hu i (by simp [hi]) as has) ?_
    rcases hu j (by simp) c hc with hs | hs
    · exact .inl fun x hx => (hset x).mpr ⟨hsub hx, hs hx⟩
    · exact .inr (hs.mono_right fun x hx => ((hset x).mp hx).2)

theorem gatherPieces_eq_foldl (start stop : Nat) (container : String) (t : List AsinfoEntry)
    (fuel : Nat) (owner : Option Nat) (list : List AsRange)
    (hf : t.length < fuel + searchStart owner) :
    gatherPieces start stop container t fuel owner list =
      ((List.range' (searchStart owner) (t.length - searchStart owner)).filter
        (containsAt t start stop container)).foldl (gatherPiece start stop t) list := by
  induction fuel generalizing owner list with
  | zero =>
    rw [gatherPieces, Nat.sub_eq_zero_of_le (by omega)]
    rfl
  | succ fuel ih =>
    rw [gatherPieces]
    cases hfind : asFindContaining owner start stop container t with
    | none =>
      have hno := asFindContaining_eq_none.mp hfind
      rw [List.filter_eq_nil_iff.mpr]
      · rfl
      · intro j hj
        rw [hno j (List.mem_range'_1.mp hj).1]
        decide
    | some o =>
      obtain ⟨ho, ⟨hlo, hlt⟩, hno⟩ := asFindContaining_eq_some.mp hfind
      have hsplit : List.range' (searchStart owner) (t.length - searchStart owner) =
          List.range' (searchStart owner) (o - searchStart owner) ++
            o :: List.range' (o + 1) (t.length - (o + 1)) := by
        have h1 : o :: List.range' (o + 1) (t.length - (o + 1)) = List.range' o (t.length - o) := by
          rw [show t.length - o = t.length - (o + 1) + 1 by omega, List.range'_succ]
        have h2 := @List.range'_append_1 (searchStart owner) (o - searchStart owner) (t.length - o)
        rw [show searchStart owner + (o - searchStart owner) = o by omega] at h2
        rw [h1, h2]
        congr 1
        omega
      have hskip : (List.range' (searchStart owner) (o - searchStart owner)).filter
          (containsAt t start stop container) = [] := by
        rw [List.filter_eq_nil_iff]
        intro j hj
        have hj := List.mem_range'_1.mp hj
        rw [hno j hj.1 (by omega)]
        decide
      rw [hsplit, List.filter_append, hskip, List.nil_append, List.filter_cons_of_pos ho,
        List.foldl_cons]
      exact ih (some o) _ (by simp only [searchStart] at hf hlo ⊢; omega)

theorem gather_foldl {t : List AsinfoEntry} {start stop : Nat} {container : String}
    {P : List Nat → List AsRange → Prop}
    (step : ∀ {found list j}, P found list → containsAt t start stop container j = true →
      (∀ i ∈ found, i < j ∧ containsAt t start stop container i = true) →
        P (found ++ [j]) (gatherPiece start stop t list j))
    (todo found : List Nat) {list : List AsRange} (h : P found list)
    (hall : ∀ i ∈ found ++ todo, containsAt t start stop container i = true)
    (hsorted : (found ++ todo).Pairwise (· < ·)) :
    P (found ++ todo) (todo.foldl (gatherPiece start stop t) list) := by
  induction todo generalizing found list with
  | nil => simpa using h
  | cons j todo ih =>
    have hstep := step h (hall j (by simp)) fun i hi =>
      ⟨(List.pairwise_append.mp hsorted).2.2 i hi j (by simp), hall i (by simp [hi])⟩
    have hh := ih (found ++ [j]) hstep (by simpa using hall) (by simpa using hsorted)
    simpa using hh

theorem gatherPieces_induction {t : List AsinfoEntry} {start stop : Nat} {container : String}
    {P : List Nat → List AsRange → Prop} (nil : P [] [])
    (step : ∀ {found list j}, P found list → containsAt t start stop container j = true →
      (∀ i ∈ found, i < j ∧ containsAt t start stop container i = true) →
        P (found ++ [j]) (gatherPiece start stop t list j)) :
    P ((List.range' 0 t.length).filter (containsAt t start stop container))
      (gatherPieces start stop container t (t.length + 1) none []) := by
  rw [gatherPieces_eq_foldl start stop container t (t.length + 1) none [] (by simp [searchStart])]
  have hh := gather_foldl step ((List.range' 0 t.length).filter (containsAt t start stop container))
    [] nil
    (by simp) ((List.pairwise_lt_range').filter _)
  simpa [searchStart] using hh

theorem gatherPieces_gathered {t : List AsinfoEntry} {start stop : Nat} {container : String}
    (hlam : Laminar t start stop container) (hle : start ≤ stop) (hb : stop < 2 ^ 64) :
    Gathered t start stop ((List.range' 0 t.length).filter (containsAt t start stop container))
      (gatherPieces start stop container t (t.length + 1) none []) :=
  gatherPieces_induction (gathered_nil t start stop) fun h hj hfound =>
    gathered_step h hlam hle hb hj hfound

theorem addPieces_plain [SyspageHeader] {pieceAttr : Nat} (h : pieceAttr &&& asOverlayIo = 0)
    (name : String) (list : List AsRange) (hpos : ∀ r ∈ list, r.start ≤ r.stop)
    (t : List AsinfoEntry) (startOff : Option Nat) (off : Nat) :
    (addPieces pieceAttr name list t startOff off).1.map AsinfoEntry.plain =
      t.map AsinfoEntry.plain ++ list.map
        (fun r => ⟨r.start, r.stop, some r.owner, name, 0, 0⟩) := by
  induction list generalizing t startOff off with
  | nil => simp [addPieces]
  | cons r list ih =>
    rw [addPieces, if_pos (hpos r (by simp)), ih (fun r' hr' => hpos r' (by simp [hr'])),
      asAdd_plain h]
    simp

theorem and_asOverlayIo_eq_zero {n : Nat} : n &&& asOverlayIo = 0 ↔ n.testBit 31 = false := by
  rw [show asOverlayIo = 2 ^ 31 from rfl, Nat.and_two_pow]
  cases n.testBit 31 <;> simp

theorem pieceAttr_and_asOverlayIo [SyspageHeader] (attr : Nat) :
    ((attr &&& compl32 asOverlayIo) ||| SyspageHeader.asAttrContinued) &&& asOverlayIo = 0 := by
  have hc : SyspageHeader.asAttrContinued.testBit 31 = false :=
    Nat.testBit_lt_two_pow (SyspageHeader.continued_lt.trans (by decide))
  rw [and_asOverlayIo_eq_zero, Nat.testBit_or, Nat.testBit_and, hc,
    show (compl32 asOverlayIo).testBit 31 = false by decide]
  simp

def contained (t : List AsinfoEntry) (container : String) : Set Nat :=
  {x | ∃ i as, t[i]? = some as ∧ matchName t i container = true ∧ x ∈ as.set}

theorem Gathered.cover_contained {t : List AsinfoEntry} {start stop : Nat} {container : String}
    {list : List AsRange}
    (h : Gathered t start stop ((List.range' 0 t.length).filter
      (containsAt t start stop container)) list) :
    coverPieces list = Set.Icc start stop ∩ contained t container := by
  rw [h.cover]
  ext x
  constructor
  · rintro ⟨hx, i, hi, as, has, hxa⟩
    obtain ⟨as', has', hm, -⟩ := containsAt_iff.mp (List.mem_filter.mp hi).2
    exact ⟨hx, i, as, has, hm, hxa⟩
  · rintro ⟨hx, i, as, has, hm, hxa⟩
    refine ⟨hx, i, List.mem_filter.mpr ⟨?_,
      containsAt_iff.mpr ⟨as, has, hm, overlaps_of_mem hx hxa⟩⟩, as, has, hxa⟩
    obtain ⟨hi, -⟩ := List.getElem?_eq_some_iff.mp has
    exact List.mem_range'_1.mpr (by omega)

/-- `as_add_containing` on nested or disjoint containers: it adds disjoint elements
that cover what the containers hold of `[start, stop]`, each owned by a container. -/
theorem asAddContaining_pieces [SyspageHeader] {start stop : Nat} (attr : Nat) (name : String)
    {container : String} {t : List AsinfoEntry} (hattr : attr &&& asOverlayIo = 0)
    (hlam : Laminar t start stop container) (hle : start ≤ stop) (hb : stop < 2 ^ 64) :
    ∃ list, Pieces list ∧ coverPieces list = Set.Icc start stop ∩ contained t container ∧
      (∀ r ∈ list, containsAt t start stop container r.owner = true) ∧
      (asAddContaining start stop attr name container t).1.map AsinfoEntry.plain =
        t.map AsinfoEntry.plain ++ list.map
          (fun r => ⟨r.start, r.stop, some r.owner, name, 0, 0⟩) := by
  have hg := gatherPieces_gathered hlam hle hb
  set list := gatherPieces start stop container t (t.length + 1) none [] with hlist
  refine ⟨list, hg.pieces, hg.cover_contained,
    fun r hr => (List.mem_filter.mp (hg.owners r hr)).2, ?_⟩
  have hp := addPieces_plain (pieceAttr_and_asOverlayIo attr) name list hg.pieces.pos t none 0
  unfold asAddContaining
  simp only [← hlist, hattr]
  rcases hadd :
    addPieces (attr &&& compl32 asOverlayIo ||| SyspageHeader.asAttrContinued) name list t none 0
    with ⟨t', _ | startOff, off⟩
  · rw [hadd] at hp
    exact hp
  · rw [hadd] at hp
    simpa using hp

end QnxStartup
