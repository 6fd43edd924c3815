import QnxStartup.Bootargs
import QnxStartup.EfiCommandLine

/-! `fdt_tweak_cmdline.c` and `efi_tweak_cmdline.c`: the words of the command line go to
the programs of the image, a group for each call. -/

namespace QnxStartup

def blank : UInt8 := 0x20

def skipBlanks (m : Mem) : Nat → Nat → Option Nat
  | 0, _ => none
  | n + 1, str => if m str = blank then skipBlanks m n (str + 1) else some str

def wordEnd (m : Mem) : Nat → Nat → Option Nat
  | 0, _ => none
  | n + 1, next => if m next ≠ blank ∧ m next ≠ 0 then wordEnd m n (next + 1) else some next

/-- `find_next_arg`: memory, the word, and `*end`. -/
def findNextArg (str : Nat) (terminate : Bool) (m : Mem) : Startup (Mem × Nat × Nat) :=
  match skipBlanks m (2 ^ 64) str with
  | none => .error .fault
  | some str =>
    if m str = 0 then .ok (m, str, str)
    else
      match wordEnd m (2 ^ 64) str with
      | none => .error .fault
      | some next =>
        if m next ≠ 0 then .ok (if terminate then writeBytes m next [0] else m, str, next + 1)
          else .ok (m, str, next)

def dashes : CString := ⟨[minus, minus], by decide⟩

/-- The loop of a call, from `next_arg`. -/
def appendArgs (bap : Nat) : Nat → Nat → Mem → Startup (Mem × Nat)
  | 0, _, _ => .error .noReturn
  | fuel + 1, nextArg, m =>
    (findNextArg nextArg true m).bind fun (m, cmdline, nextArg) =>
      if m cmdline = 0 then .ok (m, nextArg)
      else
        match cstr m cmdline with
        | none => .error .fault
        | some word =>
          if word = dashes.1 then .ok (m, nextArg)
          else (bootstrapArgAdjust bap none (some word) m).bind fun (m, _) =>
            appendArgs bap fuel nextArg m

/-- Memory and the static `next_arg`, `none` for `NULL`. -/
structure Tweak where
  mem : Mem
  nextArg : Option Nat

/-- The command line, or what is left of it; `first` gets it when `next_arg` is `NULL`. -/
def takeCmdline (first : Mem → Startup (Option (Mem × Nat))) (s : Tweak) :
    Startup (Option (Mem × Nat)) :=
  match s.nextArg with
  | some nextArg => .ok (some (s.mem, nextArg))
  | none => first s.mem

def tweakCmdline (first : Mem → Startup (Option (Mem × Nat))) (bap : Nat)
    (s : Tweak) : Startup Tweak :=
  (takeCmdline first s).bind fun line =>
    match line with
    | none => .ok s
    | some (m, nextArg) => (appendArgs bap (2 ^ 64) nextArg m).bind fun (m, nextArg) =>
      .ok ⟨m, some nextArg⟩

/-- `prop` is the data of the property `bootargs` of `/chosen`, and `wsAlloc` gives the
address of an allocation. -/
def fdtFirst (prop : Option (List UInt8)) (wsAlloc : Nat → Option Nat) (m : Mem) :
    Startup (Option (Mem × Nat)) :=
  match prop with
  | none => .ok none
  | some data =>
    match wsAlloc data.length with
    | none => .ok none
    | some nextArg => .ok (some (writeBytes m nextArg data, nextArg))

def fdtTweakCmdline (prop : Option (List UInt8)) (wsAlloc : Nat → Option Nat) (bap : Nat)
    (s : Tweak) : Startup Tweak :=
  tweakCmdline (fdtFirst prop wsAlloc) bap s

/-- The load options at `cmdline`, of `size` bytes, are converted where they lie. -/
def efiFirst (cmdline size : Nat) (m : Mem) : Startup (Option (Mem × Nat)) :=
  match efiConvertCommandLine cmdline size m with
  | (_, none) => .ok none
  | (r, some nextArg) =>
    (findNextArg nextArg false r.mem).bind fun (m, nextArg, str) =>
      .ok (some (m, if m nextArg ≠ minus then str else nextArg))

def efiTweakCmdline (cmdline size bap : Nat) (s : Tweak) : Startup Tweak :=
  tweakCmdline (efiFirst cmdline size) bap s

/-! ### Words and groups -/

theorem mem_of_mem_splitOn {a x : UInt8} {l w : List UInt8} (hw : w ∈ l.splitOn a) (hx : x ∈ w) :
    x ∈ l := by
  induction l generalizing w with
  | nil =>
    rw [List.splitOn_nil, List.mem_singleton] at hw
    rwa [hw] at hx
  | cons b l ih =>
    rw [List.splitOn_cons_eq_if_modifyHead] at hw
    by_cases hb : b == a
    · rw [if_pos hb, List.mem_cons] at hw
      rcases hw with rfl | hw
      · cases hx
      · exact List.mem_cons_of_mem _ (ih hw hx)
    · rw [if_neg hb] at hw
      obtain ⟨w', ws, hsplit⟩ := List.exists_cons_of_ne_nil (List.splitOn_ne_nil a l)
      rw [hsplit, List.modifyHead_cons, List.mem_cons] at hw
      rcases hw with rfl | hw
      · rcases List.mem_cons.mp hx with rfl | hx
        · exact List.mem_cons_self
        · exact List.mem_cons_of_mem _ (ih (hsplit ▸ List.mem_cons_self) hx)
      · exact List.mem_cons_of_mem _ (ih (hsplit ▸ List.mem_cons_of_mem _ hw) hx)

def wordsOf (t : List UInt8) : List (List UInt8) := (t.splitOn blank).filter (· ≠ [])

def CString.words (t : CString) : List CString :=
  (wordsOf t.1).attachWith (0 ∉ ·) fun _ hw h0 =>
    t.2 (mem_of_mem_splitOn (List.mem_filter.mp hw).1 h0)

/-- The `k`-th group between words `--`, and none behind the last. -/
def groupOf (words : List CString) (k : Nat) : List CString := (words.splitOn dashes).getD k []

/-- The words of the load options: firmware puts the name of the image first. -/
def dropImageName : List CString → List CString
  | [] => []
  | w :: ws => if w.1.head? = some minus then w :: ws else ws

section
variable {t t' w : CString} {words : List CString} {bl l : List UInt8}

theorem map_words (t : CString) : t.words.map (·.1) = wordsOf t.1 :=
  List.attachWith_map_subtype_val _

theorem words_eq_of_map {ws : List CString} (h : wordsOf t.1 = ws.map (·.1)) : t.words = ws :=
  (List.map_inj_right fun _ _ => Subtype.ext).mp ((map_words t).trans h)

theorem wordsOf_blanks (hbl : ∀ x ∈ bl, x = blank) : wordsOf (bl ++ l) = wordsOf l := by
  induction bl with
  | nil => rfl
  | cons x bl ih =>
    obtain ⟨rfl, htail⟩ := List.forall_mem_cons.mp hbl
    rw [← ih htail, List.cons_append, wordsOf, wordsOf, List.splitOn_cons_eq_if_modifyHead,
      if_pos (beq_self_eq_true _)]
    rfl

theorem wordsOf_last (hw : ∀ x ∈ l, x ≠ blank) (hne : l ≠ []) : wordsOf l = [l] := by
  have hsplit : l.splitOn blank = [l] := List.splitOnP_eq_singleton fun x hx => by
    simpa using hw x hx
  rw [wordsOf, hsplit]
  simp [hne]

theorem wordsOf_word {r : List UInt8} (hw : ∀ x ∈ l, x ≠ blank) (hne : l ≠ []) :
    wordsOf (l ++ blank :: r) = l :: wordsOf r := by
  have hsplit : (l ++ blank :: r).splitOn blank = l :: r.splitOn blank :=
    List.splitOnP_append_cons_of_forall_mem (p := (· == blank))
      (fun x hx => by simpa using hw x hx) blank (beq_self_eq_true _) r
  rw [wordsOf, hsplit, List.filter_cons_of_pos (by simpa using hne)]
  rfl

theorem word_split (l : List UInt8) :
    ∃ w r, l = w ++ r ∧ (∀ x ∈ w, x ≠ blank) ∧ (r = [] ∨ ∃ r', r = blank :: r') := by
  induction l with
  | nil => exact ⟨[], [], rfl, nofun, .inl rfl⟩
  | cons c l ih =>
    by_cases hc : c = blank
    · exact ⟨[], c :: l, rfl, nofun, .inr ⟨l, by rw [hc]⟩⟩
    · obtain ⟨w, r, rfl, hw, hr⟩ := ih
      exact ⟨c :: w, r, rfl, List.forall_mem_cons.mpr ⟨hc, hw⟩, hr⟩

theorem line_cases (l : List UInt8) :
    (∀ x ∈ l, x = blank) ∨ ∃ bl w r, l = bl ++ (w ++ r) ∧ (∀ x ∈ bl, x = blank) ∧
    (∀ x ∈ w, x ≠ blank) ∧ w ≠ [] ∧ (r = [] ∨ ∃ r', r = blank :: r') := by
  induction l with
  | nil => exact .inl nofun
  | cons c l ih =>
    by_cases hc : c = blank
    · rcases ih with hl | ⟨bl, w, r, rfl, hbl, hw⟩
      · exact .inl (List.forall_mem_cons.mpr ⟨hc, hl⟩)
      · exact .inr ⟨c :: bl, w, r, rfl, List.forall_mem_cons.mpr ⟨hc, hbl⟩, hw⟩
    · obtain ⟨w, r, rfl, hw, hr⟩ := word_split l
      exact .inr ⟨[], c :: w, r, rfl, nofun, List.forall_mem_cons.mpr ⟨hc, hw⟩,
        List.cons_ne_nil _ _, hr⟩

theorem words_cases (t : CString) : ((∀ x ∈ t.1, x = blank) ∧ t.words = []) ∨
    ∃ (bl : List UInt8) (w : CString), (∀ x ∈ bl, x = blank) ∧ (∀ x ∈ w.1, x ≠ blank) ∧ w.1 ≠ [] ∧
      ((t.1 = bl ++ w.1 ∧ t.words = [w]) ∨ ∃ t' : CString, t.1 = bl ++ (w.1 ++ blank :: t'.1) ∧
        t.words = w :: t'.words) := by
  obtain ⟨l, hl⟩ := t
  rcases line_cases l with hblank | ⟨bl, w, r, rfl, hbl, hw, hne, hr⟩
  · refine .inl ⟨hblank, words_eq_of_map ?_⟩
    have h := @wordsOf_blanks l [] hblank
    rwa [List.append_nil] at h
  have hw0 : 0 ∉ w := fun h => hl (List.mem_append_right _ (List.mem_append_left _ h))
  refine .inr ⟨bl, ⟨w, hw0⟩, hbl, hw, hne, ?_⟩
  rcases hr with rfl | ⟨r, rfl⟩
  · refine .inl ⟨congrArg (bl ++ ·) (List.append_nil w), words_eq_of_map ?_⟩
    rw [wordsOf_blanks hbl, List.append_nil, wordsOf_last hw hne]
    rfl
  · have hr0 : 0 ∉ r := fun h =>
      hl (List.mem_append_right _ (List.mem_append_right _ (List.mem_cons_of_mem _ h)))
    refine .inr ⟨⟨r, hr0⟩, rfl, words_eq_of_map ?_⟩
    rw [wordsOf_blanks hbl, wordsOf_word hw hne, List.map_cons, map_words]

theorem groupOf_nil (k : Nat) : groupOf [] k = [] := by
  cases k <;> rfl

theorem groupOf_dashes_zero : groupOf (dashes :: words) 0 = [] := by
  rw [groupOf, List.splitOn_cons_eq_if_modifyHead, if_pos (beq_self_eq_true _)]
  rfl

theorem groupOf_dashes_succ (k : Nat) : groupOf (dashes :: words) (k + 1) = groupOf words k := by
  rw [groupOf, List.splitOn_cons_eq_if_modifyHead, if_pos (beq_self_eq_true _)]
  rfl

theorem groupOf_word_zero (hw : w ≠ dashes) : groupOf (w :: words) 0 = w :: groupOf words 0 := by
  obtain ⟨g, gs, hsplit⟩ := List.exists_cons_of_ne_nil (List.splitOn_ne_nil dashes words)
  rw [groupOf, List.splitOn_cons_eq_if_modifyHead, if_neg fun h => hw (eq_of_beq h),
    groupOf, hsplit]
  rfl

theorem groupOf_word_succ (hw : w ≠ dashes) (k : Nat) :
    groupOf (w :: words) (k + 1) = groupOf words (k + 1) := by
  obtain ⟨g, gs, hsplit⟩ := List.exists_cons_of_ne_nil (List.splitOn_ne_nil dashes words)
  rw [groupOf, List.splitOn_cons_eq_if_modifyHead, if_neg fun h => hw (eq_of_beq h),
    groupOf, hsplit]
  rfl

end

/-! ### A call -/

section
variable {m : Mem} {a n bap : Nat} {bl l rest : List UInt8} {c : UInt8} {t w : CString}
  {r : Bootargs} {g : List CString}

theorem skipBlanks_ok (h : Holds m a (bl ++ c :: rest)) (hbl : ∀ x ∈ bl, x = blank) (hc : c ≠ blank)
    (hn : bl.length < n) :
    skipBlanks m n a = some (a + bl.length) := by
  induction bl generalizing a n with
  | nil =>
    obtain ⟨n, rfl⟩ := Nat.exists_eq_succ_of_ne_zero (Nat.ne_of_gt (Nat.zero_lt_of_lt hn))
    exact if_neg (h.1 ▸ hc)
  | cons b bl ih =>
    obtain ⟨n, rfl⟩ := Nat.exists_eq_succ_of_ne_zero (Nat.ne_of_gt (Nat.zero_lt_of_lt hn))
    obtain ⟨rfl, hbl'⟩ := List.forall_mem_cons.mp hbl
    rw [skipBlanks, if_pos h.1, ih h.2 hbl' (Nat.lt_of_succ_lt_succ hn), List.length_cons,
      Nat.add_assoc, Nat.add_comm 1]

theorem wordEnd_ok (h : Holds m a (l ++ c :: rest)) (hl : ∀ x ∈ l, x ≠ blank ∧ x ≠ 0)
    (hc : c = blank ∨ c = 0) (hn : l.length < n) :
    wordEnd m n a = some (a + l.length) := by
  induction l generalizing a n with
  | nil =>
    obtain ⟨n, rfl⟩ := Nat.exists_eq_succ_of_ne_zero (Nat.ne_of_gt (Nat.zero_lt_of_lt hn))
    have hma : m a = c := h.1
    refine if_neg fun hm => ?_
    rw [hma] at hm
    exact hc.elim hm.1 hm.2
  | cons b l ih =>
    obtain ⟨n, rfl⟩ := Nat.exists_eq_succ_of_ne_zero (Nat.ne_of_gt (Nat.zero_lt_of_lt hn))
    obtain ⟨hb, hl'⟩ := List.forall_mem_cons.mp hl
    have hma : m a = b := h.1
    rw [wordEnd, hma, if_pos hb, ih h.2 hl' (Nat.lt_of_succ_lt_succ hn), List.length_cons,
      Nat.add_assoc, Nat.add_comm 1]

theorem findNextArg_blank {terminate : Bool} (h : Holds m a (bl ++ [0])) (hbl : ∀ x ∈ bl, x = blank)
    (hlen : bl.length < 2 ^ 64) :
    findNextArg a terminate m = .ok (m, a + bl.length, a + bl.length) := by
  have hend : m (a + bl.length) = 0 := (holds_append.mp h).2.1
  rw [findNextArg, skipBlanks_ok h hbl (by decide) hlen]
  exact if_pos hend

theorem findNextArg_word {terminate : Bool} (h : Holds m a (bl ++ (l ++ c :: rest)))
    (hbl : ∀ x ∈ bl, x = blank) (hl : ∀ x ∈ l, x ≠ blank ∧ x ≠ 0) (hne : l ≠ [])
    (hc : c = blank ∨ c = 0) (hlen : bl.length + l.length < 2 ^ 64) :
    findNextArg a terminate m =
      if c ≠ 0 then
        .ok (if terminate then writeBytes m (a + bl.length + l.length) [0] else m, a + bl.length,
          a + bl.length + l.length + 1)
      else .ok (m, a + bl.length, a + bl.length + l.length) := by
  obtain ⟨b, l', rfl⟩ := List.exists_cons_of_ne_nil hne
  obtain ⟨hb, -⟩ := List.forall_mem_cons.mp hl
  have hword := (holds_append.mp h).2
  have hfirst : m (a + bl.length) = b := hword.1
  have hend : m (a + bl.length + (b :: l').length) = c := (holds_append.mp hword).2.1
  rw [findNextArg, skipBlanks_ok h hbl hb.1 (by omega)]
  dsimp only
  rw [hfirst, if_neg hb.2, wordEnd_ok hword hl hc (by omega)]
  dsimp only
  rw [hend]

def Bootargs.append (b : Bootargs) (g : List CString) : Bootargs := { b with argv := b.argv ++ g }

/-- A record that has room for the words `g`, apart from the line. -/
structure Room (line : Set Nat) (g : List CString) (m : Mem) (bap : Nat) (r : Bootargs) : Prop where
  addressable : Addressable bap
  holds : Holds m bap r.encode
  wf : r.WellFormed
  room : (r.append g).WellFormed
  apart : Disjoint (bytes bap (r.append g).size) line

theorem append_nil (r : Bootargs) : r.append [] = r := by
  rw [Bootargs.append, List.append_nil]

theorem append_cons (r : Bootargs) (w : CString) (g : List CString) :
    r.append (w :: g) = (r.append [w]).append g := by
  rw [Bootargs.append, Bootargs.append, Bootargs.append, List.append_assoc]
  rfl

theorem size_append_le (r : Bootargs) (g : List CString) : r.size ≤ (r.append g).size := by
  simp only [Bootargs.size, Bootargs.args, Bootargs.append, encodeStrings_append,
    List.length_append]
  omega

theorem WellFormed.of_append (h : (r.append g).WellFormed) : r.WellFormed := by
  have hargc := h.argc
  rw [Bootargs.append, List.length_append] at hargc
  exact ⟨by omega, h.envc, (size_append_le r g).trans_lt h.size⟩

theorem Room.step {line : Set Nat} (h : Room line (w :: g) m bap r) :
    ∃ m', bootstrapArgAdjust bap none (some w.1) m = .ok (m', 1) ∧
      Room line g m' bap (r.append [w]) ∧
      ∀ x, x ∉ bytes bap (r.append [w]).size → m' x = m x := by
  obtain ⟨haddr, hholds, hwf, hroom, hapart⟩ := h
  rw [append_cons] at hroom hapart
  have hstep := WellFormed.of_append hroom
  obtain ⟨m', hrun, hholds', hframe⟩ := @bootstrapAdjust_some m bap r (r.append [w])
    ⟨false, .append w⟩ haddr hholds hwf rfl hstep
  exact ⟨m', hrun, ⟨haddr, hholds', hstep, hroom, hapart⟩, hframe⟩

theorem Room.congr {line : Set Nat} {m' : Mem} (h : Room line g m bap r)
    (hsame : ∀ x, x ∉ line → m' x = m x) :
    Room line g m' bap r := by
  refine ⟨h.addressable, h.holds.congr fun k hk => hsame _ fun hx => ?_, h.wf, h.room, h.apart⟩
  refine Set.disjoint_left.mp h.apart (mem_bytes.mpr ⟨Nat.le_add_right _ _, ?_⟩) hx
  have hlen : r.encode.length = r.size := by
    simp only [Bootargs.encode, List.length_append, le16, le32, List.length_cons, List.length_nil,
      Bootargs.size, offsetofArgs]
    omega
  have := size_append_le r g
  omega

def emptyLine : CString := ⟨[], nofun⟩

/-- What is left of the line lies at `a'`, up to the same NUL. -/
structure Left (m : Mem) (a a' : Nat) (t t' : CString) : Prop where
  holds : Holds m a' (t'.1 ++ [0])
  le : a ≤ a'
  stop : a' + t'.1.length = a + t.1.length

theorem findNextArg_line (terminate : Bool) (h : Holds m a (t.1 ++ [0]))
    (hlen : a + t.1.length < 2 ^ 64) (hw : w.1 ≠ []) (hbl : ∀ x ∈ bl, x = blank)
    (hblank : ∀ x ∈ w.1, x ≠ blank)
    (hcase : (t.1 = bl ++ w.1 ∧ t.words = [w]) ∨
      ∃ t' : CString, t.1 = bl ++ (w.1 ++ blank :: t'.1) ∧ t.words = w :: t'.words) :
    ∃ m' next t', findNextArg a terminate m = .ok (m', a + bl.length, next) ∧ Left m' a next t t' ∧
      t'.1.length < t.1.length ∧
      Holds m' (a + bl.length) (w.1 ++ if terminate then [0] else []) ∧ t.words = w :: t'.words ∧
      (∀ x, x ∉ bytes a (t.1.length + 1) → m' x = m x) ∧ (terminate = false → m' = m) := by
  have hword : ∀ x ∈ w.1, x ≠ blank ∧ x ≠ 0 := fun x hx => ⟨hblank x hx, fun h0 => w.2 (h0 ▸ hx)⟩
  have hpos := List.length_pos_iff.mpr hw
  rcases hcase with ⟨ht, hwords⟩ | ⟨t', ht, hwords⟩
  · rw [ht, List.append_assoc] at h
    rw [ht, List.length_append] at hlen
    have hrest := (holds_append.mp h).2
    have hnul := (holds_append.mp hrest).2
    refine ⟨m, _, emptyLine, (findNextArg_word h hbl hword hw (.inr rfl) (by omega)).trans
      (if_neg (not_not.mpr rfl)),
      ⟨hnul, by omega, ?_⟩, ?_, ?_, hwords, fun _ _ => rfl, fun _ => rfl⟩
    · rw [ht, List.length_append, ← Nat.add_assoc]
      rfl
    · rw [ht, List.length_append]
      exact Nat.lt_of_lt_of_le hpos (Nat.le_add_left _ _)
    · cases terminate with
      | true => exact hrest
      | false => exact (List.append_nil w.1).symm ▸ (holds_append.mp hrest).1
  · have hsplit : t.1 ++ [0] = bl ++ (w.1 ++ blank :: (t'.1 ++ [0])) := by
      rw [ht, List.append_assoc, List.append_assoc, List.cons_append]
    have hlength : t.1.length = bl.length + (w.1.length + (t'.1.length + 1)) := by
      rw [ht, List.length_append, List.length_append, List.length_cons]
    rw [hsplit] at h
    have hrest := (holds_append.mp h).2
    have htail := (holds_append.mp hrest).2.2
    have hfind := (@findNextArg_word m a bl w.1 (t'.1 ++ [0]) blank terminate h hbl hword hw
      (.inl rfl) (by omega)).trans (if_pos (by decide))
    have hplace : a + bl.length + w.1.length ∈ bytes a (t.1.length + 1) := by
      rw [mem_bytes]
      omega
    cases terminate with
    | true =>
      have hsame : ∀ x, x ≠ a + bl.length + w.1.length →
          writeBytes m (a + bl.length + w.1.length) [0] x = m x := fun x hx =>
        writeByte_of_ne hx
      refine ⟨_, _, t', hfind, ⟨?_, by omega, by omega⟩, by omega, ?_, hwords,
        fun x hx => hsame x fun hx' => hx (hx' ▸ hplace), nofun⟩
      · exact htail.congr fun k hk => hsame _ (by omega)
      · exact holds_append.mpr ⟨(holds_append.mp hrest).1.congr fun k hk => hsame _ (by omega),
          writeByte_same, trivial⟩
    | false =>
      refine ⟨_, _, t', hfind, ⟨htail, by omega, by omega⟩, by omega, ?_, hwords,
        fun _ _ => rfl, fun _ => rfl⟩
      exact (List.append_nil w.1).symm ▸ (holds_append.mp hrest).1

/-- One round of the loop, with the word that `find_next_arg` has put its NUL behind. -/
theorem appendArgs_round {fuel p next : Nat} {m1 : Mem} (hfind : findNextArg a true m =
    .ok (m1, p, next)) (hword : Holds m1 p (w.1 ++ [0])) (hne : w.1 ≠ [])
    (hlen : w.1.length < 2 ^ 64) :
    appendArgs bap (fuel + 1) a m = if w = dashes then .ok (m1, next)
      else (bootstrapArgAdjust bap none (some w.1) m1).bind fun (m, _) =>
        appendArgs bap fuel next m := by
  have hfirst : m1 p ≠ 0 := by
    obtain ⟨b, l, hb⟩ := List.exists_cons_of_ne_nil hne
    have hhead := hword
    rw [hb] at hhead
    rw [hhead.1]
    rintro rfl
    exact w.2 (hb ▸ List.mem_cons_self)
  rw [appendArgs, hfind, ok_bind]
  dsimp only
  rw [if_neg hfirst, cstr_eq hword w.2 hlen]
  dsimp only
  by_cases hd : w = dashes
  · rw [if_pos hd, if_pos (congrArg Subtype.val hd)]
  · rw [if_neg hd, if_neg fun heq => hd (Subtype.ext heq)]

/-- A word goes into the record, and a part of the line stays as it is. -/
theorem Room.word {line : Set Nat} {g : List CString} {next : Nat}
    (hroom : Room line (w :: g) m bap r) (h : Holds m next (t.1 ++ [0]))
    (hline : bytes next (t.1.length + 1) ⊆ line) :
    ∃ m', bootstrapArgAdjust bap none (some w.1) m = .ok (m', 1) ∧
      Room line g m' bap (r.append [w]) ∧ Holds m' next (t.1 ++ [0]) ∧
      ∀ x, x ∉ bytes bap (r.append [w]).size → m' x = m x := by
  obtain ⟨m', hadjust, hroom', hframe⟩ := hroom.step
  have hrecord : ∀ x ∈ line, x ∉ bytes bap (r.append [w]).size := fun x hx hx' =>
    Set.disjoint_left.mp hroom'.apart (bytes_mono (size_append_le _ _) hx') hx
  refine ⟨m', hadjust, hroom', h.congr fun k hk => hframe _ (hrecord _ (hline ?_)), hframe⟩
  rw [List.length_append, List.length_singleton] at hk
  rw [mem_bytes]
  omega

/-- A call appends the words up to the next `--`, and leaves what is behind it for the next call. -/
theorem appendArgs_ok {line : Set Nat} {fuel : Nat} (h : Holds m a (t.1 ++ [0]))
    (hline : bytes a (t.1.length + 1) ⊆ line) (hlen : a + t.1.length < 2 ^ 64)
    (hfuel : t.1.length < fuel) (hroom : Room line (groupOf t.words 0) m bap r) :
    ∃ m' a' t', appendArgs bap fuel a m = .ok (m', a') ∧ Left m' a a' t t' ∧
      (∀ j, groupOf t'.words j = groupOf t.words (j + 1)) ∧
        Holds m' bap (r.append (groupOf t.words 0)).encode ∧
      ∀ x, x ∉ line → x ∉ bytes bap (r.append (groupOf t.words 0)).size → m' x = m x := by
  induction fuel generalizing m a t r with
  | zero => omega
  | succ fuel ih =>
    rcases words_cases t with ⟨hblank, hwords⟩ | ⟨bl, w, hbl, hw, hne, hcase⟩
    · have hnul : m (a + t.1.length) = 0 := (holds_append.mp h).2.1
      rw [appendArgs, findNextArg_blank h hblank (by omega), ok_bind]
      dsimp only
      rw [if_pos hnul]
      rw [hwords, groupOf_nil] at hroom ⊢
      refine ⟨m, _, emptyLine, rfl, ⟨⟨hnul, trivial⟩, by omega, rfl⟩, fun j => ?_,
        ?_, fun _ _ _ => rfl⟩
      · rw [groupOf_nil]
        exact groupOf_nil j
      · rw [append_nil]
        exact hroom.holds
    · obtain ⟨m1, next, t1, hfind, hleft, hshort, hword, hwords, hsame, -⟩ :=
        findNextArg_line true h hlen hne hbl hw hcase
      have hstop := hleft.stop
      have hle := hleft.le
      have hwlen : w.1.length ≤ t.1.length := by
        rcases hcase with ⟨ht, -⟩ | ⟨t', ht, -⟩ <;> rw [ht] <;>
          simp only [List.length_append] <;> omega
      have hroom1 : Room line (groupOf t.words 0) m1 bap r := hroom.congr fun x hx =>
        hsame x fun hx' => hx (hline hx')
      rw [appendArgs_round hfind hword hne (by omega)]
      by_cases hd : w = dashes
      · subst hd
        rw [if_pos rfl]
        rw [hwords, groupOf_dashes_zero] at hroom1 ⊢
        rw [append_nil]
        exact ⟨m1, next, t1, rfl, hleft, fun j => (groupOf_dashes_succ j).symm, hroom1.holds,
          fun x hx _ => hsame x fun hx' => hx (hline hx')⟩
      · rw [hwords, groupOf_word_zero hd] at hroom1 ⊢
        have hnextline : bytes next (t1.1.length + 1) ⊆ line :=
          fun x hx => hline (by rw [mem_bytes] at hx ⊢; omega)
        obtain ⟨m2, hadjust, hroom2, hholds2, hframe⟩ := hroom1.word hleft.holds hnextline
        obtain ⟨m', a', t', hrun, hleft', hgroups, hholds', hframe'⟩ :=
          ih hholds2 hnextline (by omega) (by omega) hroom2
        have hstop' := hleft'.stop
        have hle' := hleft'.le
        rw [if_neg hd, hadjust, ok_bind]
        dsimp only
        refine ⟨m', a', t', hrun, ⟨hleft'.holds, by omega, by omega⟩, fun j => ?_,
          ?_, fun x hx hx' => ?_⟩
        · rw [hgroups j, groupOf_word_succ hd]
        · rwa [append_cons]
        · rw [append_cons] at hx'
          rw [hframe' x hx hx', hframe x fun hmem => hx' (bytes_mono (size_append_le _ _) hmem),
            hsame x fun hmem => hx (hline hmem)]

/-- The low bytes of the load options, up to the first that is zero. -/
def loadOptions (m : Mem) (cmdline size : Nat) : CString :=
  ⟨(lowBytes m (size / 2) cmdline).takeWhile (· ≠ 0), fun h0 => by
    simpa using List.mem_takeWhile_imp h0⟩

/-! ### The calls -/

/-- `k` calls, each for a record with room for its group. Other code runs between them,
and leaves the line alone. -/
inductive TweakRun (tweak : Nat → Tweak → Startup Tweak) (line : Set Nat) (words : List CString)
    (m₀ : Mem) : Nat → Tweak → Prop
  | start : TweakRun tweak line words m₀ 0 ⟨m₀, none⟩
  | call {k bap : Nat} {s s' : Tweak} {r : Bootargs} : TweakRun tweak line words m₀ k s →
      Room line (groupOf words k) s.mem bap r → tweak bap s = .ok s' →
      TweakRun tweak line words m₀ (k + 1) s'
  | other {k : Nat} {s : Tweak} {m : Mem} : TweakRun tweak line words m₀ k s →
      (∀ x ∈ line, m x = s.mem x) → TweakRun tweak line words m₀ k { s with mem := m }

/-- The next call appends its group. -/
def Appends (tweak : Nat → Tweak → Startup Tweak) (line : Set Nat) (words : List CString)
    (m₀ : Mem) : Prop :=
  ∀ k s bap r, TweakRun tweak line words m₀ k s → Room line (groupOf words k) s.mem bap r →
    ∃ s', tweak bap s = .ok s' ∧ Holds s'.mem bap (r.append (groupOf words k)).encode ∧
      ∀ x, x ∉ line → x ∉ bytes bap (r.append (groupOf words k)).size → s'.mem x = s.mem x

/-- A line whose groups are those of `words` from the `k`-th on. -/
structure LineAt (line : Set Nat) (words : List CString) (k : Nat) (m : Mem) (a : Nat)
    (t : CString) : Prop where
  holds : Holds m a (t.1 ++ [0])
  inside : bytes a (t.1.length + 1) ⊆ line
  bound : a + t.1.length < 2 ^ 64
  groups : ∀ j, groupOf t.words j = groupOf words (k + j)

/-- The first call gets the line. -/
def Provides (first : Mem → Startup (Option (Mem × Nat))) (line : Set Nat) (words : List CString)
    (m₀ : Mem) : Prop :=
  ∀ m, (∀ x ∈ line, m x = m₀ x) → ∃ m' a t, first m = .ok (some (m', a)) ∧
    LineAt line words 0 m' a t ∧ ∀ x, x ∉ line → m' x = m x

variable {first : Mem → Startup (Option (Mem × Nat))} {line : Set Nat} {words : List CString}
  {m₀ : Mem} {k : Nat} {s : Tweak}

/-- Between calls: the line has not been asked for, or `next_arg` is where the next group starts. -/
def TweakInv (line : Set Nat) (words : List CString) (m₀ : Mem) (k : Nat) (s : Tweak) : Prop :=
  (k = 0 ∧ s.nextArg = none ∧ ∀ x ∈ line, s.mem x = m₀ x) ∨ ∃ a t, s.nextArg = some a ∧
    LineAt line words k s.mem a t

theorem TweakInv.takeCmdline (h : TweakInv line words m₀ k s)
    (hfirst : Provides first line words m₀) :
    ∃ m' a t, takeCmdline first s = .ok (some (m', a)) ∧ LineAt line words k m' a t ∧
      ∀ x, x ∉ line → m' x = s.mem x := by
  rcases h with ⟨rfl, hnone, hsame⟩ | ⟨a, t, hnext, hat⟩
  · obtain ⟨m', a, t, hrun, hat, hframe⟩ := hfirst s.mem hsame
    refine ⟨m', a, t, ?_, hat, hframe⟩
    rw [QnxStartup.takeCmdline, hnone]
    exact hrun
  · refine ⟨s.mem, a, t, ?_, hat, fun _ _ => rfl⟩
    rw [QnxStartup.takeCmdline, hnext]

theorem TweakInv.call (h : TweakInv line words m₀ k s) (hfirst : Provides first line words m₀)
    (hroom : Room line (groupOf words k) s.mem bap r) :
    ∃ s', tweakCmdline first bap s = .ok s' ∧ TweakInv line words m₀ (k + 1) s' ∧
      Holds s'.mem bap (r.append (groupOf words k)).encode ∧
      ∀ x, x ∉ line → x ∉ bytes bap (r.append (groupOf words k)).size → s'.mem x = s.mem x := by
  obtain ⟨m1, a, t, htake, ⟨hholds, hinside, hbound, hgroups⟩, hframe1⟩ := h.takeCmdline hfirst
  have hzero : groupOf t.words 0 = groupOf words k := hgroups 0
  have hroom1 : Room line (groupOf t.words 0) m1 bap r := hzero ▸ hroom.congr hframe1
  obtain ⟨m2, a', t', hrun, ⟨hholds', hle, hstop⟩, hgroups', hrecord, hframe2⟩ :=
    @appendArgs_ok m1 a bap t r line (2 ^ 64) hholds hinside hbound (by omega) hroom1
  rw [hzero] at hrecord hframe2
  refine ⟨⟨m2, some a'⟩, ?_, .inr ⟨a', t', rfl, hholds', fun x hx => hinside ?_, ?_, fun j => ?_⟩,
    hrecord, fun x hx hx' => ?_⟩
  · rw [tweakCmdline, htake, ok_bind]
    exact (congrArg (Except.bind · _) hrun).trans rfl
  · rw [mem_bytes] at hx ⊢
    omega
  · omega
  · rw [hgroups' j, hgroups (j + 1), Nat.add_right_comm, Nat.add_assoc]
  · exact (hframe2 x hx hx').trans (hframe1 x hx)

theorem TweakRun.inv (h : TweakRun (tweakCmdline first) line words m₀ k s)
    (hfirst : Provides first line words m₀) :
    TweakInv line words m₀ k s := by
  induction h with
  | start => exact .inl ⟨rfl, rfl, fun _ _ => rfl⟩
  | call _ hroom hrun ih =>
    obtain ⟨s', hrun', hinv, -⟩ := ih.call hfirst hroom
    exact Except.ok.inj (hrun'.symm.trans hrun) ▸ hinv
  | other _ hsame ih =>
    rcases ih with ⟨hk, hnone, hline⟩ | ⟨a, t, hnext, hholds, hinside, hbound, hgroups⟩
    · exact .inl ⟨hk, hnone, fun x hx => (hsame x hx).trans (hline x hx)⟩
    · refine .inr ⟨a, t, hnext, hholds.congr fun i hi => hsame _ (hinside ?_),
        hinside, hbound, hgroups⟩
      rw [List.length_append, List.length_singleton] at hi
      rw [mem_bytes]
      omega

theorem appends_of_provides (hfirst : Provides first line words m₀) :
    Appends (tweakCmdline first) line words m₀ := by
  intro k s bap r hrun hroom
  obtain ⟨s', hcall, -, hrecord, hframe⟩ := (hrun.inv hfirst).call hfirst hroom
  exact ⟨s', hcall, hrecord, hframe⟩

theorem fdt_provides {extra : List UInt8} {wsAlloc : Nat → Option Nat} {a : Nat}
    (halloc : wsAlloc (t.1 ++ 0 :: extra).length = some a)
    (hbound : a + (t.1 ++ 0 :: extra).length ≤ 2 ^ 64) :
    Provides (fdtFirst (some (t.1 ++ 0 :: extra)) wsAlloc)
      (bytes a (t.1 ++ 0 :: extra).length) t.words m₀ := by
  intro m _
  have hlen : (t.1 ++ 0 :: extra).length = t.1.length + (extra.length + 1) := by
    rw [List.length_append, List.length_cons]
  have hholds := holds_writeBytes m a (t.1 ++ 0 :: extra)
  refine ⟨writeBytes m a (t.1 ++ 0 :: extra), a, t, ?_,
    ⟨?_, bytes_mono (by omega), by omega, fun j => by rw [Nat.zero_add]⟩, fun x hx => ?_⟩
  · rw [fdtFirst, halloc]
  · exact (holds_append.mp ((congrArg (Holds _ a) (List.append_cons t.1 0 extra)).mp hholds)).1
  · exact writeBytes_of_not_mem hx

theorem exists_suffix (hcase : (t.1 = bl ++ w.1 ∧ t.words = [w]) ∨
    ∃ t' : CString, t.1 = bl ++ (w.1 ++ blank :: t'.1) ∧ t.words = w :: t'.words) : ∃ t2 : CString,
      t.1 = bl ++ t2.1 := by
  rcases hcase with ⟨ht, -⟩ | ⟨t', ht, -⟩
  · exact ⟨w, ht⟩
  · exact ⟨⟨_, fun h0 => t.2 (ht ▸ List.mem_append_right bl h0)⟩, ht⟩

theorem convert_loadOptions {cmdline size : Nat} (hstop : ∃ j < size / 2, m (cmdline + 2 * j) = 0)
    (hsame : ∀ x ∈ bytes cmdline size, m x = m₀ x) :
    ∃ c, efiConvertCommandLine cmdline size m = (c, some cmdline) ∧
      Holds c.mem cmdline ((loadOptions m₀ cmdline size).1 ++ [0]) ∧
      (loadOptions m₀ cmdline size).1.length < size ∧ ∀ x, x ∉ bytes cmdline size →
        c.mem x = m x := by
  obtain ⟨z, hz, hzero, hbefore⟩ := first_stop hstop
  have hconv := converted_of_stop hz hzero hbefore
  have hlow : lowBytes m (size / 2) cmdline = lowBytes m₀ (size / 2) cmdline :=
    lowBytes_congr fun k hk => hsame _ (mem_bytes.mpr (by omega))
  have htext : (loadOptions m₀ cmdline size).1 = (lowBytes m (size / 2) cmdline).takeWhile (· ≠
      0) := by rw [hlow]; rfl
  have hlen : (loadOptions m₀ cmdline size).1.length = z := by
    rw [htext, lowBytes_takeWhile hz hzero hbefore, List.length_map, List.length_range]
  refine ⟨_, Prod.ext rfl hconv.result, htext ▸ hconv.text, by omega, fun x hx => ?_⟩
  exact convert_unwritten fun hmem => hx (hconv.writes x hmem)

theorem efi_provides {cmdline size : Nat} (hstop : ∃ j < size / 2, m₀ (cmdline + 2 * j) = 0)
    (hbound : cmdline + size ≤ 2 ^ 64) :
    Provides (efiFirst cmdline size) (bytes cmdline size)
      (dropImageName (loadOptions m₀ cmdline size).words) m₀ := by
  intro m hsame
  have hstop' : ∃ j < size / 2, m (cmdline + 2 * j) = 0 := by
    obtain ⟨j, hj, hzero⟩ := hstop
    exact ⟨j, hj, (hsame _ (mem_bytes.mpr (by omega))).trans hzero⟩
  obtain ⟨c, hconv, hholds, hlen, hframe⟩ := convert_loadOptions hstop' hsame
  generalize loadOptions m₀ cmdline size = t at hholds hlen ⊢
  have hinside : ∀ {a} {t' : CString}, Left c.mem cmdline a t t' →
      bytes a (t'.1.length + 1) ⊆ bytes cmdline size := by
    intro a t' ⟨_, hle, hend⟩ x hx
    rw [mem_bytes] at hx ⊢
    omega
  rw [efiFirst, hconv]
  dsimp only
  rcases words_cases t with ⟨hblank, hwords⟩ | ⟨bl, w, hbl, hw, hne, hcase⟩
  · have hnul : c.mem (cmdline + t.1.length) = 0 := (holds_append.mp hholds).2.1
    have hleft : Left c.mem cmdline (cmdline + t.1.length) t emptyLine :=
      ⟨⟨hnul, trivial⟩, by omega, rfl⟩
    rw [findNextArg_blank hholds hblank (by omega), ok_bind]
    refine ⟨c.mem, cmdline + t.1.length, emptyLine, ?_,
      ⟨hleft.holds, hinside hleft, ?_, fun j => ?_⟩, hframe⟩
    · dsimp only
      rw [ite_self]
    · exact (hleft.stop.trans_lt (by omega))
    · rw [hwords, dropImageName, groupOf_nil]
      exact groupOf_nil j
  · obtain ⟨m', next, t', hfind, hleft, -, hword, hwords, -, hmem⟩ :=
      findNextArg_line false hholds (by omega) hne hbl hw hcase
    obtain rfl := hmem rfl
    have hstop := hleft.stop
    obtain ⟨b, l', hb⟩ := List.exists_cons_of_ne_nil hne
    have hfirst : c.mem (cmdline + bl.length) = b := by
      rw [hb] at hword
      exact hword.1
    rw [hfind, ok_bind]
    dsimp only
    by_cases hminus : c.mem (cmdline + bl.length) = minus
    · -- the first word is an option: the line is left as it is, without the blanks in front
      obtain ⟨t2, ht2⟩ := exists_suffix hcase
      have ht2words : t2.words = t.words :=
        words_eq_of_map (by rw [map_words, ht2, wordsOf_blanks hbl])
      have hlen2 : t.1.length = bl.length + t2.1.length := by rw [ht2, List.length_append]
      rw [ht2, List.append_assoc] at hholds
      have hleft2 : Left c.mem cmdline (cmdline + bl.length) t t2 :=
        ⟨(holds_append.mp hholds).2, by omega, by omega⟩
      rw [if_neg (not_not.mpr hminus)]
      refine ⟨c.mem, _, t2, rfl, ⟨hleft2.holds, hinside hleft2, by omega, fun j => ?_⟩, hframe⟩
      rw [ht2words, hwords, dropImageName, if_pos (by rw [hb, List.head?_cons, ← hfirst, hminus]),
        Nat.zero_add]
    · rw [if_pos hminus]
      refine ⟨c.mem, next, t', rfl, ⟨hleft.holds, hinside hleft, by omega, fun j => ?_⟩, hframe⟩
      have hhead : w.1.head? ≠ some minus := by
        rw [hb, List.head?_cons, ← hfirst]
        exact fun h => hminus (Option.some.inj h)
      rw [hwords, dropImageName, if_neg hhead, Nat.zero_add]

/-- Both variants hand out the groups of their line, one a call. -/
theorem tweak_cmdline_groups :
    (∀ (t : CString) (extra : List UInt8) (wsAlloc : Nat → Option Nat) (a : Nat) (m₀ : Mem),
      wsAlloc (t.1 ++ 0 :: extra).length = some a → a + (t.1 ++ 0 :: extra).length ≤ 2 ^ 64 →
      Appends (fdtTweakCmdline (some (t.1 ++ 0 :: extra)) wsAlloc)
        (bytes a (t.1 ++ 0 :: extra).length) t.words m₀) ∧
    ∀ (cmdline size : Nat) (m₀ : Mem), (∃ j < size / 2, m₀ (cmdline + 2 * j) = 0) →
      cmdline + size ≤ 2 ^ 64 →
      Appends (efiTweakCmdline cmdline size) (bytes cmdline size)
        (dropImageName (loadOptions m₀ cmdline size).words) m₀ :=
  ⟨fun _ _ _ _ _ halloc hbound => appends_of_provides (fdt_provides halloc hbound),
    fun _ _ _ hstop hbound => appends_of_provides (efi_provides hstop hbound)⟩

end

def twoGroups : CString := ⟨[0x61, 0x20, 0x2d, 0x2d, 0x20, 0x2d, 0x62], by decide⟩

def imageOptions : List UInt8 := [0x78, 0, 0x20, 0, 0x61, 0, 0, 0]

def tweakMem : Mem :=
  writeBytes (writeBytes (fun _ => 0) 0x90000000 smallBootargs.encode) 0x5000 imageOptions

theorem tweakMem_room {g : List CString} (hroom : (smallBootargs.append g).WellFormed) :
    Room (bytes 0x5000 8) g tweakMem 0x90000000 smallBootargs := by
  refine ⟨⟨by decide, by decide⟩, (holds_writeBytes _ _ _).writeBytes_apart (.inr (by decide)),
    ⟨by decide, by decide, by decide⟩, hroom, Set.disjoint_left.mpr fun x hx hx' => ?_⟩
  rw [mem_bytes] at hx hx'
  omega

theorem tweak_cmdline_groups_example :
    (∃ s', fdtTweakCmdline (some (twoGroups.1 ++ 0 :: [])) (fun _ => some 0x5000) 0x90000000
      ⟨tweakMem, none⟩ = .ok s' ∧
      Holds s'.mem 0x90000000 (smallBootargs.append [⟨[0x61], by decide⟩]).encode) ∧
    ∃ s', efiTweakCmdline 0x5000 8 0x90000000 ⟨tweakMem, none⟩ = .ok s' ∧
      Holds s'.mem 0x90000000 (smallBootargs.append [⟨[0x61], by decide⟩]).encode := by
  have hfits : (smallBootargs.append [⟨[0x61], by decide⟩]).WellFormed :=
    ⟨by decide, by decide, by decide⟩
  constructor
  · obtain ⟨s', hrun, hholds, -⟩ :=
      tweak_cmdline_groups.1 twoGroups [] (fun _ => some 0x5000) 0x5000 tweakMem rfl (by decide) 0 _
      0x90000000 smallBootargs .start (tweakMem_room hfits)
    exact ⟨s', hrun, hholds⟩
  · obtain ⟨s', hrun, hholds, -⟩ :=
      tweak_cmdline_groups.2 0x5000 8 tweakMem ⟨3, by decide, by decide⟩ (by decide) 0 _
      0x90000000 smallBootargs .start (tweakMem_room hfits)
    exact ⟨s', hrun, hholds⟩

end QnxStartup
