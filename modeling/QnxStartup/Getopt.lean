import Mathlib.Data.List.Infix
import QnxStartup.Machine

/-! `getopt.c`: the options of an argument vector, one letter at a time. -/

namespace QnxStartup

/-- A string of an argument vector, without its NUL. -/
abbrev CString := { chars : List UInt8 // 0 ∉ chars }

def minus : UInt8 := 0x2d

def colon : UInt8 := 0x3a

def question : UInt8 := 0x3f

/-- The static and global variables of `getopt.c`. A pointer into a string of `argv` is the index of
the string and an offset in it. -/
structure Getopt where
  optarg : Nat × Nat
  optind : Nat
  cp : Nat × Nat
  lastOptind : Nat
  optsStr : Option CString
  deriving DecidableEq

def loadArg (argv : List CString) (i : Nat) : Startup (Nat × Nat) :=
  if i < argv.length then .ok (i, 0) else .error .fault

/-- The character at `p`, which must not lie behind the NUL. -/
def loadChar (argv : List CString) (p : Nat × Nat) : Startup UInt8 :=
  match argv[p.1]? with
  | none => .error .fault
  | some e => if p.2 ≤ e.1.length then .ok (e.1.getD p.2 0) else .error .fault

/-- The loop over the option list: where it stands when it ends. -/
def findOpt (c : UInt8) : List UInt8 → List UInt8
  | [] => []
  | o :: opts => if o = colon then findOpt c opts else if c = o then o :: opts else findOpt c opts

/-- The part of `getopt` that starts a new element, and whether it ends the options. -/
def enterElement (argv : List CString) (s : Getopt) : Startup (Getopt × Bool) :=
  (loadArg argv s.optind).bind fun cp =>
    (loadChar argv cp).bind fun c =>
      let s := { s with cp := (cp.1, cp.2 + 1), lastOptind := s.optind }
      if c ≠ minus then .ok (s, true)
      else (loadChar argv s.cp).bind fun c => .ok (s, c = 0)

/-- The part of `getopt` behind the look-up of the letter at `cp`. -/
def takeOpt (argv : List CString) (s : Getopt) : List UInt8 → Startup (Getopt × UInt8)
  | [] => .ok (s, question)
  | opt :: opts =>
    let s := { s with cp := (s.cp.1, s.cp.2 + 1) }
    (loadChar argv s.cp).bind fun c =>
      if c ≠ 0 then
        if opts.head? = some colon then .ok ({ s with optarg := s.cp }, opt)
        else .ok ({ s with optind := s.optind - 1 }, opt)
      else if opts.head? = some colon then
        if s.optind < argv.length then
          (loadArg argv s.optind).bind fun p =>
            .ok ({ s with optarg := p, optind := s.optind + 1 }, opt)
        else .ok (s, question)
      else .ok (s, opt)

/-- The part of `getopt` that looks at the letter at `cp`; `none` is the result -1. -/
def getoptLetter (argv : List CString) (s : Getopt) : Startup (Getopt × Option UInt8) :=
  (loadChar argv s.cp).bind fun c =>
    if c = minus then .ok ({ s with optind := s.optind + 1 }, none)
    else
      match s.optsStr with
      | none => .error .fault
      | some opts =>
        (takeOpt argv { s with optarg := s.cp, optind := s.optind + 1 } (findOpt c opts.1)).bind
          fun (s, opt) =>
          .ok (s, some opt)

def getopt (argv : List CString) (opts : Option CString) (s : Getopt) :
    Startup (Getopt × Option UInt8) :=
  let s := { s with optsStr := opts.or s.optsStr }
  let s := if s.optind = 0 then { s with optind := 1, lastOptind := 0 } else s
  if s.optind ≥ argv.length then .ok (s, none)
  else if s.lastOptind ≠ s.optind then
    (enterElement argv s).bind fun (s, ended) => if ended then .ok (s, none)
      else getoptLetter argv s
  else getoptLetter argv s

structure OptEntry where
  opt : UInt8
  optarg : Nat × Nat
  optind : Nat
  deriving DecidableEq

/-- The calls up to the one that returns -1. -/
def getoptAll (argv : List CString) (opts : Option CString) :
    Nat → Getopt → Startup (Getopt × List OptEntry)
  | 0, _ => .error .noReturn
  | fuel + 1, s =>
    (getopt argv opts s).bind fun (s, r) =>
      match r with
      | none => .ok (s, [])
      | some opt =>
        (getoptAll argv opts fuel s).bind fun (s', l) => .ok (s', ⟨opt, s.optarg, s.optind⟩ :: l)

/-! ### The parse from left to right -/

/-- Whether a letter takes an argument; `none` for a letter that is no option. -/
def optKind (opts : List UInt8) (c : UInt8) : Option Bool :=
  match findOpt c opts with
  | [] => none
  | _ :: rest => some (rest.head? = some colon)

/-- The options from the element `i` on: the letters from offset `k` of that element,
when it has been entered, and the elements behind them. The second component is where
the parse ends. -/
def parseOpts (kind : UInt8 → Option Bool) (i k : Nat) :
    (letters : List UInt8) → (rest : List CString) → List OptEntry × Nat
  | [], [] => ([], i)
  | [], e :: rest =>
    match e.1 with
    | [] => ([], i)
    | [_] => ([], i)
    | c :: letter :: letters =>
      if c = minus then parseOpts kind i 1 (letter :: letters) rest else ([], i)
  | c :: cs, rest =>
    if c = minus then ([], i + 1)
    else
      match kind c with
      | none => (parseOpts kind (i + 1) 0 [] rest).map (⟨question, (i, k), i + 1⟩ :: ·) id
      | some false =>
        if cs = [] then (parseOpts kind (i + 1) 0 [] rest).map (⟨c, (i, k), i + 1⟩ :: ·) id
        else (parseOpts kind i (k + 1) cs rest).map (⟨c, (i, k), i⟩ :: ·) id
      | some true =>
        if cs ≠ [] then (parseOpts kind (i + 1) 0 [] rest).map (⟨c, (i, k + 1), i + 1⟩ :: ·) id
        else
          match rest with
          | [] => (parseOpts kind (i + 1) 0 [] []).map (⟨question, (i, k), i + 1⟩ :: ·) id
          | _ :: rest => (parseOpts kind (i + 2) 0 [] rest).map (⟨c, (i + 1, 0), i + 2⟩ :: ·) id
termination_by letters rest => (rest.length, letters.length)

section
variable {kind : UInt8 → Option Bool} {i k : Nat} {c : UInt8} {cs : List UInt8} {e : CString}
  {rest : List CString}

theorem parseOpts_nil : parseOpts kind i k [] [] = ([], i) := by rw [parseOpts.eq_def]

theorem parseOpts_operand (h : ∀ letter letters, e.1 ≠ minus :: letter :: letters) :
    parseOpts kind i k [] (e :: rest) = ([], i) := by
  rw [parseOpts.eq_def]
  dsimp only
  match he : e.1 with
  | [] => rfl
  | [_] => rfl
  | c :: letter :: letters => exact if_neg fun hc : c = minus => h letter letters (by rw [he, hc])

theorem parseOpts_enter (h : e.1 = minus :: c :: cs) :
    parseOpts kind i k [] (e :: rest) = parseOpts kind i 1 (c :: cs) rest := by
  conv_lhs => rw [parseOpts.eq_def]
  dsimp only
  rw [h]
  exact if_pos rfl

theorem parseOpts_minus : parseOpts kind i k (minus :: cs) rest = ([], i + 1) := by
  rw [parseOpts.eq_def]
  exact if_pos rfl

theorem parseOpts_unknown (hc : c ≠ minus) (hk : kind c = none) :
    parseOpts kind i k (c :: cs) rest = (parseOpts kind (i + 1) 0 [] rest).map
      (⟨question, (i, k), i + 1⟩ :: ·) id := by
  conv_lhs => rw [parseOpts.eq_def]
  dsimp only
  rw [if_neg hc, hk]

theorem parseOpts_last (hc : c ≠ minus) (hk : kind c = some false) :
    parseOpts kind i k [c] rest = (parseOpts kind (i + 1) 0 [] rest).map
      (⟨c, (i, k), i + 1⟩ :: ·) id := by
  conv_lhs => rw [parseOpts.eq_def]
  dsimp only
  rw [if_neg hc, hk]
  exact if_pos rfl

theorem parseOpts_letter (hc : c ≠ minus) (hk : kind c = some false) (hcs : cs ≠ []) :
    parseOpts kind i k (c :: cs) rest = (parseOpts kind i (k + 1) cs rest).map
      (⟨c, (i, k), i⟩ :: ·) id := by
  conv_lhs => rw [parseOpts.eq_def]
  dsimp only
  rw [if_neg hc, hk]
  exact if_neg hcs

theorem parseOpts_joined (hc : c ≠ minus) (hk : kind c = some true) (hcs : cs ≠ []) :
    parseOpts kind i k (c :: cs) rest = (parseOpts kind (i + 1) 0 [] rest).map
      (⟨c, (i, k + 1), i + 1⟩ :: ·) id := by
  conv_lhs => rw [parseOpts.eq_def]
  dsimp only
  rw [if_neg hc, hk]
  exact if_pos hcs

theorem parseOpts_separate (hc : c ≠ minus) (hk : kind c = some true) :
    parseOpts kind i k [c] (e :: rest) = (parseOpts kind (i + 2) 0 [] rest).map
      (⟨c, (i + 1, 0), i + 2⟩ :: ·) id := by
  conv_lhs => rw [parseOpts.eq_def]
  dsimp only
  rw [if_neg hc, hk]
  exact if_neg fun h => h rfl

theorem parseOpts_missing (hc : c ≠ minus) (hk : kind c = some true) :
    parseOpts kind i k [c] [] = (parseOpts kind (i + 1) 0 [] []).map
      (⟨question, (i, k), i + 1⟩ :: ·) id := by
  conv_lhs => rw [parseOpts.eq_def]
  dsimp only
  rw [if_neg hc, hk]
  exact if_neg fun h => h rfl

end

/-! ### The calls -/

/-- Between calls: `letters` are those left of the element `i`, from offset `k` on, or
the element has not been entered. -/
structure Getopt.At (argv : List CString) (s : Getopt) (i k : Nat) (letters : List UInt8)
    (rest : List CString) : Prop where
  optind : s.optind = i
  pos : 0 < i
  place : (letters = [] ∧ s.lastOptind ≠ i ∧ rest = argv.drop i) ∨
    (letters ≠ [] ∧ s.lastOptind = i ∧ s.cp = (i, k) ∧ rest = argv.drop (i + 1) ∧
      ∃ e, argv[i]? = some e ∧ e.1.drop k = letters)

def ahead (letters : List UInt8) (rest : List CString) : Nat :=
  letters.length + (rest.map (·.1.length)).sum

def Parses (argv : List CString) (kind : UInt8 → Option Bool) (i k : Nat) (letters : List UInt8)
    (rest : List CString) (s' : Getopt) : Option UInt8 → Prop
  | none => parseOpts kind i k letters rest = ([], s'.optind)
  | some opt => ∃ i' k' letters' rest', s'.At argv i' k' letters' rest' ∧
      ahead letters' rest' < ahead letters rest ∧
      parseOpts kind i k letters rest = (parseOpts kind i' k' letters' rest').map
        (⟨opt, s'.optarg, s'.optind⟩ :: ·) id

section
variable {argv : List CString} {i k : Nat} {e : CString} {c : UInt8} {cs : List UInt8}
  {str : CString} {s : Getopt}

theorem loadChar_eq (he : argv[i]? = some e) (hk : k ≤ e.1.length) :
    loadChar argv (i, k) = .ok ((e.1.drop k).headD 0) := by
  rw [loadChar, he]
  dsimp only
  rw [if_pos hk, List.getD_eq_getElem?_getD, List.headD_eq_head?_getD, List.head?_drop]

theorem loadArg_eq (h : i < argv.length) : loadArg argv i = .ok (i, 0) := if_pos h

theorem length_of_drop (hd : e.1.drop k = c :: cs) : e.1.length = k + (cs.length + 1) := by
  have hlen := congrArg List.length hd
  rw [List.length_drop, List.length_cons] at hlen
  omega

theorem drop_succ_of_drop (hd : e.1.drop k = c :: cs) : e.1.drop (k + 1) = cs := by
  rw [← List.drop_drop, hd]
  rfl

theorem ne_zero_of_drop (hd : e.1.drop k = c :: cs) : c ≠ 0 := by
  rintro rfl
  exact e.2 (List.mem_of_mem_drop (hd ▸ List.mem_cons_self))

theorem headD_eq_zero_iff (hd : e.1.drop k = cs) : cs.headD 0 = 0 ↔ cs = [] := by
  cases cs with
  | nil => simp
  | cons c cs => simp [ne_zero_of_drop hd]

theorem drop_eq_cons (he : argv[i]? = some e) : argv.drop i = e :: argv.drop (i + 1) := by
  obtain ⟨hi, rfl⟩ := List.getElem?_eq_some_iff.mp he
  exact List.drop_eq_getElem_cons hi

theorem findOpt_head {opts l : List UInt8} {o : UInt8} (h : findOpt c l = o :: opts) : o = c := by
  induction l with
  | nil => cases h
  | cons p l ih =>
    rw [findOpt] at h
    by_cases hp : p = colon
    · rw [if_pos hp] at h
      exact ih h
    · rw [if_neg hp] at h
      by_cases hcp : c = p
      · rw [if_pos hcp] at h
        exact (List.cons.inj h).1 ▸ hcp.symm
      · rw [if_neg hcp] at h
        exact ih h

theorem takeOpt_cons {opt : UInt8} {opts : List UInt8}
    (hload : loadChar argv (s.cp.1, s.cp.2 + 1) = .ok c) :
    takeOpt argv s (opt :: opts) =
      if c ≠ 0 then
        if opts.head? = some colon then
          .ok ({ s with cp := (s.cp.1, s.cp.2 + 1), optarg := (s.cp.1, s.cp.2 + 1) }, opt)
        else .ok ({ s with cp := (s.cp.1, s.cp.2 + 1), optind := s.optind - 1 }, opt)
      else if opts.head? = some colon then
        if s.optind < argv.length then
          .ok ({ s with cp := (s.cp.1, s.cp.2 + 1), optarg := (s.optind, 0),
                        optind := s.optind + 1 }, opt)
        else .ok ({ s with cp := (s.cp.1, s.cp.2 + 1) }, question)
      else .ok ({ s with cp := (s.cp.1, s.cp.2 + 1) }, opt) := by
  rw [takeOpt]
  dsimp only
  rw [hload, loadArg]
  change (if c ≠ 0 then _ else _) = _
  by_cases hlt : s.optind < argv.length
  · rw [if_pos hlt, if_pos hlt, if_pos hlt]
    rfl
  · rw [if_neg hlt, if_neg hlt]

theorem Getopt.At.nextArg (hind : s.optind = i + 1)
    (hlast : s.lastOptind = i) : s.At argv (i + 1) 0 [] (argv.drop (i + 1)) :=
  ⟨hind, Nat.succ_pos i, .inl ⟨rfl, by rw [hlast]; omega, rfl⟩⟩

theorem ahead_nil_lt (rest : List CString) : ahead [] rest < ahead (c :: cs) rest := by
  simp only [ahead, List.length_nil, List.length_cons]
  omega

variable {o : Option CString} {opts : List UInt8}

/-- The letter is the last one of its element. -/
theorem takeOpt_last (he : argv[i]? = some e) (hd : e.1.drop k = [c]) (hc : c ≠ minus)
    (hkind : optKind str.1 c = some (decide (opts.head? = some colon))) :
    ∃ s' opt, takeOpt argv ⟨(i, k), i + 1, (i, k), i, o⟩ (c :: opts) = .ok (s', opt) ∧
      s'.optsStr = o ∧ s'.optind ≤ argv.length ∧
      Parses argv (optKind str.1) i k [c] (argv.drop (i + 1)) s' (some opt) := by
  have hlt : i < argv.length := (List.getElem?_eq_some_iff.mp he).1
  have hload : loadChar argv (i, k + 1) = .ok 0 := by
    have hlen := length_of_drop hd
    rw [loadChar_eq he (by omega), drop_succ_of_drop hd]
    rfl
  rw [takeOpt_cons hload, if_neg (by simp)]
  by_cases hcolon : opts.head? = some colon
  · rw [if_pos hcolon]
    rw [decide_eq_true hcolon] at hkind
    by_cases hlt' : i + 1 < argv.length
    · rw [if_pos hlt']
      have hrest : argv.drop (i + 1) = argv[i + 1] :: argv.drop (i + 2) :=
        drop_eq_cons (List.getElem?_eq_getElem hlt')
      refine ⟨_, c, rfl, rfl, hlt', i + 2, 0, [], argv.drop (i + 2),
        ⟨rfl, by omega, .inl ⟨rfl, ?_, rfl⟩⟩, ?_, ?_⟩
      · dsimp only
        omega
      · rw [hrest]
        simp only [ahead, List.length_nil, List.length_cons, List.map_cons, List.sum_cons]
        omega
      · rw [hrest]
        exact parseOpts_separate hc hkind
    · rw [if_neg hlt']
      have hrest : argv.drop (i + 1) = [] := List.drop_eq_nil_of_le (by omega)
      refine ⟨_, question, rfl, rfl, hlt, _, _, _, _, .nextArg rfl rfl, ahead_nil_lt _, ?_⟩
      rw [hrest]
      exact parseOpts_missing hc hkind
  · rw [if_neg hcolon]
    rw [decide_eq_false hcolon] at hkind
    refine ⟨_, c, rfl, rfl, hlt, _, _, _, _, .nextArg rfl rfl, ahead_nil_lt _, ?_⟩
    exact parseOpts_last hc hkind

/-- Other letters stand behind it. -/
theorem takeOpt_inside (hi : 0 < i) (he : argv[i]? = some e) (hd : e.1.drop k = c :: cs)
    (hcs : cs ≠ []) (hc : c ≠ minus)
    (hkind : optKind str.1 c = some (decide (opts.head? = some colon))) :
    ∃ s' opt, takeOpt argv ⟨(i, k), i + 1, (i, k), i, o⟩ (c :: opts) = .ok (s', opt) ∧
      s'.optsStr = o ∧ s'.optind ≤ argv.length ∧
      Parses argv (optKind str.1) i k (c :: cs) (argv.drop (i + 1)) s' (some opt) := by
  have hlt : i < argv.length := (List.getElem?_eq_some_iff.mp he).1
  have hload : loadChar argv (i, k + 1) = .ok (cs.headD 0) := by
    have hlen := length_of_drop hd
    rw [loadChar_eq he (by omega), drop_succ_of_drop hd]
  rw [takeOpt_cons hload, if_pos fun h => hcs ((headD_eq_zero_iff (drop_succ_of_drop hd)).mp h)]
  by_cases hcolon : opts.head? = some colon
  · rw [if_pos hcolon]
    rw [decide_eq_true hcolon] at hkind
    refine ⟨_, c, rfl, rfl, hlt, _, _, _, _, .nextArg rfl rfl, ahead_nil_lt _, ?_⟩
    exact parseOpts_joined hc hkind hcs
  · rw [if_neg hcolon]
    rw [decide_eq_false hcolon] at hkind
    have hrest : ∃ e, argv[i]? = some e ∧ e.1.drop (k + 1) = cs := ⟨e, he, drop_succ_of_drop hd⟩
    refine ⟨_, c, rfl, rfl, hlt.le, i, k + 1, cs, _,
      ⟨rfl, hi, .inr ⟨hcs, rfl, rfl, rfl, hrest⟩⟩, ?_, ?_⟩
    · simp only [ahead, List.length_cons]
      omega
    · exact parseOpts_letter hc hkind hcs

theorem takeOpt_parses (hi : 0 < i) (he : argv[i]? = some e) (hd : e.1.drop k = c :: cs)
    (hc : c ≠ minus)
    (hs : s.cp = (i, k) ∧ s.optarg = (i, k) ∧ s.optind = i + 1 ∧ s.lastOptind = i) :
    ∃ s' opt, takeOpt argv s (findOpt c str.1) = .ok (s', opt) ∧ s'.optsStr = s.optsStr ∧
      s'.optind ≤ argv.length ∧
      Parses argv (optKind str.1) i k (c :: cs) (argv.drop (i + 1)) s' (some opt) := by
  obtain ⟨optarg, optind, cp, lastOptind, optsStr⟩ := s
  dsimp only at hs
  obtain ⟨rfl, rfl, rfl, rfl⟩ := hs
  have hlt := (List.getElem?_eq_some_iff.mp he).1
  cases hfind : findOpt c str.1 with
  | nil =>
    have hkind : optKind str.1 c = none := by rw [optKind, hfind]
    refine ⟨_, question, rfl, rfl, hlt, _, _, _, _, .nextArg rfl rfl, ahead_nil_lt _, ?_⟩
    exact parseOpts_unknown hc hkind
  | cons opt opts =>
    obtain rfl : opt = c := findOpt_head hfind
    have hkind : optKind str.1 opt = some (decide (opts.head? = some colon)) := by
      rw [optKind, hfind]
    by_cases hcs : cs = []
    · subst hcs
      exact takeOpt_last he hd hc hkind
    · exact takeOpt_inside hi he hd hcs hc hkind

theorem getoptLetter_parses (hi : 0 < i) (he : argv[i]? = some e) (hd : e.1.drop k = c :: cs)
    (hstr : s.optsStr = some str) (hs : s.cp = (i, k) ∧ s.optind = i ∧ s.lastOptind = i) :
    ∃ s' r, getoptLetter argv s = .ok (s', r) ∧ s'.optsStr = some str ∧ s'.optind ≤ argv.length ∧
      Parses argv (optKind str.1) i k (c :: cs) (argv.drop (i + 1)) s' r := by
  obtain ⟨hcp, hind, hlast⟩ := hs
  have hlt : i < argv.length := (List.getElem?_eq_some_iff.mp he).1
  have hlen := length_of_drop hd
  have hload : loadChar argv s.cp = .ok c := by
    rw [hcp, loadChar_eq he (by omega), hd]
    rfl
  rw [getoptLetter, hload, ok_bind]
  by_cases hc : c = minus
  · subst hc
    rw [if_pos rfl]
    refine ⟨_, none, rfl, hstr, ?_, ?_⟩
    · dsimp only
      omega
    · exact parseOpts_minus.trans (by rw [hind])
  · obtain ⟨s', opt, htake, hstr', hle, hparses⟩ := @takeOpt_parses argv i k e c cs str
      { s with optarg := s.cp, optind := s.optind + 1 } hi he hd hc ⟨hcp, hcp, by rw [hind], hlast⟩
    refine ⟨s', some opt, ?_, hstr'.trans hstr, hle, hparses⟩
    rw [if_neg hc]
    simp only [hstr]
    rw [hstr] at htake
    rw [htake, ok_bind]

theorem enterElement_ok (he : argv[i]? = some e) (hind : s.optind = i) :
    ∃ s' ended, enterElement argv s = .ok (s', ended) ∧ s'.optind = i ∧ s'.optsStr = s.optsStr ∧
      ((ended = true ∧ ∀ letter letters, e.1 ≠ minus :: letter :: letters) ∨
        ended = false ∧ s'.cp = (i, 1) ∧ s'.lastOptind = i ∧
          ∃ letter letters, e.1 = minus :: letter :: letters) := by
  have hlt : i < argv.length := (List.getElem?_eq_some_iff.mp he).1
  have hfirst : loadChar argv (i, 0) = .ok (e.1.headD 0) := loadChar_eq he (Nat.zero_le _)
  rw [enterElement, hind, loadArg_eq hlt, ok_bind, hfirst, ok_bind]
  by_cases hc : e.1.headD 0 = minus
  · obtain ⟨letters, hl⟩ : ∃ letters, e.1 = minus :: letters := by
      cases hl : e.1 with
      | nil =>
        rw [hl] at hc
        cases hc
      | cons c letters =>
        rw [hl] at hc
        exact ⟨letters, congrArg (· :: letters) hc⟩
    have hsecond : loadChar argv (i, 1) = .ok (letters.headD 0) := by
      rw [loadChar_eq he (by rw [hl]; simp), hl]
      rfl
    dsimp only
    rw [if_neg (not_not.mpr hc), hsecond, ok_bind]
    refine ⟨_, _, rfl, rfl, rfl, ?_⟩
    cases letters with
    | nil => exact .inl ⟨rfl, fun letter letters hne => by rw [hl] at hne; cases hne⟩
    | cons letter letters =>
        have hne : letter ≠ 0 := by
          rintro rfl
          exact e.2 (hl ▸ .tail _ (.head _))
        exact .inr ⟨decide_eq_false hne, rfl, rfl, letter, letters, hl⟩
  · dsimp only
    rw [if_pos hc]
    refine ⟨_, true, rfl, rfl, rfl, .inl ⟨rfl, fun letter letters hne => hc ?_⟩⟩
    rw [hne]
    rfl

theorem getopt_parses {letters : List UInt8} {rest : List CString} {opts : Option CString}
    (h : s.At argv i k letters rest) (hle : i ≤ max argv.length 1)
    (hopts : opts.or s.optsStr = some str) :
    ∃ s' r, getopt argv opts s = .ok (s', r) ∧ s'.optsStr = some str ∧
      s'.optind ≤ max argv.length 1 ∧
      Parses argv (optKind str.1) i k letters rest s' r := by
  obtain ⟨hind, hi, hplace⟩ := h
  have hne : s.optind ≠ 0 := by omega
  rw [getopt]
  dsimp only
  rw [if_neg hne]
  by_cases hend : s.optind ≥ argv.length
  · rw [if_pos hend]
    refine ⟨_, none, rfl, hopts, hind ▸ hle, ?_⟩
    rcases hplace with ⟨rfl, -, rfl⟩ | ⟨-, -, -, -, e, he, -⟩
    · rw [List.drop_eq_nil_of_le (hind ▸ hend)]
      exact parseOpts_nil.trans (by rw [hind])
    · have := (List.getElem?_eq_some_iff.mp he).1
      omega
  rw [if_neg hend]
  rcases hplace with ⟨rfl, hlast, rfl⟩ | ⟨hletters, hlast, hcp, rfl, e, he, hd⟩
  · dsimp only
    rw [if_pos (hind ▸ hlast)]
    have he : argv[i]? = some argv[i] := List.getElem?_eq_getElem (by omega)
    obtain ⟨s1, ended, henter, hind1, hstr1, hcases⟩ :=
      enterElement_ok (s := { s with optsStr := opts.or s.optsStr }) he hind
    rw [henter, drop_eq_cons he]
    rcases hcases with ⟨rfl, hoperand⟩ | ⟨rfl, hcp1, hlast1, letter, letters, hl⟩
    · refine ⟨s1, none, rfl, hstr1.trans hopts, hind1 ▸ hle, ?_⟩
      exact (parseOpts_operand hoperand).trans (by rw [hind1])
    · have hd : argv[i].1.drop 1 = letter :: letters := by rw [hl]; rfl
      obtain ⟨s', r, hrun, hstr', hle', hparses⟩ := getoptLetter_parses hi he hd (hstr1.trans hopts)
        ⟨hcp1, hind1, hlast1⟩
      refine ⟨s', r, hrun, hstr', hle'.trans (le_max_left _ _), ?_⟩
      have henter := @parseOpts_enter (optKind str.1) i k letter letters argv[i]
        (argv.drop (i + 1)) hl
      cases r with
      | none => exact henter.trans hparses
      | some opt =>
        obtain ⟨i', k', letters', rest', hat, hfewer, heq⟩ := hparses
        refine ⟨i', k', letters', rest', hat, hfewer.trans ?_, henter.trans heq⟩
        simp only [ahead, List.length_nil, List.map_cons, List.sum_cons, hl, List.length_cons]
        omega
  · dsimp only
    rw [if_neg (by rw [hlast, hind]; simp)]
    obtain ⟨c, cs, rfl⟩ := List.exists_cons_of_ne_nil hletters
    obtain ⟨s', r, hrun, hstr', hle', hparses⟩ :=
      getoptLetter_parses (s := { s with optsStr := opts.or s.optsStr }) hi he hd hopts
        ⟨hcp, hind, hlast⟩
    exact ⟨s', r, hrun, hstr', hle'.trans (le_max_left _ _), hparses⟩

theorem getoptAll_parses {letters : List UInt8} {rest : List CString} {opts : Option CString}
    {fuel : Nat} (h : s.At argv i k letters rest) (hle : i ≤ max argv.length 1)
    (hopts : opts.or s.optsStr = some str) (hfuel : ahead letters rest < fuel) :
    ∃ s' l, getoptAll argv opts fuel s = .ok (s', l) ∧ s'.optsStr = some str ∧
      s'.optind ≤ max argv.length 1 ∧
      (l, s'.optind) = parseOpts (optKind str.1) i k letters rest ∧
        ∀ e ∈ l, e.optind ≤ max argv.length 1 := by
  induction fuel generalizing s i k letters rest with
  | zero => omega
  | succ fuel ih =>
    obtain ⟨s1, r, hrun, hstr, hle1, hparses⟩ := getopt_parses h hle hopts
    rw [getoptAll, hrun, ok_bind]
    cases r with
    | none => exact ⟨s1, [], rfl, hstr, hle1, hparses.symm, by simp⟩
    | some opt =>
      obtain ⟨i', k', letters', rest', hat, hfewer, heq⟩ := hparses
      have hopts1 : opts.or s1.optsStr = some str := by
        rw [hstr]
        cases opts with
        | none => rfl
        | some o => exact hopts
      obtain ⟨s', l, hall, hstr', hle', hl, hind⟩ := ih hat (hat.optind ▸ hle1) hopts1 (by omega)
      dsimp only
      rw [hall, ok_bind]
      refine ⟨s', _, rfl, hstr', hle', ?_, ?_⟩
      · rw [heq, ← hl]
        rfl
      · exact List.forall_mem_cons.mpr ⟨hle1, hind⟩

theorem getopt_reset {opts : Option CString} (h : s.optind = 0) :
    getopt argv opts s = getopt argv opts { s with optind := 1, lastOptind := 0 } := by
  rw [getopt, getopt]
  dsimp only
  rw [if_pos h, if_neg Nat.one_ne_zero]

theorem getoptAll_reset {opts : Option CString} {fuel : Nat} (h : s.optind = 0) :
    getoptAll argv opts fuel s =
      getoptAll argv opts fuel { s with optind := 1, lastOptind := 0 } := by
  cases fuel with
  | zero => rfl
  | succ fuel => rw [getoptAll, getoptAll, getopt_reset h]

theorem getoptAll_start {opts : Option CString} {fuel : Nat} (h : s.optind = 0)
    (hopts : opts.or s.optsStr = some str) (hfuel : ahead [] (argv.drop 1) < fuel) :
    ∃ s' l, getoptAll argv opts fuel s = .ok (s', l) ∧ s'.optsStr = some str ∧
      s'.optind ≤ max argv.length 1 ∧
      (l, s'.optind) = parseOpts (optKind str.1) 1 0 [] (argv.drop 1) ∧
        ∀ e ∈ l, e.optind ≤ max argv.length 1 := by
  rw [getoptAll_reset h]
  have hat : Getopt.At argv { s with optind := 1, lastOptind := 0 } 1 0 [] (argv.drop 1) :=
    ⟨rfl, Nat.one_pos, .inl ⟨rfl, Nat.zero_ne_one, rfl⟩⟩
  exact getoptAll_parses hat (le_max_right _ _) hopts hfuel

end

/-- Scanning from the start gives the parse from left to right, and so does scanning again. -/
theorem getopt_enumerates {argv : List CString} {opts : Option CString} {str : CString} {s : Getopt}
    (h : s.optind = 0) (hopts : opts.or s.optsStr = some str) :
    ∃ fuel s' l, getoptAll argv opts fuel s = .ok (s', l) ∧
      (l, s'.optind) = parseOpts (optKind str.1) 1 0 [] (argv.drop 1) ∧
      (∀ e ∈ l, e.optind ≤ max argv.length 1) ∧ s'.optind ≤ max argv.length 1 ∧
      ∃ s'', getoptAll argv none fuel { s' with optind := 0 } = .ok (s'', l) := by
  obtain ⟨s', l, hrun, hstr, hle, hl, hind⟩ := getoptAll_start h hopts (Nat.lt_succ_self _)
  obtain ⟨s'', l', hrun', -, -, hl', -⟩ : ∃ s'' l',
      getoptAll argv none (ahead [] (argv.drop 1) + 1) { s' with optind := 0 } =
      .ok (s'', l') ∧ s''.optsStr = some str ∧ s''.optind ≤ max argv.length 1 ∧
      (l', s''.optind) = parseOpts (optKind str.1) 1 0 [] (argv.drop 1) ∧
      ∀ e ∈ l', e.optind ≤ max argv.length 1 :=
    getoptAll_start rfl hstr (Nat.lt_succ_self _)
  have hsame : l' = l := (Prod.mk.inj (hl'.trans hl.symm)).1
  exact ⟨_, s', l, hrun, hl, hind, hle, s'', hsame ▸ hrun'⟩

def sampleArgv : List CString :=
  [⟨[0x70], by decide⟩, ⟨[0x2d, 0x61, 0x62], by decide⟩, ⟨[0x78], by decide⟩, ⟨[0x79], by decide⟩]

theorem getopt_enumerates_example :
    ∃ fuel s' l, getoptAll sampleArgv (some ⟨[0x61, 0x62, 0x3a], by decide⟩) fuel ⟨(0, 0), 0,
      (0, 0), 0, none⟩ = .ok (s', l) ∧
      (l, s'.optind) = ([⟨0x61, (1, 1), 1⟩, ⟨0x62, (2, 0), 3⟩], 3) := by
  have hopts : (some (⟨[0x61, 0x62, 0x3a], by decide⟩ : CString)).or none =
      some ⟨[0x61, 0x62, 0x3a], by decide⟩ := rfl
  obtain ⟨fuel, s', l, hrun, hl, -⟩ := @getopt_enumerates sampleArgv _ _ ⟨(0, 0), 0,
    (0, 0), 0, none⟩ rfl hopts
  refine ⟨fuel, s', l, hrun, hl.trans ?_⟩
  simp [sampleArgv, parseOpts, optKind, findOpt, minus, colon]

/-- The option list taken at its word: every character of it is a letter, and any
occurrence of a letter before a colon gives it an argument. -/
def listedKind (opts : List UInt8) (c : UInt8) : Option Bool :=
  if c ∈ opts then some (decide ([c, colon] <:+: opts)) else none

/-- The colon is no option, and of a letter that is listed twice the first place counts. -/
theorem getopt_colon_and_first :
    ∃ s' l, getoptAll [⟨[0x70], by decide⟩, ⟨[0x2d, 0x3a], by decide⟩,
      ⟨[0x2d, 0x61, 0x62], by decide⟩]
        (some ⟨[0x61, 0x61, 0x3a], by decide⟩) 4 ⟨(0, 0), 0, (0, 0), 0, none⟩ = .ok (s', l) ∧
      l = [⟨question, (1, 1), 2⟩, ⟨0x61, (2, 1), 2⟩, ⟨question, (2, 2), 3⟩] ∧
      (l, s'.optind) ≠ parseOpts (listedKind [0x61, 0x61, 0x3a]) 1 0 []
        [⟨[0x2d, 0x3a], by decide⟩, ⟨[0x2d, 0x61, 0x62], by decide⟩] := by
  refine ⟨_, _, eq_ok_pair_resultOr (⟨(0, 0), 0, (0, 0), 0, none⟩, []) (by decide +kernel),
    by decide +kernel, ?_⟩
  have hparse : parseOpts (listedKind [0x61, 0x61, 0x3a]) 1 0 [] [⟨[0x2d, 0x3a], by decide⟩,
      ⟨[0x2d, 0x61, 0x62], by decide⟩] = ([⟨colon, (1, 1), 2⟩, ⟨0x61, (2, 2), 3⟩], 3) := by
    have hcolon : listedKind [0x61, 0x61, 0x3a] colon = some false := by decide +kernel
    have ha : listedKind [0x61, 0x61, 0x3a] 0x61 = some true := by decide +kernel
    rw [parseOpts_enter rfl]
    change parseOpts _ 1 1 [colon] _ = _
    rw [parseOpts_last (by decide) hcolon, parseOpts_enter rfl,
      parseOpts_joined (by decide) ha (by decide), parseOpts_nil]
    rfl
  rw [hparse]
  decide +kernel

end QnxStartup
