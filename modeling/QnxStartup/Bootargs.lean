import QnxStartup.Bytes
import QnxStartup.Getopt

/-! `bootstrap_cmdline.c`: the arguments and the environment of a bootstrap program, edited in their
record. -/

namespace QnxStartup

def offsetofArgs : Nat := 8

/-- A count, an `int8_t`, as an `unsigned`. -/
def countOf (b : UInt8) : Nat := if b.toNat < 2 ^ 7 then b.toNat else 2 ^ 32 - 2 ^ 8 + b.toNat

/-- The loop over `start`. -/
def passStrings (m : Mem) : Nat → Nat → Startup Nat
  | 0, p => .ok p
  | start + 1, p =>
    match cstr m p with
    | none => .error .fault
    | some s => passStrings m start (p + (s.length + 1))

/-- The loop over `num`: where it ends, and `sub_len` if it ends at the string `old`. -/
def findOld (m : Mem) (old : Option (List UInt8)) : Nat → Nat → Startup (Nat × Option Nat)
  | 0, p => .ok (p, none)
  | num + 1, p =>
    match cstr m p with
    | none => .error .fault
    | some s =>
      if old = some s then .ok (p, some (s.length + 1)) else findOld m old num (p + (s.length + 1))

def adjustCount (old new : Option (List UInt8)) (count : UInt8) : UInt8 :=
  match new with
  | none => count - 1
  | some _ => if old = none then count + 1 else count

/-- The part of `do_adjust` from `do_operation` on. `old` and `new` lie outside the record. -/
def doOperation (bap : Nat) (old new : Option (List UInt8)) (p subLen countp : Nat)
    (m : Mem) : Mem :=
  let m := writeBytes m countp [adjustCount old new (m countp)]
  let addLen := (new.map (·.length + 1)).getD 0
  let totalLen := read16 m bap
  let src := sub64 (p + subLen) addLen
  let m := memmove m p src (sub64 (bap + totalLen) src)
  let m :=
    match new with
    | none => m
    | some s => writeBytes m p (s ++ [0])
  write16 m bap (sub32 (totalLen + addLen) subLen)

def doAdjust (bap : Nat) (old new : Option (List UInt8)) (start countp : Nat)
    (m : Mem) : Startup (Mem × Nat) :=
  (passStrings m start (bap + offsetofArgs)).bind fun p =>
    (findOld m old (countOf (m countp)) p).bind fun (p, found) =>
      if old ≠ none ∧ found = none then .ok (m, 0)
      else .ok (doOperation bap old new p (found.getD 0) countp m, 1)

def bootstrapArgAdjust (bap : Nat) (old new : Option (List UInt8))
    (m : Mem) : Startup (Mem × Nat) :=
  doAdjust bap old new 0 (bap + 2) m

def bootstrapEnvAdjust (bap : Nat) (old new : Option (List UInt8))
    (m : Mem) : Startup (Mem × Nat) :=
  doAdjust bap old new (countOf (m (bap + 2))) (bap + 3) m

/-! ### Records -/

def encodeStrings (l : List CString) : List UInt8 := l.flatMap fun s => s.1 ++ [0]

structure Bootargs where
  argv : List CString
  envv : List CString
  shdrAddr : Nat
  trailing : List UInt8

def Bootargs.args (b : Bootargs) : List UInt8 :=
  encodeStrings b.argv ++ (encodeStrings b.envv ++ b.trailing)

def Bootargs.size (b : Bootargs) : Nat := offsetofArgs + b.args.length

def Bootargs.encode (b : Bootargs) : List UInt8 :=
  le16 b.size ++ ([UInt8.ofNat b.argv.length, UInt8.ofNat b.envv.length] ++
    (le32 b.shdrAddr ++ b.args))

structure Bootargs.WellFormed (b : Bootargs) : Prop where
  argc : b.argv.length < 2 ^ 7
  envc : b.envv.length < 2 ^ 7
  size : b.size < 2 ^ 16

/-- What a call asks for; one of the two strings is given. -/
inductive Edit where
  | append (new : CString)
  | replace (old new : CString)
  | delete (old : CString)

def Edit.old : Edit → Option CString
  | append _ => none
  | replace old _ => some old
  | delete old => some old

def Edit.new : Edit → Option CString
  | append new => some new
  | replace _ new => some new
  | delete _ => none

/-- `none` when the string that is to go is not there. -/
def Edit.apply : Edit → List CString → Option (List CString)
  | append new, l => some (l ++ [new])
  | replace old new, l => if old ∈ l then some (l.replace old new) else none
  | delete old, l => if old ∈ l then some (l.erase old) else none

/-- A call of `bootstrap_env_adjust` or `bootstrap_arg_adjust`. -/
structure AdjustCall where
  env : Bool
  edit : Edit

def Bootargs.adjust (b : Bootargs) (c : AdjustCall) : Option Bootargs :=
  if c.env then (c.edit.apply b.envv).map ({ b with envv := · })
    else (c.edit.apply b.argv).map ({ b with argv := · })

def bootstrapAdjust (bap : Nat) (c : AdjustCall) (m : Mem) : Startup (Mem × Nat) :=
  if c.env then bootstrapEnvAdjust bap (c.edit.old.map (·.1)) (c.edit.new.map (·.1)) m
  else bootstrapArgAdjust bap (c.edit.old.map (·.1)) (c.edit.new.map (·.1)) m

def bootstrapAdjusts (bap : Nat) : List AdjustCall → Mem → Startup (List (Mem × Nat))
  | [], _ => .ok []
  | c :: cs, m => (bootstrapAdjust bap c m).bind fun r =>
    (bootstrapAdjusts bap cs r.1).bind fun rs => .ok (r :: rs)

/-- The records on the way fit their counts and their size. -/
def AdjustsFit : List AdjustCall → Bootargs → Prop
  | [], _ => True
  | c :: cs, b => ((b.adjust c).getD b).WellFormed ∧ AdjustsFit cs ((b.adjust c).getD b)

/-- The results are those of the edits of the record: where the string that is to go is
not there, the call returns 0 and changes no byte. -/
def AdjustsAs (bap : Nat) : List AdjustCall → Bootargs → Mem → List (Mem × Nat) → Prop
  | [], _, _, rs => rs = []
  | c :: cs, b, m, rs => ∃ m' r rest, rs = (m', r) :: rest ∧
    match b.adjust c with
    | none => r = 0 ∧ m' = m ∧ AdjustsAs bap cs b m' rest
    | some b' => r = 1 ∧ Holds m' bap b'.encode ∧ (∀ x, x ∉ bytes bap b'.size → m' x = m x) ∧
        AdjustsAs bap cs b' m' rest

/-- The 64 KiB in front of the record and behind its start are addresses. -/
structure Addressable (bap : Nat) : Prop where
  lo : 2 ^ 16 ≤ bap
  hi : bap + 2 ^ 16 ≤ 2 ^ 64

section
variable {m : Mem} {bap p : Nat} {l l' pre post before : List CString} {s : CString}
  {rest : List UInt8} {e : Edit}

theorem encodeStrings_cons (s : CString) (l : List CString) :
    encodeStrings (s :: l) = s.1 ++ (0 :: encodeStrings l) := by
  rw [encodeStrings, List.flatMap_cons, List.append_assoc]
  rfl

theorem encodeStrings_append (l l' : List CString) :
    encodeStrings (l ++ l') = encodeStrings l ++ encodeStrings l' :=
  List.flatMap_append

theorem cstr_encodeStrings (h : Holds m p (encodeStrings (s :: l) ++ rest))
    (hlen : (encodeStrings (s :: l)).length < 2 ^ 64) :
    cstr m p = some s.1 ∧ Holds m (p + (s.1.length + 1)) (encodeStrings l ++ rest) ∧
      (encodeStrings l).length < 2 ^ 64 := by
  rw [encodeStrings_cons] at h hlen
  rw [List.length_append, List.length_cons] at hlen
  rw [List.append_assoc, List.cons_append, List.append_cons] at h
  have hsplit := holds_append.mp h
  rw [List.length_append, List.length_singleton] at hsplit
  exact ⟨cstr_eq hsplit.1 s.2 (by omega), hsplit.2, by omega⟩

theorem passStrings_ok (h : Holds m p (encodeStrings l ++ rest))
    (hlen : (encodeStrings l).length < 2 ^ 64) :
    passStrings m l.length p = .ok (p + (encodeStrings l).length) := by
  induction l generalizing p with
  | nil => rfl
  | cons s l ih =>
    obtain ⟨hs, htail, hlt⟩ := cstr_encodeStrings h hlen
    rw [List.length_cons, passStrings, hs]
    dsimp only
    rw [ih htail hlt, encodeStrings_cons, List.length_append, List.length_cons]
    congr 1
    omega

theorem findOld_pass {old : Option (List UInt8)} (n : Nat) (h : Holds m p (encodeStrings l ++ rest))
    (hlen : (encodeStrings l).length < 2 ^ 64) (hne : ∀ s ∈ l, old ≠ some s.1) :
    findOld m old (l.length + n) p = findOld m old n (p + (encodeStrings l).length) := by
  induction l generalizing p with
  | nil => rw [List.length_nil, Nat.zero_add]; rfl
  | cons s l ih =>
    obtain ⟨hs, htail, hlt⟩ := cstr_encodeStrings h hlen
    obtain ⟨hs', hl⟩ := List.forall_mem_cons.mp hne
    rw [List.length_cons, Nat.add_right_comm, findOld, hs]
    dsimp only
    rw [if_neg hs', ih htail hlt hl, encodeStrings_cons, List.length_append, List.length_cons]
    congr 1
    omega

theorem findOld_none (h : Holds m p (encodeStrings l ++ rest))
    (hlen : (encodeStrings l).length < 2 ^ 64) {old : Option (List UInt8)}
    (hne : ∀ s ∈ l, old ≠ some s.1) :
    findOld m old l.length p = .ok (p + (encodeStrings l).length, none) := by
  rw [← Nat.add_zero l.length, findOld_pass 0 h hlen hne]
  rfl

theorem findOld_some (h : Holds m p (encodeStrings (pre ++ s :: post) ++ rest))
    (hlen : (encodeStrings (pre ++ s :: post)).length < 2 ^ 64) (hne : s ∉ pre) :
    findOld m (some s.1) (pre ++ s :: post).length p = .ok (p + (encodeStrings pre).length,
      some (s.1.length + 1)) := by
  have hpass : ∀ s' ∈ pre, some s.1 ≠ some s'.1 := by
    intro s' hs' heq
    obtain rfl : s = s' := Subtype.ext (Option.some.inj heq)
    exact hne hs'
  rw [encodeStrings_append] at h hlen
  rw [List.length_append] at hlen
  rw [List.append_assoc] at h
  rw [List.length_append, List.length_cons, findOld_pass _ h (by omega) hpass, findOld,
    (cstr_encodeStrings (holds_append.mp h).2 (by omega)).1]
  exact if_pos rfl

/-- An edit takes out at most one string and puts in at most one at the same place. -/
theorem Edit.apply_eq_some (h : e.apply l = some l') :
    ∃ pre post, l = pre ++ (e.old.toList ++ post) ∧
    l' = pre ++ (e.new.toList ++ post) ∧ (∀ s ∈ pre, e.old ≠ some s) ∧
      (e.old = none → post = []) := by
  cases e with
  | append new =>
    obtain rfl := Option.some.inj h
    exact ⟨l, [], by simp [old], by simp [Edit.new], nofun, fun _ => rfl⟩
  | replace old new =>
    by_cases hmem : old ∈ l
    · obtain ⟨pre, post, hnot, rfl, -⟩ := List.exists_erase_eq hmem
      obtain rfl := Option.some.inj ((if_pos hmem).symm.trans h)
      refine ⟨pre, post, rfl, ?_, ?_, nofun⟩
      · rw [List.replace_append_right hnot, List.replace_cons_self]
        rfl
      · rintro s hs ⟨⟩
        exact hnot hs
    · cases (if_neg hmem).symm.trans h
  | delete old =>
    by_cases hmem : old ∈ l
    · obtain ⟨pre, post, hnot, rfl, herase⟩ := List.exists_erase_eq hmem
      obtain rfl := Option.some.inj ((if_pos hmem).symm.trans h)
      refine ⟨pre, post, rfl, herase, ?_, nofun⟩
      rintro s hs ⟨⟩
      exact hnot hs
    · cases (if_neg hmem).symm.trans h

theorem Edit.apply_eq_none (h : e.apply l = none) : ∃ old, e.old = some old ∧ old ∉ l := by
  cases e with
  | append new => cases h
  | replace old new =>
    refine ⟨old, rfl, fun hmem => ?_⟩
    cases (if_pos hmem).symm.trans h
  | delete old =>
    refine ⟨old, rfl, fun hmem => ?_⟩
    cases (if_pos hmem).symm.trans h

theorem Edit.adjustCount (h : e.apply l = some l') :
    adjustCount (e.old.map (·.1)) (e.new.map (·.1)) (UInt8.ofNat l.length) =
      UInt8.ofNat l'.length := by
  cases e with
  | append new =>
    obtain rfl := Option.some.inj h
    rw [List.length_append]
    exact (UInt8.ofNat_add l.length 1).symm
  | replace old new =>
    obtain ⟨-, rfl⟩ : old ∈ l ∧ l.replace old new = l' := by simpa [apply] using h
    rw [List.length_replace]
    rfl
  | delete old =>
    obtain ⟨hmem, rfl⟩ : old ∈ l ∧ l.erase old = l' := by simpa [apply] using h
    have hpos := List.length_pos_of_mem hmem
    rw [List.length_erase_of_mem hmem]
    exact (UInt8.ofNat_sub hpos).symm

/-! ### The operation -/

def newBytes (new : Option (List UInt8)) : List UInt8 := (new.map (· ++ [0])).getD []

/-- `subLen` bytes at `p` have made place for the new ones, and `t` bytes behind them
have moved along. -/
structure Spliced (bap p subLen countp t : Nat) (old new : Option (List UInt8))
    (m m' : Mem) : Prop where
  size : Holds m' bap (le16 (p - bap + (newBytes new).length + t))
  count : m' countp = adjustCount old new (m countp)
  before : ∀ x, bap + 2 ≤ x → x < p → x ≠ countp → m' x = m x
  put : Holds m' p (newBytes new)
  behind : ∀ k < t, m' (p + (newBytes new).length + k) = m (p + subLen + k)
  frame : ∀ x, x ∉ bytes bap (p - bap + (newBytes new).length + t) → m' x = m x

section
variable {subLen countp t : Nat} {old new : Option (List UInt8)}

theorem length_newBytes (new : Option (List UInt8)) :
    (new.map (·.length + 1)).getD 0 = (newBytes new).length := by
  cases new with
  | none => rfl
  | some s => simp [newBytes]

theorem putNew_eq (m : Mem) (p : Nat) (new : Option (List UInt8)) :
    (match new with | none => m | some s => writeBytes m p (s ++ [0])) =
      writeBytes m p (newBytes new) := by
  cases new with
  | none =>
    exact funext fun x => (writeBytes_of_not_mem
      (by simp only [newBytes, Option.map_none, Option.getD_none, List.length_nil]; omega)).symm
  | some s => rfl

/-- The stores of the operation, with the lengths that it computes in machine words. -/
theorem doOperation_eq (hbap : Addressable bap) (hcountp : bap + 2 ≤ countp) (hp : bap + 8 ≤ p)
    (hsize : read16 m bap = p - bap + subLen + t) (hroom : p - bap + subLen + t < 2 ^ 16)
    (hroom' : p - bap + (newBytes new).length + t < 2 ^ 16) :
    doOperation bap old new p subLen countp m =
      write16 (writeBytes (memmove (writeBytes m countp [adjustCount old new (m countp)]) p
        (p + subLen - (newBytes new).length) ((newBytes new).length + t)) p (newBytes new)) bap
        (p - bap + (newBytes new).length + t) := by
  obtain ⟨hlo, hhi⟩ := hbap
  have hsrc : sub64 (p + subLen) (newBytes new).length = p + subLen - (newBytes new).length :=
    sub64_of_le (by omega) (by omega)
  have hlen : sub64 (bap + (p - bap + subLen + t)) (p + subLen - (newBytes new).length) =
      (newBytes new).length + t := by
    rw [sub64_of_le (by omega) (by omega)]
    omega
  have htotal : sub32 (p - bap + subLen + t + (newBytes new).length) subLen =
      p - bap + (newBytes new).length + t := by
    rw [sub32_of_le (by omega) (by omega)]
    omega
  have hread : read16 (writeBytes m countp [adjustCount old new (m countp)]) bap =
      p - bap + subLen + t := by
    rw [← hsize]
    refine read16_congr (writeBytes_of_not_mem ?_) (writeBytes_of_not_mem ?_) <;>
      simp only [List.length_singleton] <;> omega
  rw [doOperation.eq_def]
  dsimp only
  rw [length_newBytes, hread, hsrc, hlen, htotal, putNew_eq]

theorem doOperation_spliced (hbap : Addressable bap)
    (hcountp : bap + 2 ≤ countp ∧ countp < bap + 8) (hp : bap + 8 ≤ p)
    (hsize : read16 m bap = p - bap + subLen + t) (hroom : p - bap + subLen + t < 2 ^ 16)
    (hroom' : p - bap + (newBytes new).length + t < 2 ^ 16) :
    Spliced bap p subLen countp t old new m (doOperation bap old new p subLen countp m) := by
  rw [doOperation_eq hbap hcountp.1 hp hsize hroom hroom']
  obtain ⟨hlo, hhi⟩ := hbap
  generalize hm1 : writeBytes m countp [adjustCount old new (m countp)] = m1
  have hcount : m1 countp = adjustCount old new (m countp) :=
    hm1 ▸ (holds_writeBytes m countp [adjustCount old new (m countp)]).1
  have hsame : ∀ x, x ≠ countp → m1 x = m x :=
    fun x hx => hm1 ▸ writeBytes_of_not_mem (by simp only [List.length_singleton]; omega)
  have hbelow : ∀ (n : Nat) x, bap + 2 ≤ x → x < p →
      write16 (writeBytes (memmove m1 p (p + subLen - (newBytes new).length) n) p
        (newBytes new)) bap
        (p - bap + (newBytes new).length + t) x = m1 x := by
    intro n x hx hxp
    rw [write16_of_not_mem (by omega), writeBytes_of_not_mem (by omega),
      memmove_of_not_mem (by omega)]
  constructor
  · exact holds_writeBytes _ _ _
  · rw [hbelow _ _ hcountp.1 (by omega), hcount]
  · intro x hx hxp hne
    rw [hbelow _ x hx hxp, hsame x hne]
  · refine Holds.congr (holds_writeBytes (memmove m1 p (p + subLen - (newBytes new).length)
      ((newBytes new).length + t)) p _) fun k hk => ?_
    exact write16_of_not_mem (by omega)
  · intro k hk
    rw [write16_of_not_mem (by omega), writeBytes_of_not_mem (by omega), memmove_of_mem (by omega),
      hsame _ (by omega)]
    congr 1
    omega
  · intro x hx
    rw [mem_bytes] at hx
    rw [write16_of_not_mem (by omega), writeBytes_of_not_mem (by omega),
      memmove_of_not_mem (by omega), hsame x (by omega)]

end

/-- The record's part that a call edits, `l`, with what is in front of it and behind it. -/
structure ListAt (m : Mem) (bap countp : Nat) (before l : List CString)
    (rest : List UInt8) : Prop where
  holds : Holds m (bap + offsetofArgs) (encodeStrings before ++ (encodeStrings l ++ rest))
  size : read16 m bap = offsetofArgs + (encodeStrings before ++ (encodeStrings l ++ rest)).length
  size_lt : offsetofArgs + (encodeStrings before ++ (encodeStrings l ++ rest)).length < 2 ^ 16
  count : m countp = UInt8.ofNat l.length
  count_lt : l.length < 2 ^ 7

/-- The list has become `l'`, and only the bytes of the record have changed. -/
structure ListSet (m m' : Mem) (bap countp : Nat) (before l' : List CString)
    (rest : List UInt8) : Prop where
  size :
    Holds m' bap (le16 (offsetofArgs + (encodeStrings before ++ (encodeStrings l' ++ rest)).length))
  count : m' countp = UInt8.ofNat l'.length
  header : ∀ x, bap + 2 ≤ x → x < bap + offsetofArgs → x ≠ countp → m' x = m x
  holds : Holds m' (bap + offsetofArgs) (encodeStrings before ++ (encodeStrings l' ++ rest))
  frame : ∀ x,
    x ∉ bytes bap (offsetofArgs + (encodeStrings before ++ (encodeStrings l' ++ rest)).length) →
    m' x = m x

theorem countOf_ofNat {n : Nat} (h : n < 2 ^ 7) : countOf (UInt8.ofNat n) = n := by
  have hn : (UInt8.ofNat n).toNat = n := by
    rw [UInt8.toNat_ofNat', Nat.mod_eq_of_lt (by omega)]
  rw [countOf, hn, if_pos h]

theorem newBytes_eq (new : Option CString) :
    newBytes (new.map (·.1)) = encodeStrings new.toList := by
  cases new with
  | none => rfl
  | some s => simp [newBytes, encodeStrings]

section
variable {countp : Nat}

theorem ListAt.lengths (h : ListAt m bap countp before l rest) :
    (encodeStrings before).length < 2 ^ 64 ∧ (encodeStrings l).length < 2 ^ 64 := by
  have hlt := h.size_lt
  rw [List.length_append, List.length_append] at hlt
  omega

theorem ListAt.pass (h : ListAt m bap countp before l rest) :
    passStrings m before.length (bap + offsetofArgs) =
      .ok (bap + offsetofArgs + (encodeStrings before).length) :=
  passStrings_ok h.holds h.lengths.1

theorem ListAt.at_list (h : ListAt m bap countp before l rest) :
    Holds m (bap + offsetofArgs + (encodeStrings before).length) (encodeStrings l ++ rest) :=
  (holds_append.mp h.holds).2

theorem doAdjust_none (h : ListAt m bap countp before l rest) (happly : e.apply l = none) :
    doAdjust bap (e.old.map (·.1)) (e.new.map (·.1)) before.length countp m = .ok (m, 0) := by
  obtain ⟨old, hold, hmem⟩ := Edit.apply_eq_none happly
  have hne : ∀ s ∈ l, some old.1 ≠ some s.1 := by
    intro s hs heq
    obtain rfl : old = s := Subtype.ext (Option.some.inj heq)
    exact hmem hs
  rw [doAdjust, h.pass, ok_bind, h.count, countOf_ofNat h.count_lt, hold, Option.map_some,
    findOld_none h.at_list h.lengths.2 hne, ok_bind]
  exact if_pos ⟨nofun, rfl⟩

theorem findOld_edit {q : Nat}
    (h : Holds m q (encodeStrings (pre ++ (e.old.toList ++ post)) ++ rest))
    (hlen : (encodeStrings (pre ++ (e.old.toList ++ post))).length < 2 ^ 64)
    (hne : ∀ s ∈ pre, e.old ≠ some s) (hlast : e.old = none → post = []) :
    ∃ found, findOld m (e.old.map (·.1)) (pre ++ (e.old.toList ++ post)).length q =
      .ok (q + (encodeStrings pre).length, found) ∧
      found.getD 0 = (encodeStrings e.old.toList).length ∧
        ¬ (e.old.map (·.1) ≠ none ∧ found = none) := by
  cases hold : e.old with
  | none =>
    obtain rfl := hlast hold
    rw [hold] at h hlen
    simp only [Option.toList_none, List.append_nil] at h hlen ⊢
    exact ⟨none, findOld_none h hlen nofun, rfl, fun hc => hc.1 rfl⟩
  | some old =>
    rw [hold] at h hlen
    refine ⟨_, findOld_some h hlen fun hmem => hne old hmem hold, ?_, fun hc => nomatch hc.2⟩
    simp [encodeStrings]

theorem list_split (before pre mid post : List CString) (rest : List UInt8) :
    encodeStrings before ++ (encodeStrings (pre ++ (mid ++ post)) ++ rest) =
      (encodeStrings before ++ encodeStrings pre) ++
        (encodeStrings mid ++ (encodeStrings post ++ rest)) := by
  simp only [encodeStrings_append, List.append_assoc]

/-- The bytes of the record after the splice, as the list that they spell. -/
theorem Spliced.listSet {front gone come behind : List UInt8} {old new : Option (List UInt8)}
    {m' : Mem} {l' : List CString}
    (h : Spliced bap (bap + 8 + front.length) gone.length countp behind.length old new m m')
    (hcountp : bap + 2 ≤ countp ∧ countp < bap + 8) (hnew : newBytes new = come)
    (hargs : encodeStrings before ++ (encodeStrings l' ++ rest) = front ++ (come ++ behind))
    (hcount : adjustCount old new (m countp) = UInt8.ofNat l'.length)
    (hfront : Holds m (bap + 8) front)
    (hbehind : Holds m (bap + 8 + front.length + gone.length) behind) :
    ListSet m m' bap countp before l' rest := by
  have hnewSize : bap + 8 + front.length - bap + come.length + behind.length =
      offsetofArgs + (front ++ (come ++ behind)).length := by
    simp only [List.length_append, offsetofArgs]
    omega
  obtain ⟨hsz, hct, hbf, hput, hbh, hframe⟩ := h
  rw [hnew] at hsz hput hbh hframe
  rw [hnewSize] at hsz hframe
  constructor
  · rwa [hargs]
  · rw [hct, hcount]
  · intro x hx hxp hxc
    simp only [offsetofArgs] at hxp
    exact hbf x hx (by omega) hxc
  · rw [hargs, offsetofArgs]
    refine holds_append.mpr ⟨hfront.congr fun k hk => hbf _ ?_ ?_ ?_, holds_append.mpr ⟨?_, ?_⟩⟩
    · omega
    · omega
    · omega
    · exact hput
    · exact hbehind.congr fun k hk => hbh k hk
  · rwa [hargs]

theorem doAdjust_some {l' : List CString} (hbap : Addressable bap)
    (hcountp : bap + 2 ≤ countp ∧ countp < bap + 8) (h : ListAt m bap countp before l rest)
    (happly : e.apply l = some l')
    (hroom : offsetofArgs + (encodeStrings before ++ (encodeStrings l' ++ rest)).length < 2 ^ 16) :
    ∃ m', doAdjust bap (e.old.map (·.1)) (e.new.map (·.1)) before.length countp m = .ok (m', 1) ∧
      ListSet m m' bap countp before l' rest := by
  have hadjust := Edit.adjustCount happly
  have hcount := h.count
  obtain ⟨pre, post, rfl, rfl, hne, hlast⟩ := Edit.apply_eq_some happly
  obtain ⟨found, hfind, hsub, hfound⟩ := findOld_edit h.at_list h.lengths.2 hne hlast
  have hholds := h.holds
  have hsize := h.size
  have hlt := h.size_lt
  rw [list_split] at hholds hsize hlt hroom
  obtain ⟨hbefore, hmid⟩ := holds_append.mp hholds
  have hrest := (holds_append.mp hmid).2
  have hnew := newBytes_eq e.new
  -- the bytes in front of the edit, those that go, those that come, and those behind
  generalize hf : encodeStrings before ++ encodeStrings pre = front at *
  generalize hg : encodeStrings e.old.toList = gone at *
  generalize hc : encodeStrings e.new.toList = come at *
  generalize hk : encodeStrings post ++ rest = behind at *
  have hfront : (encodeStrings before).length + (encodeStrings pre).length = front.length := by
    rw [← hf, List.length_append]
  simp only [List.length_append, offsetofArgs] at hsize hlt hroom hrest hbefore
  have hs := @doOperation_spliced m bap (bap + 8 + front.length) gone.length countp behind.length
    (e.old.map (·.1)) (e.new.map (·.1))
    hbap hcountp (by omega) (by omega) (by omega) (by rw [hnew]; omega)
  have hplace : bap + offsetofArgs + (encodeStrings before).length + (encodeStrings pre).length =
      bap + 8 + front.length := by
    simp only [offsetofArgs]
    omega
  refine ⟨doOperation bap (e.old.map (·.1)) (e.new.map (·.1))
    (bap + 8 + front.length) gone.length countp m, ?_, ?_⟩
  · rw [doAdjust, h.pass, ok_bind, hcount, countOf_ofNat h.count_lt, hfind, ok_bind]
    dsimp only
    rw [if_neg hfound, hsub, hplace]
  · have hargs : encodeStrings before ++ (encodeStrings (pre ++ (e.new.toList ++ post)) ++ rest) =
        front ++ (come ++ behind) := by
      rw [list_split, hf, hc, hk]
    exact hs.listSet hcountp hnew hargs (by rw [hcount, hadjust]) hbefore hrest

end

/-! ### The record -/

variable {b b' : Bootargs} {c : AdjustCall}

theorem holds_encode : Holds m bap b.encode ↔
    Holds m bap (le16 b.size) ∧ (m (bap + 2) = UInt8.ofNat b.argv.length ∧
      m (bap + 3) = UInt8.ofNat b.envv.length) ∧
      Holds m (bap + 4) (le32 b.shdrAddr) ∧ Holds m (bap + offsetofArgs) b.args := by
  rw [Bootargs.encode, holds_append, holds_append, holds_append]
  simp only [Holds, and_true]
  rfl

theorem Holds.read16 {n : Nat} (h : Holds m p (le16 n)) (hn : n < 2 ^ 16) : read16 m p = n := by
  obtain ⟨h0, h1, -⟩ := h
  rw [QnxStartup.read16, h0, h1]
  simp only [UInt8.toNat_ofNat']
  omega

theorem listAt_argv (h : Holds m bap b.encode) (hb : b.WellFormed) :
    ListAt m bap (bap + 2) [] b.argv (encodeStrings b.envv ++ b.trailing) := by
  obtain ⟨hsize, ⟨hargc, -⟩, -, hargs⟩ := holds_encode.mp h
  exact ⟨hargs, hsize.read16 hb.size, hb.size, hargc, hb.argc⟩

theorem listAt_envv (h : Holds m bap b.encode) (hb : b.WellFormed) :
    ListAt m bap (bap + 3) b.argv b.envv b.trailing := by
  obtain ⟨hsize, ⟨-, henvc⟩, -, hargs⟩ := holds_encode.mp h
  exact ⟨hargs, hsize.read16 hb.size, hb.size, henvc, hb.envc⟩

theorem ListSet.argv {m' : Mem} {argv : List CString} (h : Holds m bap b.encode)
    (hset : ListSet m m' bap (bap + 2) [] argv (encodeStrings b.envv ++ b.trailing)) :
    Holds m' bap ({ b with argv := argv } : Bootargs).encode := by
  obtain ⟨-, ⟨-, henvc⟩, hshdr, -⟩ := holds_encode.mp h
  refine holds_encode.mpr ⟨hset.size, ⟨hset.count, ?_⟩, hshdr.congr fun k hk => ?_, hset.holds⟩
  · exact (hset.header _ (by omega) (by simp only [offsetofArgs]; omega) (by omega)).trans henvc
  · have hk' : k < 4 := hk
    exact hset.header _ (by omega) (by simp only [offsetofArgs]; omega) (by omega)

theorem ListSet.envv {m' : Mem} {envv : List CString} (h : Holds m bap b.encode)
    (hset : ListSet m m' bap (bap + 3) b.argv envv b.trailing) :
    Holds m' bap ({ b with envv := envv } : Bootargs).encode := by
  obtain ⟨-, ⟨hargc, -⟩, hshdr, -⟩ := holds_encode.mp h
  refine holds_encode.mpr ⟨hset.size, ⟨?_, hset.count⟩, hshdr.congr fun k hk => ?_, hset.holds⟩
  · exact (hset.header _ (by omega) (by simp only [offsetofArgs]; omega) (by omega)).trans hargc
  · have hk' : k < 4 := hk
    exact hset.header _ (by omega) (by simp only [offsetofArgs]; omega) (by omega)

theorem bootstrapAdjust_none (h : Holds m bap b.encode) (hb : b.WellFormed)
    (hadjust : b.adjust c = none) :
    bootstrapAdjust bap c m = .ok (m, 0) := by
  rw [Bootargs.adjust] at hadjust
  rw [bootstrapAdjust]
  by_cases henv : c.env
  · rw [if_pos henv] at hadjust ⊢
    have hat := listAt_envv h hb
    rw [bootstrapEnvAdjust, (listAt_argv h hb).count, countOf_ofNat hb.argc]
    exact doAdjust_none hat (Option.map_eq_none_iff.mp hadjust)
  · rw [if_neg henv] at hadjust ⊢
    exact doAdjust_none (listAt_argv h hb) (Option.map_eq_none_iff.mp hadjust)

theorem bootstrapAdjust_some (hbap : Addressable bap) (h : Holds m bap b.encode) (hb : b.WellFormed)
    (hadjust : b.adjust c = some b') (hb' : b'.WellFormed) :
    ∃ m', bootstrapAdjust bap c m = .ok (m', 1) ∧ Holds m' bap b'.encode ∧
      ∀ x, x ∉ bytes bap b'.size → m' x = m x := by
  rw [Bootargs.adjust] at hadjust
  rw [bootstrapAdjust]
  by_cases henv : c.env
  · rw [if_pos henv] at hadjust ⊢
    obtain ⟨envv, happly, rfl⟩ := Option.map_eq_some_iff.mp hadjust
    rw [bootstrapEnvAdjust, (listAt_argv h hb).count, countOf_ofNat hb.argc]
    obtain ⟨m', hrun, hset⟩ := doAdjust_some hbap ⟨by omega, by omega⟩
      (listAt_envv h hb) happly hb'.size
    exact ⟨m', hrun, hset.envv h, hset.frame⟩
  · rw [if_neg henv] at hadjust ⊢
    obtain ⟨argv, happly, rfl⟩ := Option.map_eq_some_iff.mp hadjust
    obtain ⟨m', hrun, hset⟩ := doAdjust_some hbap ⟨by omega, by omega⟩
      (listAt_argv h hb) happly hb'.size
    exact ⟨m', hrun, hset.argv h, hset.frame⟩

/-- Every sequence of calls edits the two lists. -/
theorem bootstrap_adjusts {calls : List AdjustCall} (hbap : Addressable bap)
    (h : Holds m bap b.encode) (hb : b.WellFormed) (hfits : AdjustsFit calls b) :
    ∃ rs, bootstrapAdjusts bap calls m = .ok rs ∧ AdjustsAs bap calls b m rs := by
  induction calls generalizing m b with
  | nil => exact ⟨[], rfl, rfl⟩
  | cons c calls ih =>
    rw [bootstrapAdjusts]
    cases hadjust : b.adjust c with
    | none =>
      rw [AdjustsFit, hadjust] at hfits
      obtain ⟨rs, hrun, has⟩ := ih h hfits.1 hfits.2
      rw [bootstrapAdjust_none h hb hadjust, ok_bind, hrun, ok_bind]
      exact ⟨_, rfl, m, 0, rs, rfl, by rw [hadjust]; exact ⟨rfl, rfl, has⟩⟩
    | some b' =>
      rw [AdjustsFit, hadjust] at hfits
      obtain ⟨m', hcall, hholds, hframe⟩ := bootstrapAdjust_some hbap h hb hadjust hfits.1
      obtain ⟨rs, hrun, has⟩ := ih hholds hfits.1 hfits.2
      rw [hcall, ok_bind, hrun, ok_bind]
      exact ⟨_, rfl, m', 1, rs, rfl, by rw [hadjust]; exact ⟨rfl, hholds, hframe, has⟩⟩

end

/-- The arguments `a` and `b`, the environment `X`, and two bytes behind them. -/
def smallBootargs : Bootargs :=
  ⟨[⟨[0x61], by decide⟩, ⟨[0x62], by decide⟩], [⟨[0x58], by decide⟩], 0x80000000, [1, 2]⟩

def smallCalls : List AdjustCall :=
  [⟨false, .replace ⟨[0x61], by decide⟩ ⟨[0x61, 0x62], by decide⟩⟩,
    ⟨true, .delete ⟨[0x58], by decide⟩⟩,
    ⟨false, .delete ⟨[0x63], by decide⟩⟩, ⟨true, .append ⟨[0x59], by decide⟩⟩]

theorem bootstrap_adjusts_example :
    ∃ rs, bootstrapAdjusts 0x90000000 smallCalls (writeBytes
      (fun _ => 0) 0x90000000 smallBootargs.encode) = .ok rs ∧
      AdjustsAs 0x90000000 smallCalls smallBootargs
        (writeBytes (fun _ => 0) 0x90000000 smallBootargs.encode) rs :=
  bootstrap_adjusts ⟨by decide, by decide⟩ (holds_writeBytes _ _ _)
    ⟨by decide, by decide, by decide⟩
    ⟨⟨by decide, by decide, by decide⟩, ⟨by decide, by decide, by decide⟩,
      ⟨by decide, by decide, by decide⟩, ⟨by decide, by decide, by decide⟩, trivial⟩

end QnxStartup
