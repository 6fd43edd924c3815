import QnxStartup.Getopt
import QnxStartup.NumberText

/-! `kprintf.c`: the formatter with the sink it hands its characters to, formatting into a buffer,
and the numbers it prints. -/

namespace QnxStartup

/-- An argument as `va_arg` finds it; a string does not overlap what is written. -/
inductive PrintArg where
  | int (v : UInt32)
  | long (v : UInt64)
  | string (s : CString)

/-- The variables that the `switch` sets for a number; `long` says that the argument has 64 bits. -/
structure NumberFormat where
  long : Bool
  dig : Nat
  radix : Nat

def numberFormat (c : UInt8) : Option NumberFormat :=
  if c = 0x62 then some ⟨false, 2, 16⟩            -- 'b'
  else if c = 0x77 then some ⟨false, 4, 16⟩       -- 'w'
  else if c = 0x50 then some ⟨true, 16, 16⟩       -- 'P'
  else if c = 0x78 then some ⟨false, 8, 16⟩       -- 'x'
  else if c = 0x6c then some ⟨true, 16, 16⟩       -- 'l'
  else if c = 0x4c then some ⟨true, 16, 16⟩       -- 'L'
  else if c = 0x76 then some ⟨true, 16, 16⟩       -- 'v'
  else if c = 0x64 ∨ c = 0x75 then some ⟨false, 0, 10⟩ -- 'd', 'u'
  else none

/-- An argument of another type is undefined. -/
def NumberFormat.vaArg (f : NumberFormat) : PrintArg → Startup Nat
  | .int v => if f.long then .error .fault else .ok v.toNat
  | .long v => if f.long then .ok v.toNat else .error .fault
  | .string _ => .error .fault

section
variable {σ : Type} (printChar : UInt8 → σ → σ)

def oneChar (c : UInt8) (s : σ) : σ :=
  if c = 0x0a then printChar c (printChar 0x0d s) else printChar c s

def printChars (vs : List UInt8) (s : σ) : σ := vs.foldl (fun s c => oneChar printChar c s) s

/-- The part of `vmsg` behind the `switch`; `buf` has 64 bytes. -/
def printNumber (f : NumberFormat) (num : Nat) (s : σ) : Startup σ :=
  (convertNumber f.radix 63 num []).bind fun vs =>
    .ok (printChars printChar vs (printChars printChar (List.replicate (f.dig - vs.length) 0x30) s))

/-- The `switch`, with the arguments that are left. -/
def printArg (c : UInt8) (args : List PrintArg) (s : σ) : Startup (List PrintArg × σ) :=
  if c = 0x73 then -- 's'
    match args with
    | .string vs :: args => .ok (args, printChars printChar vs.1 s)
    | _ => .error .fault
  else match numberFormat c with
    | some f =>
      match args with
      | arg :: args => (f.vaArg arg).bind fun num => (printNumber printChar f num s).bind fun s =>
        .ok (args, s)
      | [] => .error .fault
    | none => .ok (args, oneChar printChar c s)

def vmsg : List UInt8 → List PrintArg → σ → Startup σ
  | [], _, s => .ok s
  | c :: fmt, args, s =>
    if c ≠ 0x25 then vmsg fmt args (oneChar printChar c s)
    else match fmt with
      -- the NUL is taken for a conversion, and the loop goes on behind it
      | [] => .error .fault
      | c :: fmt => (printArg printChar c args s).bind fun r => vmsg fmt r.1 r.2

end

def formatted (fmt : List UInt8) (args : List PrintArg) : Startup (List UInt8) :=
  vmsg (fun c l => l ++ [c]) fmt args []

/-- `string_ptr` with `ksnprinf_len` and `ksnprintf_max_len`. -/
structure StringSink where
  mem : Mem
  stringPtr : Nat
  len : Nat
  maxLen : Nat

def stringPrintNChar (ch : UInt8) (s : StringSink) : StringSink :=
  if s.len < s.maxLen then { s with mem := Function.update s.mem s.stringPtr ch,
                                    stringPtr := s.stringPtr + 1, len := s.len + 1 }
  else s

def ksnprintf (buff num : Nat) (fmt : List UInt8) (args : List PrintArg) (m : Mem) : Startup Mem :=
  (vmsg stringPrintNChar fmt args ⟨m, buff, 0, num⟩).bind fun s =>
    .ok (Function.update s.mem s.stringPtr 0)

/-! ### One text for every sink -/

section
variable {σ τ σ' τ' : Type}

/-- Both return, with related results, or both stop in the same way. -/
def Related (R : σ → τ → Prop) : Startup σ → Startup τ → Prop
  | .ok s, .ok t => R s t
  | .error e, .error e' => e = e'
  | _, _ => False

theorem Related.refl_error (R : σ → τ → Prop) (e : Halt) : Related R (.error e) (.error e) := rfl

theorem Related.bind {R : σ → τ → Prop} {Q : σ' → τ' → Prop} {x : Startup σ} {y : Startup τ}
    {f : σ → Startup σ'} {g : τ → Startup τ'} (h : Related R x y)
    (hfg : ∀ s t, R s t → Related Q (f s) (g t)) : Related Q (x.bind f) (y.bind g) := by
  cases x with
  | error e =>
    cases y with
    | error e' => exact h
    | ok t => exact h.elim
  | ok s =>
    cases y with
    | error e' => exact h.elim
    | ok t => exact hfg s t h

variable {put : UInt8 → σ → σ} {put' : UInt8 → τ → τ} {R : σ → τ → Prop}

theorem vmsg_plain (put : UInt8 → σ → σ) {c : UInt8} (hc : c ≠ 0x25) (fmt : List UInt8)
    (args : List PrintArg) (s : σ) :
    vmsg put (c :: fmt) args s = vmsg put fmt args (oneChar put c s) := by
  rw [vmsg.eq_def]
  exact if_pos hc

theorem vmsg_percent (put : UInt8 → σ → σ) (c : UInt8) (fmt : List UInt8) (args : List PrintArg)
    (s : σ) :
    vmsg put (0x25 :: c :: fmt) args s = (printArg put c args s).bind fun r =>
      vmsg put fmt r.1 r.2 := rfl

theorem oneChar_related (hput : ∀ c ≠ 0, ∀ s t, R s t → R (put c s) (put' c t)) {c : UInt8}
    (hc : c ≠ 0) {s : σ} {t : τ} (h : R s t) :
    R (oneChar put c s) (oneChar put' c t) := by
  unfold oneChar
  split
  · exact hput c hc _ _ (hput 0x0d (by decide) _ _ h)
  · exact hput c hc _ _ h

theorem printChars_related (hput : ∀ c ≠ 0, ∀ s t, R s t → R (put c s) (put' c t)) {vs : List UInt8}
    (hvs : 0 ∉ vs) {s : σ} {t : τ} (h : R s t) :
    R (printChars put vs s) (printChars put' vs t) := by
  induction vs generalizing s t with
  | nil => exact h
  | cons c vs ih =>
    rw [List.mem_cons, not_or] at hvs
    exact ih hvs.2 (oneChar_related hput (Ne.symm hvs.1) h)

theorem convertNumber_no_nul {radix room num : Nat} {vs text : List UInt8} (hr : 0 < radix)
    (h16 : radix ≤ 16) (hvs : 0 ∉ vs) (h : convertNumber radix room num vs = .ok text) :
    0 ∉ text := by
  induction room generalizing num vs with
  | zero => cases h
  | succ room ih =>
    have hdigit : 0 ∉ [digitTable.getD (num % radix) 0] :=
      (DigitsOf.single (isDigit_digitTable h16 (Nat.mod_lt num hr))).no_nul (by omega)
    have hcons : 0 ∉ digitTable.getD (num % radix) 0 :: vs := by
      rw [List.mem_singleton] at hdigit
      rw [List.mem_cons, not_or]
      exact ⟨hdigit, hvs⟩
    rw [convertNumber] at h
    split at h
    · exact Except.ok.inj h ▸ hcons
    · exact ih hcons h

theorem numberFormat_radix {c : UInt8} {f : NumberFormat} (h : numberFormat c = some f) :
    f.radix = 16 ∨ f.radix = 10 := by
  unfold numberFormat at h
  repeat' split at h
  all_goals first | cases h; decide | cases h

theorem printNumber_related (hput : ∀ c ≠ 0, ∀ s t, R s t → R (put c s) (put' c t)) {c : UInt8}
    {f : NumberFormat} (hf : numberFormat c = some f) (num : Nat) {s : σ} {t : τ} (h : R s t) :
    Related R (printNumber put f num s) (printNumber put' f num t) := by
  unfold printNumber
  cases hvs : convertNumber f.radix 63 num [] with
  | error e => exact .refl_error R e
  | ok vs =>
    have hradix := numberFormat_radix hf
    have hnul := convertNumber_no_nul (by omega) (by omega) List.not_mem_nil hvs
    have hzeros : 0 ∉ List.replicate (f.dig - vs.length) (0x30 : UInt8) :=
      fun hc => absurd (List.eq_of_mem_replicate hc) (by decide)
    exact printChars_related hput hnul (printChars_related hput hzeros h)

theorem printArg_related (hput : ∀ c ≠ 0, ∀ s t, R s t → R (put c s) (put' c t)) {c : UInt8}
    (hc : c ≠ 0) (args : List PrintArg) {s : σ} {t : τ} (h : R s t) :
    Related (fun r r' => r.1 = r'.1 ∧ R r.2 r'.2) (printArg put c args s)
      (printArg put' c args t) := by
  unfold printArg
  by_cases hs : c = 0x73
  · rw [if_pos hs, if_pos hs]
    match args with
    | .string vs :: args => exact ⟨rfl, printChars_related hput vs.2 h⟩
    | .int _ :: _ => exact .refl_error _ _
    | .long _ :: _ => exact .refl_error _ _
    | [] => exact .refl_error _ _
  · rw [if_neg hs, if_neg hs]
    cases hf : numberFormat c with
    | none => exact ⟨rfl, oneChar_related hput hc h⟩
    | some f =>
      cases args with
      | nil => exact .refl_error _ _
      | cons arg args =>
        dsimp only
        cases f.vaArg arg with
        | error e => exact .refl_error _ _
        | ok num => exact (printNumber_related hput hf num h).bind fun s t h => ⟨rfl, h⟩

/-- What a sink is given does not depend on the sink, and has no NUL. -/
theorem vmsg_related (hput : ∀ c ≠ 0, ∀ s t, R s t → R (put c s) (put' c t)) {fmt : List UInt8}
    (hfmt : 0 ∉ fmt) (args : List PrintArg) {s : σ} {t : τ} (h : R s t) :
    Related R (vmsg put fmt args s) (vmsg put' fmt args t) := by
  fun_induction vmsg put fmt args s generalizing t with
  | case1 args s => exact h
  | case2 c fmt args s hc ih =>
    rw [List.mem_cons, not_or] at hfmt
    rw [vmsg_plain _ hc]
    exact ih hfmt.2 (oneChar_related hput (Ne.symm hfmt.1) h)
  | case3 c args s hc =>
    obtain rfl := not_not.mp hc
    exact .refl_error R _
  | case4 c args s hc c' fmt ih =>
    simp only [List.mem_cons, not_or] at hfmt
    obtain rfl := not_not.mp hc
    rw [vmsg_percent]
    refine (printArg_related hput (Ne.symm hfmt.2.1) args h).bind ?_
    rintro ⟨rest, s'⟩ ⟨_, t'⟩ ⟨rfl, h'⟩
    exact ih (rest, s') hfmt.2.2 h'

end

/-! ### Formatting into a buffer -/

section
variable {fmt text : List UInt8} {args : List PrintArg} {buff num : Nat} {m : Mem}

/-- A sink is given the characters of the text one by one. -/
theorem vmsg_eq_foldl {σ : Type} (put : UInt8 → σ → σ) (hfmt : 0 ∉ fmt) (args : List PrintArg)
    (s : σ) :
    (∃ text, formatted fmt args = .ok text ∧ 0 ∉ text ∧
      vmsg put fmt args s = .ok (text.foldl (fun s c => put c s) s)) ∨
      ∃ e, formatted fmt args = .error e ∧ vmsg put fmt args s = .error e := by
  have hrel : Related (fun (text : List UInt8) t => 0 ∉ text ∧
      t = text.foldl (fun s c => put c s) s) (formatted fmt args)
      (vmsg put fmt args s) := by
    refine vmsg_related (fun c hc text t h => ?_) hfmt args ⟨List.not_mem_nil, rfl⟩
    rw [h.2, List.foldl_append, List.mem_append, List.mem_singleton, not_or]
    exact ⟨⟨h.1, Ne.symm hc⟩, rfl⟩
  cases ht : formatted fmt args with
  | error e =>
    rw [ht] at hrel
    cases hv : vmsg put fmt args s with
    | error e' =>
      rw [hv] at hrel
      exact .inr ⟨e, rfl, congrArg _ (Eq.symm hrel)⟩
    | ok t =>
      rw [hv] at hrel
      exact hrel.elim
  | ok text =>
    rw [ht] at hrel
    cases hv : vmsg put fmt args s with
    | error e' =>
      rw [hv] at hrel
      exact hrel.elim
    | ok t =>
      rw [hv] at hrel
      exact .inl ⟨text, rfl, hrel.1, congrArg _ hrel.2⟩

theorem foldl_stringPrintNChar (text : List UInt8) (m : Mem) (p len num : Nat) (hlen : len ≤ num) :
    (text.foldl (fun s c => stringPrintNChar c s) ⟨m, p, len, num⟩).mem =
      writeBytes m p (text.take (num - len)) ∧
      (text.foldl (fun s c => stringPrintNChar c s) ⟨m, p, len, num⟩).stringPtr =
        p + (text.take (num - len)).length := by
  induction text generalizing m p len with
  | nil =>
    rw [List.take_nil, writeBytes_nil]
    exact ⟨rfl, rfl⟩
  | cons c text ih =>
    rw [List.foldl_cons, stringPrintNChar]
    by_cases hroom : len < num
    · rw [if_pos hroom, show num - len = num - (len + 1) + 1 by omega, List.take_succ_cons,
        writeBytes_cons, List.length_cons]
      obtain ⟨hm, hp⟩ := ih (Function.update m p c) (p + 1) (len + 1) hroom
      exact ⟨hm, by rw [hp]; omega⟩
    · rw [if_neg hroom]
      have hzero : num - len = 0 := by omega
      have hrest := ih m p len hlen
      rwa [hzero, List.take_zero] at hrest ⊢

theorem ksnprintf_eq (hfmt : 0 ∉ fmt) (h : formatted fmt args = .ok text) :
    ksnprintf buff num fmt args m = .ok (writeBytes m buff (text.take num ++ [0])) ∧ 0 ∉ text := by
  obtain ⟨_, ht, hnul, hrun⟩ | ⟨e, he, -⟩ := vmsg_eq_foldl stringPrintNChar hfmt args
    ⟨m, buff, 0, num⟩
  · obtain rfl := Except.ok.inj (h.symm.trans ht)
    obtain ⟨hm, hp⟩ := foldl_stringPrintNChar text m buff 0 num (Nat.zero_le num)
    rw [ksnprintf, hrun, ok_bind, hm, hp, writeBytes_append, writeBytes_singleton, Nat.sub_zero]
    exact ⟨rfl, hnul⟩
  · cases h.symm.trans he

/-- `ksnprintf` stays in its buffer, and ends the text there, if and only if the whole
text fits with its NUL. -/
theorem ksnprintf_iff (fmt : CString) (args : List PrintArg) (m : Mem) (buff : Nat)
    (hnum : 1 ≤ num) :
    (∃ m' text, ksnprintf buff num fmt.1 args m = .ok m' ∧ formatted fmt.1 args = .ok text ∧
      Holds m' buff (text.take (num - 1) ++ [0]) ∧ ∀ x ∉ bytes buff num, m' x = m x) ↔
      ∃ text, formatted fmt.1 args = .ok text ∧ text.length < num := by
  constructor
  · rintro ⟨m', text, hrun, htext, hholds, -⟩
    refine ⟨text, htext, ?_⟩
    obtain ⟨heq, hnul⟩ : ksnprintf buff num fmt.1 args m =
        .ok (writeBytes m buff (text.take num ++ [0])) ∧ 0 ∉ text :=
      ksnprintf_eq fmt.2 htext
    obtain rfl := Except.ok.inj (hrun.symm.trans heq)
    by_contra hlong
    -- the last byte of the buffer holds a character of the text
    have hlast := holds_iff.mp hholds (num - 1) (by simp; omega)
    have hwritten := holds_iff.mp (holds_writeBytes m buff (text.take num ++ [0]))
      (num - 1) (by simp; omega)
    rw [hwritten, List.getElem_append_left (by simp; omega), List.getElem_append_right (by simp),
      List.getElem_take, List.getElem_singleton] at hlast
    exact hnul (hlast ▸ List.getElem_mem _)
  · rintro ⟨text, htext, hlen⟩
    refine ⟨_, text, (ksnprintf_eq fmt.2 htext).1, htext, ?_,
      fun x hx => writeBytes_of_not_mem fun hc => hx ?_⟩
    · rw [List.take_of_length_le hlen.le, List.take_of_length_le (by omega)]
      exact holds_writeBytes m buff _
    · rw [List.take_of_length_le hlen.le, List.length_append, List.length_singleton] at hc
      exact ⟨hc.1, by omega⟩

theorem ksnprintf_iff_example :
    ∃ m' text, ksnprintf 0x1000 4 [0x25, 0x75] [.int 128] (fun _ => 0xff) = .ok m' ∧
      formatted [0x25, 0x75] [.int 128] = .ok text ∧
      Holds m' 0x1000 (text.take 3 ++ [0]) ∧ ∀ x ∉ bytes 0x1000 4, m' x = 0xff :=
  (ksnprintf_iff ⟨[0x25, 0x75], by decide⟩ _ _ _ (by decide)).mpr
    ⟨[0x31, 0x32, 0x38], rfl, by decide⟩

/-- "ab" in two bytes: the NUL goes behind them. -/
theorem ksnprintf_overruns :
    ∃ m', ksnprintf 0x1000 2 [0x61, 0x62] [] (fun _ => 0xff) = .ok m' ∧ m' 0x1002 = 0 ∧
      m' 0x1001 = 0x62 :=
  ⟨_, rfl, rfl, rfl⟩

end

/-! ### Printed numbers -/

/-- In any format and for any sink the conversion `c` of the argument puts out a text of
that width at least, and `strtopaddr` takes all of it for the value. -/
def ReadsBack (c : UInt8) (arg : PrintArg) (width radix value : Nat) : Prop :=
  ∃ text, (∀ (σ : Type) (put : UInt8 → σ → σ) (fmt : List UInt8) (args : List PrintArg) (s : σ),
      vmsg put (0x25 :: c :: fmt) (arg :: args) s =
      vmsg put fmt args (text.foldl (fun s c => put c s) s)) ∧
    width ≤ text.length ∧ strtopaddr text radix = (value, [])

section
variable {c : UInt8} {arg : PrintArg} {num : Nat}

theorem printChars_of_no_newline {σ : Type} (put : UInt8 → σ → σ) {vs : List UInt8}
    (hvs : 0x0a ∉ vs) (s : σ) :
    printChars put vs s = vs.foldl (fun s c => put c s) s := by
  induction vs generalizing s with
  | nil => rfl
  | cons c vs ih =>
    rw [List.mem_cons, not_or] at hvs
    rw [printChars, List.foldl_cons, List.foldl_cons, oneChar, if_neg (Ne.symm hvs.1)]
    exact ih hvs.2 _

theorem reads_back {long : Bool} {width radix : Nat}
    (hf : numberFormat c = some ⟨long, width, radix⟩)
    (harg : NumberFormat.vaArg ⟨long, width, radix⟩ arg = .ok num) (hnum : num < 2 ^ 64) :
    ReadsBack c arg width radix num := by
  have hradix : radix = 16 ∨ radix = 10 := numberFormat_radix hf
  have hroom : num < radix ^ 63 := by
    rcases hradix with rfl | rfl
    · exact hnum.trans (by decide)
    · exact hnum.trans (by decide)
  have hs : c ≠ 0x73 := by
    rintro rfl
    cases hf
  obtain ⟨vs, hvs, hdigits, -⟩ := convertNumber_ok (by omega) (by omega) hroom (by decide) []
  rw [List.append_nil] at hvs
  have hpadded := hdigits.pad (by omega) (width - vs.length)
  refine ⟨List.replicate (width - vs.length) 0x30 ++ vs, fun σ put fmt args s => ?_, ?_,
    hpadded.strtopaddr (by omega) (by omega) hnum⟩
  · have hnumber : printNumber put ⟨long, width, radix⟩ num s =
        .ok ((List.replicate (width - vs.length) 0x30 ++ vs).foldl (fun s c => put c s) s) := by
      rw [printNumber, hvs, ok_bind,
        ← printChars_of_no_newline put (hpadded.not_mem (by omega) rfl), printChars,
        printChars, printChars, List.foldl_append]
    rw [vmsg_percent]
    unfold printArg
    rw [if_neg hs, hf]
    dsimp only
    rw [harg, ok_bind, hnumber]
    rfl
  · rw [List.length_append, List.length_replicate]
    omega

end

/-- Every number that is printed in hexadecimal, and with `%u`, is read back; at the
width that its conversion fills up to. -/
theorem printed_numbers_read_back :
    (∀ v : UInt32, ReadsBack 0x62 (.int v) 2 16 v.toNat ∧ ReadsBack 0x77 (.int v) 4 16 v.toNat ∧
      ReadsBack 0x78 (.int v) 8 16 v.toNat ∧ ReadsBack 0x75 (.int v) 0 10 v.toNat) ∧
    ∀ v : UInt64, ReadsBack 0x50 (.long v) 16 16 v.toNat ∧ ReadsBack 0x6c (.long v) 16 16 v.toNat ∧
      ReadsBack 0x4c (.long v) 16 16 v.toNat ∧ ReadsBack 0x76 (.long v) 16 16 v.toNat := by
  constructor
  · intro v
    have hv : v.toNat < 2 ^ 64 := v.toNat_lt.trans (by decide)
    exact ⟨reads_back rfl rfl hv, reads_back rfl rfl hv, reads_back rfl rfl hv,
      reads_back rfl rfl hv⟩
  · intro v
    have hv := v.toNat_lt
    exact ⟨reads_back rfl rfl hv, reads_back rfl rfl hv, reads_back rfl rfl hv,
      reads_back rfl rfl hv⟩

end QnxStartup
