import QnxStartup.Bytes
import QnxStartup.Getopt

/-! `board_find_efi_smbios.c`: the walk over the SMBIOS structures of the firmware. -/

namespace QnxStartup

/-- Memory, with the part of it that may be read. -/
structure TableMem where
  mem : Mem
  start : Nat
  stop : Nat

namespace TableMem
variable (w : TableMem)

def load (p : Nat) : Startup UInt8 :=
  if w.start ≤ p ∧ p < w.stop then .ok (w.mem p) else .error .fault

def loadAll : Nat → Nat → Startup Unit
  | 0, _ => .ok ()
  | n + 1, p => (w.load p).bind fun _ => loadAll n (p + 1)

/-- `strlen`: where the NUL is. -/
def findNul : Nat → Nat → Startup Nat
  | 0, _ => .error .noReturn
  | fuel + 1, p => (w.load p).bind fun c => if c = 0 then .ok p else findNul fuel (p + 1)

/-- The loop `while (data_p[0] || data_p[1])`. -/
def findTwoNuls : Nat → Nat → Startup Nat
  | 0, _ => .error .noReturn
  | fuel + 1, p =>
    (w.load p).bind fun c =>
      if c ≠ 0 then findTwoNuls fuel (p + 1)
      else (w.load (p + 1)).bind fun c => if c ≠ 0 then findTwoNuls fuel (p + 1) else .ok p

/-- More rounds than a loop that goes up byte by byte from `p` has bytes to read. -/
def rounds (p : Nat) : Nat := w.stop - p + 1

/-- The loop of `get_smbios_string`. -/
def nextStrings : Nat → Nat → Startup Nat
  | 0, data => .ok data
  | n + 1, data => (w.findNul (w.rounds data) data).bind fun e => nextStrings n (e + 1)

end TableMem

/-- `none` is the string `""`, which is not in the table. -/
def getSmbiosString (w : TableMem) (hdr : Nat) (idx : UInt8) : Startup (Option Nat) :=
  if hdr ≠ 0 ∧ idx > 0 then
    (w.load (hdr + 1)).bind fun length => (w.nextStrings (idx.toNat - 1) (hdr + length.toNat)).bind
      fun data => .ok (some data)
  else .ok none

/-- What the conversion `%s` reads. -/
def printString (w : TableMem) : Option Nat → Startup Unit
  | none => .ok ()
  | some p => (w.findNul (w.rounds p) p).bind fun _ => .ok ()

/-- A field that is printed: a string by its number, or a number of some bytes. -/
inductive SmbiosField where
  | text (offset : Nat)
  | number (offset size : Nat)

def dumpField (w : TableMem) (hdr : Nat) : SmbiosField → Startup Unit
  | .text offset => (w.load (hdr + offset)).bind fun idx =>
    (getSmbiosString w hdr idx).bind fun s => printString w s
  | .number offset size => w.loadAll size (hdr + offset)

def dumpFields (w : TableMem) (hdr : Nat) : List SmbiosField → Startup Unit
  | [] => .ok ()
  | f :: fs => (dumpField w hdr f).bind fun _ => dumpFields w hdr fs

/-- Manufacturer, ProductName, Version, SerialNumber, Guid, WakeUpType, SKUNumber, Family. -/
def type1Fields : List SmbiosField :=
  [.text 4, .text 5, .text 6, .text 7, .number 8 16, .number 24 1, .text 25, .text 26]

/-- Socket, ProcessorType, ProcessorFamily, ProcessorManufacturer, ProcessorVersion, MaxSpeed,
CurrentSpeed, CoreCount, EnabledCoreCount. -/
def type4Fields : List SmbiosField :=
  [.text 4, .number 5 1, .number 6 1, .text 7, .text 16, .number 20 2, .number 22 2,
    .number 35 1, .number 36 1]

def dumpSmbiosDataType1 (debugFlag : Nat) (w : TableMem) (p : Nat) : Startup Unit :=
  if debugFlag > 4 then dumpFields w p type1Fields else .ok ()

def dumpSmbiosDataType4 (debugFlag : Nat) (w : TableMem) (p : Nat) : Startup Unit :=
  if debugFlag > 4 then dumpFields w p type4Fields else .ok ()

/-- The number of bytes that `dump_hex` reads is kept in eight bits. -/
def dumpSmbiosData (debugFlag : Nat) (w : TableMem) (p : Nat) : Startup Unit :=
  if debugFlag > 4 then
    (w.loadAll 4 p).bind fun _ =>
      (w.load (p + 1)).bind fun length =>
        (w.findTwoNuls (w.rounds (p + length.toNat)) (p + length.toNat)).bind fun e =>
          w.loadAll ((e - p + 2) % 256) p
  else .ok ()

/-- What is printed of the structure that is found. -/
def dumpFound (debugFlag : Nat) (type : UInt8) (w : TableMem) (p : Nat) : Startup Unit :=
  (dumpSmbiosData debugFlag w p).bind fun _ =>
    (if type = 1 then dumpSmbiosDataType1 debugFlag w p else .ok ()).bind fun _ =>
      if type = 4 then dumpSmbiosDataType4 debugFlag w p else .ok ()

/-- The loop over the structures. -/
def findType (debugFlag : Nat) (type : UInt8) (w : TableMem) : Nat → Nat → Startup Nat
  | 0, _ => .error .noReturn
  | fuel + 1, p =>
    (w.load p).bind fun t =>
      if t = type then (dumpFound debugFlag type w p).bind fun _ => .ok p
      else if t = 127 then .ok nullPaddr
      else
        (w.load (p + 1)).bind fun length =>
          (w.findTwoNuls (w.rounds (p + length.toNat)) (p + length.toNat)).bind fun e =>
            if e + 2 ≥ w.stop then .ok nullPaddr else findType debugFlag type w fuel (e + 2)

structure Smbios where
  smbiosTable : Nat
  useSmbios3 : Bool
  deriving DecidableEq

/-- `cfgTbl` is `uefi_find_config_tbl`, for the SMBIOS 3 table or the older one. -/
def boardFindEfiSmbiosTable (cfgTbl : Bool → Option Nat) (s : Smbios) : Smbios :=
  if s.smbiosTable = nullPaddr then
    match cfgTbl true with
    | some table => ⟨table, true⟩
    | none =>
      match cfgTbl false with
      | some table => { s with smbiosTable := table }
      | none => s
  else s

def Smbios.tableAddress (s : Smbios) (m : Mem) : Nat :=
  if s.useSmbios3 then readPtr m (s.smbiosTable + 16) else read32 m (s.smbiosTable + 24)

/-- `TableMaximumSize`, or `TableLength` in the older entry point. -/
def Smbios.tableLength (s : Smbios) (m : Mem) : Nat :=
  if s.useSmbios3 then read32 m (s.smbiosTable + 12) else read16 m (s.smbiosTable + 22)

/-- The structures that the entry point gives. -/
def Smbios.structures (s : Smbios) (m : Mem) : TableMem :=
  ⟨m, s.tableAddress m, u64 (s.tableAddress m + s.tableLength m)⟩

def boardFindEfiSmbiosByType (cfgTbl : Bool → Option Nat) (debugFlag : Nat) (type : UInt8) (m : Mem)
    (s : Smbios) :
    Startup (Smbios × Nat) :=
  let s := boardFindEfiSmbiosTable cfgTbl s
  if s.smbiosTable = nullPaddr then .ok (s, nullPaddr)
  else
    let w := s.structures m
    (findType debugFlag type w (w.rounds w.start) w.start).bind fun p => .ok (s, p)

/-! ### Tables -/

/-- A string of a string set, which has at least one character. -/
abbrev SmbiosText := { s : CString // s.1 ≠ [] }

/-- A structure. The length, the second byte of the formatted area, counts the whole area: the type,
itself, and the bytes from the handle on. -/
structure SmbiosStructure where
  type : UInt8
  rest : List UInt8
  handle_le : 2 ≤ rest.length
  le : rest.length ≤ 253
  strings : List SmbiosText

def SmbiosStructure.formatted (s : SmbiosStructure) : List UInt8 :=
  s.type :: UInt8.ofNat (s.rest.length + 2) :: s.rest

/-- The strings with their NULs, and the NUL behind them. -/
def textBytes : List SmbiosText → List UInt8
  | [] => [0]
  | s :: l => s.1.1 ++ 0 :: textBytes l

def stringSet (l : List SmbiosText) : List UInt8 := if l = [] then [0, 0] else textBytes l

def SmbiosStructure.encode (s : SmbiosStructure) : List UInt8 := s.formatted ++ stringSet s.strings

def encodeTable (l : List SmbiosStructure) : List UInt8 := l.flatMap (·.encode)

/-- `s` is the first structure of type `t`, with the structures `pre` before it, and
none of them is of type 127. -/
structure FirstOfType (table : List SmbiosStructure) (t : UInt8) (pre : List SmbiosStructure)
    (s : SmbiosStructure) : Prop where
  prefix_of : pre ++ [s] <+: table
  type : s.type = t
  before : ∀ x ∈ pre, x.type ≠ t ∧ x.type ≠ 127

/-- The field is in the formatted area, and if it is the number of a string, there is
that string. -/
def SmbiosStructure.HasField (s : SmbiosStructure) : SmbiosField → Prop
  | .text offset => ∃ idx, s.formatted[offset]? = some idx ∧ idx.toNat ≤ s.strings.length
  | .number offset size => offset + size ≤ s.formatted.length

/-- The structure has the fields that are printed of its type. -/
structure SmbiosStructure.Printable (s : SmbiosStructure) : Prop where
  type1 : s.type = 1 → ∀ f ∈ type1Fields, s.HasField f
  type4 : s.type = 4 → ∀ f ∈ type4Fields, s.HasField f

/-- What the look-up is to return for a table at `p`. -/
def Found (table : List SmbiosStructure) (t : UInt8) (p r : Nat) : Prop :=
  (∃ pre s, FirstOfType table t pre s ∧ r = p + (encodeTable pre).length) ∨
    (∀ pre s, ¬ FirstOfType table t pre s) ∧ r = nullPaddr

/-- The entry point declares the table, and it lies where the entry point says. -/
structure Smbios.Declares (s : Smbios) (m : Mem) (table : List SmbiosStructure) : Prop where
  found : s.smbiosTable ≠ nullPaddr
  some : table ≠ []
  length : s.tableLength m = (encodeTable table).length
  room : s.tableAddress m + (encodeTable table).length < 2 ^ 64
  holds : Holds m (s.tableAddress m) (encodeTable table)

/-- Every string of every structure is got by its number. -/
def StringsByNumber (w : TableMem) (table : List SmbiosStructure) (p : Nat) : Prop :=
  ∀ pre s post (idx : UInt8) str, table = pre ++ s :: post → p + (encodeTable pre).length ≠ 0 →
    0 < idx.toNat → s.strings[idx.toNat - 1]? = some str →
    ∃ q, getSmbiosString w (p + (encodeTable pre).length) idx = .ok (some q) ∧
    Holds w.mem q (str.1.1 ++ [0])

structure TableMem.Inside (w : TableMem) (p : Nat) (l : List UInt8) : Prop where
  holds : Holds w.mem p l
  lo : w.start ≤ p
  hi : p + l.length ≤ w.stop

section
variable {w : TableMem} {p fuel : Nat} {b : UInt8} {l l' : List UInt8}

namespace TableMem

theorem Inside.left (h : w.Inside p (l ++ l')) : w.Inside p l :=
  ⟨(holds_append.mp h.holds).1, h.lo, by have := h.hi; rw [List.length_append] at this; omega⟩

theorem Inside.right (h : w.Inside p (l ++ l')) : w.Inside (p + l.length) l' :=
  ⟨(holds_append.mp h.holds).2,
    by have := h.lo; omega, by have := h.hi; rw [List.length_append] at this; omega⟩

theorem Inside.tail (h : w.Inside p (b :: l)) : w.Inside (p + 1) l := Inside.right (l := [b]) h

theorem Inside.load (h : w.Inside p (b :: l)) : w.load p = .ok b := by
  have hlo := h.lo
  have hhi := h.hi
  rw [List.length_cons] at hhi
  rw [TableMem.load, if_pos ⟨hlo, by omega⟩, h.holds.1]

theorem Inside.load_at {k : Nat} (h : w.Inside p l) (hb : l[k]? = some b) :
    w.load (p + k) = .ok b := by
  obtain ⟨hk, rfl⟩ := List.getElem?_eq_some_iff.mp hb
  have hsplit : l = l.take k ++ l[k] :: l.drop (k + 1) := by
    rw [← List.drop_eq_getElem_cons hk, List.take_append_drop]
  have hright : w.Inside (p + (l.take k).length) (l[k] :: l.drop (k + 1)) :=
    Inside.right (hsplit ▸ h)
  rw [List.length_take_of_le hk.le] at hright
  exact hright.load

theorem Inside.loadAll {n : Nat} (h : w.Inside p l) (hn : n ≤ l.length) :
    w.loadAll n p = .ok () := by
  induction n generalizing p l with
  | zero => rfl
  | succ n ih =>
    cases l with
    | nil => simp at hn
    | cons b l =>
      rw [TableMem.loadAll, h.load, ok_bind]
      exact ih h.tail (by simpa using hn)

theorem Inside.rounds_gt (h : w.Inside p l) : l.length < w.rounds p := by
  have := h.hi
  rw [rounds]
  omega

theorem Inside.findNul (h : w.Inside p (l ++ 0 :: l')) (hl : 0 ∉ l) (hfuel : l.length < fuel) :
    w.findNul fuel p = .ok (p + l.length) := by
  induction l generalizing p fuel with
  | nil =>
    obtain ⟨fuel, rfl⟩ := Nat.exists_eq_succ_of_ne_zero (Nat.ne_of_gt (Nat.zero_lt_of_lt hfuel))
    rw [TableMem.findNul, Inside.load (l := l') h, ok_bind]
    rfl
  | cons c l ih =>
    obtain ⟨fuel, rfl⟩ := Nat.exists_eq_succ_of_ne_zero (Nat.ne_of_gt (Nat.zero_lt_of_lt hfuel))
    rw [List.mem_cons, not_or] at hl
    rw [TableMem.findNul, Inside.load (l := l ++ 0 :: l') h, ok_bind, if_neg (Ne.symm hl.1),
      ih (Inside.tail h) hl.2 (by simpa using hfuel), List.length_cons]
    congr 1
    omega

theorem Inside.findTwoNuls_chars (h : w.Inside p (l ++ l')) (hl : 0 ∉ l) :
    w.findTwoNuls (l.length + fuel) p = w.findTwoNuls fuel (p + l.length) := by
  induction l generalizing p with
  | nil => rw [List.length_nil, Nat.zero_add, Nat.add_zero]
  | cons c l ih =>
    rw [List.mem_cons, not_or] at hl
    rw [List.length_cons, Nat.add_right_comm, TableMem.findTwoNuls,
      Inside.load (l := l ++ l') h, ok_bind,
      if_pos (Ne.symm hl.1), ih (Inside.tail h) hl.2, Nat.add_right_comm p, Nat.add_assoc p]

theorem Inside.findTwoNuls_boundary (h : w.Inside p (0 :: b :: l)) (hb : b ≠ 0) :
    w.findTwoNuls (fuel + 1) p = w.findTwoNuls fuel (p + 1) := by
  rw [TableMem.findTwoNuls, h.load, ok_bind, if_neg (not_not.mpr rfl), h.tail.load,
    ok_bind, if_pos hb]

theorem Inside.findTwoNuls_end (h : w.Inside p (0 :: 0 :: l)) :
    w.findTwoNuls (fuel + 1) p = .ok p := by
  rw [TableMem.findTwoNuls, h.load, ok_bind, if_neg (not_not.mpr rfl), h.tail.load, ok_bind,
    if_neg (not_not.mpr rfl)]

end TableMem

open TableMem

theorem textBytes_head (s : SmbiosText) (strings : List SmbiosText) :
    ∃ b l, textBytes (s :: strings) = b :: l ∧ b ≠ 0 := by
  obtain ⟨c, cs, hc⟩ := List.exists_cons_of_ne_nil s.2
  refine ⟨c, cs ++ 0 :: textBytes strings, by rw [textBytes, hc]; rfl, ?_⟩
  rintro rfl
  exact s.1.2 (hc ▸ List.mem_cons_self)

theorem findTwoNuls_textBytes {s : SmbiosText} {strings : List SmbiosText}
    (h : w.Inside p (textBytes (s :: strings) ++ l))
    (hfuel : (textBytes (s :: strings)).length ≤ fuel) :
    w.findTwoNuls fuel p = .ok (p + (textBytes (s :: strings)).length - 2) := by
  induction strings generalizing s p fuel with
  | nil =>
    have hin : w.Inside p (s.1.1 ++ 0 :: 0 :: l) := by simpa [textBytes] using h
    simp only [textBytes, List.length_append, List.length_cons, List.length_nil] at hfuel ⊢
    obtain ⟨n, rfl⟩ := Nat.exists_eq_add_of_le (by omega : s.1.1.length + 1 ≤ fuel)
    rw [Nat.add_assoc, hin.findTwoNuls_chars s.1.2, Nat.add_comm 1, hin.right.findTwoNuls_end]
    rfl
  | cons s' strings ih =>
    have hin : w.Inside p (s.1.1 ++ 0 :: (textBytes (s' :: strings) ++ l)) := by
      rwa [textBytes, List.append_assoc, List.cons_append] at h
    obtain ⟨b, rest, hrest, hb⟩ := textBytes_head s' strings
    have hnext : w.Inside (p + s.1.1.length) (0 :: b :: (rest ++ l)) := by
      have hright := hin.right
      rwa [hrest, List.cons_append] at hright
    have hlen : (textBytes (s :: s' :: strings)).length =
        s.1.1.length + (1 + (textBytes (s' :: strings)).length) := by
      rw [textBytes, List.length_append, List.length_cons, Nat.add_comm 1]
    have htwo : 2 ≤ (textBytes (s' :: strings)).length := by
      have := List.length_pos_iff.mpr s'.2
      rw [textBytes, List.length_append, List.length_cons]
      omega
    rw [hlen] at hfuel ⊢
    obtain ⟨n, rfl⟩ := Nat.exists_eq_add_of_le (by omega : s.1.1.length + 1 ≤ fuel)
    rw [Nat.add_assoc, hin.findTwoNuls_chars s.1.2, Nat.add_comm 1, hnext.findTwoNuls_boundary hb,
      ih hin.right.tail (by omega)]
    congr 1
    omega

theorem findTwoNuls_stringSet {strings : List SmbiosText}
    (h : w.Inside p (stringSet strings ++ l)) :
    w.findTwoNuls (w.rounds p) p = .ok (p + (stringSet strings).length - 2) := by
  have hfuel := h.left.rounds_gt
  cases strings with
  | nil =>
    have hin : w.Inside p (0 :: 0 :: l) := h
    rw [rounds, hin.findTwoNuls_end]
    rfl
  | cons s strings => exact findTwoNuls_textBytes h hfuel.le

end

section
variable {w : TableMem} {p : Nat} {l : List UInt8} {s : SmbiosStructure}

theorem SmbiosStructure.length_formatted (s : SmbiosStructure) :
    s.formatted.length = s.rest.length + 2 := rfl

theorem SmbiosStructure.toNat_length (s : SmbiosStructure) :
    (UInt8.ofNat (s.rest.length + 2)).toNat = s.formatted.length := by
  have := s.le
  rw [UInt8.toNat_ofNat', Nat.mod_eq_of_lt (by omega), length_formatted]

theorem SmbiosStructure.length_encode (s : SmbiosStructure) :
    s.encode.length = s.formatted.length + (stringSet s.strings).length := List.length_append

theorem two_le_stringSet (strings : List SmbiosText) : 2 ≤ (stringSet strings).length := by
  cases strings with
  | nil => exact le_rfl
  | cons s strings =>
    have := List.length_pos_iff.mpr s.2
    rw [stringSet, if_neg (List.cons_ne_nil _ _), textBytes, List.length_append, List.length_cons]
    omega

theorem TableMem.Inside.formatted (h : w.Inside p (s.encode ++ l)) : w.Inside p s.formatted :=
  h.left.left

theorem load_type (h : w.Inside p (s.encode ++ l)) : w.load p = .ok s.type := h.formatted.load

theorem load_length (h : w.Inside p (s.encode ++ l)) :
    w.load (p + 1) = .ok (UInt8.ofNat (s.rest.length + 2)) :=
  h.formatted.tail.load

theorem findTwoNuls_structure (h : w.Inside p (s.encode ++ l)) :
    w.findTwoNuls (w.rounds (p + s.formatted.length)) (p + s.formatted.length) =
      .ok (p + s.encode.length - 2) := by
  have hset : w.Inside (p + s.formatted.length) (stringSet s.strings ++ l) := by
    rw [SmbiosStructure.encode, List.append_assoc] at h
    exact h.right
  rw [findTwoNuls_stringSet hset, s.length_encode, Nat.add_assoc]

theorem nextStrings_ok {strings : List SmbiosText} {n : Nat}
    (h : w.Inside p (textBytes strings ++ l)) (hn : n < strings.length) :
    ∃ q rest, w.nextStrings n p = .ok q ∧ w.Inside q (strings[n].1.1 ++ 0 :: rest) := by
  induction n generalizing p strings with
  | zero =>
    cases strings with
    | nil => simp at hn
    | cons s strings => exact ⟨p, textBytes strings ++ l, rfl, by simpa [textBytes] using h⟩
  | succ n ih =>
    cases strings with
    | nil => simp at hn
    | cons s strings =>
      have hin : w.Inside p (s.1.1 ++ 0 :: (textBytes strings ++ l)) := by simpa [textBytes] using h
      have hnul : w.findNul (w.rounds p) p = .ok (p + s.1.1.length) :=
        hin.findNul s.1.2 hin.left.rounds_gt
      obtain ⟨q, rest, hq, hinq⟩ := ih hin.right.tail (by simpa using hn)
      refine ⟨q, rest, ?_, hinq⟩
      rw [TableMem.nextStrings, hnul, ok_bind, hq]

theorem getSmbiosString_ok {idx : UInt8} (h : w.Inside p (s.encode ++ l)) (hp : p ≠ 0)
    (hpos : 0 < idx.toNat) (hidx : idx.toNat ≤ s.strings.length) :
    ∃ str ∈ s.strings[idx.toNat - 1]?, ∃ q rest, getSmbiosString w p idx = .ok (some q) ∧
      w.Inside q (str.1.1 ++ 0 :: rest) := by
  have hne : s.strings ≠ [] := List.ne_nil_of_length_pos (by omega)
  have hset : w.Inside (p + s.formatted.length) (textBytes s.strings ++ l) := by
    rw [SmbiosStructure.encode, List.append_assoc, stringSet, if_neg hne] at h
    exact h.right
  obtain ⟨q, rest, hq, hin⟩ := nextStrings_ok (n := idx.toNat - 1) hset (by omega)
  refine ⟨_, List.getElem?_eq_getElem _, q, rest, ?_, hin⟩
  rw [getSmbiosString, if_pos ⟨hp, hpos⟩, load_length h, ok_bind, s.toNat_length, hq]
  rfl

theorem dumpField_ok {f : SmbiosField} (h : w.Inside p (s.encode ++ l)) (hf : s.HasField f) :
    dumpField w p f = .ok () := by
  cases f with
  | number offset size =>
    have hsplit : s.formatted = s.formatted.take offset ++ s.formatted.drop offset :=
      (List.take_append_drop _ _).symm
    have hle : offset + size ≤ s.formatted.length := hf
    have hright := TableMem.Inside.right (hsplit ▸ h.formatted)
    rw [List.length_take_of_le (by omega)] at hright
    exact hright.loadAll (by rw [List.length_drop]; omega)
  | text offset =>
    obtain ⟨idx, hidx, hle⟩ := hf
    rw [dumpField, h.formatted.load_at hidx, ok_bind]
    by_cases hc : p ≠ 0 ∧ idx > 0
    · obtain ⟨str, -, q, rest, hq, hin⟩ := getSmbiosString_ok h hc.1 hc.2 hle
      have hnul := hin.findNul str.1.2 hin.left.rounds_gt
      rw [hq, ok_bind, printString, hnul]
      rfl
    · rw [getSmbiosString, if_neg hc]
      rfl

theorem dumpFields_ok {fs : List SmbiosField} (h : w.Inside p (s.encode ++ l))
    (hfs : ∀ f ∈ fs, s.HasField f) :
    dumpFields w p fs = .ok () := by
  induction fs with
  | nil => rfl
  | cons f fs ih =>
    rw [dumpFields, dumpField_ok h (hfs f List.mem_cons_self), ok_bind]
    exact ih fun f hf => hfs f (List.mem_cons_of_mem _ hf)

theorem dumpSmbiosData_ok {debugFlag : Nat} (h : w.Inside p (s.encode ++ l)) :
    dumpSmbiosData debugFlag w p = .ok () := by
  rw [dumpSmbiosData]
  by_cases hd : debugFlag > 4
  · have hlen := s.length_encode
    have hform := s.length_formatted
    have hset := two_le_stringSet s.strings
    have hhandle := s.handle_le
    rw [if_pos hd, h.left.loadAll (by omega), ok_bind, load_length h, ok_bind, s.toNat_length,
      findTwoNuls_structure h, ok_bind]
    refine h.left.loadAll ((Nat.mod_le _ _).trans ?_)
    omega
  · exact if_neg hd

/-- Printing the structure that is found reads nothing outside it. -/
theorem dumpFound_ok {debugFlag : Nat} (h : w.Inside p (s.encode ++ l))
    (hprint : debugFlag ≤ 4 ∨ s.Printable) :
    dumpFound debugFlag s.type w p = .ok () := by
  rw [dumpFound, dumpSmbiosData_ok h, ok_bind]
  have h1 : (if s.type = 1 then dumpSmbiosDataType1 debugFlag w p else .ok ()) = .ok () := by
    by_cases ht : s.type = 1
    · rw [if_pos ht, dumpSmbiosDataType1]
      by_cases hd : debugFlag > 4
      · rw [if_pos hd]
        exact dumpFields_ok h ((hprint.resolve_left (not_le.mpr hd)).type1 ht)
      · exact if_neg hd
    · exact if_neg ht
  rw [h1, ok_bind]
  by_cases ht : s.type = 4
  · rw [if_pos ht, dumpSmbiosDataType4]
    by_cases hd : debugFlag > 4
    · rw [if_pos hd]
      exact dumpFields_ok h ((hprint.resolve_left (not_le.mpr hd)).type4 ht)
    · exact if_neg hd
  · exact if_neg ht

/-! ### The walk -/

variable {t : UInt8} {table pre : List SmbiosStructure} {x : SmbiosStructure}
  {debugFlag fuel r : Nat}

theorem FirstOfType.of_head (h : s.type = t) : FirstOfType (s :: table) t [] s :=
  ⟨List.prefix_append [s] table, h, by simp⟩

theorem FirstOfType.cons (h : FirstOfType table t pre x) (hs : s.type ≠ t ∧ s.type ≠ 127) :
    FirstOfType (s :: table) t (s :: pre) x :=
  ⟨(List.prefix_cons_inj s).mpr h.prefix_of, h.type, List.forall_mem_cons.mpr ⟨hs, h.before⟩⟩

theorem FirstOfType.of_cons (h : FirstOfType (s :: table) t pre x) (hs : s.type ≠ t) :
    s.type ≠ 127 ∧ ∃ pre', pre = s :: pre' ∧ FirstOfType table t pre' x := by
  obtain ⟨hpre, htype, hbefore⟩ := h
  cases pre with
  | nil =>
    obtain ⟨rfl, -⟩ := List.cons_prefix_cons.mp hpre
    exact absurd htype hs
  | cons y pre =>
    obtain ⟨rfl, htail⟩ := List.cons_prefix_cons.mp hpre
    obtain ⟨hy, hrest⟩ := List.forall_mem_cons.mp hbefore
    exact ⟨hy.2, pre, rfl, htail, htype, hrest⟩

theorem encodeTable_cons : encodeTable (s :: table) = s.encode ++ encodeTable table := rfl

theorem Found.cons (h : Found table t (p + s.encode.length) r) (hs : s.type ≠ t ∧ s.type ≠ 127) :
    Found (s :: table) t p r := by
  rcases h with ⟨pre, x, hfirst, rfl⟩ | ⟨hnone, rfl⟩
  · refine .inl ⟨s :: pre, x, hfirst.cons hs, ?_⟩
    rw [encodeTable_cons, List.length_append, Nat.add_assoc]
  · refine .inr ⟨fun pre x hfirst => ?_, rfl⟩
    obtain ⟨-, pre', -, htail⟩ := hfirst.of_cons hs.1
    exact hnone pre' x htail

theorem found_nil : Found [] t p nullPaddr :=
  .inr ⟨fun pre x h => absurd (List.prefix_nil.mp h.prefix_of) (by simp), rfl⟩

theorem findType_ok (hne : table ≠ []) (h : w.Inside p (encodeTable table))
    (hstop : p + (encodeTable table).length = w.stop)
    (hprint : debugFlag ≤ 4 ∨ ∀ pre x, FirstOfType table t pre x → x.Printable)
    (hfuel : table.length ≤ fuel) :
    ∃ r, findType debugFlag t w fuel p = .ok r ∧ Found table t p r := by
  induction table generalizing p fuel with
  | nil => exact absurd rfl hne
  | cons s table ih =>
    rw [encodeTable_cons] at h hstop
    rw [List.length_append] at hstop
    obtain ⟨fuel, rfl⟩ := Nat.exists_eq_add_of_le'
      (Nat.one_le_of_lt (Nat.lt_of_lt_of_le (Nat.succ_pos _) hfuel))
    rw [findType, load_type h, ok_bind]
    by_cases ht : s.type = t
    · subst ht
      refine ⟨p, ?_, .inl ⟨[], s, .of_head rfl, rfl⟩⟩
      rw [if_pos rfl, dumpFound_ok h (hprint.imp_right fun hp => hp [] s (.of_head rfl)), ok_bind]
    rw [if_neg ht]
    by_cases hlast : s.type = 127
    · rw [if_pos hlast]
      exact ⟨_, rfl, .inr ⟨fun pre x hfirst => (hfirst.of_cons ht).1 hlast, rfl⟩⟩
    have hlen := s.length_encode
    have hset := two_le_stringSet s.strings
    have hend : p + s.encode.length - 2 + 2 = p + s.encode.length := by omega
    rw [if_neg hlast, load_length h, ok_bind, s.toNat_length, findTwoNuls_structure h,
      ok_bind, hend]
    cases table with
    | nil =>
      have hstop' : p + s.encode.length = w.stop := hstop
      rw [if_pos hstop'.ge]
      exact ⟨_, rfl, found_nil.cons ⟨ht, hlast⟩⟩
    | cons s' table =>
      have hnext := s'.length_encode
      have hset' := two_le_stringSet s'.strings
      rw [encodeTable_cons, List.length_append] at hstop
      rw [if_neg (by omega)]
      obtain ⟨r, hr, hfound⟩ := ih (List.cons_ne_nil _ _) h.right
        (by rw [encodeTable_cons, List.length_append]; omega)
        (hprint.imp_right fun hp pre x hfirst => hp _ x (hfirst.cons ⟨ht, hlast⟩))
          (Nat.le_of_succ_le_succ hfuel)
      exact ⟨r, hr, hfound.cons ⟨ht, hlast⟩⟩

theorem length_le_encodeTable (table : List SmbiosStructure) :
    table.length ≤ (encodeTable table).length := by
  induction table with
  | nil => exact Nat.zero_le _
  | cons s table ih =>
    have hlen := s.length_encode
    have hset := two_le_stringSet s.strings
    rw [encodeTable_cons, List.length_append, List.length_cons]
    omega

theorem Smbios.Declares.inside {b : Smbios} {m : Mem} (h : b.Declares m table) :
    (b.structures m).Inside (b.tableAddress m) (encodeTable table) ∧
      b.tableAddress m + (encodeTable table).length = (b.structures m).stop := by
  have hstop : b.tableAddress m + (encodeTable table).length = (b.structures m).stop := by
    have hroom := h.room
    rw [structures, h.length, u64_of_lt hroom]
  exact ⟨⟨h.holds, le_rfl, hstop.le⟩, hstop⟩

theorem stringsByNumber (h : w.Inside p (encodeTable table)) : StringsByNumber w table p := by
  rintro pre s post idx str rfl hhdr hpos hstr
  have hsplit : encodeTable (pre ++ s :: post) =
      encodeTable pre ++ (s.encode ++ encodeTable post) := by
    rw [encodeTable, List.flatMap_append]
    rfl
  rw [hsplit] at h
  have hlt := (List.getElem?_eq_some_iff.mp hstr).1
  obtain ⟨str', hstr', q, rest, hq, hin⟩ := getSmbiosString_ok h.right hhdr hpos (by omega)
  obtain rfl : str = str' := Option.some.inj (hstr.symm.trans hstr')
  have hholds := hin.holds
  rw [List.append_cons] at hholds
  exact ⟨q, hq, (holds_append.mp hholds).1⟩

/-- The look-up in a table, and the strings of its structures. Above the debug level at which a
structure is printed, it needs the fields that are printed of it. -/
theorem board_find_efi_smbios {cfgTbl : Bool → Option Nat} {b : Smbios} {m : Mem}
    (h : (boardFindEfiSmbiosTable cfgTbl b).Declares m table)
    (hprint : debugFlag ≤ 4 ∨ ∀ pre x, FirstOfType table t pre x → x.Printable) :
    (∃ r, boardFindEfiSmbiosByType cfgTbl debugFlag t m b =
      .ok (boardFindEfiSmbiosTable cfgTbl b, r) ∧
      Found table t ((boardFindEfiSmbiosTable cfgTbl b).tableAddress m) r) ∧
    StringsByNumber ((boardFindEfiSmbiosTable cfgTbl b).structures m) table
      ((boardFindEfiSmbiosTable cfgTbl b).tableAddress m) := by
  obtain ⟨hin, hstop⟩ := h.inside
  refine ⟨?_, stringsByNumber hin⟩
  obtain ⟨r, hr, hfound⟩ := findType_ok h.some hin hstop hprint
    ((length_le_encodeTable table).trans hin.rounds_gt.le)
  refine ⟨r, ?_, hfound⟩
  rw [boardFindEfiSmbiosByType]
  dsimp only
  rw [if_neg h.found]
  exact (congrArg (Except.bind · _) hr).trans rfl

end

def smbiosMem (structures : List UInt8) : Mem :=
  writeBytes (writeBytes (writeBytes (fun _ => 0) 0x1016 (le16 structures.length)) 0x1018
    (le32 0x2000)) 0x2000 structures

theorem textAb_noNul : (0 : UInt8) ∉ [0x61, 0x62] := by decide

theorem textC_noNul : (0 : UInt8) ∉ [0x63] := by decide

def baseboardTable : List SmbiosStructure :=
  [⟨2, [0, 0, 1, 2], by decide, by decide, [⟨⟨[0x61, 0x62], textAb_noNul⟩, by decide⟩,
    ⟨⟨[0x63], textC_noNul⟩, by decide⟩]⟩, ⟨127, [0, 0], by decide, by decide, []⟩]

theorem board_find_efi_smbios_example :
    (∃ r, boardFindEfiSmbiosByType (fun _ => none) 0 2 (smbiosMem (encodeTable baseboardTable))
      ⟨0x1000, false⟩ = .ok (⟨0x1000, false⟩, r) ∧
      Found baseboardTable 2 0x2000 r) ∧
    StringsByNumber ((⟨0x1000, false⟩ : Smbios).structures (smbiosMem (encodeTable baseboardTable)))
      baseboardTable 0x2000 :=
  @board_find_efi_smbios 2 baseboardTable 0 (fun _ => none) ⟨0x1000, false⟩
    (smbiosMem (encodeTable baseboardTable))
    ⟨by decide, by decide, by decide, by decide, by decide⟩ (.inl (by decide))

/-- A system information that is too short for its fields, alone in its table. -/
def shortTable : List SmbiosStructure := [⟨1, [0, 0], by decide, by decide, []⟩]

theorem dump_reads_outside :
    (⟨0x1000, false⟩ : Smbios).Declares (smbiosMem (encodeTable shortTable)) shortTable ∧
    boardFindEfiSmbiosByType (fun _ => none) 5 1 (smbiosMem (encodeTable shortTable))
      ⟨0x1000, false⟩ = .error .fault :=
  ⟨⟨by decide, by decide, by decide, by decide, by decide⟩, by decide⟩

end QnxStartup
