import QnxStartup.Bytes
import QnxStartup.Cursor
import QnxStartup.FindRam

/-! The search for ACPI tables: `acpi_find_table_next`, with the array of addresses that its
first call builds from the RSDT or the XSDT. -/

namespace QnxStartup

/-- What the firmware has left in memory, the address of the RSDP if there is one, and `ws_alloc`
by the size in bytes: nothing, or what the new array holds. -/
structure AcpiFirmware where
  mem : Mem
  rsdp : Option Nat
  wsAlloc : Nat → Option (Nat → Nat)

/-- The statics `num_tbls` and `tbl_array`. -/
structure AcpiState where
  numTbls : Int
  tblArray : Option (List Nat)
  deriving DecidableEq

def acpiInit : AcpiState := ⟨-1, none⟩

def acpiFadtSignature : Nat := 0x50434146

namespace AcpiFirmware

variable (f : AcpiFirmware)

def signature (tbl : Nat) : Nat := read32 f.mem tbl

def length (tbl : Nat) : Nat := read32 f.mem (tbl + 4)

/-- The field `DSDT` of a FADT. -/
def dsdt (tbl : Nat) : Nat := read32 f.mem (tbl + 40)

/-- The field `X_DSDT` of a FADT. -/
def xDsdt (tbl : Nat) : Nat := readPtr f.mem (tbl + 140)

/-- `Revision` is `ACPI_RSDP_REVISION_1_0`, or `XsdtAddress` is 0. -/
def usesRsdt (root : Nat) : Bool := f.mem (root + 15) = 0 ∨ readPtr f.mem (root + 24) = 0

def rsdtAddress (root : Nat) : Nat := read32 f.mem (root + 16)

def xsdtAddress (root : Nat) : Nat := readPtr f.mem (root + 24)

def rsdtEntry (tbl i : Nat) : Nat := read32 f.mem (tbl + 36 + 4 * i)

def xsdtEntry (tbl i : Nat) : Nat := readPtr f.mem (tbl + 36 + 8 * i)

end AcpiFirmware

def setTbl (arr : List Nat) (i v : Nat) : Startup (List Nat) :=
  if i < arr.length then .ok (arr.set i v) else .error .fault

def getTbl (arr : List Nat) (i : Nat) : Startup Nat :=
  match arr[i]? with
  | some v => .ok v
  | none => .error .fault

/-- `num_tbls * sizeof(*tbl_array)`. -/
def tblArraySize (numTbls : Int) : Nat := u64 (uint64 numTbls * 8)

def newTblArray (content : Nat → Nat) (numTbls : Int) : List Nat :=
  (List.range (tblArraySize numTbls / 8)).map content

/-- The loops that fill the array from `i` on. -/
def fillTables : List Nat → Nat → List Nat → Startup (List Nat)
  | [], _, arr => .ok arr
  | v :: l, i, arr => (setTbl arr i v).bind (fillTables l (i + 1))

/-- The loop over the entries of the XSDT from the `i`-th on. It stores an entry at `tblIndex` and
then looks at the table at `i`. -/
def xsdtTables (f : AcpiFirmware) : List Nat → Nat → Nat → List Nat → Startup (Nat × List Nat)
  | [], _, tblIndex, arr => .ok (tblIndex, arr)
  | entry :: l, i, tblIndex, arr =>
    (setTbl arr tblIndex entry).bind fun arr =>
      (getTbl arr i).bind fun tbl =>
        if f.signature tbl = acpiFadtSignature ∧ f.xDsdt tbl ≠ nullPaddr then
          (setTbl arr (u32 (tblIndex + 1)) (f.xDsdt tbl)).bind
            (xsdtTables f l (i + 1) (u32 (u32 (tblIndex + 1) + 1)))
        else xsdtTables f l (i + 1) (u32 (tblIndex + 1)) arr

namespace AcpiFirmware

/-- `num_tbls` from the RSDT. -/
def rsdtNumTbls (f : AcpiFirmware) (tbl : Nat) : Int := int32 (u32 (sub64 (f.length tbl) 36 / 4))

def numXsdtTbls (f : AcpiFirmware) (tbl : Nat) : Nat := u32 (sub64 (f.length tbl) 36 / 8)

/-- `num_tbls` from the XSDT, with the extra entry. -/
def xsdtNumTbls (f : AcpiFirmware) (tbl : Nat) : Int := int32 (u32 (f.numXsdtTbls tbl + 1))

def buildFromRsdt (f : AcpiFirmware) (tbl : Nat) : Startup AcpiState :=
  let num := f.rsdtNumTbls tbl
  match f.wsAlloc (tblArraySize num) with
  | none => .ok ⟨num, none⟩
  | some content =>
    (fillTables ((List.range (uint32 num)).map (f.rsdtEntry tbl)) 0
      (newTblArray content num)).bind fun arr =>
      .ok ⟨num, some arr⟩

def buildFromXsdt (f : AcpiFirmware) (tbl : Nat) : Startup AcpiState :=
  let num := f.xsdtNumTbls tbl
  match f.wsAlloc (tblArraySize num) with
  | none => .ok ⟨num, none⟩
  | some content =>
    (fillTables (List.replicate (uint32 num) nullPaddr) 0 (newTblArray content num)).bind fun arr =>
      (xsdtTables f ((List.range (f.numXsdtTbls tbl)).map (f.xsdtEntry tbl)) 0 0 arr).bind
        fun (tblIndex, arr) =>
        .ok ⟨if tblIndex < uint32 num then int32 tblIndex else num, some arr⟩

/-- The table-array construction. -/
def buildTables (f : AcpiFirmware) : Startup AcpiState :=
  match f.rsdp with
  | none => .ok ⟨0, none⟩
  | some root =>
    if f.usesRsdt root then f.buildFromRsdt (f.rsdtAddress root)
      else f.buildFromXsdt (f.xsdtAddress root)

/-- The search, and the last length that it has stored through `lenp`. -/
def searchTables (f : AcpiFirmware) (tableName startSearch : Nat) (arr : List Nat) :
    Nat → Nat → Bool → Option Nat → Startup (Nat × Option Nat)
  | 0, _, _, len => .ok (nullPaddr, len)
  | n + 1, i, searching, len =>
    (getTbl arr i).bind fun tbl =>
      if searching then
        if f.signature tbl = tableName then .ok (tbl, some (f.length tbl))
        else f.searchTables tableName startSearch arr n (i + 1) true (some (f.length tbl))
      else f.searchTables tableName startSearch arr n (i + 1) (startSearch = tbl) len

def acpiFindTableNext (f : AcpiFirmware) (tableName startSearch : Nat) (s : AcpiState) :
    Startup ((Nat × Option Nat) × AcpiState) :=
  if s.numTbls = 0 then .ok ((nullPaddr, none), s)
  else
    (if s.tblArray.isSome then .ok s else f.buildTables).bind fun s =>
      match s.tblArray with
      | none => .ok ((nullPaddr, none), s)
      | some arr =>
        (f.searchTables tableName startSearch arr (uint32 s.numTbls) 0
          (startSearch = nullPaddr) none).bind fun r =>
          .ok (r, s)

/-- The calls that begin at `NULL_PADDR` in `s` and go on with each result. -/
inductive Enumerates (f : AcpiFirmware) (tableName : Nat) : Nat → AcpiState → List Nat → Prop
  | done {start : Nat} {s s' : AcpiState} {len : Option Nat}
      (h : f.acpiFindTableNext tableName start s = .ok ((nullPaddr, len), s')) :
      Enumerates f tableName start s []
  | step {start a : Nat} {s s' : AcpiState} {len : Option Nat} {l : List Nat}
      (h : f.acpiFindTableNext tableName start s = .ok ((a, len), s')) (ha : a ≠ nullPaddr)
      (rest : Enumerates f tableName a s' l) : Enumerates f tableName start s (a :: l)

/-- The states between the calls. -/
inductive Called (f : AcpiFirmware) : AcpiState → Prop
  | init : Called f acpiInit
  | call {tableName startSearch : Nat} {s s' : AcpiState} {r : Nat × Option Nat} (hs : Called f s)
      (h : f.acpiFindTableNext tableName startSearch s = .ok (r, s')) : Called f s'

/-- The entries of the RSDT or the XSDT that its length leaves room for. -/
def listed (f : AcpiFirmware) : List Nat :=
  match f.rsdp with
  | none => []
  | some root =>
    if f.usesRsdt root then
      (List.range ((f.length (f.rsdtAddress root) - 36) / 4)).map (f.rsdtEntry (f.rsdtAddress root))
    else (List.range ((f.length (f.xsdtAddress root) - 36) / 8)).map
      (f.xsdtEntry (f.xsdtAddress root))

/-- The DSDT of a FADT: the field `X_DSDT` counts with the XSDT, unless it is 0. -/
def dsdtOf (f : AcpiFirmware) (root tbl : Nat) : Option Nat :=
  if f.signature tbl ≠ acpiFadtSignature then none
  else if f.usesRsdt root ∨ f.xDsdt tbl = 0 then if f.dsdt tbl = 0 then none else some (f.dsdt tbl)
  else if f.xDsdt tbl = nullPaddr then none else some (f.xDsdt tbl)

/-- What the loop over the XSDT stores for a table that it looks at. -/
def storedDsdt (f : AcpiFirmware) (tbl : Nat) : Option Nat :=
  if f.signature tbl = acpiFadtSignature ∧ f.xDsdt tbl ≠ nullPaddr then some (f.xDsdt tbl) else none

/-- The array has room for what the loop over the XSDT stores, and holds what the search
is to find. -/
def FitsXsdt (f : AcpiFirmware) (root : Nat) : Prop :=
  (f.listed.Nodup → nullPaddr ∉ f.listed) ∧
    ∀ front e back d, f.listed = front ++ e :: back → (∀ b ∈ front, f.storedDsdt b = none) →
    f.storedDsdt e = some d → (∀ b ∈ (d :: back).dropLast, f.storedDsdt b = none) ∧
        (f.listed.Nodup → d ≠ 0 ∧ d ∉ f.listed ∧
          ∀ b ∈ back, ∀ d', f.dsdtOf root b = some d' → d' = d ∨ d' ∈ f.listed)

def FitsRsdt (f : AcpiFirmware) (root : Nat) : Prop :=
  f.listed.Nodup → ∀ e ∈ f.listed, ∀ d, f.dsdtOf root e = some d → d ∈ f.listed

def Fits (f : AcpiFirmware) : Prop :=
  match f.rsdp with
  | none => True
  | some root =>
    if f.usesRsdt root then
      match f.wsAlloc (tblArraySize (f.rsdtNumTbls (f.rsdtAddress root))) with
      | none => f.listed.Nodup → f.listed = []
      | some _ => 36 ≤ f.length (f.rsdtAddress root) ∧ f.FitsRsdt root
    else
      match f.wsAlloc (tblArraySize (f.xsdtNumTbls (f.xsdtAddress root))) with
      | none => f.listed.Nodup → f.listed = []
      | some _ => 36 ≤ f.length (f.xsdtAddress root) ∧ f.FitsXsdt root

end AcpiFirmware

section Array

variable {front rest : List Nat}

theorem getTbl_append (front rest : List Nat) (x : Nat) :
    getTbl (front ++ x :: rest) front.length = .ok x := by
  rw [getTbl, List.getElem?_append_right le_rfl, Nat.sub_self, List.getElem?_cons_zero]

end Array

section Xsdt

variable {f : AcpiFirmware} {root : Nat}

end Xsdt

/-! ### The search -/

/-- A state that the construction has left, with `tables` up to `num_tbls`. -/
structure AcpiState.Lists (s : AcpiState) (tables : List Nat) : Prop where
  array : ∃ tail, s.tblArray = some (tables ++ tail)
  count : uint32 s.numTbls = tables.length

namespace AcpiFirmware

def carries (f : AcpiFirmware) (tableName a : Nat) : Bool := f.signature a = tableName

def searchFrom (startSearch : Nat) : Option Nat :=
  if startSearch = nullPaddr then none else some startSearch

section Search

variable {f : AcpiFirmware} {tableName startSearch : Nat} {s s₀ : AcpiState} {tables : List Nat}

theorem searchTables_searching (f : AcpiFirmware) (tableName startSearch : Nat)
    (done l tail : List Nat) (len : Option Nat) :
    ∃ len', f.searchTables tableName startSearch (done ++ l ++ tail) l.length done.length true len =
      .ok ((l.find? (f.carries tableName)).getD nullPaddr, len') := by
  induction l generalizing done len with
  | nil => exact ⟨len, rfl⟩
  | cons a l ih =>
    have hget := getTbl_append done (l ++ tail) a
    obtain ⟨len', hrest⟩ := ih (done ++ [a]) (some (f.length a))
    rw [List.append_assoc, List.cons_append, List.length_cons, searchTables, hget]
    simp only [List.length_append, List.length_singleton, List.append_assoc,
      List.singleton_append] at hrest
    simp only [Except.bind, if_true]
    by_cases ha : f.signature a = tableName
    · rw [if_pos ha, List.find?_cons_of_pos (by simpa [carries] using ha)]
      exact ⟨_, rfl⟩
    · rw [if_neg ha, List.find?_cons_of_neg (by simpa [carries] using ha)]
      exact ⟨len', hrest⟩

theorem searchTables_skipping (f : AcpiFirmware) (tableName startSearch : Nat)
    (done l tail : List Nat) (len : Option Nat) :
    ∃ len', f.searchTables tableName startSearch
      (done ++ l ++ tail) l.length done.length false len =
      .ok ((nextMatch (f.carries tableName) l (some startSearch)).getD nullPaddr, len') := by
  induction l generalizing done len with
  | nil => exact ⟨len, rfl⟩
  | cons a l ih =>
    have hget := getTbl_append done (l ++ tail) a
    rw [List.append_assoc, List.cons_append, List.length_cons, searchTables, hget]
    simp only [Except.bind, Bool.false_eq_true, if_false]
    by_cases ha : startSearch = a
    · obtain ⟨len', hrest⟩ := searchTables_searching f tableName startSearch
        (done ++ [a]) l tail len
      simp only [List.length_append, List.length_singleton, List.append_assoc,
        List.singleton_append] at hrest
      have hnext : nextMatch (f.carries tableName) (a :: l) (some startSearch) =
          l.find? (f.carries tableName) := by
        rw [ha]
        exact nextMatch_of_first List.not_mem_nil
      rw [hnext, decide_eq_true ha]
      exact ⟨len', hrest⟩
    · obtain ⟨len', hrest⟩ := ih (done ++ [a]) len
      simp only [List.length_append, List.length_singleton, List.append_assoc,
        List.singleton_append] at hrest
      have hnext : nextMatch (f.carries tableName) (a :: l) (some startSearch) =
          nextMatch (f.carries tableName) l (some startSearch) := by
        rw [nextMatch, List.dropWhile_cons_of_pos (by simpa using Ne.symm ha)]
        rfl
      rw [hnext, decide_eq_false ha]
      exact ⟨len', hrest⟩

theorem searchTables_eq (f : AcpiFirmware) (tableName startSearch : Nat) (hlists : s.Lists tables)
    {arr : List Nat} (harr : s.tblArray = some arr) :
    ∃ len', f.searchTables tableName startSearch arr (uint32 s.numTbls) 0
      (startSearch = nullPaddr) none =
      .ok ((nextMatch (f.carries tableName) tables (searchFrom startSearch)).getD nullPaddr,
        len') := by
  obtain ⟨⟨tail, htail⟩, hcount⟩ := hlists
  obtain rfl := Option.some.inj (harr.symm.trans htail)
  rw [hcount, searchFrom]
  by_cases hstart : startSearch = nullPaddr
  · rw [if_pos hstart, decide_eq_true hstart]
    exact searchTables_searching f tableName startSearch [] tables tail none
  · rw [if_neg hstart, decide_eq_false hstart]
    exact searchTables_skipping f tableName startSearch [] tables tail none

/-- A call in the state that the construction has left, or the call that makes the construction. -/
theorem acpiFindTableNext_eq (tableName startSearch : Nat) (hlists : s.Lists tables)
    (hs₀ : s₀ = s ∨ s₀ = acpiInit ∧ f.buildTables = .ok s) :
    ∃ len, f.acpiFindTableNext tableName startSearch s₀ =
      .ok (((nextMatch (f.carries tableName) tables (searchFrom startSearch)).getD nullPaddr, len),
        s) := by
  obtain ⟨arr, harr⟩ : ∃ arr, s.tblArray = some arr := ⟨_, hlists.array.choose_spec⟩
  obtain ⟨len, hsearch⟩ := searchTables_eq f tableName startSearch hlists harr
  rcases hs₀ with rfl | ⟨rfl, hbuild⟩
  · rw [acpiFindTableNext]
    by_cases hzero : s₀.numTbls = 0
    · have hcount := hlists.count
      rw [hzero] at hcount
      obtain rfl := List.length_eq_zero_iff.mp hcount.symm
      rw [if_pos hzero]
      cases hfrom : searchFrom startSearch <;> exact ⟨none, rfl⟩
    · rw [if_neg hzero, harr]
      simp only [Option.isSome_some, if_true, Except.bind, harr, hsearch]
      exact ⟨len, rfl⟩
  · rw [acpiFindTableNext, if_neg (by decide)]
    simp only [acpiInit, Option.isSome_none, Bool.false_eq_true, if_false, hbuild,
      Except.bind, harr, hsearch]
    exact ⟨len, rfl⟩

theorem Enumerates.walk {l : List Nat} (h : f.Enumerates tableName startSearch s₀ l)
    (hlists : s.Lists tables) (hnull : nullPaddr ∉ tables)
    (hs₀ : s₀ = s ∨ s₀ = acpiInit ∧ f.buildTables = .ok s) :
    Walk (nextMatch (f.carries tableName) tables) (searchFrom startSearch) l := by
  induction h with
  | @done start _ _ _ h =>
    obtain ⟨len, hcall⟩ := acpiFindTableNext_eq tableName start hlists hs₀
    refine .done ?_
    cases hnext : nextMatch (f.carries tableName) tables (searchFrom start) with
    | none => rfl
    | some a =>
      rw [hnext, Option.getD_some, h] at hcall
      cases hcall
      exact absurd (nextMatch_mem hnext).1 hnull
  | @step start a _ _ _ _ h ha _ ih =>
    obtain ⟨len, hcall⟩ := acpiFindTableNext_eq tableName start hlists hs₀
    rw [h] at hcall
    obtain ⟨hresult, rfl⟩ := Prod.mk.inj (Except.ok.inj hcall)
    have hrest := ih (.inl rfl)
    cases hnext : nextMatch (f.carries tableName) tables (searchFrom start) with
    | none =>
      rw [hnext] at hresult
      exact absurd (Prod.mk.inj hresult).1 ha
    | some b =>
      rw [hnext] at hresult
      obtain rfl : a = b := (Prod.mk.inj hresult).1
      rw [searchFrom, if_neg ha] at hrest
      exact .step hnext hrest

theorem acpiFindTableNext_none {num : Int} (hbuild : f.buildTables = .ok ⟨num, none⟩)
    (hs : s = acpiInit ∨ s = ⟨num, none⟩) (tableName startSearch : Nat) :
    f.acpiFindTableNext tableName startSearch s = .ok ((nullPaddr, none), ⟨num, none⟩) := by
  rcases hs with rfl | rfl
  · rw [acpiFindTableNext, if_neg (by decide)]
    simp only [acpiInit, Option.isSome_none, Bool.false_eq_true, if_false, hbuild, Except.bind]
  · rw [acpiFindTableNext]
    split
    · rfl
    · simp only [Option.isSome_none, Bool.false_eq_true, if_false, hbuild, Except.bind]

theorem Called.none {num : Int} (h : f.Called s) (hbuild : f.buildTables = .ok ⟨num, none⟩) :
    s = acpiInit ∨ s = ⟨num, none⟩ := by
  induction h with
  | init => exact .inl rfl
  | @call tableName startSearch _ _ _ _ h ih =>
    rw [acpiFindTableNext_none hbuild ih] at h
    exact .inr (Prod.mk.inj (Except.ok.inj h)).2.symm

end Search

/-! ### The construction, and when the search is complete -/

theorem tblArraySize_negative {num : Int} (hneg : num < 0) (hint : -2 ^ 31 ≤ num) :
    2 ^ 63 ≤ tblArraySize num ∧ tblArraySize num + 8 ≤ 2 ^ 64 ∧ 8 ∣ tblArraySize num := by
  unfold tblArraySize uint64 u64
  omega

section Build

variable {f : AcpiFirmware} {root d e a : Nat} {front back : List Nat} {content : Nat → Nat}

theorem length_lt (f : AcpiFirmware) (tbl : Nat) : f.length tbl < 2 ^ 32 := read32_lt _ _

section Rsdt

variable (hroot : f.rsdp = some root) (hx : f.usesRsdt root = true)
  (hlen : 36 ≤ f.length (f.rsdtAddress root))
  (halloc : f.wsAlloc (tblArraySize (f.rsdtNumTbls (f.rsdtAddress root))) = some content)
include hroot hx

include hlen halloc

end Rsdt

section Xsdt

variable (hroot : f.rsdp = some root) (hx : f.usesRsdt root = false)
include hroot hx

section FirstDsdt

variable (hsplit : f.listed = front ++ e :: back) (hfront : ∀ b ∈ front, f.storedDsdt b = none)
  (he : f.storedDsdt e = some d)
include hsplit hfront he

end FirstDsdt

variable (hlen : 36 ≤ f.length (f.xsdtAddress root))
  (halloc : f.wsAlloc (tblArraySize (f.xsdtNumTbls (f.xsdtAddress root))) = some content)
include hlen halloc

section FirstDsdt

variable (hsplit : f.listed = front ++ e :: back) (hfront : ∀ b ∈ front, f.storedDsdt b = none)
  (he : f.storedDsdt e = some d)
include hsplit hfront he

end FirstDsdt

end Xsdt

end Build

end AcpiFirmware

/-- `ws_alloc` has no memory for an array of a negative length, once it has been told of RAM. -/
theorem wsAlloc_negative {boot : Boot} {s : RamState} {free : FreeList} {num : Int}
    (hready : s.wsReady = true) (hram : sizeofRamEntry < s.ramList.size)
    (hfree : s.ramList.Holds free) (hpa : ∀ x ∈ free.bytes, x < 2 ^ 52) (hneg : num < 0)
    (hint : -2 ^ 31 ≤ num) : wsAlloc boot (tblArraySize num) s = .ok (s, none) := by
  obtain ⟨hhuge, hroom, hdvd⟩ := AcpiFirmware.tblArraySize_negative hneg hint
  have hnone : findRam (tblArraySize num) (2 ^ 3) 0 0 s = nullPaddr := by
    by_contra hfound
    obtain ⟨r, hr, s', e, -, -, hend, -, hsize, -⟩ :=
      findRam_found hfree (by decide) (fun x hx => by have := hpa x hx; omega) hfound
    have hpos := free.pos hr
    have hlast := hpa (r.addr + r.size - 1) (FreeList.mem_bytes.mpr ⟨r, hr, by omega, by omega⟩)
    omega
  rw [wsAlloc, ensureWs, if_pos hready]
  simp only [Except.bind, takeWorkspace]
  rw [if_neg (not_le.mpr hram),
    show round (tblArraySize num) 8 = tblArraySize num from round_eq_self (k := 3)
      (by decide) hroom hdvd]
  exact if_pos hnone

end QnxStartup
