import Mathlib.Data.List.Basic
import QnxStartup.Machine

/-! The asinfo section of the system page: `as_add`, the search
`as_find_containing`, and `as_add_containing`, which cuts a range into pieces
along the containers it finds. -/

namespace QnxStartup

/-- The constants of the asinfo section that `startup.h` takes from the system
headers. The flags are two bits of the 16-bit `attr` field. -/
class SyspageHeader where
  asAttrKids : Nat
  asAttrContinued : Nat
  asPriorityDefault : Nat
  kids_lt : asAttrKids < 2 ^ 16
  continued_lt : asAttrContinued < 2 ^ 16
  continued_ne_zero : asAttrContinued ≠ 0
  kids_and_continued : asAttrKids &&& asAttrContinued = 0

open SyspageHeader

abbrev qnxSyspageHeader : SyspageHeader where
  asAttrKids := 0x10
  asAttrContinued := 0x20
  asPriorityDefault := 100
  kids_lt := by decide
  continued_lt := by decide
  continued_ne_zero := by decide
  kids_and_continued := by decide

def asOverlayIo : Nat := 0x80000000

def asAttrNone : Nat := 0

def asAttrRam : Nat := asAttrNone

/-- `struct asinfo_entry`. `start` and `stop` are inclusive, `owner` is an element
of the section and `none` stands for `AS_NULL_OFF`. -/
structure AsinfoEntry where
  start : Nat
  stop : Nat
  owner : Option Nat
  name : String
  attr : Nat
  priority : Nat
  deriving DecidableEq, Repr

/-- `own_as->attr |= AS_ATTR_KIDS`. -/
def setKids [SyspageHeader] (owner : Option Nat) (t : List AsinfoEntry) : List AsinfoEntry :=
  match owner with
  | none => t
  | some o => t.modify o (fun as => { as with attr := as.attr ||| asAttrKids })

/-- The part of `as_add64` before the overlay. -/
def asAddEntry [SyspageHeader] (start stop attr : Nat) (name : String) (owner : Option Nat)
    (t : List AsinfoEntry) : List AsinfoEntry :=
  setKids owner (t ++ [⟨start, stop, owner, name, attr % 2 ^ 16, asPriorityDefault⟩])

/-- Returns the section and the element added. -/
def asAdd [SyspageHeader] (start stop attr : Nat) (name : String) (owner : Option Nat)
    (t : List AsinfoEntry) : List AsinfoEntry × Nat :=
  let off := t.length
  let t := asAddEntry start stop attr name owner t
  if attr &&& asOverlayIo ≠ 0 then
    (asAddEntry start stop (attr &&& compl32 asOverlayIo) "io" (some off) t, off)
  else (t, off)

/-- The loop of `match_name`. An owner chain leads to earlier and earlier elements,
so the one of element `i` ends within `i + 1` turns. -/
def matchChain (name : String) (t : List AsinfoEntry) : Nat → Nat → Bool
  | 0, _ => false
  | fuel + 1, i =>
    match t[i]? with
    | none => false
    | some as =>
      if as.name = name then true
      else
        match as.owner with
        | none => false
        | some o => matchChain name t fuel o

def matchName (t : List AsinfoEntry) (i : Nat) (name : String) : Bool := matchChain name t (i + 1) i

/-- The three tests of `as_find_containing`. -/
def AsinfoEntry.overlaps (as : AsinfoEntry) (start stop : Nat) : Bool :=
  (start ≥ as.start && start ≤ as.stop) || (stop ≥ as.start && stop ≤ as.stop) ||
    (start ≤ as.start && stop ≥ as.stop)

/-- The body of the search loop at element `i`. -/
def containsAt (t : List AsinfoEntry) (start stop : Nat) (container : String) (i : Nat) : Bool :=
  match t[i]? with
  | none => false
  | some as => matchName t i container && as.overlaps start stop

def searchStart : Option Nat → Nat
  | none => 0
  | some o => o + 1

/-- The first hit behind `off`. -/
def asFindContaining (off : Option Nat) (start stop : Nat) (container : String)
    (t : List AsinfoEntry) : Option Nat :=
  (List.range' (searchStart off) (t.length - searchStart off)).find?
    (containsAt t start stop container)

structure AsRange where
  start : Nat
  stop : Nat
  owner : Nat
  deriving DecidableEq, Repr

/-- The inner loop of `as_add_containing`: puts a piece on the list, inside the
piece that its start falls in. -/
def placePiece (pieceStart pieceEnd owner : Nat) : List AsRange → List AsRange
  | [] => [⟨pieceStart, pieceEnd, owner⟩]
  | curr :: rest =>
    if curr.start ≤ pieceStart ∧ curr.stop ≥ pieceStart then
      if curr.start = pieceStart ∧ curr.stop = pieceEnd then { curr with owner := owner } :: rest
      else if curr.start = pieceStart then
        ⟨pieceStart, pieceEnd, owner⟩ :: { curr with start := u64 (pieceEnd + 1) } :: rest
      else
        let oldEnd := curr.stop
        { curr with stop := sub64 pieceStart 1 } :: ⟨pieceStart, pieceEnd, owner⟩ ::
          (if oldEnd ≠ pieceEnd then ⟨u64 (pieceEnd + 1), oldEnd, curr.owner⟩ :: rest else rest)
    else curr :: placePiece pieceStart pieceEnd owner rest

/-- What a container found at `owner` does to the list. -/
def gatherPiece (start stop : Nat) (t : List AsinfoEntry) (list : List AsRange) (owner : Nat) :
    List AsRange :=
  match t[owner]? with
  | none => list
  | some as =>
    let pieceStart := if as.start > start then as.start else start
    let pieceEnd := if as.stop < stop then as.stop else stop
    placePiece pieceStart pieceEnd owner list

/-- The first loop of `as_add_containing`. Every turn moves `owner` forward. -/
def gatherPieces (start stop : Nat) (container : String) (t : List AsinfoEntry) :
    Nat → Option Nat → List AsRange → List AsRange
  | 0, _, list => list
  | fuel + 1, owner, list =>
    match asFindContaining owner start stop container t with
    | none => list
    | some o => gatherPieces start stop container t fuel (some o) (gatherPiece start stop t list o)

/-- The second loop: adds the pieces. Returns the section, the first and the last
element added. -/
def addPieces [SyspageHeader] (pieceAttr : Nat) (name : String) :
    List AsRange → List AsinfoEntry → Option Nat → Nat → List AsinfoEntry × Option Nat × Nat
  | [], t, startOff, off => (t, startOff, off)
  | r :: list, t, startOff, off =>
    if r.start ≤ r.stop then
      let (t, off) := asAdd r.start r.stop pieceAttr name (some r.owner) t
      addPieces pieceAttr name list t (if startOff = none then some off else startOff) off
    else addPieces pieceAttr name list t startOff off

/-- The loop that overlays the pieces, from element `off` on. -/
def overlayPieces [SyspageHeader] (attr : Nat) (name : String) :
    Nat → Nat → List AsinfoEntry → List AsinfoEntry
  | 0, _, t => t
  | fuel + 1, off, t =>
    match t[off]? with
    | none => t
    | some as =>
      let t := (asAdd as.start as.stop attr name (some off) t).1
      match t[off]? with
      | none => t
      | some as =>
        if as.attr &&& asAttrContinued = 0 then t else overlayPieces attr name fuel (off + 1) t

def clearContinued [SyspageHeader] (off : Nat) (t : List AsinfoEntry) : List AsinfoEntry :=
  t.modify off (fun as => { as with attr := as.attr &&& compl32 asAttrContinued })

def asAddContaining [SyspageHeader] (start stop attr : Nat) (name container : String)
    (t : List AsinfoEntry) : List AsinfoEntry × Option Nat :=
  let list := gatherPieces start stop container t (t.length + 1) none []
  let pieceAttr := (attr &&& compl32 asOverlayIo) ||| asAttrContinued
  match addPieces pieceAttr name list t none 0 with
  | (t, none, _) => (t, none)
  | (t, some startOff, off) =>
    let t := clearContinued off t
    if attr &&& asOverlayIo ≠ 0 then
      (overlayPieces (attr &&& compl32 asOverlayIo) name t.length startOff t, some startOff)
    else (t, some startOff)

/-- An element up to its flags and priority. -/
def AsinfoEntry.plain (as : AsinfoEntry) : AsinfoEntry := { as with attr := 0, priority := 0 }

@[simp] theorem plain_start (as : AsinfoEntry) : as.plain.start = as.start := rfl
@[simp] theorem plain_stop (as : AsinfoEntry) : as.plain.stop = as.stop := rfl
@[simp] theorem plain_owner (as : AsinfoEntry) : as.plain.owner = as.owner := rfl
@[simp] theorem plain_name (as : AsinfoEntry) : as.plain.name = as.name := rfl
@[simp] theorem plain_with_attr (as : AsinfoEntry) (attr : Nat) :
    ({ as with attr := attr } : AsinfoEntry).plain = as.plain := rfl

theorem map_modify_of_comp {f g : AsinfoEntry → AsinfoEntry} (h : ∀ as, f (g as) = f as) (i : Nat)
    (t : List AsinfoEntry) : (t.modify i g).map f = t.map f := by
  apply List.ext_getElem?
  intro j
  rw [List.getElem?_map, List.getElem?_modify, List.getElem?_map]
  cases t[j]? with
  | none => split <;> rfl
  | some as =>
    split
    · simpa using h as
    · rfl

@[simp] theorem setKids_plain [SyspageHeader] (owner : Option Nat) (t : List AsinfoEntry) :
    (setKids owner t).map AsinfoEntry.plain = t.map AsinfoEntry.plain := by
  cases owner with
  | none => rfl
  | some o => exact map_modify_of_comp (fun as => plain_with_attr as _) o t

@[simp] theorem clearContinued_plain [SyspageHeader] (off : Nat) (t : List AsinfoEntry) :
    (clearContinued off t).map AsinfoEntry.plain = t.map AsinfoEntry.plain :=
  map_modify_of_comp (fun as => plain_with_attr as _) off t

theorem asAddEntry_plain [SyspageHeader] (start stop attr : Nat) (name : String)
    (owner : Option Nat) (t : List AsinfoEntry) :
    (asAddEntry start stop attr name owner t).map AsinfoEntry.plain =
      t.map AsinfoEntry.plain ++ [⟨start, stop, owner, name, 0, 0⟩] := by
  simp [asAddEntry, AsinfoEntry.plain]

theorem asAdd_plain [SyspageHeader] {attr : Nat} (h : attr &&& asOverlayIo = 0) (start stop : Nat)
    (name : String) (owner : Option Nat) (t : List AsinfoEntry) :
    (asAdd start stop attr name owner t).1.map AsinfoEntry.plain =
      t.map AsinfoEntry.plain ++ [⟨start, stop, owner, name, 0, 0⟩] := by
  simp [asAdd, h, asAddEntry_plain]

theorem matchChain_plain (name : String) (t : List AsinfoEntry) (fuel i : Nat) :
    matchChain name (t.map AsinfoEntry.plain) fuel i = matchChain name t fuel i := by
  induction fuel generalizing i with
  | zero => rfl
  | succ fuel ih =>
    simp only [matchChain, List.getElem?_map]
    cases t[i]? with
    | none => rfl
    | some as =>
      simp only [Option.map_some, plain_name, plain_owner]
      cases as.owner with
      | none => rfl
      | some o => simp only [ih]

theorem matchName_plain (t : List AsinfoEntry) (i : Nat) (name : String) :
    matchName (t.map AsinfoEntry.plain) i name = matchName t i name :=
  matchChain_plain name t (i + 1) i

/-- Owners are earlier elements, as `as_add` is always passed the offset of an
element that exists. -/
def Owned (t : List AsinfoEntry) : Prop :=
  ∀ (i : Nat) (as : AsinfoEntry) (o : Nat), t[i]? = some as → as.owner = some o → o < i

theorem matchChain_append {t : List AsinfoEntry} (ht : Owned t) (u : List AsinfoEntry)
    (name : String) (fuel i : Nat) (hi : i < t.length) :
    matchChain name (t ++ u) fuel i = matchChain name t fuel i := by
  induction fuel generalizing i with
  | zero => rfl
  | succ fuel ih =>
    simp only [matchChain, List.getElem?_append_left hi, List.getElem?_eq_getElem hi]
    cases ho : t[i].owner with
    | none => rfl
    | some o =>
      have hlt := ht i t[i] o (List.getElem?_eq_getElem hi) ho
      simp only [ih o (hlt.trans hi)]

theorem matchName_append {t : List AsinfoEntry} (ht : Owned t) (u : List AsinfoEntry)
    (name : String) {i : Nat} (hi : i < t.length) :
    matchName (t ++ u) i name = matchName t i name :=
  matchChain_append ht u name (i + 1) i hi

theorem asFindContaining_eq_some {off : Option Nat} {start stop : Nat} {container : String}
    {t : List AsinfoEntry} {i : Nat} :
    asFindContaining off start stop container t = some i ↔
      containsAt t start stop container i = true ∧ (searchStart off ≤ i ∧ i < t.length) ∧
        ∀ j, searchStart off ≤ j → j < i → containsAt t start stop container j = false := by
  unfold asFindContaining
  rw [List.find?_range'_eq_some]
  simp only [List.mem_range'_1, Bool.not_eq_eq_eq_not, Bool.not_true]
  constructor
  · rintro ⟨h, hi, hj⟩
    exact ⟨h, by omega, hj⟩
  · rintro ⟨h, hi, hj⟩
    exact ⟨h, by omega, hj⟩

theorem asFindContaining_eq_none {off : Option Nat} {start stop : Nat} {container : String}
    {t : List AsinfoEntry} :
    asFindContaining off start stop container t = none ↔
      ∀ j, searchStart off ≤ j → containsAt t start stop container j = false := by
  unfold asFindContaining
  rw [List.find?_range'_eq_none]
  simp only [Bool.not_eq_eq_eq_not, Bool.not_true]
  constructor
  · intro h j hj
    rcases lt_or_ge j t.length with hlt | hge
    · exact h j hj (by omega)
    · simp [containsAt, List.getElem?_eq_none hge]
  · exact fun h j hj _ => h j hj

end QnxStartup
