import QnxStartup.Strings

/-! The hardware information of the system page: `hwi_alloc_tag` and `hwi_alloc_item` of
`hwi_alloc.c`, and what they make of the bytes of the section. -/

namespace QnxStartup

/-- `lsp` with the static `offset` and `last_item`. -/
structure HwiState where
  page : Syspage
  offset : Nat
  lastItem : Nat

def hwiNullOff : Nat := 0xffff

def padName : List UInt8 := [112, 97, 100]

/-- `+=` on a 16-bit field. -/
def add16 (m : Mem) (a n : Nat) : Mem := write16 m a (read16 m a + n)

/-- `hwi_alloc_tag` behind its alignment. A tag begins with its size in words and its
name, each 16 bits; an item goes on with its size, name, owner and number of kids. -/
def placeTag (name : List UInt8) (size : Nat) (s : HwiState) : Startup (Nat × HwiState) :=
  (addString name s.page).bind fun (nameOff, c) =>
    let need := u32 (size + 4)
    let spare := sub32 (c.sects .hwinfo).size s.offset
    (if need > spare then growSyspageSection .hwinfo (u32 (round (need - spare) 128)) c
      else .ok c).bind fun c =>
      let p := (c.sects .hwinfo).p
      let m := add16 c.mem (p + (s.lastItem + 4)) (size / 4)
      let m := write16 m (p + s.offset) (size / 4)
      let m := write16 m (p + (s.offset + 2)) nameOff
      .ok (s.offset, { s with page := { c with mem := m }, offset := u32 (s.offset + size) })

/-- `align_tag`. The padding tag aligns itself first: at an offset that is no multiple of
four the two routines call each other for ever. -/
def alignTag (align : Nat) (s : HwiState) : Startup HwiState :=
  if sub32 (u32 (round s.offset align)) s.offset ≠ 0 then
    if sub32 (u32 (round s.offset 4)) s.offset ≠ 0 then .error .noReturn
    else (placeTag padName 4 s).bind fun (_, s) => .ok s
  else .ok s

def hwiAllocTag (name : List UInt8) (size align : Nat) (s : HwiState) : Startup (Nat × HwiState) :=
  (alignTag align s).bind (placeTag name size)

def hwiAllocItem (name : List UInt8) (size align : Nat) (itemname : List UInt8) (owner : Nat)
    (s : HwiState) :
    Startup (Nat × HwiState) :=
  (addString itemname s.page).bind fun (savedIn, c) =>
    (alignTag align { s with page := c }).bind fun s =>
      (hwiAllocTag name size align { s with lastItem := s.offset }).bind fun (t, s) =>
        let p := (s.page.sects .hwinfo).p
        let m := write16 s.page.mem (p + (t + 6)) savedIn
        let m := write16 m (p + (t + 8)) owner
        let m := if owner ≠ hwiNullOff then add16 m (p + (owner + 10)) 1 else m
        .ok (t, { s with page := { s.page with mem := m } })

/-- The section as bytes by offset, zero from `offset` on. -/
structure HwiTable where
  content : Mem
  offset : Nat
  lastItem : Nat

/-- A tag at the end, counted to the last item. -/
def HwiTable.tag (a : HwiTable) (nameOff size : Nat) : HwiTable :=
  { a with
    content := write16 (write16 (add16 a.content (a.lastItem + 4) (size / 4)) a.offset (size / 4))
      (a.offset + 2)
      nameOff
    offset := a.offset + size }

def HwiTable.startItem (a : HwiTable) : HwiTable := { a with lastItem := a.offset }

/-- The fields of the item at `t`, and its owner's count. -/
def HwiTable.setItem (a : HwiTable) (t nameOff owner : Nat) : HwiTable :=
  let m := write16 (write16 a.content (t + 6) nameOff) (t + 8) owner
  { a with content := if owner ≠ hwiNullOff then add16 m (owner + 10) 1 else m }

/-- The state keeps the table in its section. -/
structure HwiHolds (header : Nat) (s : HwiState) (a : HwiTable) : Prop where
  growing : Growing header s.page
  strings : ∃ names, StringTable s.page names
  offset : s.offset = a.offset
  lastItem : s.lastItem = a.lastItem
  room : a.offset + 4 ≤ (s.page.sects .hwinfo).size
  bytes : ∀ k < (s.page.sects .hwinfo).size, s.page.mem ((s.page.sects .hwinfo).p + k) = a.content k
  clear : ∀ k, a.offset ≤ k → a.content k = 0

/-- A name that fits the system page. -/
def HwiName (name : List UInt8) : Prop := 0 ∉ name ∧ name.length ≤ tempSyspageSize

theorem HwiName.fits {header : Nat} {name : List UInt8} {c : Syspage} (h : HwiName name)
    (hg : Growing header c) :
    StringFits name c := by
  have h1 := h.2
  have h2 := (hg.size_le .strings).2
  simp only [tempSyspageSize] at h1 h2
  unfold StringFits
  omega

theorem HwiHolds.addString {header i : Nat} {s : HwiState} {a : HwiTable} {name : List UInt8}
    {c : Syspage} (hpos : 0 < header) (h : HwiHolds header s a) (hname : HwiName name)
    (hrun : QnxStartup.addString name s.page = .ok (i, c)) :
    HwiHolds header { s with page := c } a := by
  obtain ⟨names, ht⟩ := h.strings
  obtain ⟨hs, hg, hother⟩ := addString_keeps hpos h.growing ht hname.1 (hname.fits h.growing) hrun
  obtain ⟨-, hsize, hbytes⟩ := hother .hwinfo (by decide) (by decide)
  refine ⟨hg, hs, h.offset, h.lastItem, by rw [hsize]; exact h.room, fun k hk => ?_, h.clear⟩
  rw [hsize] at hk
  exact (hbytes k hk).trans (h.bytes k hk)

theorem HwiHolds.write {header off : Nat} {s : HwiState} {a : HwiTable} (n : Nat)
    (h : HwiHolds header s a) (hoff : off + 2 ≤ a.offset) :
    HwiHolds header { s with page := { s.page with
      mem := write16 s.page.mem ((s.page.sects .hwinfo).p + off) n } }
      { a with content := write16 a.content off n } := by
  have hroom := h.room
  have hlen : (le16 n).length = 2 := rfl
  have hfit : off + (le16 n).length ≤ (s.page.sects .hwinfo).size := by
    rw [hlen]
    omega
  obtain ⟨hg, hother⟩ := h.growing.store (le16 n) (by decide) hfit rfl
  obtain ⟨names, ht⟩ := h.strings
  refine ⟨hg, ⟨names, ht.elsewhere (hother .strings (by decide) (by decide))⟩, h.offset,
    h.lastItem, h.room, fun k hk => ?_, fun k hk => ?_⟩
  · have hb := h.bytes k hk
    simp only [write16, writeBytes, hlen]
    by_cases hin : off ≤ k ∧ k < off + 2
    · rw [if_pos (by omega), if_pos hin, Nat.add_sub_add_left]
    · rw [if_neg (by omega), if_neg hin, hb]
  · have hc := h.clear k hk
    simp only at hk ⊢
    rw [write16_of_not_mem (by omega), hc]

theorem HwiHolds.add {header off : Nat} {s : HwiState} {a : HwiTable} (n : Nat)
    (h : HwiHolds header s a) (hoff : off + 2 ≤ a.offset) :
    HwiHolds header { s with page := { s.page with
      mem := add16 s.page.mem ((s.page.sects .hwinfo).p + off) n } }
      { a with content := add16 a.content off n } := by
  have hroom := h.room
  have hread : read16 s.page.mem ((s.page.sects .hwinfo).p + off) = read16 a.content off :=
    read16_congr (h.bytes off (by omega)) (h.bytes (off + 1) (by omega))
  rw [add16, add16, hread]
  exact h.write _ hoff

/-- The section as a byte string: the tags, and zeros. -/
theorem HwiHolds.section {header : Nat} {s : HwiState} {a : HwiTable} (h : HwiHolds header s a) :
    SectionHolds s.page .hwinfo ((List.range a.offset).map a.content ++
      List.replicate ((s.page.sects .hwinfo).size - a.offset) 0) := by
  have hroom := h.room
  refine ⟨?_, ?_⟩
  · simp only [List.length_append, List.length_map, List.length_range, List.length_replicate]
    omega
  · rw [holds_append]
    refine ⟨holds_iff.mpr fun k hk => ?_, holds_replicate.mpr fun k hk => ?_⟩
    · rw [List.length_map, List.length_range] at hk
      rw [h.bytes k (by omega), List.getElem_map, List.getElem_range]
    · rw [List.length_map, List.length_range, Nat.add_assoc, h.bytes _ (by omega),
        h.clear _ (by omega)]

theorem HwiHolds.extend {header size z : Nat} {s : HwiState} {a : HwiTable} {c : Syspage}
    (h : HwiHolds header s a) (hg : Growing header c) (hstrings : ∃ names, StringTable c names)
    (hz : size + 4 ≤ z)
    (hold : SectionHolds c .hwinfo ((List.range a.offset).map a.content ++ List.replicate z 0)) :
    HwiHolds header { s with page := c, offset := a.offset + size }
      { a with offset := a.offset + size } := by
  obtain ⟨hlen, hold⟩ := hold
  rw [List.length_append, List.length_map, List.length_range, List.length_replicate] at hlen
  rw [holds_append, List.length_map, List.length_range, holds_replicate] at hold
  refine ⟨hg, hstrings, rfl, h.lastItem, ?_, fun k hk => ?_,
    fun k hk => h.clear k (by simp only at hk; omega)⟩
  · simp only
    omega
  · simp only at hk ⊢
    by_cases hin : k < a.offset
    · have hb := holds_iff.mp hold.1 k (by rwa [List.length_map, List.length_range])
      rwa [List.getElem_map, List.getElem_range] at hb
    · have hb := hold.2 (k - a.offset) (by omega)
      rw [Nat.add_assoc, Nat.add_sub_cancel' (not_lt.mp hin)] at hb
      rw [hb, h.clear k (not_lt.mp hin)]

theorem HwiHolds.grow {header size : Nat} {s : HwiState} {a : HwiTable} {c : Syspage}
    (hpos : 0 < header) (h : HwiHolds header s a) (hsize : size ≤ tempSyspageSize)
    (hrun : (if u32 (size + 4) > sub32 (s.page.sects .hwinfo).size s.offset then
        growSyspageSection .hwinfo
          (u32 (round (u32 (size + 4) - sub32 (s.page.sects .hwinfo).size s.offset) 128)) s.page
      else .ok s.page) = .ok c) :
    HwiHolds header { s with page := c, offset := u32 (s.offset + size) }
      { a with offset := a.offset + size } := by
  have hroom := h.room
  have hle := h.growing.size_le .hwinfo
  simp only [tempSyspageSize] at hle hsize
  rw [h.offset, u32_of_lt (by omega), sub32_of_le (by omega) (by omega)] at hrun
  obtain ⟨z, hz, hold, -, hg, hother⟩ :=
    h.growing.room hpos (by decide) (h.growing.behind (by decide)) h.section (fun hlt => by
      obtain ⟨h1, h2, h3, h4⟩ :=
        chunk_bounds (n := size + 4 - ((s.page.sects .hwinfo).size - a.offset)) (by omega)
      rw [h3, h4]
      omega) hrun
  obtain ⟨names, ht⟩ := h.strings
  rw [h.offset, u32_of_lt (by omega)]
  exact h.extend hg ⟨names, ht.elsewhere (hother .strings (by decide) (by decide))⟩ hz hold

theorem HwiHolds.placeTag {header size t : Nat} {s s' : HwiState} {a : HwiTable} {name : List UInt8}
    (hpos : 0 < header) (h : HwiHolds header s a) (hname : HwiName name)
    (hsize : size ≤ tempSyspageSize) (h4 : 4 ≤ size) (hlast : a.lastItem + 6 ≤ a.offset + size)
    (hrun : QnxStartup.placeTag name size s = .ok (t, s')) :
    t = a.offset ∧ ∃ nameOff, HwiHolds header s' (a.tag nameOff size) := by
  obtain ⟨page, offset, lastItem⟩ := s
  obtain ⟨content, offset', lastItem'⟩ := a
  obtain rfl : offset = offset' := h.offset
  obtain rfl : lastItem = lastItem' := h.lastItem
  obtain ⟨⟨nameOff, c₁⟩, hadd, hrun⟩ := bind_eq_ok.mp hrun
  obtain ⟨c₂, hgrow, hrun⟩ := bind_eq_ok.mp hrun
  obtain ⟨rfl, rfl⟩ := Prod.mk.inj (Except.ok.inj hrun)
  simp only at hlast
  have h₁ := (h.addString hpos hname hadd).grow hpos hsize hgrow
  have h₂ := h₁.add (size / 4) hlast
  have h₃ := h₂.write (size / 4) (show offset + 2 ≤ offset + size by omega)
  exact ⟨rfl, nameOff, h₃.write nameOff (show offset + 2 + 2 ≤ offset + size by omega)⟩

end QnxStartup
