import QnxStartup.FdtRaminfo
import Mathlib.Data.Fintype.Order
import Mathlib.Logic.Relation

/-! What libfdt says of a device tree, and the helpers that read one cell: `fdt_get_u32` and
`fdt_get_int`. -/

namespace QnxStartup

/-! ### Walks over finitely many nodes -/

section
variable {α : Type*} {r : α → α → Prop} {a b : α}

/-- A walk in a finite set that meets no cycle comes to an end. -/
theorem acc_of_no_cycle {S : Set α} (hS : S.Finite) (hclosed : ∀ a ∈ S, ∀ b, r a b → b ∈ S)
    (ha : a ∈ S) (hcycle : ∀ b, Relation.ReflTransGen r a b → ¬ Relation.TransGen r b b) :
    Acc (flip r) a := by
  let T := {b // b ∈ S ∧ Relation.ReflTransGen r a b}
  have hfin : Finite T := Set.Finite.subset hS fun b hb => hb.1
  let later : T → T → Prop := fun b c => Relation.TransGen r c.1 b.1
  have htrans : IsTrans T later := ⟨fun _ _ _ h h' => h'.trans h⟩
  have hirrefl : Std.Irrefl later := ⟨fun b hb => hcycle b.1 b.2.2 hb⟩
  have hwf : WellFounded later := Finite.wellFounded_of_trans_of_irrefl _
  have hacc : ∀ b : T, Acc (flip r) b.1 := fun b => by
    induction hwf.apply b with
    | intro b _ ih =>
      refine ⟨_, fun c hc => ?_⟩
      exact ih ⟨c, hclosed b.1 b.2.1 c hc, b.2.2.tail hc⟩ (.single hc)
  exact hacc ⟨a, ha, .refl⟩

theorem acc_no_cycle (h : Acc (flip r) a) : ¬ Relation.TransGen r a a := by
  induction h with
  | intro a _ ih =>
    intro hcycle
    obtain ⟨b, hab, hba⟩ := Relation.TransGen.head'_iff.mp hcycle
    exact ih b hab (.tail' hba hab)

theorem acc_reached (h : Acc (flip r) a) (hab : Relation.ReflTransGen r a b) : Acc (flip r) b := by
  induction hab with
  | refl => exact h
  | tail _ hbc ih => exact ih.inv hbc

end

/-! ### Look-ups -/

/-- A device tree at `addr`, by what the library says of it. -/
structure DeviceTree where
  addr : Nat
  getprop : Int → String → Except Int (List UInt8)
  parentOffset : Int → Int
  nodeOffsetByPhandle : Nat → Int
  addr_ne : addr ≠ 0
  getprop_error : ∀ node name len, getprop node name = .error len → len < 0

/-- The look-ups of a tree whose nodes have the offsets `nodes`. The root is at 0 and
its name follows the first tag, so that no node is at 4. -/
structure DeviceTree.Documented (t : DeviceTree) (nodes : Set Int) : Prop where
  finite : nodes.Finite
  root_name : 4 ∉ nodes
  getprop : ∀ node ∉ nodes, ∀ name, t.getprop node name = .error (-fdtErrBadoffset)
  parent : ∀ node ∈ nodes, 0 ≤ t.parentOffset node → t.parentOffset node ∈ nodes
  phandle : ∀ p, 0 ≤ t.nodeOffsetByPhandle p → t.nodeOffsetByPhandle p ∈ nodes

def fdtErrBadstructure : Int := 11

/-- Returns the result and what is stored through `pp`. -/
def fdtGetU32 (t : DeviceTree) (node : Int) (offset : Nat) (name : String) : Int × Option Nat :=
  match t.getprop node name with
  | .error len => (len, none)
  | .ok p =>
    if offset + 4 > p.length then (-fdtErrBadstructure, none)
    else (if offset + 4 < p.length then (offset + 4 : Nat) else 0,
      some (cellsValue ((p.drop offset).take 4)))

def fdtGetInt (t : DeviceTree) (node : Int) (offset : Nat) (name : String) : Int × Option Int :=
  ((fdtGetU32 t node offset name).1, (fdtGetU32 t node offset name).2.map int32)

section
variable {t : DeviceTree} {node : Int} {name : String} {p : List UInt8}

theorem fdtGetU32_error {len : Int} (h : t.getprop node name = .error len) :
    fdtGetU32 t node 0 name = (len, none) := by
  rw [fdtGetU32, h]

theorem fdtGetU32_short (h : t.getprop node name = .ok p) (hlen : p.length < 4) :
    fdtGetU32 t node 0 name = (-fdtErrBadstructure, none) := by
  rw [fdtGetU32, h]
  exact if_pos (by omega)

theorem fdtGetU32_cell (h : t.getprop node name = .ok p) (hlen : p.length = 4) :
    fdtGetU32 t node 0 name = (0, some (cellsValue p)) := by
  rw [fdtGetU32, h]
  dsimp only
  rw [if_neg (by omega), if_neg (by omega), List.drop_zero, List.take_of_length_le hlen.le]

theorem fdtGetU32_long (h : t.getprop node name = .ok p) (hlen : 4 < p.length) :
    fdtGetU32 t node 0 name = (4, some (cellsValue (p.take 4))) := by
  rw [fdtGetU32, h]
  dsimp only
  rw [if_neg (by omega), if_pos (by omega), List.drop_zero]
  rfl

end

/-! ### Trees as tables -/

structure FdtEntry where
  offset : Int
  parent : Int
  phandle : Nat
  props : List (String × List UInt8)

def fdtErrBadphandle : Int := 6

def noPhandle : Nat := 2 ^ 32 - 1

section
variable (table : List FdtEntry)

def tableGetprop (node : Int) (name : String) : Except Int (List UInt8) :=
  match table.find? fun e => e.offset = node with
  | none => .error (-fdtErrBadoffset)
  | some e =>
    match e.props.lookup name with
    | none => .error (-fdtErrNotfound)
    | some p => .ok p

/-- The parent of the root is an error in the table. -/
def tableParentOffset (node : Int) : Int :=
  match table.find? fun e => e.offset = node with
  | none => -fdtErrBadoffset
  | some e => e.parent

def tableNodeOffsetByPhandle (p : Nat) : Int :=
  if p = 0 ∨ p = noPhandle then -fdtErrBadphandle
  else
    match table.find? fun e => e.phandle = p with
    | none => -fdtErrNotfound
    | some e => e.offset

variable {table} {node : Int} {name : String} {p : List UInt8}

theorem tableGetprop_ok (h : tableGetprop table node name = .ok p) :
    ∃ e ∈ table, e.offset = node ∧ e.props.lookup name = some p := by
  rw [tableGetprop] at h
  split at h
  · cases h
  · next e hfind =>
    split at h
    · cases h
    · next hl =>
      cases h
      exact ⟨e, List.mem_of_find?_eq_some hfind, by simpa using List.find?_some hfind, hl⟩

theorem tableGetprop_error {len : Int} (h : tableGetprop table node name = .error len) :
    len < 0 := by
  rw [tableGetprop] at h
  split at h
  · cases h
    decide
  · split at h
    · cases h
      decide
    · cases h

theorem tableGetprop_of_not_mem (h : ∀ e ∈ table, e.offset ≠ node) :
    tableGetprop table node name = .error (-fdtErrBadoffset) := by
  have hnone : table.find? (fun e => e.offset = node) = none :=
    List.find?_eq_none.mpr fun e he hoff => h e he (of_decide_eq_true hoff)
  rw [tableGetprop, hnone]

end

def tableFdt (table : List FdtEntry) : DeviceTree where
  addr := 0x4000000
  getprop := tableGetprop table
  parentOffset := tableParentOffset table
  nodeOffsetByPhandle := tableNodeOffsetByPhandle table
  addr_ne := by decide
  getprop_error _ _ _ h := tableGetprop_error h

theorem tableFdt_documented {table : List FdtEntry} (hroot : ∀ e ∈ table, e.offset ≠ 4)
    (hparent : ∀ e ∈ table, 0 ≤ e.parent → ∃ e' ∈ table, e'.offset = e.parent) :
    (tableFdt table).Documented {n | ∃ e ∈ table, e.offset = n} where
  finite := (List.finite_toSet (table.map FdtEntry.offset)).subset fun n hn => List.mem_map.mpr hn
  root_name := fun ⟨e, he, h4⟩ => hroot e he h4
  getprop node hnode name := tableGetprop_of_not_mem fun e he hoff => hnode ⟨e, he, hoff⟩
  parent node _ hpos := by
    change 0 ≤ tableParentOffset table node at hpos
    change ∃ e' ∈ table, e'.offset = tableParentOffset table node
    rw [tableParentOffset] at hpos ⊢
    split at hpos
    · exact absurd hpos (by decide)
    · next e hfind =>
      exact hparent e (List.mem_of_find?_eq_some hfind) hpos
  phandle p hpos := by
    change 0 ≤ tableNodeOffsetByPhandle table p at hpos
    change ∃ e ∈ table, e.offset = tableNodeOffsetByPhandle table p
    rw [tableNodeOffsetByPhandle] at hpos ⊢
    split at hpos
    · exact absurd hpos (by decide)
    · next hp =>
      rw [if_neg hp]
      split at hpos
      · exact absurd hpos (by decide)
      · next e hfind =>
        exact ⟨e, List.mem_of_find?_eq_some hfind, rfl⟩

end QnxStartup
