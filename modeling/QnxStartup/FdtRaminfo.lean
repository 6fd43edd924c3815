import QnxStartup.RamCalls

/-! Memory banks of a device tree: `fdt_get_reg64_cells` and `init_raminfo_fdt`. -/

namespace QnxStartup

/-- What libfdt says of a node: its "reg" property and the numbers of cells that its parent sets, or
the negative error. -/
structure FdtNode where
  reg : Except Int (List UInt8)
  parent : Except Int (Int × Int)

def fdtErrNotfound : Int := 1

def fdtErrBadoffset : Int := 4

def fdtErrBadncells : Int := 14

/-- The value of big-endian cells. -/
def cellsValue (cells : List UInt8) : Nat := cells.foldl (fun n b => 256 * n + b.toNat) 0

/-- The loop that fills the arrays of the caller. -/
def storeRegs (addrCells sizeCells : Nat) : Nat → List UInt8 → List (Nat × Nat)
  | 0, _ => []
  | num + 1, reg =>
    let rest := reg.drop (4 * addrCells)
    (cellsValue (reg.take (4 * addrCells)), cellsValue (rest.take (4 * sizeCells))) ::
      storeRegs addrCells sizeCells num (rest.drop (4 * sizeCells))

/-- Returns the result and the elements stored; `addr` and `size` tell whether the caller
passed the arrays. -/
def fdtGetReg64Cells (node : FdtNode) (index num : Int) (addr size : Bool)
    (addrCells sizeCells : Int) :
    Int × List (Nat × Nat) :=
  match node.reg with
  | .error len => (len, [])
  | .ok reg =>
    match if addrCells = -1 then node.parent else .ok (addrCells, sizeCells) with
    | .error parent => (parent, [])
    | .ok (addrCells, sizeCells) =>
      if addrCells < 1 ∨ addrCells > 2 then (-fdtErrBadncells, [])
      else if sizeCells < 0 ∨ sizeCells > 2 then (-fdtErrBadncells, [])
      else
        let entlen := (addrCells + sizeCells) * 4
        if (reg.length : Int) % entlen ≠ 0 then (-fdtErrBadoffset, [])
        else
          let len := (reg.length : Int) / entlen
          if index < 0 ∨ index ≥ len then (-fdtErrNotfound, [])
          else
            let len := len - index
            if addr = false then (len, [])
            else if decide (sizeCells = 0) ≠ !size then (-fdtErrBadncells, [])
            else
              let num := if num > len then len else num
              (len, storeRegs addrCells.toNat sizeCells.toNat num.toNat (reg.drop
                (index * entlen).toNat))

def regChunk : Nat := 8

/-- `add_ram(addr[i], size[i])`: the elements of the arrays are 0 unless stored, and reading behind
the arrays is undefined. -/
def addElement (stored : List (Nat × Nat)) (i : Nat) : Startup RamCall :=
  if i < regChunk then .ok (.addRam (stored.getD i (0, 0)).1 (stored.getD i (0, 0)).2)
    else .error .fault

def addChunk (nreg : Nat) (stored : List (Nat × Nat)) : Startup (List RamCall) :=
  (List.range nreg).mapM (addElement stored)

def addRegs (node : FdtNode) : Nat → Int → Startup (List RamCall)
  | 0, _ => .error .noReturn
  | fuel + 1, idx =>
    let (nreg, stored) := fdtGetReg64Cells node idx regChunk true true (-1) (-1)
    if nreg ≤ 0 then .ok []
    else
      (addChunk nreg.toNat stored).bind fun calls =>
        (addRegs node fuel (idx + nreg)).bind fun rest => .ok (calls ++ rest)

/-- What `init_raminfo_fdt` reads of the tree: the reserved ranges, as far as `fdt_get_mem_rsv`
returns them, and the nodes whose "device_type" is "memory". -/
structure Fdt where
  memRsv : List (Option (Nat × Nat))
  memoryNodes : List FdtNode

/-- Each turn of the loop over a property moves `idx` by one element at least. -/
def FdtNode.turns (node : FdtNode) : Nat :=
  match node.reg with
  | .error _ => 1
  | .ok reg => reg.length + 2

/-- Returns the result and the calls. -/
def initRaminfoFdt (fdt : Option Fdt) : Startup (Int × List RamCall) :=
  match fdt with
  | none => .ok (0, [])
  | some fdt =>
    let rsv := fdt.memRsv.reverse.filterMap id
    (fdt.memoryNodes.mapM fun node => addRegs node node.turns 0).bind fun added =>
      .ok (1, rsv.map (fun r => .avoidRam r.1 r.2) ++ added.flatten ++ rsv.map fun r =>
        .allocRam r.1 r.2 1)

theorem mapM_ok {α β : Type} {f : α → Startup β} {g : α → β} :
    ∀ {l : List α}, (∀ x ∈ l, f x = .ok (g x)) →
    l.mapM f = .ok (l.map g)
  | [], _ => rfl
  | x :: l, h => by
    rw [List.mapM_cons, h x (by simp), mapM_ok fun y hy => h y (by simp [hy])]
    rfl

theorem mapM_error {α β : Type} {f : α → Startup β} {g : α → β} {x : α} {e : Halt} :
    ∀ {l r : List α}, (∀ y ∈ l, f y = .ok (g y)) → f x = .error e → (l ++ x :: r).mapM f = .error e
  | [], r, _, hx => by
    rw [List.nil_append, List.mapM_cons, hx]
    rfl
  | y :: l, r, h, hx => by
    rw [List.cons_append, List.mapM_cons, h y (by simp),
      mapM_error (fun z hz => h z (by simp [hz])) hx]
    rfl

theorem ok_of_mapM_ok {α β : Type} {f : α → Startup β} :
    ∀ {l : List α} {r : List β}, l.mapM f = .ok r →
    ∀ x ∈ l, ∃ y, f x = .ok y
  | [], _, _, x, hx => by cases hx
  | x :: l, r, h, y, hy => by
    rw [List.mapM_cons] at h
    obtain ⟨z, hz, h⟩ := bind_eq_ok.mp h
    obtain ⟨rest, hrest, -⟩ := bind_eq_ok.mp h
    rcases List.mem_cons.mp hy with rfl | hy
    · exact ⟨z, hz⟩
    · exact ok_of_mapM_ok hrest y hy

theorem addElement_ok (stored : List (Nat × Nat)) {i : Nat} (h : i < regChunk) :
    addElement stored i = .ok (.addRam (stored.getD i (0, 0)).1 (stored.getD i (0, 0)).2) :=
  if_pos h

theorem addChunk_ok {stored : List (Nat × Nat)} (h : stored.length ≤ regChunk) :
    addChunk stored.length stored = .ok (stored.map fun r => .addRam r.1 r.2) := by
  rw [addChunk, mapM_ok fun i hi => addElement_ok stored ((List.mem_range.mp hi).trans_le h)]
  congr 1
  refine List.ext_getElem (by simp) fun i h1 h2 => ?_
  simp only [List.length_map, List.length_range] at h1
  simp [List.getD_eq_getElem?_getD, List.getElem?_eq_getElem h1]

theorem addChunk_fault {nreg : Nat} (stored : List (Nat × Nat)) (h : regChunk < nreg) :
    addChunk nreg stored = .error .fault := by
  obtain ⟨k, rfl⟩ : ∃ k, nreg = regChunk + (k + 1) := ⟨nreg - regChunk - 1, by omega⟩
  rw [addChunk, List.range_add, List.range_succ_eq_map, List.map_cons]
  exact mapM_error (fun i hi => addElement_ok stored (List.mem_range.mp hi)) (if_neg (by omega))

/-- A memory node as it should be: the "reg" property is a whole number of pairs. -/
structure MemoryBank where
  reg : List UInt8
  addrCells : Nat
  sizeCells : Nat
  addrCells_spec : addrCells = 1 ∨ addrCells = 2
  sizeCells_spec : sizeCells = 1 ∨ sizeCells = 2
  whole : 4 * (addrCells + sizeCells) ∣ reg.length

namespace MemoryBank

variable (b : MemoryBank)

def node : FdtNode := ⟨.ok b.reg, .ok (b.addrCells, b.sizeCells)⟩

def entlen : Nat := 4 * (b.addrCells + b.sizeCells)

def pair (k : Nat) : Nat × Nat :=
  (cellsValue ((b.reg.drop (k * b.entlen)).take (4 * b.addrCells)),
    cellsValue ((b.reg.drop (k * b.entlen + 4 * b.addrCells)).take (4 * b.sizeCells)))

def pairs : List (Nat × Nat) := (List.range (b.reg.length / b.entlen)).map b.pair

theorem length_pairs : b.pairs.length = b.reg.length / b.entlen := by simp [pairs]

theorem storeRegs_eq (n k : Nat) :
    storeRegs b.addrCells b.sizeCells n (b.reg.drop (k * b.entlen)) = (List.range n).map fun i =>
      b.pair (k + i) := by
  induction n generalizing k with
  | zero => rfl
  | succ n ih =>
    have hnext : k * b.entlen + 4 * b.addrCells + 4 * b.sizeCells = (k + 1) * b.entlen := by
      unfold entlen
      rw [Nat.add_mul]
      omega
    rw [storeRegs, List.range_succ_eq_map, List.map_cons, List.map_map]
    simp only [List.drop_drop]
    rw [hnext, ih (k + 1)]
    congr 1
    exact List.map_congr_left fun i _ => by
      rw [Function.comp_apply, Nat.succ_eq_add_one, Nat.add_right_comm, Nat.add_assoc]

theorem entlen_pos : 0 < b.entlen := by
  have h1 := b.addrCells_spec
  unfold entlen
  omega

theorem fdtGetReg64Cells_eq (idx num : Nat) :
    fdtGetReg64Cells b.node idx num true true (-1) (-1) =
      if idx < b.pairs.length then
        (((b.pairs.length - idx : Nat) : Int), (b.pairs.drop idx).take num)
      else (-fdtErrNotfound, []) := by
  have h1 := b.addrCells_spec
  have h2 := b.sizeCells_spec
  have hpos := b.entlen_pos
  have hent : ((b.addrCells : Int) + b.sizeCells) * 4 = (b.entlen : Int) := by
    unfold entlen
    push_cast
    omega
  have hlen : (b.reg.length : Int) / (b.entlen : Int) = b.pairs.length := by
    rw [b.length_pairs]
    rfl
  have hmod : (b.reg.length : Int) % (b.entlen : Int) = 0 := by
    have : b.reg.length % b.entlen = 0 := Nat.mod_eq_zero_of_dvd b.whole
    omega
  unfold fdtGetReg64Cells node
  simp only [if_true, hent, hlen, hmod]
  rw [if_neg (by omega), if_neg (by omega), if_neg (by simp)]
  by_cases hidx : idx < b.pairs.length
  · rw [if_neg (by omega), if_pos hidx, if_neg (by simp), if_neg (by simp; omega)]
    have hdrop : ((idx : Int) * b.entlen).toNat = idx * b.entlen := by
      rw [← Int.natCast_mul, Int.toNat_natCast]
    have hnum : (if (num : Int) > (b.pairs.length : Int) - idx then (b.pairs.length : Int) - idx
        else num).toNat = min num (b.pairs.length - idx) := by
      split <;> omega
    rw [hdrop, hnum, Int.toNat_natCast, Int.toNat_natCast, b.storeRegs_eq]
    refine Prod.ext (by simp only; omega) ?_
    refine List.ext_getElem? fun i => ?_
    simp only [List.getElem?_map, List.getElem?_take, List.getElem?_drop, pairs, List.length_map,
      List.length_range]
    by_cases hi : i < num
    · by_cases hi' : idx + i < b.reg.length / b.entlen
      · rw [if_pos hi, List.getElem?_range (by omega), List.getElem?_range hi']
        rfl
      · rw [if_pos hi, List.getElem?_eq_none (by simp; omega),
          List.getElem?_eq_none (by simp; omega)]
        rfl
    · rw [if_neg hi, List.getElem?_eq_none (by simp; omega)]
      rfl
  · rw [if_pos (by omega), if_neg hidx]

/-- The whole property is added if it fits the arrays; otherwise the loop reads behind them. -/
theorem addRegs_eq :
    addRegs b.node b.node.turns 0 =
      if b.pairs.length ≤ regChunk then .ok (b.pairs.map fun r => .addRam r.1 r.2)
        else .error .fault := by
  have hturns : b.node.turns = b.reg.length + 2 := rfl
  have h0 := b.fdtGetReg64Cells_eq 0 regChunk
  rw [Nat.sub_zero, List.drop_zero] at h0
  rw [hturns, addRegs]
  simp only [Int.natCast_zero] at h0
  by_cases hpos : 0 < b.pairs.length
  · rw [if_pos hpos] at h0
    simp only [h0]
    rw [if_neg (by omega), Int.toNat_natCast, Int.zero_add]
    by_cases hle : b.pairs.length ≤ regChunk
    · have hend := b.fdtGetReg64Cells_eq b.pairs.length regChunk
      rw [if_neg (by omega)] at hend
      have hrest : addRegs b.node (b.reg.length + 1) b.pairs.length = .ok [] := by
        rw [addRegs]
        simp only [hend]
        rfl
      rw [if_pos hle, List.take_of_length_le hle, addChunk_ok hle, hrest]
      simp [Except.bind]
    · rw [if_neg hle, addChunk_fault _ (by omega)]
      rfl
  · rw [if_neg hpos] at h0
    simp only [h0]
    rw [if_pos (by decide), if_pos (by omega),
      List.eq_nil_of_length_eq_zero (by omega : b.pairs.length = 0)]
    rfl

theorem count_le_stored (h : b.pairs.length ≤ regChunk) (idx : Nat) :
    (fdtGetReg64Cells b.node idx regChunk true true (-1) (-1)).1 ≤
      (fdtGetReg64Cells b.node idx regChunk true true (-1) (-1)).2.length := by
  rw [b.fdtGetReg64Cells_eq]
  by_cases hidx : idx < b.pairs.length
  · rw [if_pos hidx]
    simp only [List.length_take, List.length_drop]
    omega
  · rw [if_neg hidx]
    decide

end MemoryBank

def treeOfBanks (memRsv : List (Option (Nat × Nat))) (banks : List MemoryBank) : Fdt :=
  ⟨memRsv, banks.map MemoryBank.node⟩

theorem filterMap_added_addRam (pairs : List (Nat × Nat)) :
    (pairs.map fun r => RamCall.addRam r.1 r.2).filterMap RamCall.added = pairs := by
  rw [List.filterMap_map]
  exact List.filterMap_some

theorem initRaminfoFdt_ok {memRsv : List (Option (Nat × Nat))} {banks : List MemoryBank}
    (h : ∀ b ∈ banks, b.pairs.length ≤ regChunk) :
    ∃ calls, initRaminfoFdt (some (treeOfBanks memRsv banks)) = .ok (1, calls) ∧
      calls.filterMap RamCall.added = banks.flatMap MemoryBank.pairs := by
  have hadd : ((banks.map MemoryBank.node).mapM fun node => addRegs node node.turns 0) =
      .ok (banks.map fun b => b.pairs.map fun r => .addRam r.1 r.2) := by
    rw [List.mapM_map]
    exact mapM_ok fun b hb => by rw [Function.comp_apply, b.addRegs_eq, if_pos (h b hb)]
  refine ⟨_, by rw [initRaminfoFdt, treeOfBanks, hadd]; rfl, ?_⟩
  have hnone : ∀ {l : List (Nat × Nat)} {f : Nat × Nat → RamCall}, (∀ r, (f r).added = none) →
      (l.map f).filterMap RamCall.added = [] := fun {l f} hf => by
    rw [List.filterMap_map, List.filterMap_eq_nil_iff]
    exact fun r _ => hf r
  rw [List.filterMap_append, List.filterMap_append, hnone fun _ => rfl, hnone fun _ => rfl,
    List.nil_append, List.append_nil]
  clear hadd h
  induction banks with
  | nil => rfl
  | cons b banks ih =>
    rw [List.map_cons, List.flatten_cons, List.filterMap_append, filterMap_added_addRam,
      ih, List.flatMap_cons]

theorem fits_of_initRaminfoFdt_ok {memRsv : List (Option (Nat × Nat))} {banks : List MemoryBank}
    {r : Int × List RamCall} (h : initRaminfoFdt (some (treeOfBanks memRsv banks)) = .ok r) :
    ∀ b ∈ banks, b.pairs.length ≤ regChunk := by
  intro b hb
  obtain ⟨added, hadded, -⟩ := bind_eq_ok.mp h
  obtain ⟨calls, hcalls⟩ := ok_of_mapM_ok hadded b.node (List.mem_map_of_mem hb)
  by_contra hgt
  rw [b.addRegs_eq, if_neg hgt] at hcalls
  cases hcalls

/-- `init_raminfo_fdt` adds exactly the encoded banks if and only if no node has more of
them than the arrays can hold; and that is when it is never told of more elements than
were stored. -/
theorem banks_added (memRsv : List (Option (Nat × Nat))) (banks : List MemoryBank) :
    ((∃ calls, initRaminfoFdt (some (treeOfBanks memRsv banks)) = .ok (1, calls) ∧
        calls.filterMap RamCall.added = banks.flatMap MemoryBank.pairs) ↔
      ∀ b ∈ banks, b.pairs.length ≤ regChunk) ∧
      ((∀ b ∈ banks, ∀ idx : Nat, (fdtGetReg64Cells b.node idx regChunk true true (-1) (-1)).1 ≤
        (fdtGetReg64Cells b.node idx regChunk true true (-1) (-1)).2.length) ↔
      ∀ b ∈ banks, b.pairs.length ≤ regChunk) := by
  refine ⟨⟨fun ⟨calls, h, _⟩ => fits_of_initRaminfoFdt_ok h, initRaminfoFdt_ok⟩, fun h b hb => ?_,
    fun h b hb => b.count_le_stored (h b hb)⟩
  have h0 := h b hb 0
  rw [b.fdtGetReg64Cells_eq] at h0
  by_cases hpos : 0 < b.pairs.length
  · rw [if_pos hpos] at h0
    simp only [List.length_take, List.length_drop] at h0
    omega
  · omega

def nineBanks : MemoryBank where
  reg := List.replicate 72 0x40
  addrCells := 1
  sizeCells := 1
  addrCells_spec := .inl rfl
  sizeCells_spec := .inl rfl
  whole := by decide

theorem nine_banks_overrun :
    initRaminfoFdt (some (treeOfBanks [] [nineBanks])) = .error .fault ∧
      fdtGetReg64Cells nineBanks.node 0 regChunk true true (-1) (-1) =
        (9, List.replicate 8 (0x40404040, 0x40404040)) := by
  constructor <;> decide

end QnxStartup
