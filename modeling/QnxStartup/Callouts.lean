import Mathlib.Algebra.Order.BigOperators.Group.Finset
import QnxStartup.Bytes
import QnxStartup.Mapped
import QnxStartup.Syspage

/-! `callouts.c`: a pass that adds up the sizes of the callouts, and one that copies them into the
system page. -/

namespace QnxStartup

/-- `struct callout_rtn`; `rwSize` is a pointer, and `0` none. -/
structure CalloutRtn where
  rtnCode : Nat
  rtnSize : Nat
  rwSize : Nat
  patcher : Bool
  deriving DecidableEq

/-- The static variables of `callouts.c`. `rwAddrs` has the `data` and the `rw_off` of
its elements. -/
structure CalloutSizes where
  rwAddrs : List (Nat × Nat)
  rwSize : Nat
  rtnSize : Nat

/-- What a patcher is called with, next to the callout. -/
structure PatchArgs where
  syspagePaddr : Nat
  vaddr : Nat
  rtnOffset : Nat
  rwOffset : Nat
  data : Nat

/-- A callout that the write pass has copied, and what its patcher is told. -/
structure CalloutCopy where
  rp : Nat
  rtn : CalloutRtn
  args : PatchArgs

/-- `_syspage_ptr`, which is also `syspage_paddr`, `kern_syspageptr` and `total_size`. -/
structure SyspageTarget where
  syspagePtr : Nat
  kernSyspageptr : Nat
  totalSize : Nat

/-- What the write pass changes: the memory, `rtn_size`, and the pointers to the
callouts, by address. -/
structure CalloutWrite where
  mem : Mem
  rtnSize : Nat
  fps : Nat → Nat

section
variable (rtns : Nat → CalloutRtn)

/-- The callout that the pointer at `rp` points to. -/
def calloutAt (fps : Nat → Nat) (rp : Nat) : Option CalloutRtn :=
  if fps rp = 0 then none else some (rtns (fps rp))

/-- `callout_output_one` while sizing. -/
def sizeOne (m : Mem) (fps : Nat → Nat) (s : CalloutSizes) (rp : Nat) : CalloutSizes :=
  match calloutAt rtns fps rp with
  | none => s
  | some rtn =>
    let s := { s with rtnSize := u32 (s.rtnSize + rtn.rtnSize) }
    if rtn.rwSize = 0 then s
    else if s.rwAddrs.any (fun rw => rw.1 = rtn.rwSize) then s
    else { s with rwAddrs := (rtn.rwSize, s.rwSize) :: s.rwAddrs,
                  rwSize := u32 (s.rwSize + read32 m rtn.rwSize) }

/-- `output_callouts` while sizing: the variables it leaves, and the size of the code. -/
def sizeCallouts (m : Mem) (fps : Nat → Nat) (rps : List Nat) : CalloutSizes × Nat :=
  let s := rps.foldl (sizeOne rtns m fps) ⟨[], 0, 0⟩
  ({ s with rwSize := u32 (round s.rwSize 8), rtnSize := 0 }, u32 (round s.rtnSize 8))

def startWriting [MmuHeader] (t : SyspageTarget) (s : CalloutSizes)
    (w : CalloutWrite) : CalloutWrite :=
  if w.rtnSize = 0 then
    { w with
      mem := memset w.mem (t.syspagePtr + t.totalSize) 0 s.rwSize
      rtnSize := u32 (roundpg (u32 (t.totalSize + s.rwSize))) }
  else w

/-- The offset of a callout's data; the search for it runs off the list when it is not there. -/
def rwOffset (t : SyspageTarget) (s : CalloutSizes) (rtn : CalloutRtn) : Startup Nat :=
  if rtn.rwSize = 0 then .ok t.totalSize
  else
    match s.rwAddrs.find? (fun rw => rw.1 = rtn.rwSize) with
    | none => .error .fault
    | some rw => .ok (u32 (t.totalSize + rw.2))

variable (patch : CalloutRtn → PatchArgs → Mem → Mem) (patchData : List CoInfo)

/-- `callout_output_one` while writing, behind the check for a callout. -/
def writeRtn [MmuHeader] (t : SyspageTarget) (s : CalloutSizes) (w : CalloutWrite) (rp : Nat)
    (rtn : CalloutRtn) :
    Startup (CalloutWrite × CalloutCopy) :=
  let w := startWriting t s w
  let mem := memmove w.mem (t.syspagePtr + w.rtnSize) rtn.rtnCode rtn.rtnSize
  (rwOffset t s rtn).bind fun rwOff =>
    let data := ((patchData.find? (fun pd => pd.owner = rp)).map (·.data)).getD 0
    let args : PatchArgs := ⟨t.syspagePtr, t.kernSyspageptr, w.rtnSize, rwOff, data⟩
    .ok ({ mem := if rtn.patcher then patch rtn args mem else mem
           rtnSize := u32 (w.rtnSize + rtn.rtnSize)
           fps := Function.update w.fps rp (u64 (t.kernSyspageptr + w.rtnSize)) }, ⟨rp, rtn, args⟩)

/-- `output_callouts` while writing, in the order of the visits. -/
def writeCallouts [MmuHeader] (t : SyspageTarget) (s : CalloutSizes) :
    List Nat → CalloutWrite → Startup (CalloutWrite × List CalloutCopy)
  | [], w => .ok (w, [])
  | rp :: rps, w =>
    match calloutAt rtns w.fps rp with
    | none => writeCallouts t s rps w
    | some rtn =>
      (writeRtn patch patchData t s w rp rtn).bind fun (w, c) =>
        (writeCallouts t s rps w).bind fun (w, cs) => .ok (w, c :: cs)

/-- The `spsize` of `alloc_syspage_memory`. -/
def syspageSize [MmuHeader] (sizeofAsinfoEntry totalSize rwsize calloutsSize : Nat) : Nat :=
  u32 (u32 (roundpg (u32 (totalSize + rwsize) + 4 * sizeofAsinfoEntry)) + roundpg calloutsSize)

def calloutsOf (fps : Nat → Nat) (rps : List Nat) : List CalloutRtn :=
  rps.filterMap (calloutAt rtns fps)

end

/-! ### Sizing -/

section
variable {rtns : Nat → CalloutRtn} {fps : Nat → Nat} {rps : List Nat} {rp : Nat} {rtn : CalloutRtn}

theorem calloutsOf_cons_none (h : calloutAt rtns fps rp = none) :
    calloutsOf rtns fps (rp :: rps) = calloutsOf rtns fps rps := List.filterMap_cons_none h

theorem calloutsOf_cons_some (h : calloutAt rtns fps rp = some rtn) :
    calloutsOf rtns fps (rp :: rps) = rtn :: calloutsOf rtns fps rps := List.filterMap_cons_some h

theorem calloutsOf_append (l l' : List Nat) :
    calloutsOf rtns fps (l ++ l') = calloutsOf rtns fps l ++ calloutsOf rtns fps l' :=
  List.filterMap_append

theorem calloutsOf_singleton : calloutsOf rtns fps [rp] = (calloutAt rtns fps rp).toList := by
  cases h : calloutAt rtns fps rp with
  | none => exact calloutsOf_cons_none h
  | some rtn => exact calloutsOf_cons_some h

theorem calloutsOf_congr {fps' : Nat → Nat} (h : ∀ rp ∈ rps, fps' rp = fps rp) :
    calloutsOf rtns fps' rps = calloutsOf rtns fps rps :=
  List.filterMap_congr fun rp hrp => by rw [calloutAt, calloutAt, h rp hrp]

end

def codeBytes (l : List CalloutRtn) : Nat := (l.map (·.rtnSize)).sum

def rwPointers (l : List CalloutRtn) : Finset Nat := (l.map (·.rwSize)).toFinset.erase 0

def rwBytes (m : Mem) (l : List CalloutRtn) : Nat := ∑ p ∈ rwPointers l, read32 m p

section
variable {m : Mem} {l l' : List CalloutRtn} {rtn : CalloutRtn}

theorem mem_rwPointers {p : Nat} : p ∈ rwPointers l ↔ p ≠ 0 ∧ ∃ rtn ∈ l, rtn.rwSize = p := by
  rw [rwPointers, Finset.mem_erase, List.mem_toFinset, List.mem_map]

theorem codeBytes_append : codeBytes (l ++ l') = codeBytes l + codeBytes l' := by
  rw [codeBytes, List.map_append, List.sum_append]
  rfl

theorem codeBytes_cons : codeBytes (rtn :: l) = rtn.rtnSize + codeBytes l := by
  rw [codeBytes, List.map_cons, List.sum_cons]
  rfl

theorem rwBytes_mono (h : l ⊆ l') : rwBytes m l ≤ rwBytes m l' := by
  apply Finset.sum_le_sum_of_subset
  intro p hp
  obtain ⟨h0, rtn, hrtn, rfl⟩ := mem_rwPointers.mp hp
  exact mem_rwPointers.mpr ⟨h0, rtn, h hrtn, rfl⟩

theorem rwBytes_nil : rwBytes m [] = 0 := rfl

theorem rwPointers_null (h0 : rtn.rwSize = 0) : rwPointers (l ++ [rtn]) = rwPointers l := by
  rw [rwPointers, List.map_append, List.toFinset_append, List.map_singleton, h0]
  ext p
  simp only [Finset.mem_erase, Finset.mem_union, List.mem_toFinset, List.mem_singleton, rwPointers]
  tauto

theorem rwPointers_insert (h0 : rtn.rwSize ≠ 0) :
    rwPointers (l ++ [rtn]) = insert rtn.rwSize (rwPointers l) := by
  rw [rwPointers, List.map_append, List.toFinset_append, List.map_singleton]
  ext p
  simp only [Finset.mem_erase, Finset.mem_union, List.mem_toFinset, List.mem_singleton,
    Finset.mem_insert, rwPointers]
  constructor
  · rintro ⟨hp, h | h⟩
    · exact .inr ⟨hp, h⟩
    · exact .inl h
  · rintro (rfl | ⟨hp, h⟩)
    · exact ⟨h0, .inr rfl⟩
    · exact ⟨hp, .inl h⟩

end

/-- Each pointer has its own part of the first `n` bytes. -/
structure RwLayout (m : Mem) (addrs : List (Nat × Nat)) (n : Nat) : Prop where
  inside : ∀ rw ∈ addrs, rw.2 + read32 m rw.1 ≤ n
  apart : addrs.Pairwise fun a b => b.2 + read32 m b.1 ≤ a.2 ∧ a.1 ≠ b.1

structure Sized (m : Mem) (l : List CalloutRtn) (s : CalloutSizes) : Prop where
  code : s.rtnSize = codeBytes l
  data : s.rwSize = rwBytes m l
  keys : ∀ p, (∃ off, (p, off) ∈ s.rwAddrs) ↔ p ∈ rwPointers l
  layout : RwLayout m s.rwAddrs s.rwSize

section
variable {rtns : Nat → CalloutRtn} {m : Mem} {fps : Nat → Nat} {rps : List Nat}
  {rp : Nat} {s : CalloutSizes}
  {l : List CalloutRtn}

theorem Sized.any_iff (h : Sized m l s) (p : Nat) :
    (s.rwAddrs.any fun rw => rw.1 = p) = true ↔ p ∈ rwPointers l := by
  rw [← h.keys, List.any_eq_true]
  constructor
  · intro ⟨⟨q, off⟩, hmem, hq⟩
    obtain rfl : q = p := by simpa using hq
    exact ⟨off, hmem⟩
  · intro ⟨off, hmem⟩
    exact ⟨_, hmem, by simp⟩

theorem RwLayout.cons {addrs : List (Nat × Nat)} {n p : Nat} (h : RwLayout m addrs n)
    (hp : ∀ rw ∈ addrs, rw.1 ≠ p) :
    RwLayout m ((p, n) :: addrs) (n + read32 m p) := by
  constructor
  · intro rw hrw
    rcases List.mem_cons.mp hrw with rfl | hrw
    · exact le_rfl
    · exact (h.inside rw hrw).trans (Nat.le_add_right _ _)
  · apply List.pairwise_cons.mpr
    exact ⟨fun rw hrw => ⟨h.inside rw hrw, (hp rw hrw).symm⟩, h.apart⟩

theorem Sized.step (h : Sized m (calloutsOf rtns fps rps) s)
    (hcode : codeBytes (calloutsOf rtns fps (rps ++ [rp])) < 2 ^ 32)
    (hdata : rwBytes m (calloutsOf rtns fps (rps ++ [rp])) < 2 ^ 32) :
    Sized m (calloutsOf rtns fps (rps ++ [rp])) (sizeOne rtns m fps s rp) := by
  rw [calloutsOf_append, calloutsOf_singleton] at *
  rw [sizeOne]
  generalize calloutsOf rtns fps rps = l at *
  cases hr : calloutAt rtns fps rp with
  | none =>
    rw [Option.toList_none, List.append_nil]
    exact h
  | some rtn =>
    rw [hr, Option.toList_some] at hcode hdata
    rw [Option.toList_some]
    dsimp only
    have hsum : u32 (s.rtnSize + rtn.rtnSize) = codeBytes (l ++ [rtn]) := by
      have hone : codeBytes (l ++ [rtn]) = codeBytes l + rtn.rtnSize := codeBytes_append
      rw [h.code, ← hone, u32_of_lt hcode]
    by_cases h0 : rtn.rwSize = 0
    · rw [if_pos h0]
      have hsame : rwPointers (l ++ [rtn]) = rwPointers l := rwPointers_null h0
      exact ⟨hsum, by rw [rwBytes, hsame]; exact h.data, by rw [hsame]; exact h.keys, h.layout⟩
    rw [if_neg h0]
    have hinsert : rwPointers (l ++ [rtn]) = insert rtn.rwSize (rwPointers l) :=
      rwPointers_insert h0
    by_cases hp : rtn.rwSize ∈ rwPointers l
    · rw [if_pos ((h.any_iff _).mpr hp)]
      rw [Finset.insert_eq_of_mem hp] at hinsert
      exact ⟨hsum, by rw [rwBytes, hinsert]; exact h.data, by rw [hinsert]; exact h.keys, h.layout⟩
    · rw [if_neg fun hc => hp ((h.any_iff _).mp hc)]
      have hbytes : rwBytes m (l ++ [rtn]) = s.rwSize + read32 m rtn.rwSize := by
        rw [rwBytes, hinsert, Finset.sum_insert hp, Nat.add_comm, h.data]
        rfl
      rw [← hbytes, u32_of_lt hdata]
      refine ⟨hsum, rfl, fun p => ?_, ?_⟩
      · rw [hinsert, Finset.mem_insert, ← h.keys]
        constructor
        · rintro ⟨off, hmem⟩
          rcases List.mem_cons.mp hmem with heq | hmem
          · exact .inl (Prod.mk.inj heq).1
          · exact .inr ⟨off, hmem⟩
        · rintro (rfl | ⟨off, hmem⟩)
          · exact ⟨_, .head _⟩
          · exact ⟨off, .tail _ hmem⟩
      · dsimp only
        rw [hbytes]
        apply h.layout.cons
        intro rw hrw heq
        exact hp ((h.keys _).mp ⟨rw.2, heq ▸ hrw⟩)

theorem sized_foldl (hcode : codeBytes (calloutsOf rtns fps rps) < 2 ^ 32)
    (hdata : rwBytes m (calloutsOf rtns fps rps) < 2 ^ 32) :
    Sized m (calloutsOf rtns fps rps) (rps.foldl (sizeOne rtns m fps) ⟨[], 0, 0⟩) := by
  induction rps using List.reverseRecOn with
  | nil => exact ⟨rfl, rfl, fun p => by simp [rwPointers, calloutsOf], ⟨by simp, .nil⟩⟩
  | append_singleton rps rp ih =>
    rw [List.foldl_append, List.foldl_cons, List.foldl_nil]
    have happ : calloutsOf rtns fps (rps ++ [rp]) = calloutsOf rtns fps rps ++
        calloutsOf rtns fps [rp] :=
      calloutsOf_append rps [rp]
    have hle : codeBytes (calloutsOf rtns fps rps) ≤
        codeBytes (calloutsOf rtns fps (rps ++ [rp])) := by
      rw [happ, codeBytes_append]
      exact Nat.le_add_right _ _
    have hle' : rwBytes m (calloutsOf rtns fps rps) ≤
        rwBytes m (calloutsOf rtns fps (rps ++ [rp])) := by
      rw [happ]
      exact rwBytes_mono (List.subset_append_left _ _)
    exact (ih (hle.trans_lt hcode) (hle'.trans_lt hdata)).step hcode hdata

end

/-! ### Writing -/

/-- A patcher changes nothing of `kept` but the copy that it is called for. -/
def PatchesCopy (patch : CalloutRtn → PatchArgs → Mem → Mem) (kept : Set Nat) : Prop :=
  ∀ rtn args m, ∀ x ∈ kept, x ∉ bytes (args.syspagePaddr + args.rtnOffset) rtn.rtnSize →
    patch rtn args m x = m x

namespace CalloutCopy

variable (patch : CalloutRtn → PatchArgs → Mem → Mem) (c : CalloutCopy)

def start : Nat := c.args.syspagePaddr + c.args.rtnOffset

def stop : Nat := c.args.rtnOffset + c.rtn.rtnSize

def code : Set Nat := bytes c.start c.rtn.rtnSize

def patched (m : Mem) : Mem := if c.rtn.patcher then patch c.rtn c.args m else m

/-- What lies in the copy is what the patcher makes of the callout's code in `m`. -/
def Copied (m m' : Mem) : Prop :=
  ∃ mc : Mem, (∀ k < c.rtn.rtnSize, mc (c.start + k) = m (c.rtn.rtnCode + k)) ∧
    ∀ x ∈ c.code, m' x = c.patched patch mc x

end CalloutCopy

section
variable {rtns : Nat → CalloutRtn} {patch : CalloutRtn → PatchArgs → Mem → Mem}
  {patchData : List CoInfo}
  {t : SyspageTarget} {s : CalloutSizes} {kept : Set Nat} {w w1 w' : CalloutWrite}
  {rp off : Nat} {rps : List Nat}
  {rtn : CalloutRtn} {c : CalloutCopy} {cs : List CalloutCopy} {m m' mc : Mem}

theorem CalloutCopy.patched_of_not_mem (hpatch : PatchesCopy patch kept) {x : Nat} (hx : x ∈ kept)
    (hc : x ∉ c.code) :
    c.patched patch m x = m x := by
  rw [CalloutCopy.patched]
  split
  · exact hpatch _ _ _ x hx hc
  · rfl

theorem CalloutCopy.Copied.congr {m1 m2 : Mem} (h : c.Copied patch m1 m')
    (hsrc : ∀ x ∈ bytes c.rtn.rtnCode c.rtn.rtnSize, m1 x = m x)
    (hcode : ∀ x ∈ c.code, m2 x = m' x) :
    c.Copied patch m m2 := by
  obtain ⟨mc, hmc, hpatched⟩ := h
  refine ⟨mc, fun k hk => ?_, fun x hx => ?_⟩
  · rw [hmc k hk]
    exact hsrc _ (mem_bytes.mpr ⟨by omega, by omega⟩)
  · rw [hcode x hx]
    exact hpatched x hx

/-- What is asked of the callouts that lie ahead, from `cur` on. -/
structure Writable (kept : Set Nat) (t : SyspageTarget) (s : CalloutSizes) (cur : Nat)
    (l : List CalloutRtn) : Prop where
  fits : cur + codeBytes l < 2 ^ 32
  area : bytes (t.syspagePtr + cur) (codeBytes l) ⊆ kept
  slots : ∀ rtn ∈ l, ∃ off, rwOffset t s rtn = .ok off
  sources : ∀ rtn ∈ l, bytes rtn.rtnCode rtn.rtnSize ⊆ kept ∧
    Disjoint (bytes rtn.rtnCode rtn.rtnSize) (bytes (t.syspagePtr + cur) (codeBytes l))

theorem Writable.tail {cur : Nat} {l : List CalloutRtn} (h : Writable kept t s cur (rtn :: l)) :
    Writable kept t s (cur + rtn.rtnSize) l := by
  have hcons : codeBytes (rtn :: l) = rtn.rtnSize + codeBytes l := codeBytes_cons
  have hsub : bytes (t.syspagePtr + (cur + rtn.rtnSize)) (codeBytes l) ⊆
      bytes (t.syspagePtr + cur) (codeBytes (rtn :: l)) := by
    intro x hx
    rw [mem_bytes] at hx ⊢
    omega
  constructor
  · have := h.fits
    omega
  · exact hsub.trans h.area
  · exact fun r hr => h.slots r (.tail _ hr)
  · exact fun r hr => ⟨(h.sources r (.tail _ hr)).1, (h.sources r (.tail _ hr)).2.mono_right hsub⟩

/-- What the write pass does at one callout. -/
structure RtnWritten (patch : CalloutRtn → PatchArgs → Mem → Mem) (t : SyspageTarget)
    (s : CalloutSizes) (kept : Set Nat) (w w1 : CalloutWrite) (rp : Nat) (rtn : CalloutRtn)
    (c : CalloutCopy) : Prop where
  visited : c.rp = rp
  found : c.rtn = rtn
  offset : c.args.rtnOffset = w.rtnSize
  target : c.args.syspagePaddr = t.syspagePtr ∧ c.args.vaddr = t.kernSyspageptr
  slot : rwOffset t s rtn = .ok c.args.rwOffset
  cursor : w1.rtnSize = w.rtnSize + rtn.rtnSize
  fps : w1.fps = Function.update w.fps rp (u64 (t.kernSyspageptr + w.rtnSize))
  frame : ∀ x ∈ kept, x ∉ c.code → w1.mem x = w.mem x
  copied : c.Copied patch w.mem w1.mem

theorem writeRtn_ok [MmuHeader] (hpatch : PatchesCopy patch kept) (hw : 0 < w.rtnSize)
    (hfit : w.rtnSize + rtn.rtnSize < 2 ^ 32) (hoff : rwOffset t s rtn = .ok off) :
    ∃ w1 c, writeRtn patch patchData t s w rp rtn = .ok (w1, c) ∧
      RtnWritten patch t s kept w w1 rp rtn c := by
  rw [writeRtn, startWriting, if_neg hw.ne', hoff]
  refine ⟨_, _, rfl, rfl, rfl, rfl, ⟨rfl, rfl⟩, hoff, u32_of_lt hfit, rfl, fun x hx hc => ?_, ?_⟩
  · apply (CalloutCopy.patched_of_not_mem hpatch hx hc).trans
    exact memmove_of_not_mem hc
  · refine ⟨_, fun k hk => ?_, fun x _ => rfl⟩
    change memmove w.mem (t.syspagePtr + w.rtnSize) rtn.rtnCode rtn.rtnSize
      (t.syspagePtr + w.rtnSize + k) = _
    rw [memmove_of_mem ⟨by omega, Nat.add_lt_add_left hk _⟩, Nat.add_sub_cancel_left]

structure Written (rtns : Nat → CalloutRtn) (patch : CalloutRtn → PatchArgs → Mem → Mem)
    (t : SyspageTarget) (s : CalloutSizes) (kept : Set Nat) (rps : List Nat) (w w' : CalloutWrite)
    (cs : List CalloutCopy) : Prop where
  found : cs.map (·.rtn) = calloutsOf rtns w.fps rps
  visited : cs.map (·.rp) = rps.filter (w.fps · ≠ 0)
  order : cs.Pairwise fun a b => a.stop ≤ b.args.rtnOffset
  inside : ∀ c ∈ cs, w.rtnSize ≤ c.args.rtnOffset ∧
    c.stop ≤ w.rtnSize + codeBytes (calloutsOf rtns w.fps rps)
  target : ∀ c ∈ cs, c.args.syspagePaddr = t.syspagePtr ∧ c.args.vaddr = t.kernSyspageptr
  slots : ∀ c ∈ cs, rwOffset t s c.rtn = .ok c.args.rwOffset
  fps : ∀ c ∈ cs, w'.fps c.rp = u64 (t.kernSyspageptr + c.args.rtnOffset)
  others : ∀ rp, (∀ c ∈ cs, c.rp ≠ rp) → w'.fps rp = w.fps rp
  frame : ∀ x ∈ kept, x ∉ bytes (t.syspagePtr + w.rtnSize) (codeBytes (calloutsOf rtns w.fps rps)) →
    w'.mem x = w.mem x
  copied : ∀ c ∈ cs, c.Copied patch w.mem w'.mem

theorem Written.nil : Written rtns patch t s kept [] w w [] where
  found := rfl
  visited := rfl
  order := .nil
  inside := by simp
  target := by simp
  slots := by simp
  fps := by simp
  others := fun _ _ => rfl
  frame := fun _ _ _ => rfl
  copied := by simp

theorem Written.cons_none (hr : calloutAt rtns w.fps rp = none)
    (h : Written rtns patch t s kept rps w w' cs) :
    Written rtns patch t s kept (rp :: rps) w w' cs := by
  have hnull : w.fps rp = 0 := by
    by_contra h0
    rw [calloutAt, if_neg h0] at hr
    cases hr
  have hsame : calloutsOf rtns w.fps (rp :: rps) = calloutsOf rtns w.fps rps :=
    calloutsOf_cons_none hr
  exact { h with
    found := by rw [hsame]; exact h.found
    visited := by rw [List.filter_cons_of_neg (by simp [hnull])]; exact h.visited
    inside := by rw [hsame]; exact h.inside
    frame := by rw [hsame]; exact h.frame }

namespace RtnWritten

variable (h1 : RtnWritten patch t s kept w w1 rp rtn c)
include h1

theorem code_eq : c.code = bytes (t.syspagePtr + w.rtnSize) rtn.rtnSize := by
  rw [CalloutCopy.code, CalloutCopy.start, h1.target.1, h1.offset, h1.found]

theorem stop_eq : c.stop = w.rtnSize + rtn.rtnSize := by rw [CalloutCopy.stop, h1.offset, h1.found]

theorem fps_of_ne {q : Nat} (hq : q ≠ rp) : w1.fps q = w.fps q := by
  rw [h1.fps, Function.update_of_ne hq]

theorem fps_ahead (hrp : rp ∉ rps) : ∀ q ∈ rps, w1.fps q = w.fps q :=
  fun _ hq => h1.fps_of_ne fun heq => hrp (heq ▸ hq)

theorem calloutsOf_ahead (hrp : rp ∉ rps) :
    calloutsOf rtns w1.fps rps = calloutsOf rtns w.fps rps :=
  calloutsOf_congr (h1.fps_ahead hrp)

theorem copied_cons (hrp : rp ∉ rps)
    (hw : Writable kept t s w.rtnSize (rtn :: calloutsOf rtns w.fps rps))
    (h : Written rtns patch t s kept rps w1 w' cs) :
    ∀ d ∈ c :: cs, d.Copied patch w.mem w'.mem := by
  have hbytes : codeBytes (rtn :: calloutsOf rtns w.fps rps) =
      rtn.rtnSize + codeBytes (calloutsOf rtns w.fps rps) :=
    codeBytes_cons
  have hframe := h.frame
  rw [h1.calloutsOf_ahead hrp, h1.cursor] at hframe
  rw [List.forall_mem_cons]
  constructor
  · apply h1.copied.congr fun x _ => rfl
    intro x hx
    rw [h1.code_eq, mem_bytes] at hx
    refine hframe x (hw.area ?_) ?_
    · rw [mem_bytes, hbytes]
      omega
    · rw [mem_bytes]
      omega
  · intro d hd
    have hmem : d.rtn ∈ calloutsOf rtns w.fps rps := by
      rw [← h1.calloutsOf_ahead hrp, ← h.found]
      exact List.mem_map_of_mem hd
    obtain ⟨hkept, hdisj⟩ := hw.sources d.rtn (.tail _ hmem)
    refine (h.copied d hd).congr (fun x hx => ?_) fun x _ => rfl
    refine h1.frame x (hkept hx) fun hc => Set.disjoint_left.mp hdisj hx ?_
    rw [h1.code_eq, mem_bytes] at hc
    rw [mem_bytes, hbytes]
    omega

end RtnWritten

theorem Written.cons_some (hrp : rp ∉ rps) (hr : calloutAt rtns w.fps rp = some rtn)
    (hw : Writable kept t s w.rtnSize (calloutsOf rtns w.fps (rp :: rps)))
    (h1 : RtnWritten patch t s kept w w1 rp rtn c) (h : Written rtns patch t s kept rps w1 w' cs) :
    Written rtns patch t s kept (rp :: rps) w w' (c :: cs) := by
  have hsome : w.fps rp ≠ 0 := by
    intro h0
    rw [calloutAt, if_pos h0] at hr
    cases hr
  have hlist : calloutsOf rtns w.fps (rp :: rps) = rtn :: calloutsOf rtns w.fps rps :=
    calloutsOf_cons_some hr
  have hbytes : codeBytes (rtn :: calloutsOf rtns w.fps rps) =
      rtn.rtnSize + codeBytes (calloutsOf rtns w.fps rps) :=
    codeBytes_cons
  have hinside := h.inside
  have hframe := h.frame
  rw [h1.calloutsOf_ahead hrp, h1.cursor] at hinside hframe
  have hnot : ∀ d ∈ cs, d.rp ≠ rp := by
    intro d hd heq
    have hmem : d.rp ∈ rps.filter (w1.fps · ≠ 0) := h.visited ▸ List.mem_map_of_mem hd
    exact hrp (heq ▸ List.mem_of_mem_filter hmem)
  constructor
  · rw [hlist, List.map_cons, h1.found, h.found, h1.calloutsOf_ahead hrp]
  · rw [List.filter_cons_of_pos (by simpa using hsome), List.map_cons, h1.visited, h.visited]
    congr 1
    exact List.filter_congr fun q hq => by rw [h1.fps_ahead hrp q hq]
  · apply List.pairwise_cons.mpr
    exact ⟨fun d hd => h1.stop_eq ▸ (hinside d hd).1, h.order⟩
  · rw [hlist, hbytes]
    intro d hd
    rcases List.mem_cons.mp hd with rfl | hd
    · rw [h1.offset, h1.stop_eq]
      omega
    · have := hinside d hd
      omega
  · exact List.forall_mem_cons.mpr ⟨h1.target, h.target⟩
  · exact List.forall_mem_cons.mpr ⟨h1.found ▸ h1.slot, h.slots⟩
  · rw [List.forall_mem_cons]
    refine ⟨?_, h.fps⟩
    rw [h1.visited, h.others rp hnot, h1.fps, Function.update_self, h1.offset]
  · intro q hq
    rw [List.forall_mem_cons, h1.visited] at hq
    rw [h.others q hq.2, h1.fps_of_ne (Ne.symm hq.1)]
  · rw [hlist, hbytes]
    intro x hx hout
    rw [mem_bytes] at hout
    have hhere : x ∉ c.code := by
      rw [h1.code_eq, mem_bytes]
      omega
    rw [hframe x hx (by rw [mem_bytes]; omega), h1.frame x hx hhere]
  · exact h1.copied_cons hrp (hlist ▸ hw) h

theorem writeCallouts_ok [MmuHeader] (hpatch : PatchesCopy patch kept) (hnodup : rps.Nodup)
    (hpos : 0 < w.rtnSize) (hw : Writable kept t s w.rtnSize (calloutsOf rtns w.fps rps)) :
    ∃ w' cs, writeCallouts rtns patch patchData t s rps w = .ok (w', cs) ∧
      Written rtns patch t s kept rps w w' cs := by
  induction rps generalizing w with
  | nil => exact ⟨w, [], rfl, .nil⟩
  | cons rp rps ih =>
    obtain ⟨hrp, hnodup⟩ := List.nodup_cons.mp hnodup
    rw [writeCallouts]
    cases hr : calloutAt rtns w.fps rp with
    | none =>
      obtain ⟨w', cs, hrun, h⟩ := ih hnodup hpos (calloutsOf_cons_none hr ▸ hw)
      exact ⟨w', cs, hrun, h.cons_none hr⟩
    | some rtn =>
      have hlist : calloutsOf rtns w.fps (rp :: rps) = rtn :: calloutsOf rtns w.fps rps :=
        calloutsOf_cons_some hr
      have hw' : Writable kept t s w.rtnSize (rtn :: calloutsOf rtns w.fps rps) := hlist ▸ hw
      obtain ⟨off, hoff⟩ := hw'.slots rtn (.head _)
      have hfits := hw'.fits
      rw [codeBytes_cons] at hfits
      obtain ⟨w1, c, hone, h1⟩ : ∃ w1 c, writeRtn patch patchData t s w rp rtn = .ok (w1, c) ∧
          RtnWritten patch t s kept w w1 rp rtn c := writeRtn_ok hpatch hpos (by omega) hoff
      have hnext : Writable kept t s w1.rtnSize (calloutsOf rtns w1.fps rps) := by
        rw [h1.cursor, h1.calloutsOf_ahead hrp]
        exact hw'.tail
      obtain ⟨w', cs, hrun, h⟩ := ih hnodup (by rw [h1.cursor]; omega) hnext
      refine ⟨w', c :: cs, ?_, h.cons_some hrp hr hw h1⟩
      dsimp only
      rw [hone]
      change (writeCallouts rtns patch patchData t s rps w1).bind _ = _
      rw [hrun]
      rfl

/-- The first callout is the one that clears the data area, whatever empty pointers come
before it. -/
theorem writeCallouts_start [MmuHeader] (hpos : 0 < (startWriting t s w).rtnSize)
    (h : calloutsOf rtns w.fps rps ≠ []) :
    writeCallouts rtns patch patchData t s rps w = writeCallouts rtns patch patchData t s rps
      (startWriting t s w) := by
  have hfps : (startWriting t s w).fps = w.fps := by
    rw [startWriting]
    split <;> rfl
  have htwice : startWriting t s (startWriting t s w) = startWriting t s w := by
    rw [startWriting, if_neg hpos.ne']
  induction rps with
  | nil => exact absurd rfl h
  | cons rp rps ih =>
    rw [writeCallouts, writeCallouts, hfps]
    cases hr : calloutAt rtns w.fps rp with
    | none => exact ih (calloutsOf_cons_none hr ▸ h)
    | some rtn =>
      dsimp only
      rw [writeRtn, writeRtn, htwice]

end

/-! ### The reservation covers the layout -/

section
variable {m : Mem} {addrs : List (Nat × Nat)} {n : Nat} {t : SyspageTarget} {s : CalloutSizes}
  {rtn : CalloutRtn}

theorem RwLayout.eq_or_apart (h : RwLayout m addrs n) {a b : Nat × Nat} (ha : a ∈ addrs)
    (hb : b ∈ addrs) :
    a = b ∨ a.1 ≠ b.1 ∧ (b.2 + read32 m b.1 ≤ a.2 ∨ a.2 + read32 m a.1 ≤ b.2) := by
  apply List.Pairwise.forall_of_forall_of_flip (fun _ _ => .inl rfl) _ _ ha hb
  · exact h.apart.imp fun hab => .inr ⟨hab.2, .inl hab.1⟩
  · exact h.apart.imp fun hab => .inr ⟨hab.2.symm, .inr hab.1⟩

theorem rwOffset_ok (h : RwLayout m s.rwAddrs n) (hfit : t.totalSize + n < 2 ^ 32)
    (h0 : rtn.rwSize ≠ 0) (hmem : ∃ off, (rtn.rwSize, off) ∈ s.rwAddrs) :
    ∃ off, (rtn.rwSize, off) ∈ s.rwAddrs ∧ rwOffset t s rtn = .ok (t.totalSize + off) := by
  obtain ⟨off, hmem⟩ := hmem
  rw [rwOffset, if_neg h0]
  cases hfind : s.rwAddrs.find? (fun rw => rw.1 = rtn.rwSize) with
  | none =>
    have hnot := List.find?_eq_none.mp hfind _ hmem
    simp at hnot
  | some rw =>
    have hfound : rw ∈ s.rwAddrs := List.mem_of_find?_eq_some hfind
    have hkey : rw.1 = rtn.rwSize := by simpa using List.find?_some hfind
    have hin := h.inside rw hfound
    refine ⟨rw.2, hkey ▸ hfound, ?_⟩
    dsimp only
    rw [u32_of_lt (by omega)]

theorem roundpg_mono [MmuHeader] {x y : Nat} (hy : y + pagesz ≤ 2 ^ 64) (h : x ≤ y) :
    roundpg x ≤ roundpg y := by
  obtain ⟨-, ⟨a, ha⟩, hx⟩ := roundpg_spec (x := x) (by omega)
  obtain ⟨hle, ⟨b, hb⟩, -⟩ := roundpg_spec hy
  rw [ha] at hx ⊢
  rw [hb] at hle ⊢
  apply Nat.mul_le_mul_left
  have hlt : pagesz * a < pagesz * (b + 1) := by
    rw [Nat.mul_succ]
    omega
  exact Nat.le_of_lt_succ (Nat.lt_of_mul_lt_mul_left hlt)

/-- The sizes of a list of callouts, without the bounds of the counters. -/
structure SizesFit [MmuHeader] (m : Mem) (l : List CalloutRtn)
    (sizeofAsinfoEntry total0 : Nat) : Prop where
  counters : total0 + 4 * sizeofAsinfoEntry + rwBytes m l + codeBytes l < 2 ^ 32
  reserved : roundpg (total0 + round (rwBytes m l) 8 + 4 * sizeofAsinfoEntry) + roundpg
    (round (codeBytes l) 8) < 2 ^ 32

def codeStart [MmuHeader] (t : SyspageTarget) (rwsize : Nat) : Nat := roundpg (t.totalSize + rwsize)

/-- Both passes come to the same layout. -/
structure LayoutFits [MmuHeader] (m : Mem) (l : List CalloutRtn) (t : SyspageTarget)
    (rwsize spsize : Nat) : Prop where
  data : rwBytes m l ≤ rwsize
  start : u32 (roundpg (u32 (t.totalSize + rwsize))) = codeStart t rwsize
  paged : pagesz ∣ codeStart t rwsize
  behind : t.totalSize + rwsize ≤ codeStart t rwsize
  reserved : codeStart t rwsize + codeBytes l ≤ spsize
  fits : spsize < 2 ^ 32

theorem round_eight {x : Nat} (hx : x < 2 ^ 32) : x ≤ round x 8 ∧ round x 8 < x + 8 := by
  obtain ⟨hle, -, hlt⟩ := round_two_pow (k := 3) (by decide) (show x + 2 ^ 3 ≤ 2 ^ 64 by omega)
  exact ⟨hle, hlt⟩

theorem layoutFits [MmuHeader] {l : List CalloutRtn} {sizeofAsinfoEntry total0 k : Nat}
    (h : SizesFit m l sizeofAsinfoEntry total0) (hk : k ≤ 4)
    (ht : t.totalSize = total0 + k * sizeofAsinfoEntry) :
    LayoutFits m l t (u32 (round (rwBytes m l) 8))
      (syspageSize sizeofAsinfoEntry total0 (u32 (round (rwBytes m l) 8))
        (u32 (round (codeBytes l) 8))) := by
  obtain ⟨hcounters, hreserved⟩ := h
  have hdata := round_eight (x := rwBytes m l) (by omega)
  have hcode := round_eight (x := codeBytes l) (by omega)
  have hpg := pagesz_le
  generalize hd : rwBytes m l = data at *
  generalize hc : codeBytes l = code at *
  generalize round data 8 = rwsize at *
  generalize round code 8 = codesize at *
  have hmul : k * sizeofAsinfoEntry ≤ 4 * sizeofAsinfoEntry := Nat.mul_le_mul_right _ hk
  have hreach := roundpg_spec (x := total0 + rwsize + 4 * sizeofAsinfoEntry) (by omega)
  have hlast := roundpg_spec (x := codesize) (by omega)
  have hfirst := roundpg_spec (x := t.totalSize + rwsize) (by omega)
  have hle : roundpg (t.totalSize + rwsize) ≤ roundpg (total0 + rwsize + 4 * sizeofAsinfoEntry) :=
    roundpg_mono (by omega) (by omega)
  rw [u32_of_lt (by omega : rwsize < 2 ^ 32), u32_of_lt (by omega : codesize < 2 ^ 32), syspageSize,
    u32_of_lt (by omega : total0 + rwsize < 2 ^ 32),
    u32_of_lt (Nat.lt_of_le_of_lt (Nat.le_add_right _ _) hreserved), u32_of_lt hreserved]
  constructor
  · exact hd ▸ hdata.1
  · rw [u32_of_lt (by omega : t.totalSize + rwsize < 2 ^ 32), u32_of_lt (by omega), codeStart]
  · exact hfirst.2.1
  · exact hfirst.1
  · rw [codeStart, hc]
    omega
  · exact hreserved

end

/-! ### Both passes -/

/-- Where the callouts are, once both passes are done. `m` is the memory that the sizing
pass read. -/
structure CalloutsPlaced [MmuHeader] (rtns : Nat → CalloutRtn)
    (patch : CalloutRtn → PatchArgs → Mem → Mem) (kept : Set Nat) (m : Mem) (t : SyspageTarget)
    (rwsize spsize : Nat) (rps : List Nat) (w w' : CalloutWrite) (cs : List CalloutCopy) :
    Prop where
  found : cs.map (·.rtn) = calloutsOf rtns w.fps rps
  visited : cs.map (·.rp) = rps.filter (w.fps · ≠ 0)
  target : ∀ c ∈ cs, c.args.syspagePaddr = t.syspagePtr ∧ c.args.vaddr = t.kernSyspageptr
  apart : cs.Pairwise fun a b => Disjoint a.code b.code
  paged : pagesz ∣ codeStart t rwsize ∧ t.totalSize + rwsize ≤ codeStart t rwsize
  reserved : ∀ c ∈ cs, codeStart t rwsize ≤ c.args.rtnOffset ∧ c.stop ≤ spsize
  copied : ∀ c ∈ cs, c.Copied patch w.mem w'.mem
  fps : ∀ c ∈ cs, w'.fps c.rp = u64 (t.kernSyspageptr + c.args.rtnOffset)
  others : ∀ rp, rp ∉ rps.filter (w.fps · ≠ 0) → w'.fps rp = w.fps rp
  /-- The slots, for the callouts that have one. -/
  slots : ∀ c ∈ cs, c.rtn.rwSize ≠ 0 →
    t.totalSize ≤ c.args.rwOffset ∧ c.args.rwOffset + read32 m c.rtn.rwSize ≤ t.totalSize + rwsize
  shared : ∀ c ∈ cs, ∀ d ∈ cs, c.rtn.rwSize ≠ 0 → c.rtn.rwSize = d.rtn.rwSize →
    c.args.rwOffset = d.args.rwOffset
  separate : ∀ c ∈ cs, ∀ d ∈ cs, c.rtn.rwSize ≠ 0 → d.rtn.rwSize ≠ 0 → c.rtn.rwSize ≠ d.rtn.rwSize →
    Disjoint (bytes c.args.rwOffset (read32 m c.rtn.rwSize))
      (bytes d.args.rwOffset (read32 m d.rtn.rwSize))
  cleared : ∀ x ∈ bytes (t.syspagePtr + t.totalSize) rwsize, w'.mem x = 0
  /-- Nothing else is written: neither the sections nor what lies behind the reserved bytes. -/
  frame : ∀ x ∈ kept, x ∉ bytes (t.syspagePtr + t.totalSize) rwsize →
    x ∉ bytes (t.syspagePtr + codeStart t rwsize) (spsize - codeStart t rwsize) → w'.mem x = w.mem x

theorem CalloutsPlaced.slot_iff [MmuHeader] {rtns : Nat → CalloutRtn}
    {patch : CalloutRtn → PatchArgs → Mem → Mem} {kept : Set Nat} {m : Mem} {t : SyspageTarget}
    {rwsize spsize : Nat} {rps : List Nat} {w w' : CalloutWrite} {cs : List CalloutCopy}
    (h : CalloutsPlaced rtns patch kept m t rwsize spsize rps w w' cs) {c d : CalloutCopy}
    (hc : c ∈ cs) (hd : d ∈ cs) (hc0 : c.rtn.rwSize ≠ 0) (hd0 : d.rtn.rwSize ≠ 0)
    (hcr : 0 < read32 m c.rtn.rwSize) (hdr : 0 < read32 m d.rtn.rwSize) :
    c.args.rwOffset = d.args.rwOffset ↔ c.rtn.rwSize = d.rtn.rwSize := by
  constructor
  · intro heq
    by_contra hne
    have hdisj := Set.disjoint_left.mp (h.separate c hc d hd hc0 hd0 hne)
    exact hdisj (mem_bytes.mpr ⟨le_rfl, by omega⟩) (mem_bytes.mpr ⟨heq.ge, by omega⟩)
  · exact h.shared c hc d hd hc0

section
variable [MmuHeader] {rtns : Nat → CalloutRtn} {patch : CalloutRtn → PatchArgs → Mem → Mem}
  {patchData : List CoInfo}
  {kept : Set Nat} {m mw : Mem} {fps0 fps : Nat → Nat} {rps0 rps : List Nat} {t : SyspageTarget}
  {l : List CalloutRtn}
  {s s0 : CalloutSizes} {rwsize spsize sizeofAsinfoEntry total0 n : Nat} {w w' : CalloutWrite}
  {cs : List CalloutCopy}

omit [MmuHeader] in
theorem Written.slot_sized (h : Written rtns patch t s kept rps w w' cs) (hsized : Sized m l s0)
    (haddrs : s.rwAddrs = s0.rwAddrs) (hsame : ∀ rtn ∈ calloutsOf rtns w.fps rps, rtn ∈ l)
    (hfit : t.totalSize + rwBytes m l < 2 ^ 32) {c : CalloutCopy} (hc : c ∈ cs)
    (h0 : c.rtn.rwSize ≠ 0) :
    ∃ off, (c.rtn.rwSize, off) ∈ s0.rwAddrs ∧ c.args.rwOffset = t.totalSize + off ∧
      off + read32 m c.rtn.rwSize ≤ rwBytes m l := by
  have hmem : c.rtn ∈ l := hsame c.rtn (h.found ▸ List.mem_map_of_mem hc)
  obtain ⟨off, hoff, hok⟩ : ∃ off, (c.rtn.rwSize, off) ∈ s.rwAddrs ∧
      rwOffset t s c.rtn = .ok (t.totalSize + off) := by
    apply rwOffset_ok (haddrs ▸ hsized.layout) _ h0
    · exact haddrs ▸ (hsized.keys _).mpr (mem_rwPointers.mpr ⟨h0, c.rtn, hmem, rfl⟩)
    · rw [hsized.data]
      exact hfit
  rw [h.slots c hc] at hok
  rw [haddrs] at hoff
  exact ⟨off, hoff, Except.ok.inj hok, hsized.data ▸ hsized.layout.inside _ hoff⟩

omit [MmuHeader] in
/-- Callouts with one size of their data, read from the same place, share it, and others do not. -/
theorem Written.slots_apart (h : Written rtns patch t s kept rps w w' cs) (hsized : Sized m l s0)
    (haddrs : s.rwAddrs = s0.rwAddrs) (hsame : ∀ rtn ∈ calloutsOf rtns w.fps rps, rtn ∈ l)
    (hfit : t.totalSize + rwBytes m l < 2 ^ 32) {c d : CalloutCopy} (hc : c ∈ cs) (hd : d ∈ cs)
    (h0 : c.rtn.rwSize ≠ 0) (h0' : d.rtn.rwSize ≠ 0) :
    (c.rtn.rwSize = d.rtn.rwSize → c.args.rwOffset = d.args.rwOffset) ∧
      (c.rtn.rwSize ≠ d.rtn.rwSize → Disjoint (bytes c.args.rwOffset (read32 m c.rtn.rwSize))
        (bytes d.args.rwOffset (read32 m d.rtn.rwSize))) := by
  obtain ⟨off, hoff, hc', -⟩ := h.slot_sized hsized haddrs hsame hfit hc h0
  obtain ⟨off', hoff', hd', -⟩ := h.slot_sized hsized haddrs hsame hfit hd h0'
  rcases hsized.layout.eq_or_apart hoff hoff' with hone | ⟨hne, hap⟩
  · refine ⟨fun _ => ?_, fun hne => absurd (Prod.mk.inj hone).1 hne⟩
    rw [hc', hd', (Prod.mk.inj hone).2]
  · refine ⟨fun heq => absurd heq hne, fun _ => ?_⟩
    rw [Set.disjoint_left]
    intro x hx hx'
    rw [mem_bytes] at hx hx'
    dsimp only at hap
    omega

theorem placed_of_written (hsized : Sized m l s0) (haddrs : s.rwAddrs = s0.rwAddrs)
    (hsame : ∀ rtn ∈ calloutsOf rtns w.fps rps, rtn ∈ l)
    (hbytes : codeBytes (calloutsOf rtns w.fps rps) = codeBytes l)
    (hlayout : LayoutFits m l t rwsize spsize) (hw : w.rtnSize = codeStart t rwsize)
    (h : Written rtns patch t s kept rps w w' cs) (hkept : bytes t.syspagePtr spsize ⊆ kept)
    (hclear : ∀ x ∈ bytes (t.syspagePtr + t.totalSize) rwsize, w.mem x = 0) :
    CalloutsPlaced rtns patch kept m t rwsize spsize rps w w' cs := by
  have hinside := h.inside
  have hframe := h.frame
  rw [hw, hbytes] at hinside hframe
  have hreserved := hlayout.reserved
  have hdata := hlayout.data
  have hbehind := hlayout.behind
  have hfits := hlayout.fits
  have hapart := fun c hc d hd h0 h0' =>
    h.slots_apart hsized haddrs hsame (by omega) (c := c) (d := d) hc hd h0 h0'
  constructor
  · exact h.found
  · exact h.visited
  · exact h.target
  · refine h.order.imp_of_mem fun {a b} ha hb hle => ?_
    rw [CalloutCopy.stop] at hle
    rw [Set.disjoint_left]
    intro x hxa hxb
    rw [CalloutCopy.code, CalloutCopy.start, mem_bytes, (h.target a ha).1] at hxa
    rw [CalloutCopy.code, CalloutCopy.start, mem_bytes, (h.target b hb).1] at hxb
    omega
  · exact ⟨hlayout.paged, hbehind⟩
  · intro c hc
    have := hinside c hc
    omega
  · exact h.copied
  · exact h.fps
  · intro rp hrp
    refine h.others rp fun c hc heq => hrp ?_
    rw [← h.visited, ← heq]
    exact List.mem_map_of_mem hc
  · intro c hc h0
    obtain ⟨off, -, hoff, hle⟩ := h.slot_sized hsized haddrs hsame (by omega) hc h0
    omega
  · exact fun c hc d hd h0 heq => (hapart c hc d hd h0 (heq ▸ h0)).1 heq
  · exact fun c hc d hd h0 h0' hne => (hapart c hc d hd h0 h0').2 hne
  · intro x hx
    rw [← hclear x hx]
    rw [mem_bytes] at hx
    refine hframe x (hkept ?_) ?_
    · rw [mem_bytes]
      omega
    · rw [mem_bytes]
      omega
  · intro x hx hdataArea hcodeArea
    refine hframe x hx fun hc => hcodeArea ?_
    rw [mem_bytes] at hc ⊢
    omega

theorem CalloutsPlaced.of_cleared {w1 : CalloutWrite}
    (h : CalloutsPlaced rtns patch kept m t rwsize spsize rps w1 w' cs) (hfps : w1.fps = w.fps)
    (hout : ∀ x, x ∉ bytes (t.syspagePtr + t.totalSize) rwsize → w1.mem x = w.mem x)
    (hsources : ∀ rtn ∈ calloutsOf rtns w.fps rps,
      Disjoint (bytes rtn.rtnCode rtn.rtnSize) (bytes (t.syspagePtr + t.totalSize) rwsize)) :
    CalloutsPlaced rtns patch kept m t rwsize spsize rps w w' cs where
  __ := h
  found := hfps ▸ h.found
  visited := hfps ▸ h.visited
  copied := by
    intro c hc
    have hmem : c.rtn ∈ calloutsOf rtns w.fps rps := by
      rw [← hfps, ← h.found]
      exact List.mem_map_of_mem hc
    refine (h.copied c hc).congr (fun x hx => ?_) fun x _ => rfl
    exact hout x (Set.disjoint_left.mp (hsources c.rtn hmem) hx)
  others := hfps ▸ h.others
  frame := fun x hx hdata hcode => (h.frame x hx hdata hcode).trans (hout x hdata)

theorem writeCallouts_none {s : CalloutSizes} (h : calloutsOf rtns w.fps rps = []) :
    writeCallouts rtns patch patchData t s rps w = .ok (w, []) ∧ rps.filter (w.fps · ≠ 0) = [] := by
  induction rps with
  | nil => exact ⟨rfl, rfl⟩
  | cons rp rps ih =>
    cases hr : calloutAt rtns w.fps rp with
    | some rtn =>
      rw [calloutsOf_cons_some hr] at h
      cases h
    | none =>
      rw [calloutsOf_cons_none hr] at h
      obtain ⟨hrun, hfilter⟩ := ih h
      have hnull : w.fps rp = 0 := by
        by_contra h0
        rw [calloutAt, if_neg h0] at hr
        cases hr
      rw [writeCallouts, hr, List.filter_cons_of_neg (by simpa using hnull)]
      exact ⟨hrun, hfilter⟩

theorem placed_of_none (h : rps.filter (w.fps · ≠ 0) = []) (hnone : calloutsOf rtns w.fps rps = [])
    (hlayout : LayoutFits m l t 0 spsize) :
    CalloutsPlaced rtns patch kept m t 0 spsize rps w w [] where
  found := hnone.symm
  visited := h.symm
  target := by simp
  apart := .nil
  paged := ⟨hlayout.paged, hlayout.behind⟩
  reserved := by simp
  copied := by simp
  fps := by simp
  others := fun _ _ => rfl
  slots := by simp
  shared := by simp
  separate := by simp
  cleared := by
    intro x hx
    rw [mem_bytes] at hx
    omega
  frame := fun _ _ _ _ => rfl

theorem writeCallouts_placed (hsized : Sized m l s0) (haddrs : s.rwAddrs = s0.rwAddrs)
    (hsame : l.Perm (calloutsOf rtns fps rps)) (hnodup : rps.Nodup)
    (hlayout : LayoutFits m l t s.rwSize spsize) (hempty : l = [] → s.rwSize = 0)
    (hpos : 0 < t.totalSize)
    (hpage : bytes t.syspagePtr spsize ⊆ kept)
    (hsources : ∀ rtn ∈ calloutsOf rtns fps rps,
      bytes rtn.rtnCode rtn.rtnSize ⊆ kept ∧
        Disjoint (bytes rtn.rtnCode rtn.rtnSize) (bytes t.syspagePtr spsize))
    (hpatch : PatchesCopy patch kept) :
    ∃ w' cs, writeCallouts rtns patch patchData t s rps ⟨mw, 0, fps⟩ = .ok (w', cs) ∧
      CalloutsPlaced rtns patch kept m t s.rwSize spsize rps ⟨mw, 0, fps⟩ w' cs := by
  have hbytes : codeBytes (calloutsOf rtns fps rps) = codeBytes l := (hsame.map _).sum_eq.symm
  have hreserved := hlayout.reserved
  have hbehind := hlayout.behind
  have hfits := hlayout.fits
  have hdata := hlayout.data
  by_cases hnone : calloutsOf rtns fps rps = []
  · obtain ⟨hrun, hfilter⟩ : writeCallouts rtns patch patchData t s rps ⟨mw, 0, fps⟩ =
        .ok (⟨mw, 0, fps⟩, []) ∧ rps.filter (fps · ≠ 0) = [] := writeCallouts_none hnone
    refine ⟨_, _, hrun, ?_⟩
    rw [hnone] at hsame
    rw [hempty hsame.eq_nil] at hlayout ⊢
    exact placed_of_none hfilter hnone hlayout
  have hstart : startWriting t s ⟨mw, 0, fps⟩ =
      ⟨memset mw (t.syspagePtr + t.totalSize) 0 s.rwSize, codeStart t s.rwSize, fps⟩ := by
    rw [startWriting, if_pos rfl, hlayout.start]
  have hsub : ∀ a n : Nat, a + n ≤ spsize →
      bytes (t.syspagePtr + a) n ⊆ bytes t.syspagePtr spsize := by
    intro a n hle x hx
    rw [mem_bytes] at hx ⊢
    omega
  rw [writeCallouts_start (by rw [hstart]; dsimp only; omega) hnone, hstart]
  obtain ⟨w', cs, hrun, h⟩ := writeCallouts_ok (t := t) (s := s) hpatch hnodup
    (w := ⟨memset mw (t.syspagePtr + t.totalSize) 0 s.rwSize, codeStart t s.rwSize, fps⟩)
    (by dsimp only; omega)
    { fits := by rw [hbytes]; dsimp only; omega
      area := (hsub _ _ (by rw [hbytes]; exact hreserved)).trans hpage
      slots := by
        intro rtn hrtn
        by_cases h0 : rtn.rwSize = 0
        · exact ⟨_, if_pos h0⟩
        · obtain ⟨off, -, hok⟩ := rwOffset_ok (t := t) (haddrs ▸ hsized.layout)
            (by rw [hsized.data]; omega) h0
            (haddrs ▸ (hsized.keys _).mpr (mem_rwPointers.mpr ⟨h0, rtn,
              hsame.mem_iff.mpr hrtn, rfl⟩))
          exact ⟨_, hok⟩
      sources := fun rtn hrtn =>
        ⟨(hsources rtn hrtn).1, (hsources rtn hrtn).2.mono_right (hsub _ _
          (by rw [hbytes]; exact hreserved))⟩ }
  refine ⟨w', cs, hrun, ?_⟩
  have hplaced := placed_of_written hsized haddrs
    (fun rtn hrtn => hsame.mem_iff.mpr hrtn) hbytes hlayout rfl h hpage
    fun x hx => memset_of_mem hx
  refine hplaced.of_cleared rfl ?_ ?_
  · exact fun x hx => memset_of_not_mem hx
  · exact fun rtn hrtn => (hsources rtn hrtn).2.mono_right (hsub _ _ (by omega))

/-- The two passes over the same callouts, with at most four entries of `asinfo` added
between them. -/
theorem output_callouts_placed (hsame : (calloutsOf rtns fps0 rps0).Perm (calloutsOf rtns fps rps))
    (hnodup : rps.Nodup)
    (hfit : SizesFit m (calloutsOf rtns fps0 rps0) sizeofAsinfoEntry total0) (hn : n ≤ 4)
    (ht : t.totalSize = total0 + n * sizeofAsinfoEntry) (hpos : 0 < t.totalSize)
    (hspsize : spsize = syspageSize sizeofAsinfoEntry total0
      (sizeCallouts rtns m fps0 rps0).1.rwSize (sizeCallouts rtns m fps0 rps0).2)
    (hpage : bytes t.syspagePtr spsize ⊆ kept)
    (hsources : ∀ rtn ∈ calloutsOf rtns fps rps,
      bytes rtn.rtnCode rtn.rtnSize ⊆ kept ∧
        Disjoint (bytes rtn.rtnCode rtn.rtnSize) (bytes t.syspagePtr spsize))
    (hpatch : PatchesCopy patch kept) :
    ∃ w' cs, writeCallouts rtns patch patchData t (sizeCallouts rtns m fps0 rps0).1 rps
        ⟨mw, (sizeCallouts rtns m fps0 rps0).1.rtnSize, fps⟩ = .ok (w', cs) ∧
      CalloutsPlaced rtns patch kept m t (sizeCallouts rtns m fps0 rps0).1.rwSize spsize rps
        ⟨mw, (sizeCallouts rtns m fps0 rps0).1.rtnSize, fps⟩ w' cs ∧
      ∀ c ∈ cs, ∀ d ∈ cs, c.rtn.rwSize ≠ 0 → d.rtn.rwSize ≠ 0 → 0 < read32 m c.rtn.rwSize →
        0 < read32 m d.rtn.rwSize →
        (c.args.rwOffset = d.args.rwOffset ↔ c.rtn.rwSize = d.rtn.rwSize) := by
  have hcounters := hfit.counters
  have hsized : Sized m (calloutsOf rtns fps0 rps0) (rps0.foldl (sizeOne rtns m fps0) ⟨[], 0, 0⟩) :=
    sized_foldl (by omega) (by omega)
  have hrw : (sizeCallouts rtns m fps0 rps0).1.rwSize =
      u32 (round (rwBytes m (calloutsOf rtns fps0 rps0)) 8) := by
    rw [sizeCallouts, ← hsized.data]
  have hcode : (sizeCallouts rtns m fps0 rps0).2 =
      u32 (round (codeBytes (calloutsOf rtns fps0 rps0)) 8) := by
    rw [sizeCallouts, ← hsized.code]
  have hlayout : LayoutFits m (calloutsOf rtns fps0 rps0) t
      (sizeCallouts rtns m fps0 rps0).1.rwSize spsize := by
    rw [hspsize, hrw, hcode]
    exact layoutFits hfit hn ht
  have hempty : calloutsOf rtns fps0 rps0 = [] → (sizeCallouts rtns m fps0 rps0).1.rwSize = 0 := by
    intro hnil
    rw [hrw, hnil, rwBytes_nil]
    decide
  obtain ⟨w', cs, hrun, h⟩ : ∃ w' cs,
      writeCallouts rtns patch patchData t (sizeCallouts rtns m fps0 rps0).1 rps
      ⟨mw, 0, fps⟩ = .ok (w', cs) ∧
      CalloutsPlaced rtns patch kept m t (sizeCallouts rtns m fps0 rps0).1.rwSize spsize rps
        ⟨mw, 0, fps⟩ w' cs :=
    writeCallouts_placed hsized rfl hsame hnodup hlayout hempty hpos hpage hsources hpatch
  exact ⟨w', cs, hrun, h, fun c hc d hd => h.slot_iff hc hd⟩

end

def sharedRtns (p : Nat) : CalloutRtn :=
  if p = 0x100 then ⟨0x114, 20, 0x500, true⟩ else if p = 0x200 then ⟨0x214, 12, 0x600, false⟩
    else ⟨0x314, 8, 0x500, false⟩

def sharedFps (rp : Nat) : Nat :=
  if rp = 8 then 0x100 else if rp = 16 then 0 else if rp = 24 then 0x200 else 0x300

def sharedRwMem (x : Nat) : UInt8 := if x = 0x500 then 4 else if x = 0x600 then 8 else 0

def patchFirstWord (rtn : CalloutRtn) (args : PatchArgs) (m : Mem) : Mem :=
  memset m (args.syspagePaddr + args.rtnOffset) 1 (min 4 rtn.rtnSize)

theorem output_callouts_placed_example :
    let _ := smallPages
    let sizes := sizeCallouts sharedRtns sharedRwMem sharedFps [8, 16, 24, 32]
    let t : SyspageTarget := ⟨0x10000, 0xFFFFFF8060000000, 1064⟩
    let w : CalloutWrite := ⟨sharedRwMem, sizes.1.rtnSize, sharedFps⟩
    ∃ w' cs, writeCallouts sharedRtns patchFirstWord [⟨8, 0x700⟩] t sizes.1 [8, 16, 24, 32] w =
      .ok (w', cs) ∧
      CalloutsPlaced sharedRtns patchFirstWord Set.univ sharedRwMem t sizes.1.rwSize 8192
        [8, 16, 24, 32] w w' cs ∧
      ∀ c ∈ cs, ∀ d ∈ cs, c.rtn.rwSize ≠ 0 → d.rtn.rwSize ≠ 0 →
      0 < read32 sharedRwMem c.rtn.rwSize →
        0 < read32 sharedRwMem d.rtn.rwSize →
        (c.args.rwOffset = d.args.rwOffset ↔ c.rtn.rwSize = d.rtn.rwSize) := by
  intro _ sizes t w
  have hcallouts : calloutsOf sharedRtns sharedFps [8, 16, 24, 32] =
      [⟨0x114, 20, 0x500, true⟩, ⟨0x214, 12, 0x600, false⟩, ⟨0x314, 8, 0x500, false⟩] := by decide
  have hlow : ∀ rtn ∈ calloutsOf sharedRtns sharedFps [8, 16, 24, 32],
      rtn.rtnCode + rtn.rtnSize ≤ 0x10000 := by
    rw [hcallouts]
    decide
  have hfit : SizesFit sharedRwMem (calloutsOf sharedRtns sharedFps [8, 16, 24, 32]) 64 1000 := by
    have hrw : rwBytes sharedRwMem (calloutsOf sharedRtns sharedFps [8, 16, 24, 32]) = 12 := by
      decide
    have hcode : codeBytes (calloutsOf sharedRtns sharedFps [8, 16, 24, 32]) = 40 := by decide
    constructor
    · rw [hrw, hcode]
      decide
    · rw [hrw, hcode]
      decide +kernel
  have hpatch : PatchesCopy patchFirstWord Set.univ := by
    intro rtn args m x _ hx
    rw [mem_bytes] at hx
    exact memset_of_not_mem (by omega)
  have hsources : ∀ rtn ∈ calloutsOf sharedRtns sharedFps [8, 16, 24, 32],
      bytes rtn.rtnCode rtn.rtnSize ⊆ Set.univ ∧
      Disjoint (bytes rtn.rtnCode rtn.rtnSize) (bytes 0x10000 8192) := by
    intro rtn hrtn
    refine ⟨Set.subset_univ _, Set.disjoint_left.mpr fun x hx hx' => ?_⟩
    have := hlow rtn hrtn
    rw [mem_bytes] at hx hx'
    omega
  exact output_callouts_placed (n := 1) (.refl _) (by decide) hfit (by decide) rfl (by decide)
    (by decide +kernel)
    (Set.subset_univ _) hsources hpatch

/-- Sizes that add up to 2^32 are reserved as nothing, and data of no size is given no
slot of its own. -/
theorem callouts_beyond_reserved :
    let _ := smallPages
    let rtns : Nat → CalloutRtn := fun p => ⟨0x10000000, 2 ^ 31, p, false⟩
    let sizes := sizeCallouts rtns (fun _ => 0) id [8, 16]
    ∃ w' cs, writeCallouts rtns (fun _ _ m => m) [] ⟨0x10000, 0xFFFFFF8060000000,
      1000⟩ sizes.1 [8, 16]
        ⟨fun _ => 0, sizes.1.rtnSize, id⟩ = .ok (w', cs) ∧
      (∃ c ∈ cs, syspageSize 64 1000 sizes.1.rwSize sizes.2 < c.stop) ∧
      ∃ c ∈ cs, ∃ d ∈ cs, c.rtn.rwSize ≠ 0 ∧ d.rtn.rwSize ≠ 0 ∧ c.rtn.rwSize ≠ d.rtn.rwSize ∧
        c.args.rwOffset = d.args.rwOffset := by
  intro _ rtns sizes
  refine ⟨_, _, eq_ok_pair_resultOr (⟨fun _ => 0, 0, id⟩, []) (by decide +kernel),
    by decide +kernel, by decide +kernel⟩

end QnxStartup
