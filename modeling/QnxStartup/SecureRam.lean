import QnxStartup.Calloc
import QnxStartup.HandedOut

/-! The allocator with its two lists where `ws_init` puts them, behind the image, so that
the `memset` of a secure system can reach them. Wherever it reaches neither, the
allocator is the one that holds the lists apart from memory. -/

namespace QnxStartup

/-- The word `v` at `p`, after the `n` bytes from `dst` on have been zeroed. -/
def zeroedWord (dst n p v : Nat) : Nat := readPtr (memset (writePtr (fun _ => 0) p v) dst 0 n) p

theorem zeroedWord_of_disjoint {dst n p v : Nat} (hv : v < 2 ^ 64)
    (h : Disjoint (bytes p 8) (bytes dst n)) :
    zeroedWord dst n p v = v := by
  have hkeep : zeroedWord dst n p v = readPtr (writePtr (fun _ => 0) p v) p :=
    readPtr_congr fun i hi =>
    memset_of_not_mem fun hx => Set.disjoint_left.mp h (mem_bytes.mpr ⟨by omega, by omega⟩) hx
  rw [hkeep, readPtr_writePtr_self _ _ hv]

def AvoidEntry.zeroed (dst n p : Nat) (a : AvoidEntry) : AvoidEntry :=
  ⟨zeroedWord dst n p a.start, zeroedWord dst n (p + 8) a.stop⟩

def RamEntry.zeroed (dst n p : Nat) (r : RamEntry) : RamEntry :=
  ⟨zeroedWord dst n p r.addr, zeroedWord dst n (p + 8) r.size⟩

/-- `memset(dst, 0, n)`, with `avoid_list` at `lists` and `ram_list` behind it. -/
def RamState.zeroed (lists dst n : Nat) (s : RamState) : RamState :=
  { s with
    mem := memset s.mem dst 0 n
    avoidList := s.avoidList.mapIdx fun i a => a.zeroed dst n (lists + i * sizeofAvoidEntry)
    ramList :=
      { s.ramList with
        entries := s.ramList.entries.mapIdx fun i r =>
          r.zeroed dst n (lists + maxAvoidListSize + i * sizeofRamEntry) } }

theorem bytes_disjoint_of_le {a b k m n : Nat} (hk : k + 16 ≤ m)
    (h : Disjoint (bytes a m) (bytes b n)) :
    Disjoint (bytes (a + k) 8) (bytes b n) ∧ Disjoint (bytes (a + k + 8) 8) (bytes b n) := by
  have hin : ∀ i x, i ≤ 8 → x ∈ bytes (a + k + i) 8 → x ∈ bytes a m := by
    intro i x hi hx
    rw [mem_bytes] at hx ⊢
    omega
  exact ⟨h.mono_left fun x hx => hin 0 x (by decide) hx, h.mono_left fun x hx => hin 8 x le_rfl hx⟩

theorem zeroed_avoidList {lists dst n : Nat} {s : RamState}
    (hv : ∀ a ∈ s.avoidList, a.start < 2 ^ 64 ∧ a.stop < 2 ^ 64)
    (h : Disjoint (bytes lists (s.avoidList.length * sizeofAvoidEntry)) (bytes dst n)) :
    (s.zeroed lists dst n).avoidList = s.avoidList := by
  refine List.ext_getElem (by simp [RamState.zeroed]) fun i hi hi' => ?_
  obtain ⟨hstart, hstop⟩ := hv _ (List.getElem_mem hi')
  have hroom : i * sizeofAvoidEntry + 16 ≤ s.avoidList.length * sizeofAvoidEntry := by
    unfold sizeofAvoidEntry
    omega
  obtain ⟨h1, h2⟩ := bytes_disjoint_of_le hroom h
  simp only [RamState.zeroed, List.getElem_mapIdx, AvoidEntry.zeroed]
  rw [zeroedWord_of_disjoint hstart h1, zeroedWord_of_disjoint hstop h2]

theorem zeroed_holds {lists dst n : Nat} {s : RamState} {f : FreeList} (hf : s.ramList.Holds f)
    (h : Disjoint (bytes (lists + maxAvoidListSize) s.ramList.size) (bytes dst n)) :
    (s.zeroed lists dst n).ramList.Holds f := by
  obtain ⟨last, hlast, hl⟩ := hf
  have hroom : ∀ i ≤ f.entries.length, i * sizeofRamEntry + 16 ≤ s.ramList.size := by
    intro i hi
    simp only [hl, RamList.ofEntries, List.length_append, List.length_singleton, sizeofRamEntry]
    omega
  have hkeep : ∀ i, (hi : i < f.entries.length) →
      (f.entries[i]).zeroed dst n (lists + maxAvoidListSize + i * sizeofRamEntry) =
      f.entries[i] := by
    intro i hi
    obtain ⟨h1, h2⟩ := bytes_disjoint_of_le (hroom i hi.le) h
    have hb := f.bound _ (List.getElem_mem hi)
    rw [RamEntry.zeroed, zeroedWord_of_disjoint (by omega) h1, zeroedWord_of_disjoint (by omega) h2]
  -- only the address of the terminator may change, for it need not be a 64-bit word here
  refine ⟨last.zeroed dst n (lists + maxAvoidListSize + f.entries.length * sizeofRamEntry), ?_, ?_⟩
  · obtain ⟨-, h2⟩ := bytes_disjoint_of_le (hroom _ le_rfl) h
    rw [RamEntry.zeroed, hlast, zeroedWord_of_disjoint (by decide) h2]
  · simp only [RamState.zeroed, hl, RamList.ofEntries, List.mapIdx_append,
      List.mapIdx_singleton, Nat.zero_add,
      List.length_append, List.length_singleton, RamList.mk.injEq, and_true,
      List.append_cancel_right_eq]
    refine List.ext_getElem (by simp) fun i hi hi' => ?_
    rw [List.getElem_mapIdx]
    exact hkeep i hi'

namespace Stored

/-- `alloc_ram`. The `memset` of a secure system goes through a 32-bit address. -/
def allocRam [SyspageHeader] (lists addr size align : Nat)
    (s : RamState) : Startup (RamState × Nat) :=
  if addr = nullPaddr then
    let addr := findRam size align 0 0 s
    if addr = nullPaddr then .ok (s, nullPaddr)
    else if s.secureSystem then takeRam addr size (s.zeroed lists (u32 addr) size)
    else takeRam addr size s
  else takeRam addr size s

def callocRam [SyspageHeader] (lists size align : Nat) (s : RamState) : Startup (RamState × Nat) :=
  (allocRam lists nullPaddr size align s).bind fun (s, a) =>
    if a ≠ nullPaddr ∧ s.secureSystem = false then .ok (s.zeroed lists a size, a)
    else .ok (s, a)

/-- The other calls zero nothing: `add_ram` takes the image out by its address. -/
def runHandOp [SyspageHeader] (boot : Boot) : HandOp → RamState → Startup (RamState × List Event)
  | .allocRam size align, s =>
    (allocRam boot.wsStart nullPaddr size align s).bind fun (s', a) =>
      .ok (s', if a = nullPaddr then [] else [.given a size align])
  | .callocRam size align, s =>
    (callocRam boot.wsStart size align s).bind fun (s', a) =>
      .ok (s', if a = nullPaddr then [] else [.given a size align])
  | op, s => QnxStartup.runHandOp boot op s

end Stored

/-- What a caller of any of these is held to. -/
def HandOp.Asked (past : List Event) (s : RamState) : HandOp → Prop
  | addRam start size => 0 < size ∧ start + size ≤ 2 ^ 48 ∧ Disjoint (bytes start size) (ramOf past)
  | avoidRam start size => 0 < size ∧ start + size ≤ 2 ^ 48
  | wsAlloc size => 0 < size ∧
      (s.ramList.size ≤ sizeofRamEntry → s.wsEarlyNext + round size 8 ≤ 2 ^ 48)
  | allocRam size align => 0 < size ∧ ∃ k < 32, align = 2 ^ k
  | callocRam size align => 0 < size ∧ ∃ k < 32, align = 2 ^ k

/-- What is zeroed is what was found, and the size of a workspace block can be rounded up. -/
def HandOp.Clear (s : RamState) : HandOp → Prop
  | wsAlloc size => size ≤ 2 ^ 64 - 8
  | allocRam size align => s.secureSystem = true → findRam size align 0 0 s ≠ nullPaddr →
      findRam size align 0 0 s < 2 ^ 32
  | callocRam size align => s.secureSystem = true → findRam size align 0 0 s ≠ nullPaddr →
      findRam size align 0 0 s < 2 ^ 32
  | _ => True

theorem HandOp.Asked.allowed {past : List Event} {s : RamState} {op : HandOp} (h : op.Asked past s)
    (hc : op.Clear s) : op.Allowed past s := by
  cases op with
  | wsAlloc size => exact ⟨h.1, hc, h.2⟩
  | _ => exact h

/-! ### The lists stay inside their arrays -/

/-- Neither list outgrows the array that `ws_init` made for it. -/
structure RamState.Fits (s : RamState) : Prop where
  avoid : (s.avoidList.length + 1) * sizeofAvoidEntry ≤ maxAvoidListSize
  ram : s.ramList.size ≤ maxRamListSize

theorem mergeScan_size (fuel i : Nat) (l : RamList) : (mergeScan fuel i l).size ≤ l.size := by
  induction fuel generalizing i l with
  | zero => exact le_rfl
  | succ fuel ih =>
    rw [mergeScan]
    split
    · next p r _ _ =>
      by_cases h0 : r.size = 0
      · rw [if_pos h0]
      · rw [if_neg h0]
        dsimp only
        split
        · exact (ih ..).trans (Nat.sub_le _ _)
        · exact ih ..
    · exact le_rfl

theorem addMem_size {start size : Nat} {l l' : RamList} (hl : l.size ≤ maxRamListSize)
    (h : addMem start size l = .ok l') : l'.size ≤ maxRamListSize := by
  unfold addMem at h
  split at h
  · rw [crash_ite_eq_ok] at h
    obtain ⟨hroom, h⟩ := h
    obtain rfl := Except.ok.inj h
    refine (mergeScan_size ..).trans ?_
    simp only [RamList.openAt, sizeofRamEntry, maxRamListSize] at hroom ⊢
    omega
  · obtain rfl := Except.ok.inj h
    exact hl

theorem allocScan_size {addr stop fuel i : Nat} {l l' : RamList} (hl : l.size ≤ maxRamListSize)
    (h : allocScan addr stop fuel i l = .ok l') : l'.size ≤ maxRamListSize := by
  induction fuel generalizing i l with
  | zero => cases h
  | succ fuel ih =>
    rw [allocScan] at h
    cases hr : l.entries[i]? with
    | none =>
      simp only [hr] at h
      obtain rfl := Except.ok.inj h
      exact hl
    | some r =>
      simp only [hr] at h
      split at h
      · obtain rfl := Except.ok.inj h
        exact hl
      split at h
      · generalize (if stop > _ then stop else _) = e at h
        generalize (if addr < _ then addr else _) = a at h
        have hset : ∀ r', (l.setAt i r').size ≤ maxRamListSize := fun _ => hl
        split at h
        · exact ih ((Nat.sub_le _ _).trans hl) h
        split at h
        · exact ih (hset _) h
        split at h
        · obtain ⟨l1, hadd, h⟩ := bind_eq_ok.mp h
          exact ih (addMem_size (hset _) hadd) h
        · exact ih (hset _) h
      · exact ih hl h

namespace RamState.Fits

theorem take [SyspageHeader] {s s' : RamState} {addr size a : Nat} (hs : s.Fits)
    (h : takeRam addr size s = .ok (s', a)) : s'.Fits := by
  obtain ⟨l, hl, h⟩ := bind_eq_ok.mp h
  have hsize := allocScan_size hs.ram hl
  dsimp only at h
  split at h
  · obtain ⟨t, -, h⟩ := bind_eq_ok.mp h
    cases h
    exact ⟨hs.avoid, hsize⟩
  · cases h
    exact ⟨hs.avoid, hsize⟩

theorem note {s s' : RamState} {start size : Nat} (hs : s.ramList.size ≤ maxRamListSize)
    (h : noteAvoid start size s = .ok s') : s'.Fits := by
  unfold noteAvoid at h
  rw [crash_ite_eq_ok] at h
  obtain ⟨hroom, h⟩ := h
  obtain rfl := Except.ok.inj h
  exact ⟨not_lt.mp hroom, hs⟩

theorem same {s s' : RamState} (hs : s.Fits) (hav : s'.avoidList = s.avoidList)
    (hsize : s'.ramList.size = s.ramList.size) : s'.Fits :=
  ⟨by rw [hav]; exact hs.avoid, by rw [hsize]; exact hs.ram⟩

theorem init {boot : Boot} {s s' : RamState} (h : wsInit boot s = .ok s') : s'.Fits := by
  obtain ⟨⟨s1, p⟩, -, h⟩ := bind_eq_ok.mp h
  exact note (show sizeofRamEntry ≤ maxRamListSize by decide) h

theorem avoidRam {boot : Boot} {s s' : RamState} {start size : Nat}
    (hs : s.ramList.size ≤ maxRamListSize) (h : avoidRam boot start size s = .ok s') : s'.Fits := by
  obtain ⟨s1, hs1, h⟩ := bind_eq_ok.mp h
  refine note ?_ h
  unfold ensureWs at hs1
  split at hs1
  · cases hs1
    exact hs
  · exact (init hs1).ram

theorem alloc [SyspageHeader] {s s' : RamState} {addr size align a : Nat} (hs : s.Fits)
    (h : allocRam addr size align s = .ok (s', a)) : s'.Fits := by
  have hmem : ∀ m, ({ s with mem := m } : RamState).Fits := fun _ => ⟨hs.avoid, hs.ram⟩
  unfold allocRam at h
  dsimp only at h
  split at h
  · split at h
    · cases h
      exact hs
    split at h
    · exact (hmem _).take h
    · exact hs.take h
  · exact hs.take h

theorem addRam [SyspageHeader] {boot : Boot} {s s' : RamState} {start size : Nat} (hs : s.Fits)
    (h : addRam boot start size s = .ok s') : s'.Fits := by
  obtain ⟨l, hl, h⟩ := bind_eq_ok.mp h
  obtain ⟨⟨s1, a⟩, hs1, h⟩ := bind_eq_ok.mp h
  have hfits : s1.Fits := by
    refine alloc ?_ hs1
    exact ⟨hs.avoid, addMem_size hs.ram hl⟩
  unfold claimTempSyspage at h
  dsimp only at h
  split at h
  · split at h
    · refine avoidRam ?_ h
      exact hfits.ram
    · cases h
      exact ⟨hfits.avoid, hfits.ram⟩
  · cases h
    exact hfits

theorem wsAlloc {boot : Boot} {s s' : RamState} {size : Nat} {p : Option Nat} (hs : s.Fits)
    (hws : s.wsReady = true) (h : wsAlloc boot size s = .ok (s', p)) : s'.Fits := by
  rcases wsAlloc_cases hws h with ⟨-, -, h⟩ | ⟨-, -, rfl, -⟩ | ⟨-, -, -, h⟩
  · have hnext : ({ s with wsEarlyNext := u64 (s.wsEarlyNext + round size 8) } : RamState).Fits :=
      hs.same rfl rfl
    exact note hnext.ram h
  · exact hs
  · exact note hs.ram h

theorem step [SyspageHeader] {boot : Boot} {s s' : RamState} {op : HandOp} {new : List Event}
    (hs : s.Fits) (hws : s.wsReady = true) (h : runHandOp boot op s = .ok (s', new)) : s'.Fits := by
  cases op <;> obtain ⟨_, hs1, h⟩ := bind_eq_ok.mp h <;> cases h
  case addRam => exact hs.addRam hs1
  case avoidRam => exact avoidRam hs.ram hs1
  case wsAlloc => exact hs.wsAlloc hws hs1
  case allocRam => exact hs.alloc hs1
  case callocRam =>
    obtain ⟨⟨s1, a⟩, hs2, hs1⟩ := bind_eq_ok.mp hs1
    dsimp only at hs1
    split at hs1 <;> cases hs1
    · exact ⟨(hs.alloc hs2).avoid, (hs.alloc hs2).ram⟩
    · exact hs.alloc hs2

end RamState.Fits

/-! ### Runs -/

/-- The runs of `HandRun` with the lists in memory. Each call is asked for as the callers
do, and meets `ok` besides. -/
inductive StoredRun [SyspageHeader] (boot : Boot) (secure : Bool) (mem : Mem)
    (ok : RamState → HandOp → Prop) :
    List Event → RamState → Prop
  | init {s : RamState} (h : wsInit boot (.atBoot secure mem) = .ok s) :
      StoredRun boot secure mem ok (initEvents boot) s
  | step {past new : List Event} {s s' : RamState} {op : HandOp}
      (run : StoredRun boot secure mem ok past s)
      (asked : op.Asked past s) (met : ok s op) (h : Stored.runHandOp boot op s = .ok (s', new))
      (nonempty : (∃ a n, Event.added a n ∈ new ++ past) → sizeofRamEntry < s'.ramList.size) :
      StoredRun boot secure mem ok (new ++ past) s'

section
variable {boot : Boot} {past new : List Event} {s s' : RamState} {f : FreeList}
  {size align a al n : Nat}

/-- Zeroing what lies outside both lists leaves them alone. -/
theorem HandInv.zeroed (h : HandInv boot past s f) (hs : s.Fits)
    (hout : ∀ e ∈ initEvents boot, Event.Apart (.given a n al) e) :
    (s.zeroed boot.wsStart a n).avoidList = s.avoidList ∧
      HandInv boot past (s.zeroed boot.wsStart a n) f := by
  have hav : (s.zeroed boot.wsStart a n).avoidList = s.avoidList := by
    have hout := hout (.early boot.wsStart maxAvoidListSize) (by simp [initEvents])
    refine zeroed_avoidList (fun b hb => ?_) (hout.symm.mono_left (bytes_mono ?_))
    · have := h.avoid b hb
      omega
    · exact (Nat.mul_le_mul_right _ (Nat.le_succ _)).trans hs.avoid
  have hout := hout (.early (boot.wsStart + maxAvoidListSize) maxRamListSize) (by simp [initEvents])
  exact ⟨hav,
    h.of_lists (zeroed_holds h.holds (hout.symm.mono_left (bytes_mono hs.ram))) rfl rfl hav⟩

variable [SyspageHeader]

theorem HandInv.take (h : HandInv boot past s f) (hs : s.Fits) (hbound : a + n < 2 ^ 64)
    (hal : al ∣ a) (hb : bytes a n ⊆ f.bytes \ avoided s.avoidList) {b : Nat}
    (hs' : takeRam a n s = .ok (s', b)) :
    b = a ∧ s'.Fits ∧ ∃ f', HandInv boot (.given a n al :: past) s' f' := by
  have hfits := hs.take hs'
  rcases takeRam_holds h.holds h.noSysram hbound with ⟨l, hl, hl'⟩ | hc
  · rw [hl] at hs'
    cases hs'
    exact ⟨rfl, hfits, _, h.take_step hl' rfl rfl rfl (FreeList.bytes_erase_size f a n) hb hal⟩
  · rw [hc] at hs'
    cases hs'

theorem Stored.allocRam_inv (h : HandInv boot past s f) (hs : s.Fits)
    (hinit : initEvents boot ⊆ past) (hal : ∃ k < 32, align = 2 ^ k)
    (hclear : (HandOp.allocRam size align).Clear s)
    (hs' : Stored.allocRam boot.wsStart nullPaddr size align s = .ok (s', a)) :
    s'.Fits ∧ ∃ f', HandInv boot ((if a = nullPaddr then [] else [.given a size align]) ++
      past) s' f' := by
  obtain ⟨k, hk, rfl⟩ := hal
  unfold Stored.allocRam at hs'
  simp only [if_true] at hs'
  by_cases hn : findRam size (2 ^ k) 0 0 s = nullPaddr
  · rw [if_pos hn] at hs'
    cases hs'
    exact ⟨hs, f, h⟩
  rw [if_neg hn] at hs'
  obtain ⟨hdvd, hb⟩ := h.findRam_free hk hn
  have hbound := findRam_bound h.holds hn
  by_cases hsec : s.secureSystem = true
  · rw [if_pos hsec, u32_of_lt (hclear hsec hn)] at hs'
    obtain ⟨hav, hz⟩ := h.zeroed hs fun e he => (h.fresh hb hdvd).1 e (hinit he)
    obtain ⟨rfl, hfits, hinv⟩ := hz.take (hs.same hav rfl) hbound hdvd (by rw [hav]; exact hb) hs'
    rw [if_neg hn]
    exact ⟨hfits, hinv⟩
  · rw [if_neg hsec] at hs'
    obtain ⟨rfl, hfits, hinv⟩ := h.take hs hbound hdvd hb hs'
    rw [if_neg hn]
    exact ⟨hfits, hinv⟩

theorem Stored.callocRam_inv (h : HandInv boot past s f) (hs : s.Fits)
    (hinit : initEvents boot ⊆ past) (hal : ∃ k < 32, align = 2 ^ k)
    (hclear : (HandOp.callocRam size align).Clear s)
    (hs' : Stored.callocRam boot.wsStart size align s = .ok (s', a)) :
    s'.Fits ∧ ∃ f', HandInv boot ((if a = nullPaddr then [] else [.given a size align]) ++
      past) s' f' := by
  obtain ⟨⟨s1, a1⟩, hs1, hs'⟩ := bind_eq_ok.mp hs'
  obtain ⟨hfits, f1, hinv⟩ := allocRam_inv h hs hinit hal hclear hs1
  dsimp only at hs'
  split at hs'
  · next hgiven =>
    cases hs'
    rw [if_neg hgiven.1] at hinv ⊢
    have hapart := (List.pairwise_cons.mp hinv.apart).1
    obtain ⟨hav, hz⟩ := hinv.zeroed hfits fun e he => hapart e (hinit he)
    exact ⟨hfits.same hav rfl, f1, hz⟩
  · cases hs'
    exact ⟨hfits, f1, hinv⟩

theorem Stored.step_inv {op : HandOp} (h : HandInv boot past s f) (hs : s.Fits)
    (hinit : initEvents boot ⊆ past)
    (hempty : s.ramList.size ≤ sizeofRamEntry → ∀ a n, Event.added a n ∉ past)
    (asked : op.Asked past s) (hclear : op.Clear s)
    (hs' : Stored.runHandOp boot op s = .ok (s', new)) :
    s'.Fits ∧ ∃ f', HandInv boot (new ++ past) s' f' := by
  have hsame : QnxStartup.runHandOp boot op s = .ok (s', new) →
      s'.Fits ∧ ∃ f', HandInv boot (new ++ past) s' f' :=
    fun h1 => ⟨hs.step h.ws h1, h.step (asked.allowed hclear) hempty h1⟩
  cases op with
  | addRam start size => exact hsame hs'
  | avoidRam start size => exact hsame hs'
  | wsAlloc size => exact hsame hs'
  | allocRam size align =>
    obtain ⟨⟨s1, a⟩, hs1, hs'⟩ := bind_eq_ok.mp hs'
    cases hs'
    exact allocRam_inv h hs hinit asked.2 hclear hs1
  | callocRam size align =>
    obtain ⟨⟨s1, a⟩, hs1, hs'⟩ := bind_eq_ok.mp hs'
    cases hs'
    exact callocRam_inv h hs hinit asked.2 hclear hs1

/-- What holds all along a run of calls that zero no more than they hand out. -/
structure StoredInv (boot : Boot) (past : List Event) (s : RamState) : Prop where
  fits : s.Fits
  init : initEvents boot ⊆ past
  owned : ∃ f, HandInv boot past s f

theorem storedRun_inv (hboot : boot.Physical) {secure : Bool} {mem : Mem}
    (run : StoredRun boot secure mem (fun s op => op.Clear s) past s) : StoredInv boot past s := by
  induction run with
  | init h => exact ⟨.init h, List.Subset.refl _, _, wsInit_inv hboot h⟩
  | @step past new s s' op hrun asked hclear h _ ih =>
    obtain ⟨hfits, hinit, f, hf⟩ := ih
    have hempty : s.ramList.size ≤ sizeofRamEntry → ∀ a n, Event.added a n ∉ past := by
      cases hrun with
      | init => simp [initEvents]
      | step _ _ _ _ nonempty => exact fun hs a n ha => absurd (nonempty ⟨a, n, ha⟩) (by omega)
    obtain ⟨hfits', hinv⟩ := Stored.step_inv hf hfits hinit hempty asked hclear h
    exact ⟨hfits', List.subset_append_of_subset_right _ hinit, hinv⟩

omit [SyspageHeader] in
/-- With all RAM below 4 GiB each address that is found is a 32-bit one. -/
theorem StoredInv.clear_of_low (h : StoredInv boot past s) (hlow : ∀ x ∈ ramOf past, x < 2 ^ 32)
    {op : HandOp} (asked : op.Asked past s)
    (hround : ∀ size, op = .wsAlloc size → size ≤ 2 ^ 64 - 8) : op.Clear s := by
  obtain ⟨f, hf⟩ := h.owned
  have hfound : ∀ size align, 0 < size → (∃ k < 32, align = 2 ^ k) →
      findRam size align 0 0 s ≠ nullPaddr → findRam size align 0 0 s < 2 ^ 32 := by
    rintro size align hpos ⟨k, hk, rfl⟩ hn
    have hb := (hf.findRam_free hk hn).2
    exact hlow _ (hf.ram (hb (mem_bytes.mpr ⟨le_rfl, by omega⟩)).1)
  cases op with
  | addRam => trivial
  | avoidRam => trivial
  | wsAlloc size => exact hround size rfl
  | allocRam size align => exact fun _ => hfound size align asked.1 asked.2
  | callocRam size align => exact fun _ => hfound size align asked.1 asked.2

/-- No memory is handed out twice as long as each block is zeroed where it lies: in every
such run, each block given out is aligned, lies in RAM that was added, misses the image,
and is disjoint from every other block given out or taken early and from everything
avoided before. -/
theorem blocks_apart (hboot : boot.Physical) {secure : Bool} {mem : Mem}
    (run : StoredRun boot secure mem (fun s op => op.Clear s) past s) :
    past.Pairwise Event.Apart ∧
      ∀ a n al, Event.given a n al ∈ past →
        al ∣ a ∧ bytes a n ⊆ ramOf past ∧ Disjoint (bytes a n) boot.image := by
  obtain ⟨f, hf⟩ := (storedRun_inv hboot run).owned
  exact ⟨hf.apart, hf.given⟩

end

theorem blocks_apart_imola :
    let _ := qnxSyspageHeader
    ∃ past s, StoredRun imolaBoot true (fun _ => 0) (fun s op => op.Clear s) past s ∧
      Event.given 0x80000000 0xc000 0x1000 ∈ past ∧ Event.given 0x8000c000 0x1000 0x1000 ∈ past ∧
      past.Pairwise Event.Apart ∧
      ∀ a n al, Event.given a n al ∈ past →
        al ∣ a ∧ bytes a n ⊆ ramOf past ∧ Disjoint (bytes a n) imolaBoot.image := by
  intro _
  have r0 : StoredRun imolaBoot true (fun _ => 0) (fun s op => op.Clear s) _ _ := .init
    (eq_ok_resultOr (.atBoot true fun _ => 0) (by decide +kernel))
  have r1 := r0.step (show (HandOp.addRam 0x80000000 0x1000000).Asked _ _ by
    simp [HandOp.Asked, ramOf, initEvents])
    trivial (eq_ok_resultOr (RamState.atBoot true fun _ => 0, []) (by decide +kernel))
      (fun _ => by decide +kernel)
  have r2 := r1.step (show (HandOp.allocRam 0x1000 0x1000).Asked _ _ from ⟨by decide, 12,
    by decide⟩)
    (fun _ _ => by decide +kernel) (eq_ok_resultOr (RamState.atBoot true fun _ => 0, [])
      (by decide +kernel))
    (fun _ => by decide +kernel)
  exact ⟨_, _, r2, by decide +kernel, by
    decide +kernel, blocks_apart (by constructor <;> decide) r2⟩

/-- A block above 4 GiB is zeroed 4 GiB below, here in `avoid_list`: the next block is a
part of the temporary system page. -/
theorem blocks_apart_high_ram :
    let _ := qnxSyspageHeader
    ∃ past s, StoredRun imolaBoot true (fun _ => 0) (fun _ _ => True) past s ∧
      Event.given 0x180874000 0xc000 0x1000 ∈ past ∧ ¬ past.Pairwise Event.Apart := by
  intro _
  have r0 : StoredRun imolaBoot true (fun _ => 0) (fun _ _ => True) _ _ := .init
    (eq_ok_resultOr (.atBoot true fun _ => 0) (by decide +kernel))
  have r1 := r0.step (show (HandOp.addRam 0x180874000 0x100000).Asked _ _ by
    simp [HandOp.Asked, ramOf, initEvents])
    trivial (eq_ok_resultOr (RamState.atBoot true fun _ => 0, []) (by decide +kernel))
      (fun _ => by decide +kernel)
  have r2 := r1.step (show (HandOp.allocRam 0x400 0x400).Asked _ _ from ⟨by decide, 10, by decide⟩)
    trivial (eq_ok_resultOr (RamState.atBoot true fun _ => 0, []) (by decide +kernel))
      (fun _ => by decide +kernel)
  have r3 := r2.step (show (HandOp.allocRam 0x1000 0x1000).Asked _ _ from ⟨by decide, 12,
    by decide⟩)
    trivial (eq_ok_resultOr (RamState.atBoot true fun _ => 0, []) (by decide +kernel))
      (fun _ => by decide +kernel)
  obtain ⟨past, s, run, hpast⟩ : ∃ past s,
      StoredRun imolaBoot true (fun _ => 0) (fun _ _ => True) past s ∧
      past = [.given 0x180874000 0x1000 0x1000, .given 0x180880000 0x400 0x400,
        .given 0x180874000 0xc000 0x1000,
        .added 0x180874000 0x100000] ++ initEvents imolaBoot := ⟨_, _, r3, by decide +kernel⟩
  refine ⟨past, s, run, by simp [hpast], fun hp => ?_⟩
  rw [hpast, List.cons_append, List.pairwise_cons] at hp
  have hd : Disjoint (bytes 0x180874000 0x1000) (bytes 0x180874000 0xc000) :=
    hp.1 (.given 0x180874000 0xc000 0x1000) (by simp)
  exact Set.disjoint_left.mp hd (mem_bytes.mpr ⟨le_rfl, by decide⟩)
    (mem_bytes.mpr ⟨le_rfl, by decide⟩)

end QnxStartup
