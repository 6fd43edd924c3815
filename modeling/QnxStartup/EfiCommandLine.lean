import Mathlib.Data.Nat.Find
import QnxStartup.Bytes

/-! `efi_convert_command_line`: the load options of the firmware, converted in their own buffer. -/

namespace QnxStartup

/-- Memory after a conversion, with the 16-bit characters it has read and the bytes it
has written. -/
structure Conversion where
  mem : Mem
  reads : List Nat
  writes : List Nat

/-- The loop from `i` on, with `fuel` rounds to its end, and the `i` it ends with. -/
def convertLoop (cmdline : Nat) : Nat → Nat → Mem → Conversion × Nat
  | 0, i, m => (⟨m, [], []⟩, i)
  | fuel + 1, i, m =>
    let c := m (cmdline + 2 * i)
    let m := writeBytes m (cmdline + i) [c]
    if c = 0 then (⟨m, [cmdline + 2 * i], [cmdline + i]⟩, i)
    else
      let (r, stop) := convertLoop cmdline fuel (i + 1) m
      (⟨r.mem, (cmdline + 2 * i) :: r.reads, (cmdline + i) :: r.writes⟩, stop)

/-- `size` is `LoadOptionsSize`, in bytes; the result is the string or `NULL`. -/
def efiConvertCommandLine (cmdline size : Nat) (m : Mem) : Conversion × Option Nat :=
  if size = 0 then (⟨m, [], []⟩, none)
  else
    let (r, i) := convertLoop cmdline size 0 m
    if i = size then
      (⟨writeBytes r.mem (cmdline + size) [0], r.reads, r.writes ++ [cmdline + size]⟩, some cmdline)
    else (r, some cmdline)

/-- The low bytes of at most `n` characters, up to the first NUL character. -/
def lowBytes (m : Mem) : Nat → Nat → List UInt8
  | 0, _ => []
  | n + 1, a => if read16 m a = 0 then [] else m a :: lowBytes m n (a + 2)

/-- The string is returned, nothing outside the buffer was touched, and the buffer holds the low
bytes as a C string, which for its reader ends at the first zero byte. -/
structure Converted (m : Mem) (cmdline size : Nat) (r : Conversion × Option Nat) : Prop where
  result : r.2 = some cmdline
  reads : ∀ a ∈ r.1.reads, bytes a 2 ⊆ bytes cmdline size
  writes : ∀ a ∈ r.1.writes, a ∈ bytes cmdline size
  text : Holds r.1.mem cmdline ((lowBytes m (size / 2) cmdline).takeWhile (· ≠ 0) ++ [0])

section
variable {cmdline size fuel i z : Nat} {m : Mem}

theorem writeByte_of_ne {a x : Nat} {c : UInt8} (h : x ≠ a) : writeBytes m a [c] x = m x :=
  writeBytes_of_not_mem (by simp only [List.length_singleton]; omega)

theorem writeByte_same {a : Nat} {c : UInt8} : writeBytes m a [c] a = c :=
  (holds_writeBytes m a [c]).1

theorem read_after_write (c : UInt8) (k : Nat) :
    writeBytes m (cmdline + i) [c] (cmdline + 2 * (i + 1 + k)) =
      m (cmdline + 2 * (i + (k + 1))) := by
  rw [writeByte_of_ne (by omega), show i + 1 + k = i + (k + 1) by omega]

theorem convertLoop_go (h : m (cmdline + 2 * i) ≠ 0) :
    convertLoop cmdline (fuel + 1) i m =
      let r := convertLoop cmdline fuel (i + 1) (writeBytes m (cmdline + i) [m (cmdline + 2 * i)])
      (⟨r.1.mem, (cmdline + 2 * i) :: r.1.reads, (cmdline + i) :: r.1.writes⟩, r.2) := if_neg h

theorem convertLoop_end (h : m (cmdline + 2 * i) = 0) :
    convertLoop cmdline (fuel + 1) i m =
      (⟨writeBytes m (cmdline + i) [0], [cmdline + 2 * i], [cmdline + i]⟩, i) := by
  rw [convertLoop, if_pos h, h]

theorem convertLoop_unwritten {x : Nat} (h : x ∉ (convertLoop cmdline fuel i m).1.writes) :
    (convertLoop cmdline fuel i m).1.mem x = m x := by
  induction fuel generalizing i m with
  | zero => rfl
  | succ fuel ih =>
    by_cases hc : m (cmdline + 2 * i) = 0
    · rw [convertLoop_end hc] at h ⊢
      exact writeByte_of_ne fun hx => h (hx ▸ List.mem_singleton_self _)
    · rw [convertLoop_go hc] at h ⊢
      dsimp only at h ⊢
      rw [ih fun hx => h (List.mem_cons_of_mem _ hx)]
      exact writeByte_of_ne fun hx => h (hx ▸ List.mem_cons_self)

theorem convert_unwritten {x : Nat} (h : x ∉ (efiConvertCommandLine cmdline size m).1.writes) :
    (efiConvertCommandLine cmdline size m).1.mem x = m x := by
  rw [efiConvertCommandLine] at h ⊢
  by_cases hsize : size = 0
  · rw [if_pos hsize]
  · rw [if_neg hsize] at h ⊢
    dsimp only at h ⊢
    by_cases hi : (convertLoop cmdline size 0 m).2 = size
    · rw [if_pos hi] at h ⊢
      dsimp only at h ⊢
      rw [List.mem_append, List.mem_singleton, not_or] at h
      rw [writeByte_of_ne h.2, convertLoop_unwritten h.1]
    · rw [if_neg hi] at h ⊢
      exact convertLoop_unwritten h

theorem lowBytes_congr {m' : Mem} {n a : Nat} (h : ∀ k < 2 * n, m' (a + k) = m (a + k)) :
    lowBytes m' n a = lowBytes m n a := by
  induction n generalizing a with
  | zero => rfl
  | succ n ih =>
    have h0 := h 0 (by omega)
    have h1 := h 1 (by omega)
    rw [Nat.add_zero] at h0
    have hrest := ih (a := a + 2) fun k hk => by
      rw [Nat.add_assoc]
      exact h (2 + k) (by omega)
    rw [lowBytes, lowBytes, read16_congr h0 h1, h0, hrest]

theorem first_stop {n : Nat} (h : ∃ j < n, m (cmdline + 2 * j) = 0) :
    ∃ z < n, m (cmdline + 2 * z) = 0 ∧ ∀ k < z, m (cmdline + 2 * k) ≠ 0 := by
  have hz := Nat.find_spec h
  exact ⟨Nat.find h, hz.1, hz.2, fun k hk h0 => Nat.find_min h hk ⟨Nat.lt_trans hk hz.1, h0⟩⟩

theorem convertLoop_runs (h : ∀ k < fuel, m (cmdline + 2 * (i + k)) ≠ 0) :
    (convertLoop cmdline fuel i m).1.reads = (List.range' i fuel).map (cmdline + 2 * ·) := by
  induction fuel generalizing i m with
  | zero => rfl
  | succ fuel ih =>
    have hrest := ih (i := i + 1) (m := writeBytes m (cmdline + i)
      [m (cmdline + 2 * i)]) fun k hk => by
      rw [read_after_write]
      exact h (k + 1) (by omega)
    have hc : m (cmdline + 2 * i) ≠ 0 := h 0 (by omega)
    rw [convertLoop_go hc, List.range'_succ, List.map_cons, ← hrest]

theorem convertLoop_stops (hz : z < fuel) (hzero : m (cmdline + 2 * (i + z)) = 0)
    (hbefore : ∀ k < z, m (cmdline + 2 * (i + k)) ≠ 0) :
    ∃ m', convertLoop cmdline fuel i m =
        (⟨m', (List.range' i (z + 1)).map (cmdline + 2 * ·),
          (List.range' i (z + 1)).map (cmdline + ·)⟩, i + z) ∧
      (∀ x < cmdline + i, m' x = m x) ∧
        ∀ k ≤ z, m' (cmdline + (i + k)) = m (cmdline + 2 * (i + k)) := by
  induction z generalizing fuel i m with
  | zero =>
    cases fuel with
    | zero => omega
    | succ fuel =>
      refine ⟨_, convertLoop_end hzero, fun x hx => writeByte_of_ne (by omega), fun k hk => ?_⟩
      obtain rfl : k = 0 := by omega
      exact writeByte_same.trans hzero.symm
  | succ z ih =>
    cases fuel with
    | zero => omega
    | succ fuel =>
      have hc : m (cmdline + 2 * i) ≠ 0 := hbefore 0 (by omega)
      obtain ⟨m', heq, hbelow, hcopied⟩ :=
        @ih fuel (i + 1) (writeBytes m (cmdline + i) [m (cmdline + 2 * i)]) (by omega)
        (by rw [read_after_write]; exact hzero)
        (fun k hk => by rw [read_after_write]; exact hbefore (k + 1) (by omega))
      refine ⟨m', ?_, fun x hx => ?_, fun k hk => ?_⟩
      · rw [convertLoop_go hc, heq, List.range'_succ (n := z + 1), List.map_cons, List.map_cons,
          show i + 1 + z = i + (z + 1) by omega]
      · rw [hbelow x (by omega), writeByte_of_ne (by omega)]
      · cases k with
        | zero => exact (hbelow (cmdline + i) (by omega)).trans writeByte_same
        | succ k =>
          have hk' := hcopied k (by omega)
          rwa [read_after_write, show i + 1 + k = i + (k + 1) by omega] at hk'

theorem lowBytes_takeWhile {n a : Nat} (hz : z < n) (hzero : m (a + 2 * z) = 0)
    (hbefore : ∀ k < z, m (a + 2 * k) ≠ 0) :
    (lowBytes m n a).takeWhile (· ≠ 0) = (List.range z).map fun k => m (a + 2 * k) := by
  induction z generalizing n a with
  | zero =>
    cases n with
    | zero => omega
    | succ n =>
      rw [lowBytes]
      split
      · rfl
      · exact List.takeWhile_cons_of_neg (by simpa using hzero)
  | succ z ih =>
    cases n with
    | zero => omega
    | succ n =>
      have hc : m a ≠ 0 := hbefore 0 (by omega)
      have hchar : read16 m a ≠ 0 := by
        have hlow : (m a).toNat ≠ 0 := fun h => hc (UInt8.toNat_inj.mp h)
        rw [read16]
        omega
      have hshift : ∀ k, a + 2 + 2 * k = a + 2 * (k + 1) := fun k => by omega
      have hrest := ih (n := n) (a := a + 2) (by omega) (by rw [hshift]; exact hzero)
        (fun k hk => by rw [hshift]; exact hbefore (k + 1) (by omega))
      rw [lowBytes, if_neg hchar, List.takeWhile_cons_of_pos (by simpa using hc), hrest,
        List.range_succ_eq_map, List.map_cons, List.map_map]
      congr 1
      exact List.map_congr_left fun k _ => congrArg m (hshift k)

theorem convert_stops (hz : z < size) (hzero : m (cmdline + 2 * z) = 0)
    (hbefore : ∀ k < z, m (cmdline + 2 * k) ≠ 0) :
    ∃ m', efiConvertCommandLine cmdline size m =
      (⟨m', (List.range' 0 (z + 1)).map (cmdline + 2 * ·),
        (List.range' 0 (z + 1)).map (cmdline + ·)⟩, some cmdline) ∧
      ∀ k ≤ z, m' (cmdline + k) = m (cmdline + 2 * k) := by
  obtain ⟨m', heq, -, hcopied⟩ := @convertLoop_stops cmdline size 0 z m hz
    (by rwa [Nat.zero_add]) (fun k hk => by rw [Nat.zero_add]; exact hbefore k hk)
  refine ⟨m', ?_, fun k hk => ?_⟩
  · rw [efiConvertCommandLine, if_neg (by omega), heq]
    exact if_neg (by omega)
  · have hk' := hcopied k hk
    rwa [Nat.zero_add] at hk'

theorem convert_runs (hsize : 0 < size) (h : ∀ k < size, m (cmdline + 2 * k) ≠ 0) :
    (efiConvertCommandLine cmdline size m).1.reads =
      (List.range' 0 size).map (cmdline + 2 * ·) := by
  have hruns : (convertLoop cmdline size 0 m).1.reads = _ := convertLoop_runs fun k hk => by
    rw [Nat.zero_add]
    exact h k hk
  rw [efiConvertCommandLine, if_neg (by omega), ← hruns]
  dsimp only
  split <;> rfl

theorem converted_of_stop (hz : z < size / 2) (hzero : m (cmdline + 2 * z) = 0)
    (hbefore : ∀ k < z, m (cmdline + 2 * k) ≠ 0) :
    Converted m cmdline size (efiConvertCommandLine cmdline size m) := by
  have hsize : z < size := by omega
  obtain ⟨m', heq, hcopied⟩ := convert_stops hsize hzero hbefore
  rw [heq]
  refine ⟨rfl, fun a ha => ?_, fun a ha => ?_, ?_⟩
  · obtain ⟨k, hk, rfl⟩ := List.mem_map.mp ha
    rw [List.mem_range'_1] at hk
    intro x hx
    rw [mem_bytes] at hx ⊢
    omega
  · obtain ⟨k, hk, rfl⟩ := List.mem_map.mp ha
    rw [List.mem_range'_1] at hk
    rw [mem_bytes]
    omega
  · rw [lowBytes_takeWhile hz hzero hbefore, holds_append, holds_iff]
    refine ⟨fun k hk => ?_, ?_, trivial⟩
    · rw [List.length_map, List.length_range] at hk
      rw [List.getElem_map, List.getElem_range]
      exact hcopied k (by omega)
    · rw [List.length_map, List.length_range]
      exact (hcopied z (Nat.le_refl z)).trans hzero

theorem stop_of_reads (hsize : 0 < size)
    (hreads : ∀ a ∈ (efiConvertCommandLine cmdline size m).1.reads,
      bytes a 2 ⊆ bytes cmdline size) :
    ∃ j < size / 2, m (cmdline + 2 * j) = 0 := by
  have hinside : ∀ k, cmdline + 2 * k ∈ (efiConvertCommandLine cmdline size m).1.reads →
      k < size / 2 := by
    intro k hk
    have hlast : cmdline + 2 * k + 1 ∈ bytes cmdline size :=
      hreads _ hk (mem_bytes.mpr (by omega))
    rw [mem_bytes] at hlast
    omega
  by_cases hzero : ∃ k < size, m (cmdline + 2 * k) = 0
  · obtain ⟨z, hz, hz0, hbefore⟩ := first_stop hzero
    obtain ⟨m', heq, -⟩ := convert_stops hz hz0 hbefore
    refine ⟨z, hinside z ?_, hz0⟩
    rw [heq]
    exact List.mem_map_of_mem (List.mem_range'_1.mpr (by omega))
  · have hruns := convert_runs hsize fun k hk h0 => hzero ⟨k, hk, h0⟩
    have hlast := hinside (size - 1) (by
      rw [hruns]
      exact List.mem_map_of_mem (List.mem_range'_1.mpr (by omega)))
    omega

/-- The size is in bytes, the loop counts characters: the conversion is right exactly for a buffer
that holds its own terminator. -/
theorem efi_convert_command_line_iff (cmdline size : Nat) (m : Mem) (hsize : 0 < size) :
    Converted m cmdline size (efiConvertCommandLine cmdline size m) ↔
      ∃ j < size / 2, m (cmdline + 2 * j) = 0 := by
  refine ⟨fun h => stop_of_reads hsize h.reads, fun h => ?_⟩
  obtain ⟨z, hz, hz0, hbefore⟩ := first_stop h
  exact converted_of_stop hz hz0 hbefore

end

def terminatedOptions : Mem := writeBytes (fun _ => 7) 0x1000 [97, 0, 98, 0, 0, 0]

theorem efi_convert_command_line_example :
    0 < 6 ∧ Converted terminatedOptions 0x1000 6
      (efiConvertCommandLine 0x1000 6 terminatedOptions) :=
  ⟨by decide, (efi_convert_command_line_iff 0x1000 6 terminatedOptions (by decide)).mpr
    ⟨2, by decide, by decide⟩⟩

def openOptions : Mem := writeBytes (fun _ => 7) 0x1000 [97, 0, 98, 0]

theorem efi_convert_reads_behind :
    ¬ Converted openOptions 0x1000 4 (efiConvertCommandLine 0x1000 4 openOptions) := by
  intro h
  have hread : 0x1004 ∈ bytes 0x1000 4 := h.reads 0x1004 (by decide) ⟨Nat.le_refl _, by decide⟩
  exact absurd hread.2 (by decide)

end QnxStartup
