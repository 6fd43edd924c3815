import QnxStartup.Bytes
import QnxStartup.EfiMap
import QnxStartup.HeapSort

/-! `efi_sort_map` and `efi_walk_map` on the descriptors in memory, which lie at the stride that
the firmware gives at run time. -/

namespace QnxStartup

/-- An `EFI_MEMORY_DESCRIPTOR`, as the bytes of its fields. -/
abbrev EfiMemoryDescriptor := Fin 40 → UInt8

def readDescriptor (m : Mem) (p : Nat) : EfiMemoryDescriptor := fun k => m (p + k)

def writeDescriptor (m : Mem) (p : Nat) (d : EfiMemoryDescriptor) : Mem :=
  fun x => if h : p ≤ x ∧ x - p < 40 then d ⟨x - p, h.2⟩ else m x

def EfiMemoryDescriptor.mem (d : EfiMemoryDescriptor) : Mem := writeDescriptor (fun _ => 0) 0 d

def EfiMemoryDescriptor.physicalStart (d : EfiMemoryDescriptor) : Nat := readPtr d.mem 8

/-- The static variables of `efi_entry_point.c` about the map, with memory; `sorted` is that of
`efi_walk_map`. -/
structure EfiState where
  mem : Mem
  efiMap : Nat
  efiMapSize : Nat
  efiMapDescSize : Nat
  sorted : Bool

namespace EfiState

def efiMapEntry (s : EfiState) (idx : Nat) : Nat := u64 (s.efiMap + u64 (idx * s.efiMapDescSize))

/-- `desc = *a; *a = *b; *b = desc`. -/
def swapEntries (s : EfiState) (i j : Nat) (m : Mem) : Mem :=
  let desc := readDescriptor m (s.efiMapEntry i)
  let m := writeDescriptor m (s.efiMapEntry i) (readDescriptor m (s.efiMapEntry j))
  writeDescriptor m (s.efiMapEntry j) desc

/-- The inner loop of `heapify`. -/
def siftUp (s : EfiState) : Nat → Nat → Mem → Mem
  | 0, _, m => m
  | fuel + 1, child, m =>
    if child > 0 then
      let parent := (child - 1) / 2
      if readPtr m (s.efiMapEntry parent + 8) ≥ readPtr m (s.efiMapEntry child + 8) then m
      else s.siftUp fuel parent (s.swapEntries parent child m)
    else m

def heapify (s : EfiState) (count : Nat) (m : Mem) : Mem :=
  (List.range' 1 (count - 1)).foldl (fun m stop => s.siftUp stop stop m) m

def sortDown (s : EfiState) : Nat → Mem → Mem
  | 0, m => m
  | stop + 1, m => s.sortDown stop (s.heapify (stop + 1) (s.swapEntries (stop + 1) 0 m))

def efiSortMap (s : EfiState) : EfiState :=
  let ndescs := s.efiMapSize / s.efiMapDescSize
  { s with mem := s.sortDown (sub64 ndescs 1) (s.heapify ndescs s.mem) }

/-- `NULL` is 0. -/
def efiWalkMap (previous : Nat) (s : EfiState) : EfiState × Nat :=
  if previous = 0 then
    let s := if s.sorted then s else { s.efiSortMap with sorted := true }
    (s, s.efiMap)
  else
    let next := u64 (previous + s.efiMapDescSize)
    let stop := u64 (s.efiMap + s.efiMapSize)
    if next ≥ stop then (s, 0) else (s, next)

/-- A walk from `previous` on, with the descriptors it comes to. -/
def walk : Nat → Nat → EfiState → Startup (EfiState × List Nat)
  | 0, _, _ => .error .noReturn
  | fuel + 1, previous, s =>
    let (s, desc) := s.efiWalkMap previous
    if desc = 0 then .ok (s, [])
    else (walk fuel desc s).bind fun (s, visited) => .ok (s, desc :: visited)

/-- A map of `n` descriptors. -/
structure Fits (s : EfiState) (n : Nat) : Prop where
  pos : 0 < n
  stride : 40 ≤ s.efiMapDescSize
  size : s.efiMapSize = n * s.efiMapDescSize
  base : s.efiMap ≠ 0
  bound : s.efiMap + n * s.efiMapDescSize < 2 ^ 64

/-- The descriptor in slot `i` of a memory. -/
def descriptor (s : EfiState) (m : Mem) (i : Nat) : EfiMemoryDescriptor :=
  readDescriptor m (s.efiMap + i * s.efiMapDescSize)

variable {s : EfiState} {n : Nat} {m : Mem}

theorem Fits.entry (h : s.Fits n) {i : Nat} (hi : i < n) :
    s.efiMapEntry i = s.efiMap + i * s.efiMapDescSize ∧
      s.efiMap + i * s.efiMapDescSize < 2 ^ 64 := by
  have hle : i * s.efiMapDescSize ≤ n * s.efiMapDescSize := Nat.mul_le_mul_right _ hi.le
  have hb := h.bound
  have hin : i * s.efiMapDescSize < 2 ^ 64 := by omega
  rw [efiMapEntry, u64_of_lt hin, u64_of_lt (by omega)]
  exact ⟨rfl, by omega⟩

theorem Fits.apart (h : s.Fits n) {i j : Nat} (hij : i ≠ j) :
    i * s.efiMapDescSize + 40 ≤ j * s.efiMapDescSize ∨ j * s.efiMapDescSize + 40 ≤
      i * s.efiMapDescSize := by
  have hs := h.stride
  rcases lt_or_gt_of_ne hij with hlt | hlt
  · have := Nat.mul_le_mul_right s.efiMapDescSize (Nat.succ_le_of_lt hlt)
    rw [Nat.succ_mul] at this
    exact .inl (by omega)
  · have := Nat.mul_le_mul_right s.efiMapDescSize (Nat.succ_le_of_lt hlt)
    rw [Nat.succ_mul] at this
    exact .inr (by omega)

theorem readDescriptor_write (m : Mem) (p : Nat) (d : EfiMemoryDescriptor) :
    readDescriptor (writeDescriptor m p d) p = d := by
  funext k
  have hk := k.isLt
  rw [readDescriptor, writeDescriptor, dif_pos ⟨by omega, by omega⟩]
  exact congrArg d (Fin.ext (Nat.add_sub_cancel_left ..))

theorem readDescriptor_write_apart {p q : Nat} (d : EfiMemoryDescriptor)
    (h : p + 40 ≤ q ∨ q + 40 ≤ p) :
    readDescriptor (writeDescriptor m p d) q = readDescriptor m q := by
  funext k
  have hk := k.isLt
  rw [readDescriptor, writeDescriptor, dif_neg (by omega), readDescriptor]

theorem readPtr_start (m : Mem) (p : Nat) :
    readPtr m (p + 8) = (readDescriptor m p).physicalStart := by
  refine readPtr_congr fun i hi => ?_
  rw [EfiMemoryDescriptor.mem, writeDescriptor, dif_pos ⟨by omega, by omega⟩, readDescriptor]
  exact congrArg m (Nat.add_assoc ..)

theorem Fits.swapEntries (h : s.Fits n) {i j : Nat} (hi : i < n) (hj : j < n) (hij : i ≠ j)
    (m : Mem) :
    s.descriptor (s.swapEntries i j m) = HeapSort.swap i j (s.descriptor m) := by
  funext k
  unfold EfiState.swapEntries descriptor
  rw [(h.entry hi).1, (h.entry hj).1]
  by_cases hkj : k = j
  · subst hkj
    rw [readDescriptor_write, HeapSort.swap_right]
  have hapartj := h.apart hkj
  rw [readDescriptor_write_apart _ (by omega)]
  by_cases hki : k = i
  · subst hki
    rw [readDescriptor_write, HeapSort.swap_left]
  · have haparti := h.apart hki
    rw [readDescriptor_write_apart _ (by omega), HeapSort.swap_of_ne _ hki hkj]

theorem Fits.siftUp (h : s.Fits n) {fuel child : Nat} (hc : child < n) (m : Mem) :
    s.descriptor (s.siftUp fuel child m) =
      HeapSort.siftUp EfiMemoryDescriptor.physicalStart fuel child (s.descriptor m) := by
  induction fuel generalizing child m with
  | zero => rfl
  | succ fuel ih =>
    rw [EfiState.siftUp, HeapSort.siftUp]
    by_cases h0 : child = 0
    · rw [if_neg (by omega), if_pos (.inl h0)]
    have hp := HeapSort.parent_lt (Nat.pos_of_ne_zero h0)
    rw [if_pos (by omega)]
    change s.descriptor (if readPtr m (s.efiMapEntry (HeapSort.parent child) + 8) ≥
      readPtr m (s.efiMapEntry child + 8) then m
      else s.siftUp fuel (HeapSort.parent child) (s.swapEntries (HeapSort.parent child) child m)) =
      _
    rw [readPtr_start, readPtr_start, (h.entry hc).1, (h.entry (hp.trans hc)).1]
    change s.descriptor (if (s.descriptor m child).physicalStart ≤
      (s.descriptor m (HeapSort.parent child)).physicalStart then m
      else _) = _
    by_cases hstop : (s.descriptor m child).physicalStart ≤
      (s.descriptor m (HeapSort.parent child)).physicalStart
    · rw [if_pos hstop, if_pos (.inr hstop)]
    · rw [if_neg hstop, if_neg (by simp [h0, hstop])]
      rw [← h.swapEntries (hp.trans hc) hc hp.ne]
      exact ih (hp.trans hc) _

theorem heapify_succ (s : EfiState) (count : Nat) (m : Mem) :
    s.heapify (count + 1) m = s.siftUp count count (s.heapify count m) := by
  cases count with
  | zero => rfl
  | succ count =>
    unfold EfiState.heapify
    rw [Nat.add_sub_cancel, Nat.add_sub_cancel, List.range'_1_concat, List.foldl_append,
      List.foldl_cons, List.foldl_nil, Nat.add_comm 1 count]

theorem Fits.heapify (h : s.Fits n) {count : Nat} (hc : count ≤ n) (m : Mem) :
    s.descriptor (s.heapify count m) = HeapSort.heapify EfiMemoryDescriptor.physicalStart count
      (s.descriptor m) := by
  induction count with
  | zero => rfl
  | succ count ih => rw [heapify_succ, HeapSort.heapify, h.siftUp (by omega), ih (by omega)]

theorem Fits.sortDown (h : s.Fits n) {stop : Nat} (hs : stop < n) (m : Mem) :
    s.descriptor (s.sortDown stop m) = HeapSort.sortDown EfiMemoryDescriptor.physicalStart stop
      (s.descriptor m) := by
  induction stop generalizing m with
  | zero => rfl
  | succ stop ih =>
    rw [EfiState.sortDown, HeapSort.sortDown, ih (by omega), h.heapify (by omega),
      h.swapEntries hs (by omega) (by omega)]

theorem Fits.efiSortMap (h : s.Fits n) :
    ∃ m, s.efiSortMap = { s with mem := m } ∧
      s.descriptor m = HeapSort.sort EfiMemoryDescriptor.physicalStart n (s.descriptor s.mem) := by
  have hpos := h.pos
  have hs := h.stride
  have hb := h.bound
  have hn : s.efiMapSize / s.efiMapDescSize = n := by rw [h.size, Nat.mul_div_cancel _ (by omega)]
  have hle : n ≤ n * s.efiMapDescSize := Nat.le_mul_of_pos_right n (by omega)
  refine ⟨_, rfl, ?_⟩
  rw [hn, sub64_of_le (by omega) (by omega), h.sortDown (by omega), h.heapify le_rfl]
  rfl

theorem Fits.next (h : s.Fits n) {i : Nat} (hi : i < n) :
    s.efiWalkMap (s.efiMap + i * s.efiMapDescSize) =
      (s, if i + 1 < n then s.efiMap + (i + 1) * s.efiMapDescSize else 0) := by
  have hb := h.bound
  have hbase := h.base
  have hle : (i + 1) * s.efiMapDescSize ≤ n * s.efiMapDescSize := Nat.mul_le_mul_right _ hi
  have hnext : u64 (s.efiMap + i * s.efiMapDescSize + s.efiMapDescSize) =
      s.efiMap + (i + 1) * s.efiMapDescSize := by
    rw [Nat.succ_mul] at hle ⊢
    rw [u64_of_lt (by omega), Nat.add_assoc]
  have hstop : u64 (s.efiMap + s.efiMapSize) = s.efiMap + n * s.efiMapDescSize := by
    rw [h.size, u64_of_lt hb]
  rw [efiWalkMap, if_neg (by omega), hnext, hstop]
  dsimp only
  by_cases hlast : i + 1 < n
  · have := Nat.mul_lt_mul_of_pos_right hlast (show 0 < s.efiMapDescSize by have := h.stride; omega)
    rw [if_neg (by omega), if_pos hlast]
  · obtain rfl : n = i + 1 := by omega
    rw [if_pos le_rfl, if_neg hlast]

theorem Fits.walk_from (h : s.Fits n) {i k fuel : Nat} (hi : i + k + 1 = n) (hf : k < fuel) :
    walk fuel (s.efiMap + i * s.efiMapDescSize) s =
      .ok (s, (List.range' (i + 1) k).map fun j => s.efiMap + j * s.efiMapDescSize) := by
  have hbase := h.base
  induction k generalizing i fuel with
  | zero =>
    obtain ⟨fuel, rfl⟩ : ∃ t, fuel = t + 1 := ⟨fuel - 1, by omega⟩
    rw [walk, h.next (by omega), if_neg (by omega)]
    rfl
  | succ k ih =>
    obtain ⟨fuel, rfl⟩ : ∃ t, fuel = t + 1 := ⟨fuel - 1, by omega⟩
    rw [walk, h.next (by omega), if_pos (by omega)]
    dsimp only
    rw [if_neg (by omega), ih (by omega) (by omega)]
    rfl

theorem efi_walk_sorted (h : s.Fits n) (hfirst : s.sorted = false) {fuel : Nat} (hf : n < fuel) :
    ∃ s', walk fuel 0 s = .ok (s', (List.range n).map fun i => s.efiMap + i * s.efiMapDescSize) ∧
      ((List.range n).map (s.descriptor s'.mem)).Perm ((List.range n).map (s.descriptor s.mem)) ∧
      ((List.range n).map (s.descriptor s'.mem)).Pairwise fun d d' => d.physicalStart ≤
        d'.physicalStart := by
  obtain ⟨m, hsort, hdesc⟩ := h.efiSortMap
  have hpos := h.pos
  have hsorted : ({ s with mem := m, sorted := true } : EfiState).Fits n :=
    ⟨h.pos, h.stride, h.size, h.base, h.bound⟩
  refine ⟨{ s with mem := m, sorted := true }, ?_, ?_, ?_⟩
  · obtain ⟨fuel, rfl⟩ : ∃ t, fuel = t + 1 := ⟨fuel - 1, by omega⟩
    obtain ⟨k, rfl⟩ : ∃ k, n = k + 1 := ⟨n - 1, by omega⟩
    have hrest := @Fits.walk_from _ _ hsorted 0 k fuel (by omega) (by omega)
    rw [Nat.zero_mul, Nat.add_zero] at hrest
    have hstart : s.efiWalkMap 0 = ({ s with mem := m, sorted := true }, s.efiMap) := by
      rw [efiWalkMap, if_pos rfl, hfirst, hsort]
      rfl
    rw [walk, hstart]
    dsimp only
    rw [if_neg h.base, hrest, List.range_eq_range', List.range'_succ, List.map_cons,
      Nat.zero_mul, Nat.add_zero]
    rfl
  · rw [hdesc]
    exact (HeapSort.sort_rearranges ..).perm
  · rw [hdesc]
    refine List.pairwise_map.mpr (List.pairwise_lt_range.imp_of_mem fun hi hj hlt => ?_)
    exact HeapSort.sort_sorted _ _ _ hlt.le (List.mem_range.mp hj)

end EfiState

/-! ### The list that the import of RAM walks -/

theorem swapDescs_range {n i j : Nat} (hi : i < n) (hj : j < n) (a : Nat → EfiDescriptor) :
    swapDescs i j ((List.range n).map a) = (List.range n).map (HeapSort.swap i j a) := by
  have hget : ∀ k < n, ((List.range n).map a)[k]? = some (a k) := fun k hk => by simp [hk]
  rw [swapDescs, hget i hi, hget j hj]
  refine List.ext_getElem (by simp) fun k hk hk' => ?_
  simp only [List.getElem_set, List.getElem_map, List.getElem_range]
  by_cases hkj : j = k
  · rw [if_pos hkj, ← hkj, HeapSort.swap_right]
  · rw [if_neg hkj]
    by_cases hki : i = k
    · rw [if_pos hki, ← hki, HeapSort.swap_left]
    · rw [if_neg hki, HeapSort.swap_of_ne a (Ne.symm hki) (Ne.symm hkj)]

theorem siftUp_range {n fuel child : Nat} (hc : child < n) (a : Nat → EfiDescriptor) :
    siftUp fuel child ((List.range n).map a) =
      (List.range n).map (HeapSort.siftUp EfiDescriptor.physicalStart fuel child a) := by
  induction fuel generalizing child a with
  | zero => rfl
  | succ fuel ih =>
    have hget : ∀ k < n, ((List.range n).map a)[k]? = some (a k) := fun k hk => by simp [hk]
    have hp : HeapSort.parent child < n := by unfold HeapSort.parent; omega
    rw [siftUp, HeapSort.siftUp]
    simp only [hget _ (show (child - 1) / 2 < n from hp), hget _ hc]
    change (if (a (HeapSort.parent child)).physicalStart ≥ (a child).physicalStart then
      (List.range n).map a
      else siftUp fuel (HeapSort.parent child) (swapDescs (HeapSort.parent child) child
        ((List.range n).map a))) = _
    by_cases hstop : (a child).physicalStart ≤ (a (HeapSort.parent child)).physicalStart
    · rw [if_pos hstop, if_pos (.inr hstop)]
    · have h0 : child ≠ 0 := by
        rintro rfl
        exact hstop le_rfl
      rw [if_neg hstop, if_neg (by simp [h0, hstop]), swapDescs_range hp hc]
      exact ih hp _

theorem heapify_succ (count : Nat) (map : List EfiDescriptor) :
    heapify (count + 1) map = siftUp count count (heapify count map) := by
  cases count with
  | zero => rfl
  | succ count =>
    unfold heapify
    rw [Nat.add_sub_cancel, Nat.add_sub_cancel, List.range'_1_concat, List.foldl_append,
      List.foldl_cons, List.foldl_nil, Nat.add_comm 1 count]

theorem heapify_range {n count : Nat} (hc : count ≤ n) (a : Nat → EfiDescriptor) :
    heapify count ((List.range n).map a) =
      (List.range n).map (HeapSort.heapify EfiDescriptor.physicalStart count a) := by
  induction count with
  | zero => rfl
  | succ count ih => rw [heapify_succ, HeapSort.heapify, ih (by omega), siftUp_range (by omega)]

theorem sortDown_range {n stop : Nat} (hs : stop < n) (a : Nat → EfiDescriptor) :
    sortDown stop ((List.range n).map a) =
      (List.range n).map (HeapSort.sortDown EfiDescriptor.physicalStart stop a) := by
  induction stop generalizing a with
  | zero => rfl
  | succ stop ih =>
    rw [sortDown, HeapSort.sortDown, swapDescs_range hs (by omega), heapify_range (by omega),
      ih (by omega)]

/-- The types by their numbers. -/
def EfiMemoryType.ofCode (n : Nat) : EfiMemoryType :=
  ([.reservedMemoryType, .loaderCode, .loaderData, .bootServicesCode, .bootServicesData,
    .runtimeServicesCode,
    .runtimeServicesData, .conventionalMemory, .unusableMemory, .acpiReclaimMemory,
    .acpiMemoryNVS, .memoryMappedIo,
    .memoryMappedIoPortSpace, .palCode] : List EfiMemoryType).getD n .unknown

def EfiMemoryDescriptor.toDescriptor (d : EfiMemoryDescriptor) : EfiDescriptor :=
  ⟨.ofCode (read32 d.mem 0), d.physicalStart, readPtr d.mem 24⟩

/-- The map that the import walks is the sorted map in memory. -/
theorem efiSortMap_in_memory {s : EfiState} {n : Nat} (h : s.Fits n) :
    efiSortMap ((List.range n).map fun i => (s.descriptor s.mem i).toDescriptor) =
      (List.range n).map fun i => (s.descriptor s.efiSortMap.mem i).toDescriptor := by
  obtain ⟨m, hsort, hdesc⟩ := h.efiSortMap
  have hpos := h.pos
  have hcomp := HeapSort.sort_comp EfiDescriptor.physicalStart EfiMemoryDescriptor.toDescriptor n
    (s.descriptor s.mem)
  rw [hsort]
  change efiSortMap ((List.range n).map (EfiMemoryDescriptor.toDescriptor ∘ s.descriptor s.mem)) =
    (List.range n).map (EfiMemoryDescriptor.toDescriptor ∘ s.descriptor m)
  rw [efiSortMap, List.length_map, List.length_range, heapify_range le_rfl,
    sortDown_range (by omega), hdesc]
  exact congrArg (fun b => (List.range n).map b) hcomp


def storedMap : EfiState where
  mem :=
    writePtr (writePtr (writePtr (writePtr (fun _ => 0) 0x1008 0x9000) 0x1038 0x4000)
      0x1068 0x4000) 0x1078 5
  efiMap := 0x1000
  efiMapSize := 144
  efiMapDescSize := 48
  sorted := false

theorem efi_walk_sorted_example :
    ∃ s', EfiState.walk 4 0 storedMap = .ok (s', [0x1000, 0x1030, 0x1060]) ∧
      ((List.range 3).map (storedMap.descriptor s'.mem)).Perm
        ((List.range 3).map (storedMap.descriptor storedMap.mem)) ∧
      ((List.range 3).map (storedMap.descriptor s'.mem)).Pairwise fun d d' => d.physicalStart ≤
        d'.physicalStart :=
  EfiState.efi_walk_sorted (n := 3) ⟨by decide, by decide, rfl, by decide, by decide⟩ rfl
    (by decide)

end QnxStartup
