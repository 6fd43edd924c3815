import QnxStartup.RamCalls

/-! The memory map of the firmware, and `init_raminfo_efi` as the calls it makes into the
RAM allocator. -/

namespace QnxStartup

/-- `EFI_MEMORY_TYPE`; `unknown` is any other value of the field. -/
inductive EfiMemoryType where
  | reservedMemoryType
  | loaderCode
  | loaderData
  | bootServicesCode
  | bootServicesData
  | runtimeServicesCode
  | runtimeServicesData
  | conventionalMemory
  | unusableMemory
  | acpiReclaimMemory
  | acpiMemoryNVS
  | memoryMappedIo
  | memoryMappedIoPortSpace
  | palCode
  | unknown
  deriving DecidableEq, Repr

structure EfiDescriptor where
  type : EfiMemoryType
  physicalStart : Nat
  numberOfPages : Nat
  deriving DecidableEq, Repr

def EfiDescriptor.size (d : EfiDescriptor) : Nat := u64 (0x1000 * d.numberOfPages)

/-- `desc = *a; *a = *b; *b = desc`. -/
def swapDescs (i j : Nat) (map : List EfiDescriptor) : List EfiDescriptor :=
  match map[i]?, map[j]? with
  | some a, some b => (map.set i b).set j a
  | _, _ => map

/-- The inner loop of `heapify`; a child lies behind its parent, so `child` turns are enough. -/
def siftUp : Nat → Nat → List EfiDescriptor → List EfiDescriptor
  | 0, _, map => map
  | fuel + 1, child, map =>
    let parent := (child - 1) / 2
    match map[parent]?, map[child]? with
    | some pdesc, some cdesc =>
      if pdesc.physicalStart ≥ cdesc.physicalStart then map
      else siftUp fuel parent (swapDescs parent child map)
    | _, _ => map

def heapify (count : Nat) (map : List EfiDescriptor) : List EfiDescriptor :=
  (List.range' 1 (count - 1)).foldl (fun map stop => siftUp stop stop map) map

/-- The loop of `efi_sort_map`, from `end` down. -/
def sortDown : Nat → List EfiDescriptor → List EfiDescriptor
  | 0, map => map
  | stop + 1, map => sortDown stop (heapify (stop + 1) (swapDescs (stop + 1) 0 map))

/-- For a map with at least one descriptor. -/
def efiSortMap (map : List EfiDescriptor) : List EfiDescriptor :=
  sortDown (map.length - 1) (heapify map.length map)

def efiAvoid (d : EfiDescriptor) : List RamCall :=
  match d.type with
  | .conventionalMemory => []
  | _ => [.avoidRam d.physicalStart d.size]

/-- The types that `init_raminfo_efi` adds to RAM. -/
def EfiMemoryType.isRam : EfiMemoryType → Bool
  | .loaderCode | .loaderData | .bootServicesCode | .bootServicesData
  | .runtimeServicesCode | .runtimeServicesData | .acpiReclaimMemory | .conventionalMemory => true
  | _ => false

/-- Pass 1, from `cur_start` and `cur_size`. -/
def efiAdd : List EfiDescriptor → Nat → Nat → List RamCall
  | [], curStart, curSize => if curSize ≠ 0 then [.addRam curStart curSize] else []
  | d :: map, curStart, curSize =>
    if d.type.isRam then
      if d.physicalStart = u64 (curStart + curSize) then
        efiAdd map curStart (u64 (curSize + d.size))
      else .addRam curStart curSize :: efiAdd map d.physicalStart d.size
    else efiAdd map curStart curSize

def efiAlloc (d : EfiDescriptor) : List RamCall :=
  if d.type.isRam ∧ d.type ≠ .conventionalMemory then [.allocRam d.physicalStart d.size 0] else []

/-- `efi_walk_map` sorts the map the first time, and each pass walks the sorted one. -/
def initRaminfoEfi (map : List EfiDescriptor) : List RamCall :=
  let map := efiSortMap map
  map.flatMap efiAvoid ++ efiAdd map (2 ^ 64 - 1) 0 ++ map.flatMap efiAlloc

theorem swapDescs_perm (i j : Nat) (map : List EfiDescriptor) : (swapDescs i j map).Perm map := by
  unfold swapDescs
  split
  · next a b ha hb =>
    obtain ⟨hi, rfl⟩ := List.getElem?_eq_some_iff.mp ha
    obtain ⟨hj, rfl⟩ := List.getElem?_eq_some_iff.mp hb
    exact List.set_set_perm hi hj
  · exact .rfl

theorem siftUp_perm (fuel child : Nat) (map : List EfiDescriptor) :
    (siftUp fuel child map).Perm map := by
  induction fuel generalizing child map with
  | zero => exact .rfl
  | succ fuel ih =>
    simp only [siftUp]
    split
    · split
      · exact .rfl
      · exact (ih ..).trans (swapDescs_perm ..)
    · exact .rfl

theorem heapify_perm (count : Nat) (map : List EfiDescriptor) : (heapify count map).Perm map := by
  unfold heapify
  generalize List.range' 1 (count - 1) = stops
  induction stops generalizing map with
  | nil => exact .rfl
  | cons stop stops ih => exact (ih _).trans (siftUp_perm ..)

theorem sortDown_perm (stop : Nat) (map : List EfiDescriptor) : (sortDown stop map).Perm map := by
  induction stop generalizing map with
  | zero => exact .rfl
  | succ stop ih => exact (ih _).trans ((heapify_perm ..).trans (swapDescs_perm ..))

theorem efiSortMap_perm (map : List EfiDescriptor) : (efiSortMap map).Perm map :=
  (sortDown_perm ..).trans (heapify_perm ..)

example :
    efiSortMap [⟨.loaderData, 0x3000, 1⟩, ⟨.conventionalMemory, 0x1000, 2⟩,
      ⟨.reservedMemoryType, 0x8000, 1⟩] =
      [⟨.conventionalMemory, 0x1000, 2⟩, ⟨.loaderData, 0x3000, 1⟩,
        ⟨.reservedMemoryType, 0x8000, 1⟩] := by decide

end QnxStartup
