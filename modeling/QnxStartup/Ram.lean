import QnxStartup.RamList
import QnxStartup.Asinfo

/-! The RAM allocator of `ram.c`: the free list, the list of ranges to avoid, the
workspace, and the "sysram" elements that follow the free list once they exist.
`lsp.asinfo` is the only part of the system page it reads. -/

namespace QnxStartup

structure AvoidEntry where
  start : Nat
  stop : Nat
  deriving DecidableEq, Repr

def sizeofAvoidEntry : Nat := 16

def maxAvoidListSize : Nat := 1024

def tempSyspageSize : Nat := 48 * 1024

def pageSize : Nat := 4096

/-- What the image header and the processor tell startup: where the image was put,
how much of it is startup itself, and the implemented address bits. -/
structure Boot where
  fullRamPaddr : Nat
  startupSize : Nat
  ramSize : Nat
  idAa64mmfr0 : Nat
  startup_pos : 0 < startupSize
  startup_le : startupSize ≤ ramSize
  ram_lt : ramSize < 2 ^ 32
  bound : fullRamPaddr + ramSize < 2 ^ 64

def imolaBoot : Boot where
  fullRamPaddr := 0x80080000
  startupSize := 0x30000
  ramSize := 0x800000
  idAa64mmfr0 := 2
  startup_pos := by decide
  startup_le := by decide
  ram_lt := by decide
  bound := by decide

/-- The static variables of `ram.c`, with memory. `avoidList` leaves out the
terminator; `wsReady` says that `avoid_list` is no longer null. -/
structure RamState where
  ramList : RamList
  avoidList : List AvoidEntry
  wsReady : Bool
  wsEarlyNext : Nat
  tempSyspage : Nat
  sysramAdded : Bool
  secureSystem : Bool
  asinfo : List AsinfoEntry
  mem : Mem

def RamState.atBoot (secureSystem : Bool) (mem : Mem) : RamState where
  ramList := ⟨[], 0⟩
  avoidList := []
  wsReady := false
  wsEarlyNext := 0
  tempSyspage := nullPaddr
  sysramAdded := false
  secureSystem := secureSystem
  asinfo := []
  mem := mem

/-- `fix_size`; `none` when the avoid range takes the whole candidate. -/
def fixSize (s e as ae : Nat) : Option (Nat × Nat) :=
  if s ≥ ae ∨ e ≤ as then some (s, e)
  else if s ≥ as then
    if e ≤ ae then none else some (ae, e)
  else if e < ae then some (s, as)
  else if sub64 as s > sub64 e ae then some (s, as)
  else some (ae, e)

/-- The loop over `avoid_list`. -/
def fixSizes : List AvoidEntry → Nat × Nat → Option (Nat × Nat)
  | [], c => some c
  | a :: rest, c =>
    if a.stop = 0 then some c
    else
      match fixSize c.1 c.2 a.start a.stop with
      | none => none
      | some c => fixSizes rest c

/-- The candidate's start after alignment, colour and range. `~mask` is a 32-bit value
in `find_ram_in_range`, and so clears the upper half of the address. -/
def adjustStart (rangeStart align colour mask s : Nat) : Nat :=
  let addr := round s align
  let addr :=
    if addr &&& mask ≠ colour then
      let incr := u32 ((sub32 mask 1 ||| mask) + 1)
      (u64 (addr + incr) &&& compl32 mask) ||| colour
    else addr
  if rangeStart ≠ 0 then if addr < rangeStart then rangeStart else addr else addr

def adjustEnd (rangeEnd e : Nat) : Nat :=
  if rangeEnd ≠ 0 then if e > rangeEnd then rangeEnd else e else e

/-- One turn of `find_ram_in_range`: the address it returns from block `r`. -/
def findInBlock (rangeStart rangeEnd size align colour mask : Nat) (avoid : List AvoidEntry)
    (r : RamEntry) :
    Option Nat :=
  match fixSizes avoid (r.addr, u64 (r.addr + r.size)) with
  | none => none
  | some (s, e) =>
    let addr := adjustStart rangeStart align colour mask s
    let e := adjustEnd rangeEnd e
    if addr ≥ e then none
    else if size ≤ sub64 e addr then some addr
    else none

def findRamInRange (rangeStart rangeEnd size align colour mask : Nat) (s : RamState) : Nat :=
  ((s.ramList.entries.takeWhile (fun r => r.size != 0)).findSome?
    (findInBlock rangeStart rangeEnd size align colour mask s.avoidList)).getD nullPaddr

def findRam (size align colour mask : Nat) (s : RamState) : Nat :=
  findRamInRange 0 nullPaddr size align colour mask s

/-- The loop of `alloc_ram` over the "sysram" elements; `stop` is the last byte. -/
def sysramScan [SyspageHeader] (addr stop : Nat) :
    Nat → Option Nat → List AsinfoEntry → Startup (List AsinfoEntry)
  | 0, _, _ => .error .noReturn
  | fuel + 1, off, t =>
    match asFindContaining off addr stop "sysram" t with
    | none => .ok t
    | some o =>
      match t[o]? with
      | none => .ok t
      | some as =>
        let s := as.start
        let e := as.stop
        let e := if stop > e then stop else e
        let s := if addr < s then addr else s
        if addr = s ∧ stop = e then crash "Can't remove whole sysram entry.\n"
        else if addr = s then
          sysramScan addr stop fuel (some o) (t.set o { as with start := u64 (stop + 1) })
        else
          let t := t.set o { as with stop := sub64 addr 1 }
          if e ≠ stop then
            sysramScan addr stop fuel (some o)
              (asAdd (u64 (stop + 1)) e asAttrRam "sysram" as.owner t).1
          else sysramScan addr stop fuel (some o) t

/-- `alloc_ram` once the address is known. -/
def takeRam [SyspageHeader] (addr size : Nat) (s : RamState) : Startup (RamState × Nat) :=
  let stop := u64 (addr + size)
  (allocScan addr stop (s.ramList.entries.length + 2) 0 s.ramList).bind fun l =>
    let s := { s with ramList := l }
    if s.sysramAdded then
      (sysramScan addr (sub64 stop 1) (s.asinfo.length + 1) none s.asinfo).bind fun t =>
        .ok ({ s with asinfo := t }, addr)
    else .ok (s, addr)

/-- The `memset` of a secure system goes through a 32-bit address. -/
def allocRam [SyspageHeader] (addr size align : Nat) (s : RamState) : Startup (RamState × Nat) :=
  if addr = nullPaddr then
    let addr := findRam size align 0 0 s
    if addr = nullPaddr then .ok (s, nullPaddr)
    else if s.secureSystem then takeRam addr size { s with mem := memset s.mem (u32 addr) 0 size }
    else takeRam addr size s
  else takeRam addr size s

def callocRam [SyspageHeader] (size align : Nat) (s : RamState) : Startup (RamState × Nat) :=
  (allocRam nullPaddr size align s).bind fun (s, a) =>
    if a ≠ nullPaddr ∧ s.secureSystem = false then .ok ({ s with mem := memset s.mem a 0 size }, a)
    else .ok (s, a)

/-- `avoid_ram` behind its call of `ws_init`. -/
def noteAvoid (start size : Nat) (s : RamState) : Startup RamState :=
  let l :=
    match s.avoidList.getLast? with
    | none => [⟨start, u64 (start + size)⟩]
    | some last =>
      if last.stop = start then s.avoidList.dropLast ++ [⟨last.start, u64 (last.stop + size)⟩]
      else s.avoidList ++ [⟨start, u64 (start + size)⟩]
  if (l.length + 1) * sizeofAvoidEntry > maxAvoidListSize then
    crash "Avoid RAM entry array overflow\n"
  else .ok { s with avoidList := l }

/-- `ws_alloc` behind its call of `ws_init`; `none` is the null pointer. -/
def takeWorkspace (size : Nat) (s : RamState) : Startup (RamState × Option Nat) :=
  let size := round size 8
  if s.ramList.size ≤ sizeofRamEntry then
    let paddr := s.wsEarlyNext
    (noteAvoid paddr size { s with wsEarlyNext := u64 (s.wsEarlyNext + size) }).bind fun s =>
      .ok (s, some paddr)
  else
    let paddr := findRam size 8 0 0 s
    if paddr = nullPaddr then .ok (s, none)
    else (noteAvoid paddr size s).bind fun s => .ok (s, some paddr)

def wsInit (boot : Boot) (s : RamState) : Startup RamState :=
  let start := round (u64 (boot.fullRamPaddr + boot.ramSize)) 8
  let stop := u64 (start + round maxAvoidListSize 8)
  let s := { s with wsReady := true, avoidList := [⟨start, stop⟩], wsEarlyNext := stop }
  (takeWorkspace maxRamListSize s).bind fun (s, _) =>
    noteAvoid boot.fullRamPaddr boot.startupSize
      { s with ramList := ⟨[⟨0, 0⟩], sizeofRamEntry⟩ }

def ensureWs (boot : Boot) (s : RamState) : Startup RamState :=
  if s.wsReady then .ok s else wsInit boot s

def avoidRam (boot : Boot) (start size : Nat) (s : RamState) : Startup RamState :=
  (ensureWs boot s).bind (noteAvoid start size)

def wsAlloc (boot : Boot) (size : Nat) (s : RamState) : Startup (RamState × Option Nat) :=
  (ensureWs boot s).bind (takeWorkspace size)

/-- `as_default`: the address space that the processor can decode. -/
def asDefault [SyspageHeader] (boot : Boot) (t : List AsinfoEntry) : List AsinfoEntry × Nat :=
  let bits := [32, 36, 40, 42, 44, 48, 48, 48].getD (boot.idAa64mmfr0 &&& 7) 48
  asAdd 0 (1 <<< bits - 1) asAttrNone "memory" none t

/-- The board has no address spaces of its own. -/
def initAsinfo (_mem : Nat) (t : List AsinfoEntry) : List AsinfoEntry := t

/-- The part of `add_ram` that records the new RAM in the system page. -/
def addRamAsinfo [SyspageHeader] (boot : Boot) (start size : Nat)
    (t : List AsinfoEntry) : List AsinfoEntry :=
  let t :=
    if t.length = 0 then
      let (t, mem) := asDefault boot t
      initAsinfo mem (asAdd 0 (4 * 2 ^ 30 - 1) 0 "below4G" (some mem) t).1
    else t
  (asAddContaining start (sub64 (u64 (start + size)) 1) asAttrRam "ram" "memory" t).1

/-- The part of `add_ram` that claims the temporary system page, and the address of a
page it has just claimed. What `reloc_syspage_memory` moves there is not part of this state. -/
def claimTempSyspage (boot : Boot) (s : RamState) : Startup RamState :=
  if s.tempSyspage = nullPaddr then
    let s := { s with tempSyspage := findRam tempSyspageSize pageSize 0 0 s }
    if s.tempSyspage ≠ nullPaddr then avoidRam boot s.tempSyspage tempSyspageSize s
    else .ok s
  else .ok s

def addRam [SyspageHeader] (boot : Boot) (start size : Nat) (s : RamState) : Startup RamState :=
  let s := { s with asinfo := addRamAsinfo boot start size s.asinfo }
  (addMem start size s.ramList).bind fun l =>
    (allocRam (u64 (boot.fullRamPaddr + boot.startupSize)) (sub32 boot.ramSize boot.startupSize) 1
      { s with ramList := l }).bind fun (s, _) => claimTempSyspage boot s

def addSysram [SyspageHeader] (s : RamState) : RamState :=
  { s with
    asinfo := (s.ramList.entries.takeWhile (fun r => r.size != 0)).foldl
      (fun t r => (asAddContaining r.addr
        (sub64 (u64 (r.addr + r.size)) 1) asAttrRam "sysram" "ram" t).1) s.asinfo
    sysramAdded := true }

end QnxStartup
