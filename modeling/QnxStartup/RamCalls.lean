import QnxStartup.Ram

/-! The calls that a board's `init_raminfo` makes into the RAM allocator. -/

namespace QnxStartup

inductive RamCall where
  | avoidRam (start size : Nat)
  | addRam (start size : Nat)
  | allocRam (addr size align : Nat)
  deriving DecidableEq, Repr

def RamCall.run [SyspageHeader] (boot : Boot) : RamCall → RamState → Startup RamState
  | .avoidRam start size, s => QnxStartup.avoidRam boot start size s
  | .addRam start size, s => QnxStartup.addRam boot start size s
  | .allocRam addr size align, s => (QnxStartup.allocRam addr size align s).bind fun (s, _) => .ok s

def RamCall.added : RamCall → Option (Nat × Nat)
  | .addRam start size => some (start, size)
  | _ => none

end QnxStartup
