import RegionLayout.Bytes

namespace RegionLayout

inductive AllocError where
  | exhausted (requested available : Nat)
  | alreadyAllocated
  deriving DecidableEq, Repr

def AllocError.message : AllocError → String
  | .exhausted requested available =>
      "program needs " ++ toString requested ++ " bytes but only " ++ toString available ++
        " are available"
  | .alreadyAllocated => "program memory can only be allocated once"

structure ProgramMemory where
  limit? : Option Nat
  buffer? : Option Bytes
  committed : Bool
  deriving DecidableEq, Repr

namespace ProgramMemory

def fresh : ProgramMemory := ⟨none, none, false⟩

/-- Memory that refuses programs of more than `limit` bytes. -/
def withLimit (limit : Nat) : ProgramMemory := ⟨some limit, none, false⟩

/-- Takes a zeroed buffer of exactly `size` bytes, the first time. -/
def allocate (m : ProgramMemory) (size : Nat) : Except AllocError ProgramMemory :=
  match m.buffer?, m.limit? with
  | some _, _ => .error .alreadyAllocated
  | none, none => .ok { m with buffer? := some (Bytes.zeros size) }
  | none, some limit =>
      if limit < size then .error (.exhausted size limit)
      else .ok { m with buffer? := some (Bytes.zeros size) }

/-- Puts `data` at the start of the buffer; what does not fit is dropped. -/
def write (m : ProgramMemory) (data : Bytes) : ProgramMemory :=
  { m with buffer? := m.buffer?.map fun buffer =>
      data.take buffer.length ++ buffer.drop data.length }

/-- Makes the buffer visible, now or as soon as there is one. -/
def commit (m : ProgramMemory) : ProgramMemory := { m with committed := true }

def committedBytes? (m : ProgramMemory) : Option Bytes := if m.committed then m.buffer? else none

end ProgramMemory

end RegionLayout
