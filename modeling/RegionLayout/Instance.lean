import RegionLayout.Layout.Basic

namespace RegionLayout

/-- A copy between this process and remote memory. -/
structure Transfer where
  isWrite : Bool
  offset : Nat
  length : Nat
  deriving DecidableEq, Repr

inductive Storage where
  | host (bytes : Bytes)
  | remote (bytes : Bytes) (log : List Transfer)
  deriving DecidableEq, Repr

namespace Storage

def contents : Storage → Bytes
  | .host bytes => bytes
  | .remote bytes _ => bytes

def isHost : Storage → Bool
  | .host _ => true
  | .remote .. => false

/-- How a copy out of range is refused. -/
def rangeFault (s : Storage) (offset length : Nat) : Fault :=
  match s with
  | .host bytes => .rangeOutside length offset bytes.length
  | .remote .. => .remoteRange offset length

def record (s : Storage) (transfer : Transfer) : Storage :=
  match s with
  | .host bytes => .host bytes
  | .remote bytes log => .remote bytes (log ++ [transfer])

def setContents (s : Storage) (bytes : Bytes) : Storage :=
  match s with
  | .host _ => .host bytes
  | .remote _ log => .remote bytes log

def read (s : Storage) (offset : UInt64) (length : Nat) : Except Fault Bytes × Storage :=
  (match Bytes.slice? s.contents offset.toNat length with
    | some data => .ok data
    | none => .error (s.rangeFault offset.toNat length),
   s.record ⟨false, offset.toNat, length⟩)

/-- Copies `data` in. Out of range nothing is written. -/
def write (s : Storage) (offset : UInt64) (data : Bytes) : Except Fault Unit × Storage :=
  let recorded := s.record ⟨true, offset.toNat, data.length⟩
  match Bytes.splice? s.contents offset.toNat data with
  | some bytes => (.ok (), recorded.setContents bytes)
  | none => (.error (s.rangeFault offset.toNat data.length), recorded)

/-- The copies recorded since the last time, which are forgotten; none for bytes of this
process. -/
def drainLog : Storage → Option (List Transfer) × Storage
  | .host bytes => (none, .host bytes)
  | .remote bytes log => (some log, .remote bytes [])

end Storage

structure Instance (t : CoordType) (n : Nat) where
  layout : Layout t n
  storage : Storage
  deriving DecidableEq

namespace Instance

variable {t : CoordType} {n : Nat}

/-- Zeroed bytes of this process, aligned to the next power of two that the layout asks for. It
is a fault if that is no machine word. -/
def onHost (layout : Layout t n) : Except Fault (Instance t n) :=
  if 0x8000000000000000 < layout.alignment.toNat then .error .arithmeticOverflow
  else .ok ⟨layout, .host (Bytes.zeros layout.bytesUsed.toNat)⟩

def onRemote (layout : Layout t n) (bytes : Bytes) : Instance t n := ⟨layout, .remote bytes []⟩

def size (inst : Instance t n) : Nat := inst.layout.bytesUsed.toNat

def isLocal (inst : Instance t n) : Bool := inst.storage.isHost

def text (inst : Instance t n) : String :=
  "RegionInstance \x7b local: " ++ (if inst.isLocal then "true" else "false") ++ ", layout: " ++
    inst.layout.text ++ " \x7d"

end Instance

end RegionLayout
