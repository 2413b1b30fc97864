import RegionLayout.Layout.Basic
import RegionLayout.Program.Coverage
import RegionLayout.Program.Cursor
import RegionLayout.Program.Tree

/-!
# Lookup programs

The piece list of a field is checked and turned into instructions the first time it is met, and
fields of the same list share them. All lists end up in one buffer, one after the other.
-/

namespace RegionLayout

/-- Where evaluation for a field starts, what it may meet there, and what is added to the offset
it finds. A field whose list has no point starts nowhere. -/
structure Entry where
  start? : Option Nat
  opcodes : OpcodeSet
  offset : UInt64
  deriving DecidableEq, Repr

def Entry.Supports (e : Entry) (allowed : OpcodeSet) : Prop := e.opcodes ⊆ allowed

instance (e : Entry) (allowed : OpcodeSet) : Decidable (e.Supports allowed) :=
  inferInstanceAs (Decidable (e.opcodes ⊆ allowed))

/-- A lookup program for points of one kind, together with the memory that holds it. -/
structure Program (t : CoordType) (n : Nat) where
  memory : ProgramMemory
  fields : FieldMap Entry
  deriving DecidableEq

namespace Program

variable {t : CoordType} {n : Nat}

def bytes (program : Program t n) : Bytes := program.memory.committedBytes?.getD []

def entry? (program : Program t n) (id : FieldId) : Option Cursor := do
  let entry ← program.fields.get? id
  let start ← entry.start?
  Cursor.at? program.bytes start

def lookup (program : Program t n) (id : FieldId) (p : Point t n) :
    Except Fault (Option (Piece t n)) :=
  match program.entry? id with
  | none => .ok none
  | some cursor => cursor.lookup p

def offset? (program : Program t n) (id : FieldId) (p : Point t n) :
    Except Fault (Option UInt64) :=
  match program.fields.get? id with
  | none => .ok none
  | some entry => (program.lookup id p).map fun leaf? =>
      leaf?.map fun leaf => leaf.rule.offset p + entry.offset

end Program

/-- What a piece list became: where its instructions start, and their opcodes. -/
structure ListEntry where
  start? : Option Nat
  opcodes : OpcodeSet

/-- A program under construction: its instructions, the lists they came from, and the fields done
so far. -/
structure ProgramPlan where
  code : Bytes
  lists : List (UInt64 × ListEntry)
  fields : FieldMap Entry

namespace ProgramPlan

variable {t : CoordType} {n : Nat}

def start : ProgramPlan := ⟨[], [], FieldMap.empty⟩

/-- Checks a piece list and appends its instructions. Pieces without points leave nothing
behind. -/
def addList (space : IndexSpace t n) (options : CompileOptions) (plan : ProgramPlan)
    (index : UInt64) (pieces : PieceList t n) :
    Except (Failure CompileError) (ProgramPlan × ListEntry) := do
  (checkCoverage space options.allowed index.toNat pieces).mapError .error
  -- only now: a piece without points has to pass the checks like any other
  let inhabited := List.filter (fun q => decide (¬ q.bounds.IsEmpty)) pieces
  if inhabited.isEmpty then
    let entry : ListEntry := ⟨none, OpcodeSet.empty⟩
    return ({ plan with lists := (index, entry) :: plan.lists }, entry)
  else
    let tree := Tree.build options inhabited
    let code ← tree.emit
    let entry : ListEntry := ⟨some plan.code.length, tree.opcodes⟩
    return ({ plan with code := plan.code ++ code, lists := (index, entry) :: plan.lists }, entry)

def addField (layout : Layout t n) (options : CompileOptions) (plan : ProgramPlan)
    (field : FieldId × FieldSlot) : Except (Failure CompileError) ProgramPlan :=
  match layout.list? field.2.list with
  | none => .error (.error (.missingPieceList field.1 field.2.list.toNat))
  | some pieces => do
      let (plan, entry) ← match plan.lists.lookup field.2.list with
        | some entry => .ok (plan, entry)
        | none => plan.addList layout.space options field.2.list pieces
      return { plan with
        fields := plan.fields.insert field.1
          { start? := entry.start?, opcodes := entry.opcodes, offset := field.2.offset } }

end ProgramPlan

namespace Layout

variable {t : CoordType} {n : Nat}

def plan (layout : Layout t n) (options : CompileOptions) :
    Except (Failure CompileError) ProgramPlan :=
  if 255 < n then .error (.error (.tooManyDimensions n))
  else layout.fields.entries.foldlM (ProgramPlan.addField layout options) ProgramPlan.start

/-- Compiles the layout into the given memory. Nothing is allocated before all instructions are
there. -/
def compile (layout : Layout t n) (memory : ProgramMemory) (options : CompileOptions) :
    Except (Failure CompileError) (Program t n) := do
  let plan ← layout.plan options
  let memory ← (memory.allocate plan.code.length).mapError fun e => .error (.allocation e)
  return { memory := (memory.write plan.code).commit, fields := plan.fields }

/-- The program for any consumer, in memory of its own. -/
def defaultProgram (layout : Layout t n) : Except (Failure CompileError) (Program t n) :=
  layout.compile ProgramMemory.fresh CompileOptions.default

end Layout

end RegionLayout
