import RegionLayout.Piece

namespace RegionLayout

inductive Opcode where
  | splitPlane
  | affinePiece
  deriving DecidableEq, Repr

namespace Opcode

/-- The byte that marks an instruction, and the bit that stands for it in a mask. No instruction
is marked by zero. -/
def code : Opcode → Nat
  | .splitPlane => 1
  | .affinePiece => 2

def ofCode? : Nat → Option Opcode
  | 1 => some .splitPlane
  | 2 => some .affinePiece
  | _ => none

@[simp] theorem ofCode?_code (o : Opcode) : ofCode? o.code = some o := by cases o <;> rfl

def name : Opcode → String
  | .splitPlane => "SplitPlane"
  | .affinePiece => "AffinePiece"

end Opcode

def PieceKind.opcode : PieceKind → Opcode
  | .affine => .affinePiece

structure OpcodeSet where
  splitPlane : Bool
  affinePiece : Bool
  deriving DecidableEq, Repr

namespace OpcodeSet

def empty : OpcodeSet := ⟨false, false⟩

def all : OpcodeSet := ⟨true, true⟩

def contains (s : OpcodeSet) : Opcode → Bool
  | .splitPlane => s.splitPlane
  | .affinePiece => s.affinePiece

instance : Membership Opcode OpcodeSet := ⟨fun s o => s.contains o = true⟩

instance (o : Opcode) (s : OpcodeSet) : Decidable (o ∈ s) :=
  inferInstanceAs (Decidable (s.contains o = true))

theorem ext {s s' : OpcodeSet} (h : ∀ o, o ∈ s ↔ o ∈ s') : s = s' := by
  have h₁ : s.splitPlane = s'.splitPlane := Bool.eq_iff_iff.mpr (h .splitPlane)
  have h₂ : s.affinePiece = s'.affinePiece := Bool.eq_iff_iff.mpr (h .affinePiece)
  cases s
  cases s'
  simp_all

def singleton : Opcode → OpcodeSet
  | .splitPlane => ⟨true, false⟩
  | .affinePiece => ⟨false, true⟩

instance : Union OpcodeSet :=
  ⟨fun s s' => ⟨s.splitPlane || s'.splitPlane, s.affinePiece || s'.affinePiece⟩⟩

theorem mem_singleton {o o' : Opcode} : o ∈ singleton o' ↔ o = o' := by
  cases o <;> cases o' <;> decide

instance : HasSubset OpcodeSet where
  Subset s s' := (s.splitPlane → s'.splitPlane) ∧ (s.affinePiece → s'.affinePiece)

instance (s s' : OpcodeSet) : Decidable (s ⊆ s') :=
  inferInstanceAs
    (Decidable ((s.splitPlane → s'.splitPlane) ∧ (s.affinePiece → s'.affinePiece)))

theorem subset_iff {s s' : OpcodeSet} : s ⊆ s' ↔ ∀ o, o ∈ s → o ∈ s' := by
  constructor
  · rintro ⟨h₁, h₂⟩ o ho
    cases o
    · exact h₁ ho
    · exact h₂ ho
  · intro h
    exact ⟨h .splitPlane, h .affinePiece⟩

def ofList (opcodes : List Opcode) : OpcodeSet :=
  opcodes.foldr (fun o s => singleton o ∪ s) empty

def toList (s : OpcodeSet) : List Opcode :=
  [Opcode.splitPlane, Opcode.affinePiece].filter s.contains

/-- The number with the bit of each member set. -/
def mask (s : OpcodeSet) : Nat := (s.toList.map fun o => 1 <<< o.code).foldr (· + ·) 0

/-- A set is written `EnumSet(SplitPlane | AffinePiece)`. -/
def text (s : OpcodeSet) : String := "EnumSet(" ++ joined " | " (s.toList.map Opcode.name) ++ ")"

end OpcodeSet

end RegionLayout
