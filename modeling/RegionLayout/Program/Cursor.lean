import RegionLayout.Program.Instruction

/-!
# Evaluating a program

Evaluation only moves forward, so it works on the bytes that are left. Where the program was copied
to and what stands before the instruction it starts from do not matter.
-/

namespace RegionLayout

/-- What is left `bytes` further on, if at least an instruction word is. -/
def skip? (code : Bytes) (bytes : Nat) : Option Bytes :=
  let rest := code.drop bytes
  if Bytes.reaches 4 rest then some rest else none

/-- What is left after a jump. A jump of zero units goes nowhere. -/
def jump? (code : Bytes) (delta : Nat) : Option Bytes :=
  if delta = 0 then none else skip? code (delta * instructionUnit)

theorem length_lt_of_skip? {code rest : Bytes} {bytes : Nat} (h : skip? code bytes = some rest)
    (hpos : 0 < bytes) : rest.length < code.length := by
  simp only [skip?, Bytes.reaches_iff, List.length_drop] at h
  split at h
  · cases h
    rw [List.length_drop]
    omega
  · contradiction

theorem length_lt_of_jump? {code rest : Bytes} {delta : Nat} (h : jump? code delta = some rest) :
    rest.length < code.length := by
  rw [jump?] at h
  split at h
  · contradiction
  · exact length_lt_of_skip? h (by simp only [instructionUnit]; omega)

/-- Where a point goes on from the instruction at the front of the code, or the leaf it ends in. -/
inductive Step (t : CoordType) (n : Nat) where
  | done (leaf : Piece t n)
  | goto (rest : Bytes)
  | stuck

/-- One instruction. A split plane of a dimension the point does not have, an instruction that is
cut off and a byte that marks no instruction all end the evaluation without a leaf. -/
def step {t : CoordType} {n : Nat} (code : Bytes) (p : Point t n) : Except Fault (Step t n) :=
  match opcodeAt? code with
  | none => .ok .stuck
  | some .splitPlane =>
      match splitPlaneAt? t code with
      | none => .ok .stuck
      | some s =>
          if h : s.dim.toNat < n then
            let next := if p.get ⟨s.dim.toNat, h⟩ < s.plane then skip? code splitPlaneSize
              else jump? code s.delta.toNat
            .ok (next.elim .stuck .goto)
          else .ok .stuck
  | some .affinePiece =>
      match leafAt? t n code with
      | .error f => .error f
      | .ok none => .ok .stuck
      | .ok (some (leaf, delta)) =>
          if p ∈ leaf.bounds then .ok (.done leaf)
          else .ok ((jump? code delta).elim .stuck .goto)

theorem length_lt_of_step {t : CoordType} {n : Nat} {code rest : Bytes} {p : Point t n}
    (h : step code p = .ok (.goto rest)) : rest.length < code.length := by
  have key : ∀ o : Option Bytes, o.elim (Step.stuck : Step t n) .goto = .goto rest →
      o = some rest := by
    intro o ho
    cases o <;> simp_all
  rw [step] at h
  split at h
  · simp at h
  · split at h
    · simp at h
    · split at h
      · injection h with h
        have h := key _ h
        split at h
        · exact length_lt_of_skip? h (by decide)
        · exact length_lt_of_jump? h
      · simp at h
  · split at h
    · contradiction
    · simp at h
    · split at h
      · simp at h
      · injection h with h
        exact length_lt_of_jump? (key _ h)

/-- The leaf the point ends in when evaluation starts at the front of `code`, if it ends in one. -/
def evaluate {t : CoordType} {n : Nat} (code : Bytes) (p : Point t n) :
    Except Fault (Option (Piece t n)) :=
  match _h : step code p with
  | .error f => .error f
  | .ok (.done leaf) => .ok (some leaf)
  | .ok .stuck => .ok none
  | .ok (.goto rest) => evaluate rest p
termination_by code.length
decreasing_by exact length_lt_of_step ‹_›

/-- A position in a program: how far in it is, and the bytes from there on. -/
structure Cursor where
  pos : Nat
  code : Bytes
  deriving DecidableEq

namespace Cursor

/-- The cursor at a position of `program`, which has to be a multiple of 16 with an instruction
word left. -/
def at? (program : Bytes) (pos : Nat) : Option Cursor :=
  if pos % instructionUnit = 0 ∧ Bytes.reaches (pos + 4) program then some ⟨pos, program.drop pos⟩
  else none

/-- The cursor `bytes` further on. It is a fault if the position is no machine word. -/
def skip (c : Cursor) (bytes : Nat) : Except Fault (Option Cursor) :=
  if wordLimit ≤ c.pos + bytes then .error .arithmeticOverflow
  else if (c.pos + bytes) % instructionUnit = 0 then
    .ok ((skip? c.code bytes).map fun rest => ⟨c.pos + bytes, rest⟩)
  else .ok none

/-- The cursor `delta` units further on. A jump of zero units goes nowhere. -/
def jump (c : Cursor) (delta : Nat) : Except Fault (Option Cursor) :=
  if delta = 0 then .ok none else c.skip (delta * instructionUnit)

def opcode? (c : Cursor) : Option Opcode := opcodeAt? c.code

def splitPlane? (t : CoordType) (c : Cursor) : Option (SplitPlane t) := splitPlaneAt? t c.code

def leaf? (t : CoordType) (n : Nat) (c : Cursor) : Except Fault (Option (Piece t n × Nat)) :=
  leafAt? t n c.code

def lookup {t : CoordType} {n : Nat} (c : Cursor) (p : Point t n) :
    Except Fault (Option (Piece t n)) :=
  evaluate c.code p

end Cursor

end RegionLayout
