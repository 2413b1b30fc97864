import Mathlib.Logic.Relation
import RegionLayout.Proofs.Program.Correctness
import RegionLayout.Proofs.Program.Coverage

/-!
# Usage masks

The opcodes of an entry are those of the instructions that can be reached from it, along both ways
of every plane and every jump of a leaf. Every lookup meets all of them.
-/

namespace RegionLayout

variable {t : CoordType} {n : Nat} {p : Point t n} {code rest after next : Bytes}

/-- From the instruction at the front of the code there is a way on, for some point or other: from
a plane to what follows it and to where it jumps, from a leaf to where it jumps. -/
inductive LeadsTo (t : CoordType) (n : Nat) (code next : Bytes) : Prop
  | below {s : SplitPlane t} (hplane : splitPlaneAt? t code = some s)
      (hskip : skip? code splitPlaneSize = some next)
  | above {s : SplitPlane t} (hplane : splitPlaneAt? t code = some s)
      (hjump : jump? code s.delta.toNat = some next)
  | chained {leaf : Piece t n} {delta : Nat} (hleaf : leafAt? t n code = .ok (some (leaf, delta)))
      (hjump : jump? code delta = some next)

/-- The instruction at the front of `rest` can be reached from that at the front of `code`. -/
def Reaches (t : CoordType) (n : Nat) : Bytes → Bytes → Prop :=
  Relation.ReflTransGen (LeadsTo t n)

/-- Evaluation for the point comes from the front of `code` to the front of `rest`. -/
def Visits (p : Point t n) : Bytes → Bytes → Prop :=
  Relation.ReflTransGen fun code next => step code p = .ok (.goto next)

theorem leadsTo_of_step (h : step code p = .ok (.goto next)) : LeadsTo t n code next := by
  have helim : ∀ o : Option Bytes, o.elim (Step.stuck : Step t n) .goto = .goto next →
      o = some next := by
    intro o ho
    cases o <;> simp_all
  rw [step] at h
  split at h
  case h_1 => simp at h
  case h_2 =>
    split at h
    case h_1 => simp at h
    case h_2 s hplane =>
      split at h
      case isTrue =>
        have hway := helim _ (Except.ok.inj h)
        split at hway
        case isTrue => exact .below hplane hway
        case isFalse => exact .above hplane hway
      case isFalse => simp at h
  case h_3 =>
    split at h
    case h_1 => contradiction
    case h_2 => simp at h
    case h_3 leaf delta hleaf =>
      split at h
      case isTrue => simp at h
      case isFalse => exact .chained hleaf (helim _ (Except.ok.inj h))

theorem Visits.reaches (h : Visits p code rest) : Reaches t n code rest := by
  induction h with
  | refl => exact .refl
  | tail _ hstep ih => exact ih.tail (leadsTo_of_step hstep)

namespace Tree

variable {tree : Tree t n} {pieces : PieceList t n} {options : CompileOptions} {o : Opcode}

end Tree

namespace ListEntry.Describes

variable {options : CompileOptions} {pieces : PieceList t n} {entry : ListEntry} {start : Nat}

end ListEntry.Describes

end RegionLayout
