import RegionLayout.Access.Affine
import RegionLayout.Access.Generic
import RegionLayout.Access.MultiAffine
import RegionLayout.Rect.Points

namespace RegionLayout

inductive Tier where
  | generic
  | affine
  | multiAffine
  deriving DecidableEq, Repr

def Tier.name : Tier → String
  | .generic => "generic"
  | .affine => "affine"
  | .multiAffine => "multi-affine"

inductive Accessor (t : CoordType) (n : Nat) where
  | generic (a : GenericAccessor t n)
  | affine (a : AffineAccessor t n)
  | multiAffine (a : MultiAffineAccessor t n)
  deriving DecidableEq

namespace Accessor

variable {t s : CoordType} {n m : Nat}

def bind (inst : Instance t n) (tier : Tier) (request : FieldRequest)
    (within? : Option (Rect t n)) : Except (Failure AccessorError) (Accessor t n) :=
  match tier with
  | .generic => ((GenericAccessor.bind inst.layout request within?).map .generic).mapError .error
  | .affine => ((AffineAccessor.bind inst request within?).map .affine).mapError .error
  | .multiAffine => (MultiAffineAccessor.bind inst request within?).map .multiAffine

def bindView (inst : Instance t m) (request : FieldRequest) (f : Transform t m n)
    (offset : Point t m) (within? : Option (Rect s n)) :
    Except (Failure AccessorError) (Accessor s n) :=
  ((AffineAccessor.bindView inst request f offset within?).map .affine).mapError .error

/-- Takes it for granted that the accessor can be opened: an error is a fault. -/
def insist {α : Type} (tier : Tier) (field : FieldId) :
    Except (Failure AccessorError) α → Except Fault α
  | .ok a => .ok a
  | .error (.fault f) => .error f
  | .error (.error e) => .error (.incompatible tier.name field e.message)

/-- Asks only whether the accessor can be opened. -/
def compatible {α : Type} : Except (Failure AccessorError) α → Except Fault Bool
  | .ok _ => .ok true
  | .error (.fault f) => .error f
  | .error (.error _) => .ok false

def element : Accessor t n → Nat
  | .generic a => a.element
  | .affine a => a.element
  | .multiAffine a => a.element

/-- The region the accessor was opened for, if it is known. -/
def bounds? : Accessor t n → Option (Rect t n)
  | .generic a => some a.bounds
  | .affine a => a.bounds?
  | .multiAffine a => some a.bounds

/-- The byte offset of the element at a point, and the accessor with its cache filled. -/
def address (a : Accessor t n) (p : Point t n) : Except Fault UInt64 × Accessor t n :=
  match a with
  | .generic a => (a.address p).map id .generic
  | .affine a => (a.address p, .affine a)
  | .multiAffine a => (a.address p).map id .multiAffine

def read (a : Accessor t n) (storage : Storage) (p : Point t n) :
    Except Fault Bytes × Accessor t n × Storage :=
  match a.address p with
  | (.error f, a') => (.error f, a', storage)
  | (.ok offset, a') =>
      let (result, storage') := storage.read offset a.element
      (result, a', storage')

def write (a : Accessor t n) (storage : Storage) (p : Point t n) (value : Bytes) :
    Except Fault Unit × Accessor t n × Storage :=
  match a.address p with
  | (.error f, a') => (.error f, a', storage)
  | (.ok offset, a') =>
      let (result, storage') := storage.write offset value
      (result, a', storage')

/-- The elements of a rectangle, dimension 0 varying fastest. -/
def readRect (a : Accessor t n) (storage : Storage) (r : Rect t n) :
    Except Fault (List Bytes) × Accessor t n × Storage :=
  r.walk.run (fun s p => s.1.read s.2 p) (a, storage)

/-- Writes consecutive numbers into a rectangle, dimension 0 varying fastest. Each is cut or
extended to the size of an element. What was written before a fault stays. -/
def fill (a : Accessor t n) (storage : Storage) (r : Rect t n) (start : UInt64) :
    Except Fault Unit × Accessor t n × Storage :=
  let (result, (a', storage'), _) :=
    r.walk.run (fun (s : (Accessor t n × Storage) × UInt64) p =>
      let (result, next) := s.1.1.write s.1.2 p (Bytes.ofNat a.element s.2.toNat)
      (result, next, s.2 + 1)) ((a, storage), start)
  (result.map fun _ => (), a', storage')

def text : Accessor t n → String
  | .generic a => a.text
  | .affine a => a.text
  | .multiAffine a => a.text

end Accessor

end RegionLayout
