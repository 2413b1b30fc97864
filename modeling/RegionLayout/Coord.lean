import RegionLayout.Bytes
import RegionLayout.Fault

/-!
# Coordinates

A coordinate is an integer of one of four fixed widths. Arithmetic that leaves the range is spelled
out, either as wrapping (`wrap`) or as a partial conversion (`narrow`).
-/

namespace RegionLayout

inductive CoordType where
  | i32
  | i64
  | u32
  | u64
  deriving DecidableEq, Repr

namespace CoordType

def bytes : CoordType → Nat
  | .i32 | .u32 => 4
  | .i64 | .u64 => 8

/-- The number that names the type in serialized layouts. -/
def tag : CoordType → UInt8
  | .i32 => 1
  | .i64 => 2
  | .u32 => 3
  | .u64 => 4

def span : CoordType → Int
  | .i32 | .u32 => 0x100000000
  | .i64 | .u64 => 0x10000000000000000

def minVal : CoordType → Int
  | .i32 => -0x80000000
  | .i64 => -0x8000000000000000
  | .u32 | .u64 => 0

def maxVal : CoordType → Int
  | .i32 => 0x7fffffff
  | .i64 => 0x7fffffffffffffff
  | .u32 => 0xffffffff
  | .u64 => 0xffffffffffffffff

theorem span_pos (t : CoordType) : 0 < t.span := by cases t <;> decide

theorem span_eq (t : CoordType) : t.span = Bytes.limit t.bytes := by cases t <;> decide

theorem maxVal_eq (t : CoordType) : t.maxVal = t.minVal + t.span - 1 := by cases t <;> decide

end CoordType

@[ext] structure Coord (t : CoordType) where
  val : Int
  minVal_le : t.minVal ≤ val
  le_maxVal : val ≤ t.maxVal
  deriving DecidableEq

namespace Coord

variable {t : CoordType}

instance : Repr (Coord t) := ⟨fun c => reprPrec c.val⟩
instance : ToString (Coord t) := ⟨fun c => toString c.val⟩

instance : LE (Coord t) := ⟨fun a b => a.val ≤ b.val⟩
instance : LT (Coord t) := ⟨fun a b => a.val < b.val⟩
instance (a b : Coord t) : Decidable (a ≤ b) := inferInstanceAs (Decidable (a.val ≤ b.val))
instance (a b : Coord t) : Decidable (a < b) := inferInstanceAs (Decidable (a.val < b.val))
instance : Min (Coord t) := ⟨fun a b => if a ≤ b then a else b⟩
instance : Max (Coord t) := ⟨fun a b => if a ≤ b then b else a⟩

theorem le_def {a b : Coord t} : a ≤ b ↔ a.val ≤ b.val := Iff.rfl
theorem lt_def {a b : Coord t} : a < b ↔ a.val < b.val := Iff.rfl

theorem val_min (a b : Coord t) : (min a b).val = min a.val b.val := by
  show (if a ≤ b then a else b).val = _
  split
  case isTrue h => exact (Int.min_eq_left h).symm
  case isFalse h => exact (Int.min_eq_right (Int.le_of_not_le h)).symm

theorem val_max (a b : Coord t) : (max a b).val = max a.val b.val := by
  show (if a ≤ b then b else a).val = _
  split
  case isTrue h => exact (Int.max_eq_right h).symm
  case isFalse h => exact (Int.max_eq_left (Int.le_of_not_le h)).symm

/-- The coordinate equal to `x` modulo the number of values of the type. -/
def wrap (t : CoordType) (x : Int) : Coord t where
  val := t.minVal + (x - t.minVal) % t.span
  minVal_le := by
    have := Int.emod_nonneg (x - t.minVal) (Int.ne_of_gt t.span_pos)
    omega
  le_maxVal := by
    have := Int.emod_lt_of_pos (x - t.minVal) t.span_pos
    have := t.maxVal_eq
    omega

theorem val_wrap {x : Int} (hlo : t.minVal ≤ x) (hhi : x ≤ t.maxVal) :
    (wrap t x).val = x := by
  have := t.maxVal_eq
  show t.minVal + (x - t.minVal) % t.span = x
  rw [Int.emod_eq_of_lt (by omega) (by omega)]
  omega

@[simp] theorem wrap_val (c : Coord t) : wrap t c.val = c :=
  Coord.ext (val_wrap c.minVal_le c.le_maxVal)

/-- The coordinate read as a signed 64 bit number. Only `u64` values from `2 ^ 63` change. -/
def signed (c : Coord t) : Int := (wrap .i64 c.val).val

/-- The coordinate as a machine word, for offset arithmetic modulo `2 ^ 64`. -/
def toWord (c : Coord t) : UInt64 := UInt64.ofInt c.val

/-- The coordinate `x`, provided that it is one and that it also fits a signed 64 bit number. -/
def narrow (t : CoordType) (x : Int) : Option (Coord t) :=
  if h : t.minVal ≤ x ∧ x ≤ t.maxVal then
    if x ≤ CoordType.i64.maxVal then some ⟨x, h.1, h.2⟩ else none
  else none

/-- The next coordinate, counted in signed 64 bit arithmetic: the successor of `2 ^ 63 - 1` is an
overflow, also where the type could hold it. -/
def successor (c : Coord t) : Except Fault (Coord t) :=
  if c.val = CoordType.i64.maxVal then .error .arithmeticOverflow else .ok (wrap t (c.val + 1))

/-- Two's complement, least significant byte first. -/
def encode (c : Coord t) : Bytes := Bytes.ofNat t.bytes (c.val % t.span).toNat

def decode (t : CoordType) (bs : Bytes) : Coord t := wrap t (Bytes.toNat bs)

@[simp] theorem length_encode (c : Coord t) : c.encode.length = t.bytes := Bytes.length_ofNat _ _

theorem decode_encode (c : Coord t) : decode t c.encode = c := by
  have hlo := Int.emod_nonneg c.val (Int.ne_of_gt t.span_pos)
  have hhi := Int.emod_lt_of_pos c.val t.span_pos
  have hs := t.span_eq
  have hlt : (c.val % t.span).toNat < Bytes.limit t.bytes := by omega
  -- the bytes hold the remainder, and wrapping it around gives the value back
  have hval : ((Bytes.toNat c.encode : Nat) : Int) = c.val % t.span := by
    rw [encode, Bytes.toNat_ofNat, Nat.mod_eq_of_lt hlt]
    omega
  apply Coord.ext
  have h := congrArg Coord.val (wrap_val c)
  simp only [decode, wrap, hval] at h ⊢
  rw [Int.sub_emod, Int.emod_emod, ← Int.sub_emod]
  exact h

/-- Reads the coordinate at the front of `bs`; it is a fault if too few bytes are there. -/
def read (t : CoordType) (bs : Bytes) : Except Fault (Coord t) :=
  if t.bytes ≤ bs.length then .ok (decode t (bs.take t.bytes)) else .error .indexOutOfBounds

end Coord

end RegionLayout
