namespace RegionLayout

/-- The first number that is no machine word, `2 ^ 64`. -/
def wordLimit : Nat := 0x10000000000000000

abbrev Bytes := List UInt8

namespace Bytes

/-- The `width` low bytes of `x`, least significant first. -/
def ofNat : Nat → Nat → Bytes
  | 0, _ => []
  | width + 1, x => UInt8.ofNat (x % 256) :: ofNat width (x / 256)

def toNat : Bytes → Nat
  | [] => 0
  | b :: bs => b.toNat + 256 * toNat bs

@[simp] theorem length_ofNat (width x : Nat) : (ofNat width x).length = width := by
  induction width generalizing x with
  | zero => rfl
  | succ width ih => simp [ofNat, ih]

/-- The first number that `width` bytes do not hold, 256 to the power `width`. -/
def limit : Nat → Nat
  | 0 => 1
  | width + 1 => 256 * limit width

theorem toNat_ofNat (width x : Nat) : toNat (ofNat width x) = x % limit width := by
  induction width generalizing x with
  | zero => simp [ofNat, toNat, limit, Nat.mod_one]
  | succ width ih =>
    have hb : (UInt8.ofNat (x % 256)).toNat = x % 256 := by
      simp [UInt8.toNat_ofNat']
    rw [ofNat, toNat, ih, hb, limit, Nat.mod_mul]

theorem toNat_lt (bs : Bytes) : toNat bs < limit bs.length := by
  induction bs with
  | nil => decide
  | cons b bs ih =>
    have hb : b.toNat < 256 := b.toNat_lt
    rw [toNat, List.length_cons, limit]
    omega

theorem ofNat_toNat (bs : Bytes) : ofNat bs.length (toNat bs) = bs := by
  induction bs with
  | nil => rfl
  | cons b bs ih =>
    have hb : b.toNat < 256 := b.toNat_lt
    rw [List.length_cons, ofNat, toNat, Nat.add_mul_mod_self_left, Nat.mod_eq_of_lt hb,
      UInt8.ofNat_toNat, Nat.add_mul_div_left _ _ (by decide), Nat.div_eq_of_lt hb,
      Nat.zero_add, ih]

def ofWord (w : UInt64) : Bytes := ofNat 8 w.toNat

def toWord (bs : Bytes) : UInt64 := UInt64.ofNat (toNat bs)

@[simp] theorem length_ofWord (w : UInt64) : (ofWord w).length = 8 := length_ofNat 8 _

theorem toWord_ofWord (w : UInt64) : toWord (ofWord w) = w := by
  have hw : w.toNat < limit 8 := w.toNat_lt
  rw [toWord, ofWord, toNat_ofNat, Nat.mod_eq_of_lt hw]
  exact UInt64.ofNat_toNat

def zeros (count : Nat) : Bytes := List.replicate count 0

/-- Fills up to `size` bytes with zeros. -/
def padTo (size : Nat) (bs : Bytes) : Bytes := bs ++ zeros (size - bs.length)

theorem length_padTo {size : Nat} {bs : Bytes} (h : bs.length ≤ size) :
    (padTo size bs).length = size := by
  simp [padTo, zeros]
  omega

/-- The next `count` items of `width` bytes each. -/
def chunks (width : Nat) : Nat → Bytes → List Bytes
  | 0, _ => []
  | count + 1, bs => bs.take width :: chunks width count (bs.drop width)

@[simp] theorem length_chunks (width count : Nat) (bs : Bytes) :
    (chunks width count bs).length = count := by
  induction count generalizing bs with
  | zero => rfl
  | succ count ih => simp [chunks, ih]

theorem chunks_flatMap {α : Type} {width : Nat} (item : α → Bytes) (items : List α)
    (h : ∀ a ∈ items, (item a).length = width) (rest : Bytes) :
    chunks width items.length (items.flatMap item ++ rest) = items.map item := by
  induction items with
  | nil => rfl
  | cons a items ih =>
    have ha : (item a).length = width := h a List.mem_cons_self
    subst ha
    rw [List.length_cons, chunks, List.flatMap_cons, List.append_assoc, List.take_left,
      List.drop_left, ih fun b hb => h b (List.mem_cons_of_mem _ hb), List.map_cons]

/-- At least `count` bytes are there. Only that many are looked at. -/
def reaches : Nat → Bytes → Bool
  | 0, _ => true
  | _ + 1, [] => false
  | count + 1, _ :: bs => reaches count bs

@[simp] theorem reaches_iff {count : Nat} {bs : Bytes} :
    reaches count bs = true ↔ count ≤ bs.length := by
  induction count generalizing bs with
  | zero => simp [reaches]
  | succ count ih => cases bs <;> simp [reaches, ih]

/-- Splits off exactly `count` bytes, or nothing when fewer are left. -/
def splitOff? (count : Nat) (bs : Bytes) : Option (Bytes × Bytes) :=
  if reaches count bs then some (bs.splitAt count) else none

/-- The `count` bytes from position `start`, or nothing when the range is not inside. -/
def slice? (bs : Bytes) (start count : Nat) : Option Bytes :=
  if reaches (start + count) bs then some ((bs.drop start).take count) else none

/-- Replaces the bytes from position `start` by `data`, or nothing when they do not fit. -/
def splice? (bs : Bytes) (start : Nat) (data : Bytes) : Option Bytes :=
  if start + data.length ≤ bs.length then
    some (bs.take start ++ data ++ bs.drop (start + data.length))
  else none

end Bytes

end RegionLayout
