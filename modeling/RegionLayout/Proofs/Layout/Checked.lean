import RegionLayout.Proofs.Layout.Reading
import RegionLayout.Rect.Lemmas

/-!
# Reading with every check made

Decoding a coordinate takes a buffer with all its bytes, and a sparse space rectangles that do not
overlap. Reading with these checks spelled out ends as the plain reading does, so neither is ever a
fault.
-/

namespace RegionLayout

variable {α β : Type} {t : CoordType} {n : Nat}

namespace Bytes

theorem chunks_append {width count : Nat} {bs : Bytes} (h : bs.length = count * width)
    (bs' : Bytes) : chunks width count (bs ++ bs') = chunks width count bs := by
  induction count generalizing bs with
  | zero => rfl
  | succ count ih =>
    rw [Nat.succ_mul] at h
    have hdrop : (bs.drop width).length = count * width := by
      rw [List.length_drop]
      omega
    rw [chunks, chunks, List.take_append_of_le_length (by omega),
      List.drop_append_of_le_length (by omega), ih hdrop]

theorem chunks_concat {width count : Nat} {bs : Bytes} (h : bs.length = count * width)
    (bs' : Bytes) :
    chunks width (count + 1) (bs ++ bs') = chunks width count bs ++ [bs'.take width] := by
  induction count generalizing bs with
  | zero =>
    rw [Nat.zero_mul, List.length_eq_zero_iff] at h
    subst h
    rfl
  | succ count ih =>
    rw [Nat.succ_mul] at h
    have hdrop : (bs.drop width).length = count * width := by
      rw [List.length_drop]
      omega
    rw [chunks, List.take_append_of_le_length (by omega), List.drop_append_of_le_length (by omega),
      ih hdrop, chunks, List.cons_append]

end Bytes

namespace Point

theorem decode_append {bs : Bytes} (h : bs.length = n * t.bytes) (bs' : Bytes) :
    decode t n (bs ++ bs') = decode t n bs := by
  simp only [decode, Bytes.chunks_append h]

theorem decode_concat {bs bs' : Bytes} (h : bs.length = n * t.bytes) (h' : bs'.length = t.bytes) :
    decode t (n + 1) (bs ++ bs') = (decode t n bs).push (Coord.decode t bs') := by
  apply Vector.toArray_inj.mp
  simp only [decode, Bytes.chunks_concat h, List.take_of_length_le (Nat.le_of_eq h')]
  simp

end Point

namespace Reader

theorem take_eq (count : Nat) (bs : Bytes) : take count bs =
    if count ≤ bs.length then .ok (bs.take count, bs.drop count) else .error .endOfInput := by
  rw [take, Bytes.splitOff?]
  by_cases h : count ≤ bs.length
  · rw [if_pos (Bytes.reaches_iff.mpr h), if_pos h, List.splitAt_eq]
  · rw [if_neg (mt Bytes.reaches_iff.mp h), if_neg h]

theorem take_bind_congr {count : Nat} {f g : Bytes → Reader α}
    (h : ∀ bs, bs.length = count → f bs = g bs) : take count >>= f = take count >>= g := by
  funext bs
  have htake := take_eq count bs
  by_cases hle : count ≤ bs.length
  · rw [if_pos hle] at htake
    have hlen : (bs.take count).length = count := List.length_take_of_le hle
    rw [bind_of_ok htake, bind_of_ok htake, h _ hlen]
  · rw [if_neg hle] at htake
    rw [bind_of_error htake, bind_of_error htake]

theorem take_add_bind (count more : Nat) (f : Bytes → Reader α) :
    take (count + more) >>= f =
      take count >>= fun bs => take more >>= fun bs' => f (bs ++ bs') := by
  funext bs
  have hall := take_eq (count + more) bs
  have hfirst := take_eq count bs
  have hsecond := take_eq more (bs.drop count)
  rw [List.length_drop] at hsecond
  by_cases hle : count + more ≤ bs.length
  · rw [if_pos hle] at hall
    rw [if_pos (by omega)] at hfirst hsecond
    have hparts : bs.take (count + more) = bs.take count ++ (bs.drop count).take more :=
      List.take_add
    rw [bind_of_ok hall, bind_of_ok hfirst, bind_of_ok hsecond, hparts, List.drop_drop]
  · rw [if_neg hle] at hall
    rw [bind_of_error hall]
    by_cases hcount : count ≤ bs.length
    · rw [if_pos hcount] at hfirst
      rw [if_neg (by omega)] at hsecond
      rw [bind_of_ok hfirst, bind_of_error hsecond]
    · rw [if_neg hcount] at hfirst
      rw [bind_of_error hfirst]

end Reader

/-- A reader that can also be stopped by a fault. -/
abbrev CheckedReader := StateT Bytes (Except (Failure ReadError))

namespace CheckedReader

/-- A reader that has no faults. -/
def lift (r : Reader α) : CheckedReader α := fun bs => (r bs).mapError .error

/-- The result of an operation on what has been read. If it is a fault, the reader stops. -/
def require (x : Except Fault α) : CheckedReader α := fun bs =>
  (x.map fun a => (a, bs)).mapError .fault

def many (item : CheckedReader α) : Nat → CheckedReader (List α)
  | 0 => pure []
  | count + 1 => do
      let a ← item
      let rest ← many item count
      return a :: rest

def counted (item : CheckedReader α) : CheckedReader (List α) := do
  many item (← lift Reader.word).toNat

/-- A coordinate, decoded from the front of a buffer of eight bytes. -/
def coord (t : CoordType) : CheckedReader (Coord t) := do
  let bs ← lift (Reader.take t.bytes)
  require (Coord.read t (Bytes.padTo 8 bs))

def point (t : CoordType) : (n : Nat) → CheckedReader (Point t n)
  | 0 => pure #v[]
  | n + 1 => do
      let p ← point t n
      return p.push (← coord t)

def rect (t : CoordType) (n : Nat) : CheckedReader (Rect t n) := do
  let lo ← point t n
  let hi ← point t n
  return ⟨lo, hi⟩

def piece (t : CoordType) (n : Nat) : CheckedReader (Piece t n) := do
  let tag ← lift (Reader.nat 1)
  match PieceKind.ofTag? (UInt8.ofNat tag) with
  | none => lift (Reader.fail (.invalidLayoutType tag))
  | some .affine => do
      let bounds ← rect t n
      let base ← lift Reader.word
      let strides ← lift (Reader.take (8 * n))
      return ⟨bounds, ⟨base, Strides.decode n strides⟩⟩

/-- Overlaps are looked for among all rectangles, and the space is made of those with points. -/
def space (t : CoordType) (n : Nat) : CheckedReader (IndexSpace t n) := do
  let dense ← lift (Reader.nat 1)
  if dense ≠ 0 then return .dense (← rect t n)
  else
    let rects ← counted (rect t n)
    match firstOverlap? rects with
    | some (first, second) => lift (Reader.fail (.overlappingSparseRects first second))
    | none => require (IndexSpace.ofRects (rects.filter fun r => ¬ r.IsEmpty))

def layout (t : CoordType) (n : Nat) : CheckedReader (Layout t n) := do
  lift (readHeader t n)
  let bytesUsed ← lift Reader.word
  let alignment ← lift Reader.word
  let space ← space t n
  let lists ← counted (counted (piece t n))
  let fields ← lift (Reader.counted (readField lists.length))
  return { space, lists, fields := FieldMap.ofList fields, bytesUsed, alignment }

section Steps

variable {r : CheckedReader α} {f : α → CheckedReader β} {bs rest : Bytes} {a : α}

theorem bind_of_ok (h : r bs = .ok (a, rest)) : (r >>= f) bs = f a rest := by
  change (r bs >>= fun parts => f parts.1 parts.2) = _
  rw [h]
  rfl

theorem bind_of_error {e : Failure ReadError} (h : r bs = .error e) : (r >>= f) bs = .error e := by
  change (r bs >>= fun parts => f parts.1 parts.2) = _
  rw [h]
  rfl

theorem lift_of_ok {r : Reader α} (h : r bs = .ok (a, rest)) : lift r bs = .ok (a, rest) := by
  rw [lift, h]
  rfl

theorem lift_of_error {r : Reader α} {e : ReadError} (h : r bs = .error e) :
    lift r bs = .error (.error e) := by
  rw [lift, h]
  rfl

end Steps

theorem lift_bind (r : Reader α) (f : α → Reader β) :
    lift (r >>= f) = lift r >>= fun a => lift (f a) := by
  funext bs
  cases h : r bs with
  | error e => rw [lift_of_error (Reader.bind_of_error h), bind_of_error (lift_of_error h)]
  | ok parts =>
    rw [bind_of_ok (lift_of_ok h), lift, Reader.bind_of_ok h]
    rfl

theorem lift_pure (a : α) : lift (pure a) = pure a := rfl

theorem many_lift (r : Reader α) (count : Nat) :
    many (lift r) count = lift (Reader.many r count) := by
  induction count with
  | zero => rfl
  | succ count ih => simp only [many, Reader.many, lift_bind, ih, lift_pure]

theorem counted_lift (r : Reader α) : counted (lift r) = lift (Reader.counted r) := by
  simp only [counted, Reader.counted, lift_bind, many_lift]

theorem lift_take_bind_congr {count : Nat} {f g : Bytes → CheckedReader α}
    (h : ∀ bs, bs.length = count → f bs = g bs) :
    lift (Reader.take count) >>= f = lift (Reader.take count) >>= g := by
  funext bs
  have htake := Reader.take_eq count bs
  by_cases hle : count ≤ bs.length
  · rw [if_pos hle] at htake
    have hlen : (bs.take count).length = count := List.length_take_of_le hle
    rw [bind_of_ok (lift_of_ok htake), bind_of_ok (lift_of_ok htake), h _ hlen]
  · rw [if_neg hle] at htake
    rw [bind_of_error (lift_of_error htake), bind_of_error (lift_of_error htake)]

/-- The buffer is longer than any coordinate, so decoding from it is no fault. -/
theorem coord_eq (t : CoordType) :
    coord t = lift (Reader.take t.bytes >>= fun bs => pure (Coord.decode t bs)) := by
  have hfits : t.bytes ≤ 8 := by cases t <;> decide
  have hread : ∀ bs : Bytes, bs.length = t.bytes →
      Coord.read t (Bytes.padTo 8 bs) = .ok (Coord.decode t bs) := by
    intro bs hlen
    have hpadded : (Bytes.padTo 8 bs).length = 8 := Bytes.length_padTo (by omega)
    rw [Coord.read, if_pos (by omega), Bytes.padTo, List.take_left' hlen]
  rw [lift_bind]
  apply lift_take_bind_congr
  intro bs hlen
  rw [hread bs hlen]
  rfl

theorem point_eq (t : CoordType) (n : Nat) :
    point t n = lift (Reader.take (n * t.bytes) >>= fun bs => pure (Point.decode t n bs)) := by
  induction n with
  | zero =>
    have hnone : Reader.take (0 * t.bytes) >>= (fun bs => pure (Point.decode t 0 bs)) =
        pure #v[] := by
      funext bs
      have hzero : Reader.take (0 * t.bytes) bs = .ok ([], bs) := by
        rw [Nat.zero_mul]
        exact (Reader.takes_take List.length_nil).whole bs
      rw [Reader.bind_of_ok hzero]
      rfl
    rw [hnone]
    rfl
  | succ n ih =>
    have hparts : (Reader.take ((n + 1) * t.bytes) >>= fun bs => pure (Point.decode t (n + 1) bs)) =
        Reader.take (n * t.bytes) >>= fun bs => Reader.take t.bytes >>= fun bs' =>
          pure ((Point.decode t n bs).push (Coord.decode t bs')) := by
      rw [Nat.succ_mul, Reader.take_add_bind]
      apply Reader.take_bind_congr
      intro bs hlen
      apply Reader.take_bind_congr
      intro bs' hlen'
      rw [Point.decode_concat hlen hlen']
    rw [hparts, point, ih, coord_eq]
    simp only [lift_bind, bind_assoc, lift_pure, pure_bind]

theorem rect_eq (t : CoordType) (n : Nat) : rect t n = lift (readRect t n) := by
  have hsize : Rect.encodedSize t n = n * t.bytes + n * t.bytes := by
    rw [Rect.encodedSize, Nat.two_mul, Nat.add_mul]
  have hparts : readRect t n =
      Reader.take (n * t.bytes) >>= fun bs => Reader.take (n * t.bytes) >>= fun bs' =>
        pure ⟨Point.decode t n bs, Point.decode t n bs'⟩ := by
    rw [readRect, hsize, Reader.take_add_bind]
    apply Reader.take_bind_congr
    intro bs hlen
    apply Reader.take_bind_congr
    intro bs' _
    rw [Rect.decode, List.drop_left' hlen, Point.decode_append hlen]
  rw [hparts, rect, point_eq]
  simp only [lift_bind, bind_assoc, lift_pure, pure_bind]

theorem piece_eq (t : CoordType) (n : Nat) : piece t n = lift (readPiece t n) := by
  simp only [piece, readPiece, lift_bind, rect_eq]
  congr 1
  funext tag
  cases PieceKind.ofTag? (UInt8.ofNat tag) with
  | none => rfl
  | some kind =>
    cases kind
    simp only [lift_bind, lift_pure]

theorem ofRects_filter {rects : List (Rect t n)} (h : PairwiseDisjoint rects) :
    IndexSpace.ofRects (rects.filter fun r => ¬ r.IsEmpty) =
      .ok (IndexSpace.ofDisjoint rects h) := by
  have hkept : PairwiseDisjoint (rects.filter fun r => ¬ r.IsEmpty) := List.Pairwise.filter _ h
  rw [IndexSpace.ofRects, dif_pos hkept]
  simp only [IndexSpace.ofDisjoint, List.filter_filter, Bool.and_self]

theorem space_eq (t : CoordType) (n : Nat) : space t n = lift (readSpace t n) := by
  simp only [space, readSpace, lift_bind, rect_eq, counted_lift]
  congr 1
  funext dense
  split
  · rw [lift_bind]
    rfl
  · rw [lift_bind]
    congr 1
    funext rects
    split
    case h_1 hsome =>
      split
      case h_1 hsome' =>
        cases hsome.symm.trans hsome'
        rfl
      case h_2 hnone =>
        rw [hsome] at hnone
        contradiction
    case h_2 hnone =>
      split
      case h_1 hsome =>
        rw [hnone] at hsome
        contradiction
      case h_2 =>
        rw [ofRects_filter ((firstOverlap?_eq_none_iff rects).mp hnone)]
        rfl

theorem layout_eq (t : CoordType) (n : Nat) : layout t n = lift (Layout.read t n) := by
  simp only [layout, Layout.read, lift_bind, space_eq, piece_eq, counted_lift, lift_pure]

end CheckedReader

end RegionLayout
