import RegionLayout.Coord
import RegionLayout.Text

namespace RegionLayout

abbrev Point (t : CoordType) (n : Nat) := Vector (Coord t) n

/-- Bytes to step per unit of each coordinate, modulo `2 ^ 64`. -/
abbrev Strides (n : Nat) := Vector UInt64 n

/-- The numbered dimension, which has to be one of the `n`. -/
def dimension (n d : Nat) : Except Fault (Fin n) :=
  if h : d < n then .ok ⟨d, h⟩ else .error .indexOutOfBounds

theorem get_ofFn {α : Type} {n : Nat} (f : Fin n → α) (d : Fin n) :
    (Vector.ofFn f).get d = f d := by
  show (Vector.ofFn f)[d.val] = _
  simp

def replaceAt {α : Type} {n : Nat} (v : Vector α n) (d : Fin n) (a : α) : Vector α n :=
  Vector.ofFn fun e => if e = d then a else v.get e

@[simp] theorem get_replaceAt {α : Type} {n : Nat} (v : Vector α n) (d e : Fin n) (a : α) :
    (replaceAt v d a).get e = if e = d then a else v.get e := by
  exact get_ofFn _ e

namespace Point

variable {t : CoordType} {n : Nat}

def splat (n : Nat) (c : Coord t) : Point t n := Vector.replicate n c

@[simp] theorem get_splat (c : Coord t) (d : Fin n) : (splat n c).get d = c := by
  show (Vector.replicate n c)[d.val] = c
  simp

def zero (t : CoordType) (n : Nat) : Point t n := splat n (Coord.wrap t 0)

/-- The lesser coordinate in each dimension. -/
def meet (p q : Point t n) : Point t n := Vector.ofFn fun d => min (p.get d) (q.get d)

/-- The greater coordinate in each dimension. -/
def join (p q : Point t n) : Point t n := Vector.ofFn fun d => max (p.get d) (q.get d)

@[simp] theorem get_meet (p q : Point t n) (d : Fin n) :
    (meet p q).get d = min (p.get d) (q.get d) := by
  exact get_ofFn _ d

@[simp] theorem get_join (p q : Point t n) (d : Fin n) :
    (join p q).get d = max (p.get d) (q.get d) := by
  exact get_ofFn _ d

/-- The distance in bytes from the origin to `p`, in wrapping word arithmetic. -/
def dot (p : Point t n) (strides : Strides n) : UInt64 :=
  (List.ofFn fun d : Fin n => strides.get d * (p.get d).toWord).foldr (· + ·) 0

/-- A point is written `<1,-2>`. -/
def text (p : Point t n) : String := "<" ++ joined "," (p.toList.map toString) ++ ">"

def encode (p : Point t n) : Bytes := p.toList.flatMap Coord.encode

def decode (t : CoordType) (n : Nat) (bs : Bytes) : Point t n :=
  ⟨((Bytes.chunks t.bytes n bs).map (Coord.decode t)).toArray, by simp⟩

theorem length_encode (p : Point t n) : p.encode.length = n * t.bytes := by
  have h : ∀ l : List (Coord t), (l.flatMap Coord.encode).length = l.length * t.bytes := by
    intro l
    induction l with
    | nil => simp
    | cons c l ih =>
      rw [List.flatMap_cons, List.length_append, ih, c.length_encode, List.length_cons,
        Nat.succ_mul, Nat.add_comm]
  rw [encode, h, Vector.length_toList]

theorem decode_encode (p : Point t n) (rest : Bytes) : decode t n (p.encode ++ rest) = p := by
  have hchunks : Bytes.chunks t.bytes n (p.encode ++ rest) = p.toList.map Coord.encode := by
    have h := Bytes.chunks_flatMap Coord.encode p.toList (fun c _ => c.length_encode) rest
    rwa [Vector.length_toList] at h
  have hmap : (p.toList.map Coord.encode).map (Coord.decode t) = p.toList := by
    rw [List.map_map]
    conv => rhs; rw [← List.map_id p.toList]
    exact List.map_congr_left fun c _ => c.decode_encode
  apply Vector.toArray_inj.mp
  show ((Bytes.chunks t.bytes n (p.encode ++ rest)).map (Coord.decode t)).toArray = p.toArray
  rw [hchunks, hmap]
  rfl

end Point

def Strides.encode {n : Nat} (s : Strides n) : Bytes := s.toList.flatMap Bytes.ofWord

def Strides.decode (n : Nat) (bs : Bytes) : Strides n :=
  ⟨((Bytes.chunks 8 n bs).map Bytes.toWord).toArray, by simp⟩

theorem Strides.length_encode {n : Nat} (s : Strides n) : s.encode.length = n * 8 := by
  have h : ∀ l : List UInt64, (l.flatMap Bytes.ofWord).length = l.length * 8 := by
    intro l
    induction l with
    | nil => simp
    | cons w l ih =>
      rw [List.flatMap_cons, List.length_append, ih, Bytes.length_ofWord, List.length_cons,
        Nat.succ_mul, Nat.add_comm]
  rw [encode, h, Vector.length_toList]

theorem Strides.decode_encode {n : Nat} (s : Strides n) (rest : Bytes) :
    Strides.decode n (s.encode ++ rest) = s := by
  have hchunks : Bytes.chunks 8 n (s.encode ++ rest) = s.toList.map Bytes.ofWord := by
    have h := Bytes.chunks_flatMap Bytes.ofWord s.toList (fun w _ => Bytes.length_ofWord w) rest
    rwa [Vector.length_toList] at h
  have hmap : (s.toList.map Bytes.ofWord).map Bytes.toWord = s.toList := by
    rw [List.map_map]
    conv => rhs; rw [← List.map_id s.toList]
    exact List.map_congr_left fun w _ => Bytes.toWord_ofWord w
  apply Vector.toArray_inj.mp
  show ((Bytes.chunks 8 n (s.encode ++ rest)).map Bytes.toWord).toArray = s.toArray
  rw [hchunks, hmap]
  rfl

/-- Strides are written `<4,16>`. -/
def Strides.text {n : Nat} (s : Strides n) : String :=
  "<" ++ joined "," (s.toList.map toString) ++ ">"

end RegionLayout
