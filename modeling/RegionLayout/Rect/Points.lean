import RegionLayout.Rect.Basic

/-!
# Walking a rectangle

Each step computes the point after the current one before handing the current one out, so a fault
in that computation withholds the point it started from.
-/

namespace RegionLayout

/-- The points visited by a walk, and the fault that ended it early, if any. -/
structure Walk (t : CoordType) (n : Nat) where
  points : List (Point t n)
  fault? : Option Fault

namespace Rect

variable {t : CoordType} {n : Nat}

/-- The first dimension along which `p` is not yet at the upper corner. -/
def openDimension? (r : Rect t n) (p : Point t n) : Option (Fin n) :=
  (List.finRange n).find? fun d => decide (p.get d < r.hi.get d)

/-- The point visited after `p`: one step along its first open dimension, the dimensions before
it back at the lower corner. There is none after the upper corner. -/
def following (r : Rect t n) (p : Point t n) : Except Fault (Option (Point t n)) :=
  match r.openDimension? p with
  | none => .ok none
  | some d => do
      let stepped ← (p.get d).successor
      return some (Vector.ofFn fun e =>
        if e < d then r.lo.get e else if e = d then stepped else p.get e)

/-- At most `limit` points of the walk that goes on at `p?`. -/
def walkFrom (r : Rect t n) : Nat → Option (Point t n) → Walk t n
  | 0, _ => ⟨[], none⟩
  | _ + 1, none => ⟨[], none⟩
  | limit + 1, some p =>
      match r.following p with
      | .error f => ⟨[], some f⟩
      | .ok next =>
          let rest := r.walkFrom limit next
          ⟨p :: rest.points, rest.fault?⟩

/-- Where a walk starts: at the lower corner, unless the rectangle has no point. -/
def firstPoint? (r : Rect t n) : Option (Point t n) := if r.IsEmpty then none else some r.lo

def walkUpTo (r : Rect t n) (limit : Nat) : Walk t n := r.walkFrom limit r.firstPoint?

/-- All points of the rectangle, each once. -/
def walk (r : Rect t n) : Walk t n := r.walkUpTo r.count

end Rect

namespace Walk

variable {t : CoordType} {n : Nat}

def completed (w : Walk t n) : Except Fault (List (Point t n)) :=
  match w.fault? with
  | none => .ok w.points
  | some f => .error f

/-- Applies a step that may fault and carries a state to each visited point in turn. The first
fault, of a step or of the walk itself, ends the run; the state keeps what was done before it. -/
def run {σ α : Type} (w : Walk t n) (step : σ → Point t n → Except Fault α × σ) (s : σ) :
    Except Fault (List α) × σ :=
  go w.points s
where
  go : List (Point t n) → σ → Except Fault (List α) × σ
    | [], s =>
        match w.fault? with
        | none => (.ok [], s)
        | some f => (.error f, s)
    | p :: rest, s =>
        match step s p with
        | (.error f, s') => (.error f, s')
        | (.ok a, s') =>
            match go rest s' with
            | (.ok as, s'') => (.ok (a :: as), s'')
            | (.error f, s'') => (.error f, s'')

end Walk

end RegionLayout
