import RegionLayout.Proofs.Program.Emission

namespace RegionLayout

variable {t : CoordType} {n : Nat} {p : Point t n}

/-- Where an instruction sends a point: to its leaf, so many units ahead, or nowhere. -/
inductive Move (t : CoordType) (n : Nat) where
  | done (leaf : Piece t n)
  | ahead (units : Nat) (pos : 0 < units)
  | stuck

namespace Move

def jump (delta : Nat) : Move t n := if h : 0 < delta then .ahead delta h else .stuck

/-- The step that the move is in the code it starts from. -/
def follow (code : Bytes) : Move t n → Step t n
  | .done leaf => .done leaf
  | .ahead units _ => (jump? code units).elim .stuck .goto
  | .stuck => .stuck

theorem follow_jump (code : Bytes) (delta : Nat) :
    (jump delta : Move t n).follow code = (jump? code delta).elim .stuck .goto := by
  rw [jump]
  split
  case isTrue => rfl
  case isFalse h =>
    rw [jump?, if_pos (Nat.eq_zero_of_not_pos h)]
    rfl

end Move

def move (code : Bytes) (p : Point t n) : Except Fault (Move t n) :=
  match opcodeAt? code with
  | none => .ok .stuck
  | some .splitPlane =>
      match splitPlaneAt? t code with
      | none => .ok .stuck
      | some s =>
          if h : s.dim.toNat < n then
            .ok (if p.get ⟨s.dim.toNat, h⟩ < s.plane then .jump (splitPlaneSize / instructionUnit)
              else .jump s.delta.toNat)
          else .ok .stuck
  | some .affinePiece =>
      match leafAt? t n code with
      | .error f => .error f
      | .ok none => .ok .stuck
      | .ok (some (leaf, delta)) => .ok (if p ∈ leaf.bounds then .done leaf else .jump delta)

theorem step_eq_follow (code : Bytes) (p : Point t n) :
    step code p = (move code p).map (Move.follow code) := by
  rw [step, move]
  cases opcodeAt? code with
  | none => rfl
  | some o =>
    cases o with
    | splitPlane =>
      cases splitPlaneAt? t code with
      | none => rfl
      | some s =>
        dsimp only
        split
        case isTrue h =>
          by_cases hp : p.get ⟨s.dim.toNat, h⟩ < s.plane
          · rw [if_pos hp, if_pos hp, Except.map, Move.follow_jump]
            rfl
          · rw [if_neg hp, if_neg hp, Except.map, Move.follow_jump]
        case isFalse => rfl
    | affinePiece =>
      cases leafAt? t n code with
      | error f => rfl
      | ok leaf? =>
        cases leaf? with
        | none => rfl
        | some leaf =>
          dsimp only
          by_cases hp : p ∈ leaf.1.bounds
          · rw [if_pos hp, if_pos hp]
            rfl
          · rw [if_neg hp, if_neg hp, Except.map, Move.follow_jump]

namespace Cursor

variable {program : Bytes} {pos units : Nat} {c : Cursor}

theorem at?_eq_some (h : at? program pos = some c) :
    instructionUnit ∣ pos ∧ pos + 4 ≤ program.length ∧ c = ⟨pos, program.drop pos⟩ := by
  rw [at?] at h
  split at h
  case isTrue hpos =>
    exact ⟨Nat.dvd_of_mod_eq_zero hpos.1, Bytes.reaches_iff.mp hpos.2, (Option.some.inj h).symm⟩
  case isFalse => contradiction

/-- The cursor so many units further on, if an instruction word is left there. -/
def ahead? (c : Cursor) (units : Nat) : Option Cursor :=
  (jump? c.code units).map fun rest => ⟨c.pos + units * instructionUnit, rest⟩

theorem length_lt_of_ahead? {c' : Cursor} (h : c.ahead? units = some c') :
    c'.code.length < c.code.length := by
  obtain ⟨rest, hrest, rfl⟩ := Option.map_eq_some_iff.mp h
  exact length_lt_of_jump? hrest

theorem at?_ahead (h : at? program pos = some c) (hunits : 0 < units) :
    at? program (pos + units * instructionUnit) = c.ahead? units := by
  obtain ⟨hpos, _, rfl⟩ := at?_eq_some h
  have hmod : (pos + units * instructionUnit) % instructionUnit = 0 :=
    Nat.mod_eq_zero_of_dvd (Nat.dvd_add hpos (Nat.dvd_mul_left _ _))
  have hreach : Bytes.reaches (pos + units * instructionUnit + 4) program =
      Bytes.reaches 4 (program.drop (pos + units * instructionUnit)) := by
    rw [Bool.eq_iff_iff, Bytes.reaches_iff, Bytes.reaches_iff, List.length_drop]
    omega
  rw [at?, ahead?, jump?, if_neg (Nat.ne_of_gt hunits), skip?, hreach, List.drop_drop]
  by_cases hrest : Bytes.reaches 4 (program.drop (pos + units * instructionUnit))
  · rw [if_pos ⟨hmod, hrest⟩, if_pos hrest]
    rfl
  · rw [if_neg fun h => hrest h.2, if_neg hrest]
    rfl

theorem lookup_eq (p : Point t n) (c : Cursor) :
    c.lookup p = match move c.code p with
      | .error f => .error f
      | .ok (.done leaf) => .ok (some leaf)
      | .ok .stuck => .ok none
      | .ok (.ahead units _) => (c.ahead? units).elim (.ok none) fun c' => c'.lookup p := by
  have hstep := step_eq_follow c.code p
  rw [lookup]
  split
  case h_1 f hmove =>
    rw [hmove] at hstep
    exact evaluate_of_error hstep
  case h_2 leaf hmove =>
    rw [hmove] at hstep
    exact evaluate_of_done hstep
  case h_3 hmove =>
    rw [hmove] at hstep
    exact evaluate_of_stuck hstep
  case h_4 units _ hmove =>
    rw [hmove, Except.map, Move.follow] at hstep
    rw [ahead?]
    cases hjump : jump? c.code units with
    | none =>
      rw [hjump] at hstep
      exact evaluate_of_stuck hstep
    | some rest =>
      rw [hjump] at hstep
      exact evaluate_of_goto hstep

end Cursor

/-- Evaluation in terms of positions in the whole program. -/
def walk (program : Bytes) (pos : Nat) (p : Point t n) : Except Fault (Option (Piece t n)) :=
  match _hat : Cursor.at? program pos with
  | none => .ok none
  | some c =>
      match move c.code p with
      | .error f => .error f
      | .ok (.done leaf) => .ok (some leaf)
      | .ok .stuck => .ok none
      | .ok (.ahead units _) => walk program (pos + units * instructionUnit) p
termination_by program.length - pos
decreasing_by
  have hpos := (Cursor.at?_eq_some ‹_›).2.1
  simp only [instructionUnit]
  omega

theorem walk_of_at?_none {program : Bytes} {pos : Nat} (h : Cursor.at? program pos = none) :
    walk program pos p = .ok none := by
  rw [walk]
  split <;> simp_all only [reduceCtorEq]

/-- Looking a point up from a cursor is walking through the program by positions. -/
theorem walk_eq_lookup {program : Bytes} {pos : Nat} {c : Cursor}
    (h : Cursor.at? program pos = some c) : walk program pos p = c.lookup p := by
  rw [walk, c.lookup_eq]
  split
  case h_1 hnone =>
    rw [h] at hnone
    contradiction
  case h_2 c' hc' =>
    cases h.symm.trans hc'
    split
    case h_1 => rfl
    case h_2 => rfl
    case h_3 => rfl
    case h_4 units hunits hmove =>
      have hahead := Cursor.at?_ahead h hunits
      cases hnext : c.ahead? units with
      | none => exact walk_of_at?_none (hahead.trans hnext)
      | some c' => exact walk_eq_lookup (hahead.trans hnext)
termination_by program.length - pos
decreasing_by
  have hpos := (Cursor.at?_eq_some h).2.1
  simp only [instructionUnit]
  omega

end RegionLayout
