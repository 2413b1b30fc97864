import RegionLayout.Program.Cursor

namespace RegionLayout

/-- What stands at a position: at most one of a split plane and a leaf. -/
structure Listed (t : CoordType) (n : Nat) where
  pos : Nat
  opcode? : Option Opcode
  split? : Option (SplitPlane t)
  leaf? : Option (Piece t n × Nat)
  deriving DecidableEq

namespace Cursor

variable {t : CoordType} {n : Nat}

def describe (t : CoordType) (n : Nat) (c : Cursor) : Except Fault (Listed t n) :=
  (c.leaf? t n).map fun leaf? => ⟨c.pos, c.opcode?, c.splitPlane? t, leaf?⟩

/-- The cursor after the instruction here, if its opcode is known and the program goes on. -/
def next? (t : CoordType) (n : Nat) (c : Cursor) : Option Cursor :=
  c.opcode?.bind fun o =>
    (skip? c.code (o.size t n)).map fun rest => ⟨c.pos + o.size t n, rest⟩

theorem length_lt_of_next? {c c' : Cursor} (h : c.next? t n = some c') :
    c'.code.length < c.code.length := by
  obtain ⟨o, _, h⟩ := Option.bind_eq_some_iff.mp h
  obtain ⟨rest, hrest, rfl⟩ := Option.map_eq_some_iff.mp h
  exact length_lt_of_skip? hrest (o.size_pos t n)

/-- The instructions from the cursor on, up to the end of the program or an unknown opcode. -/
def listing (t : CoordType) (n : Nat) (c : Cursor) : Except Fault (List (Listed t n)) :=
  match c.describe t n with
  | .error f => .error f
  | .ok first =>
      match _h : c.next? t n with
      | none => .ok [first]
      | some c' => (c'.listing t n).map (first :: ·)
termination_by c.code.length
decreasing_by exact length_lt_of_next? ‹_›

end Cursor

end RegionLayout
