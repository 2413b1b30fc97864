import RegionLayout.Program.Compile

/-!
# Layouts with a cached program

A layout keeps what the first compilation with the default options has led to, unless that was a
fault. A copy starts without it, and moving the layout drops it.
-/

namespace RegionLayout

structure CachedLayout (t : CoordType) (n : Nat) where
  layout : Layout t n
  program? : Option (Except CompileError (Program t n))

namespace CachedLayout

variable {t : CoordType} {n : Nat}

def ofLayout (layout : Layout t n) : CachedLayout t n := ⟨layout, none⟩

def copy (c : CachedLayout t n) : CachedLayout t n := ofLayout c.layout

def relocate (c : CachedLayout t n) (delta : UInt64) : CachedLayout t n :=
  ofLayout (c.layout.relocate delta)

/-- A copy, `delta` bytes further on. -/
def relocated (c : CachedLayout t n) (delta : UInt64) : CachedLayout t n := c.copy.relocate delta

/-- The layouts are the same, whatever has been compiled of them. -/
def Same (c c' : CachedLayout t n) : Prop := c.layout = c'.layout

instance (c c' : CachedLayout t n) : Decidable (c.Same c') :=
  inferInstanceAs (Decidable (c.layout = c'.layout))

/-- The default program, compiled now if it is not there yet. -/
def program (c : CachedLayout t n) :
    Except (Failure CompileError) (Program t n) × CachedLayout t n :=
  match c.program? with
  | some result => (result.mapError .error, c)
  | none =>
      match c.layout.defaultProgram with
      | .ok program => (.ok program, { c with program? := some (.ok program) })
      | .error (.error e) => (.error (.error e), { c with program? := some (.error e) })
      | .error (.fault f) => (.error (.fault f), c)

end CachedLayout

end RegionLayout
