import ZeroDim.Fault

/-! # Tables of words

A table holds its rows one after the other.  A cell is addressed by row and column, and only the
resulting position has to exist: a column beyond the width reaches into the rows that follow.
-/

set_option autoImplicit false

namespace ZeroDim

/-- A table with one row per step of a sequence. -/
structure Table where
  rows : Nat
  width : Nat
  cells : Array UInt32
deriving DecidableEq

namespace Table

def empty : Table := ⟨0, 0, #[]⟩

def zeros (rows width : Nat) : Table := ⟨rows, width, Array.replicate (rows * width) 0⟩

def get (t : Table) (i j : Nat) : Checked UInt32 := entryAt t.cells (i * t.width + j)

def set (t : Table) (i j : Nat) (a : UInt32) : Checked Table := do
  return { t with cells := ← writeAt t.cells (i * t.width + j) a }

def column (t : Table) (j length : Nat) : Checked (Array UInt32) :=
  if length ≤ t.rows then do
    return (← (List.range length).mapM fun i => t.get i j).toArray
  else .error (.columnTooLong length t.rows)

def row (t : Table) (i : Nat) : Array UInt32 := t.cells.extract (i * t.width) ((i + 1) * t.width)

def toRows (t : Table) : List (Array UInt32) := (List.range t.rows).map t.row

end Table

end ZeroDim
