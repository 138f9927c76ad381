import ZeroDim.Krylov.Table
import ZeroDim.Krylov.Vectors
import ZeroDim.Variables

/-! # Krylov sequences

From a probe `v` and an operator `M` of dimension `n`, the vectors `M ^ i v` are computed for
`i < 2 n`, and of each one only a few entries are kept:

* column zero of the terms holds entry zero of all `2 n` vectors, the power sums;
* the column of a tracked variable holds the entry at its basis index, for `i ≤ n`;
* the same column of the squares holds the entry at the index of its square, for `i < n`, when
  squares are asked for.

All entries that are not kept are zero, whatever the record held before.
-/

set_option autoImplicit false

namespace ZeroDim

structure KrylovRecord where
  vectors : VectorPair
  terms : Table
  squares : Table
  dimension : Nat
deriving DecidableEq

namespace KrylovRecord

def empty : KrylovRecord := ⟨.zeros 0, .empty, .empty, 0⟩

def prepare (k : KrylovRecord) (dimension width : Nat) (withSquares : Bool) : KrylovRecord where
  vectors := k.vectors.resize dimension
  terms := .zeros (2 * dimension) width
  squares := .zeros (if withSquares then dimension else 0) width
  dimension := dimension

def sequence (k : KrylovRecord) : Checked (Array UInt32) := k.terms.column 0 k.terms.rows

def copyEntry (v : Array UInt32) (i column index : Nat) (t : Table) : Checked Table := do
  t.set i column (← entryAt v index)

def copyTerms (v : Array UInt32) (i : Nat) : List TrackedVariable → Table → Checked Table
  | [], t => .ok t
  | x :: tracked, t => do copyTerms v i tracked (← copyEntry v i x.column x.basisIndex t)

def copySquares (v : Array UInt32) (i : Nat) : List TrackedVariable → Table → Checked Table
  | [], t => .ok t
  | x :: tracked, t =>
    match x.squareIndex with
    | some square => do copySquares v i tracked (← copyEntry v i x.column square t)
    | none => copySquares v i tracked t

def keep (k : KrylovRecord) (tracked : List TrackedVariable) (i : Nat) : Checked KrylovRecord := do
  let v := k.vectors.current
  let terms ← copyEntry v i 0 0 k.terms
  let terms ← if i ≤ k.dimension then copyTerms v i tracked terms else pure terms
  let squares ← if i < k.squares.rows then copySquares v i tracked k.squares else pure k.squares
  return { k with terms := terms, squares := squares }

section Run
variable {α : Type} [LinearOperator α] (op : α) (F : PrimeField) (tracked : List TrackedVariable)

/-- `n` steps from step `i` on; the vector of step zero is there already. -/
def steps : Nat → Nat → KrylovRecord → Checked KrylovRecord
  | 0, _, k => .ok k
  | n + 1, i, k => do
    let vectors ← if i = 0 then pure k.vectors else k.vectors.step op F
    steps n (i + 1) (← keep { k with vectors := vectors } tracked i)

/-- The record of the sequence that starts with the residues of `probe`. -/
def generate (probe : Array UInt32) (withSquares : Bool) (k : KrylovRecord) :
    Checked KrylovRecord :=
  let n := LinearOperator.dimension op
  if probe.size = n then
    let k := k.prepare n (1 + tracked.length) withSquares
    let vectors := { k.vectors with current := probe.map F.residue }
    steps op F tracked (2 * n) 0 { k with vectors := vectors }
  else .error .probeLength

end Run

end KrylovRecord

end ZeroDim
