import ZeroDim.Operator.Basic

/-! # Two vectors that trade places

An operator reads the current vector and writes over the other one, which then becomes the
current vector.  Entries that the operator does not reach keep what they held two steps ago.
-/

set_option autoImplicit false

namespace ZeroDim

/-- The current vector, the one to be written next, and scratch space for the operator. -/
structure VectorPair where
  current : Array UInt32
  next : Array UInt32
  scratch : Array UInt32
deriving DecidableEq

namespace VectorPair

def zeros (n : Nat) : VectorPair := ⟨Array.replicate n 0, Array.replicate n 0, #[]⟩

def resize (v : VectorPair) (n : Nat) : VectorPair :=
  { v with current := Array.replicate n 0, next := Array.replicate n 0 }

def swap (v : VectorPair) : VectorPair := { v with current := v.next, next := v.current }

def set (v : VectorPair) (i : Nat) (a : UInt32) : Checked VectorPair := do
  return { v with current := ← writeAt v.current i a }

def step {α : Type} [LinearOperator α] (v : VectorPair) (op : α) (F : PrimeField) :
    Checked VectorPair := do
  let (next, scratch) ← LinearOperator.applyWithScratch op F v.current v.next v.scratch
  return swap { v with next := next, scratch := scratch }

end VectorPair

end ZeroDim
