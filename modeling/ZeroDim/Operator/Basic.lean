import ZeroDim.Fault
import ZeroDim.Field.Basic

/-! # Linear operators on residue vectors

An operator acts on vectors of a fixed dimension over any prime field that accepts it.  The image
is written over a given vector, entries that the operator does not reach staying as they are, and
a caller may lend a vector of scratch space that is handed back.
-/

set_option autoImplicit false

namespace ZeroDim

/-- The vectors that have to have a prescribed length or hold indices in range. -/
inductive OperatorPart where
  | denseBlock
  | denseTargets
  | unitTargets
  | unitSources
  | row
  | probe
deriving DecidableEq, Repr

def OperatorPart.label : OperatorPart → String
  | .denseBlock => "dense"
  | .denseTargets => "dense_idx"
  | .unitTargets => "trivial_idx"
  | .unitSources => "trivial_pos"
  | .row => "row"
  | .probe => "probe"

inductive OperatorError where
  | empty
  | lengthMismatch (what : OperatorPart) (expected found : Nat)
  | indexOutOfRange (what : OperatorPart) (index dimension : Nat)
  | notAPartition (coordinate : Nat)
  | unreducedEntry (row : Nat) (value modulus : UInt32)
deriving DecidableEq, Repr

def OperatorError.message : OperatorError → String
  | .empty => "matrix dimension must be positive"
  | .lengthMismatch what expected found =>
    s!"{what.label} has length {found}, expected {expected}"
  | .indexOutOfRange what index dimension =>
    s!"{what.label} contains index {index} outside of [0, {dimension})"
  | .notAPartition coordinate =>
    s!"output coordinate {coordinate} is not written exactly once"
  | .unreducedEntry row value modulus =>
    s!"dense entry {value.toNat} at row {row} is not reduced modulo {modulus.toNat}"

class LinearOperator (α : Type) where
  dimension : α → Nat
  /-- The vector `dst` overwritten with the image of `src`. -/
  apply : α → PrimeField → (src dst : Array UInt32) → Checked (Array UInt32)
  /-- The same with scratch space, which is handed back. -/
  applyWithScratch : α → PrimeField → (src dst scratch : Array UInt32) →
      Checked (Array UInt32 × Array UInt32) :=
    fun op F src dst scratch => do return (← apply op F src dst, scratch)
  /-- Whether the operator can be used over a field. -/
  checkField : α → PrimeField → Except OperatorError Unit := fun _ _ => .ok ()

instance {α β : Type} [LinearOperator α] [LinearOperator β] : LinearOperator (α ⊕ β) where
  dimension
    | .inl op => LinearOperator.dimension op
    | .inr op => LinearOperator.dimension op
  apply
    | .inl op => LinearOperator.apply op
    | .inr op => LinearOperator.apply op
  applyWithScratch
    | .inl op => LinearOperator.applyWithScratch op
    | .inr op => LinearOperator.applyWithScratch op
  checkField
    | .inl op => LinearOperator.checkField op
    | .inr op => LinearOperator.checkField op

def scatter : List (Nat × UInt32) → Array UInt32 → Checked (Array UInt32)
  | [], dst => .ok dst
  | (i, a) :: writes, dst => do scatter writes (← writeAt dst i a)

end ZeroDim
