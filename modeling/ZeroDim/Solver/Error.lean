import ZeroDim.Operator.Basic
import ZeroDim.Variables

/-! # Errors of the solver
-/

set_option autoImplicit false

namespace ZeroDim

inductive SolverError where
  | field (e : FieldError)
  | operator (e : OperatorError)
  | layout (e : LayoutError)
  /-- No level of windows has an invertible Hankel matrix. -/
  | singularHankel (dimension : Nat)
  /-- The numerator of the power sums has no inverse modulo the eliminant. -/
  | singularNumerator
  /-- The check failed after `verified` of `total` coordinates. -/
  | unverified (verified total : Nat)
  /-- The eliminant does not have the degree of the run that is replayed. -/
  | degreeMismatch (expected found : Nat)
deriving DecidableEq, Repr

def SolverError.message : SolverError → String
  | .field e => e.message
  | .operator e => s!"invalid multiplication matrix: {e.message}"
  | .layout e => s!"invalid variable layout: {e.message}"
  | .singularHankel dimension => s!"Hankel matrix of dimension {dimension} is singular"
  | .singularNumerator => "denominator is not invertible modulo the elimination polynomial"
  | .unverified verified total =>
    s!"only {verified} of {total} coordinates passed the radical check"
  | .degreeMismatch expected found =>
    s!"elimination polynomial has degree {found}, expected {expected}"

end ZeroDim
