import ZeroDim.Parametrization.Basic
import ZeroDim.Poly.Division
import ZeroDim.Variables

/-! # Substitution into the linear equations

The coordinate of a linear variable follows from its equation and the coordinates of the
variables above it.  The equations are taken from the highest variable down, so that every
coordinate they mention is known, and each result is reduced modulo the eliminant.
-/

set_option autoImplicit false

namespace ZeroDim.Parametrization

def subtractTerms (p : Parametrization) (row : Array UInt32) : List Nat → Poly → Checked Poly
  | [], acc => .ok acc
  | j :: js, acc => do
    let c ← entryAt row j
    if c = 0 then p.subtractTerms row js acc
    else p.subtractTerms row js (acc - (← p.coordinate j).scale c)

/-- The coordinate of `x_k` that its equation `row` determines. -/
def solveEquation (p : Parametrization) (row : Array UInt32) (k : Nat) : Checked Poly := do
  let n := p.variableCount
  let rhs := Poly.ofCoeffs p.field #[← entryAt row n, ← entryAt row (n - 1)]
  let rest ← p.subtractTerms row ((List.range (n - 1)).drop (k + 1)) rhs
  rest.mod? p.eliminant

def fillLinear (layout : VariableLayout) : List (Nat × Nat) → Parametrization →
    Checked Parametrization
  | [], p => .ok p
  | (k, r) :: rest, p => do
    fillLinear layout rest (← p.withCoordinate k (← p.solveEquation (← layout.equation r) k))

/-- Fills in the coordinates of all linear variables.  Without eliminant there is nothing to
do. -/
def substituteLinear (p : Parametrization) (layout : VariableLayout) : Checked Parametrization :=
  if p.eliminant.isZero then .ok p
  else fillLinear layout layout.linearVariables.zipIdx.reverse p

end ZeroDim.Parametrization
