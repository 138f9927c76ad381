import ZeroDim.KeyEquation
import ZeroDim.Poly.SquareFree
import ZeroDim.Variables

/-! # The eliminant

The minimal polynomial of the power sums vanishes at the values of the separating variable; its
radical, the eliminant, has each of them once.  When the minimal polynomial is square-free and has
the degree of the quotient, the system is in *shape position*: every variable is a polynomial in
`t`.

When every variable is linear the quotient is a point, and the eliminant is read off the last
equation.
-/

set_option autoImplicit false

namespace ZeroDim

structure Elimination where
  /-- The monic square-free polynomial with the values of `t` as roots. -/
  eliminant : Poly
  minimal : Poly
  shapePosition : Bool
deriving DecidableEq

namespace Elimination

def degree (e : Elimination) : Nat := e.eliminant.natDegree

def ofMinimal (minimal : Poly) (dimension : Nat) : Elimination :=
  if minimal.natDegree = dimension ∧ minimal.isSquareFree = true then ⟨minimal, minimal, true⟩
  else ⟨minimal.radical, minimal, false⟩

def ofEquations (F : PrimeField) (layout : VariableLayout) : Checked Elimination := do
  let row ← layout.equation (layout.parts.equations - 1)
  let eliminant := Poly.ofCoeffs F #[← entryAt row layout.variableCount, 1]
  return ⟨eliminant, eliminant, true⟩

/-- The elimination of `2 * dimension` power sums, with the key equation left behind. -/
def ofSequence (key : KeyEquation) (sequence : Array UInt32) (dimension : Nat)
    (layout : VariableLayout) : Checked (Elimination × KeyEquation) :=
  if layout.allLinear then do
    return (← ofEquations key.field layout, key)
  else
    let key := (key.reset.addPoints sequence).solve
    .ok (ofMinimal key.minimalPolynomial dimension, key)

end Elimination

end ZeroDim
