import ZeroDim.Fault
import ZeroDim.Poly.Ring

/-! # Rational parametrizations

The solutions of a zero-dimensional system in `x_0, ..., x_{n-1}` with separating variable
`t = x_{n-1}` are written as

  `eliminant(t) = 0`,  `x_i = coordinates[i](t) / denominator(t)` for `i < n - 1`.
-/

set_option autoImplicit false

namespace ZeroDim

structure Parametrization where
  field : PrimeField
  variableCount : Nat
  eliminant : Poly
  denominator : Poly
  /-- The numerators of `x_0, ..., x_{n-2}`. -/
  coordinates : Array Poly
  size_coordinates : coordinates.size = variableCount - 1
deriving DecidableEq

namespace Parametrization

def blank (F : PrimeField) (variableCount : Nat) : Parametrization where
  field := F
  variableCount := variableCount
  eliminant := .zero F
  denominator := .one F
  coordinates := Array.replicate (variableCount - 1) (.zero F)
  size_coordinates := by simp

def withEliminant (p : Parametrization) (eliminant : Poly) : Parametrization :=
  { p with eliminant := eliminant }

def coordinate (p : Parametrization) (i : Nat) : Checked Poly := entryAt p.coordinates i

def withCoordinate (p : Parametrization) (i : Nat) (a : Poly) : Checked Parametrization :=
  if h : i < p.coordinates.size then
    .ok { p with
      coordinates := p.coordinates.set i a h
      size_coordinates := by rw [Array.size_set, p.size_coordinates] }
  else .error .outOfRange

def moveTo (p : Parametrization) (F : PrimeField) : Parametrization where
  field := F
  variableCount := p.variableCount
  eliminant := p.eliminant.moveTo F
  denominator := p.denominator.moveTo F
  coordinates := p.coordinates.map fun a => a.moveTo F
  size_coordinates := by rw [Array.size_map, p.size_coordinates]

/-- The point `(x_0, ..., x_{n-1})` at a value of `t` where the denominator does not vanish. -/
def pointAt? (p : Parametrization) (t : UInt32) : Option (Array UInt32) :=
  (p.field.inv? (p.denominator.eval t)).map fun d =>
    (p.coordinates.map fun a => p.field.mul (a.eval t) d).push (p.field.residue t)

/-- The polynomials in the order in which they are written: eliminant, denominator, then the
coordinates from `x_{n-2}` down to `x_0`. -/
def blocks (p : Parametrization) : List Poly :=
  p.eliminant :: p.denominator :: p.coordinates.toList.reverse

end Parametrization

end ZeroDim
