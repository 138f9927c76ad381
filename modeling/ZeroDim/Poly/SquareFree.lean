import ZeroDim.Poly.Bezout

/-! # Square-free decomposition

A polynomial is the product of its leading coefficient and of powers of monic square-free
polynomials without common divisors.  The factors with a multiplicity prime to the
characteristic are peeled off one multiplicity after the other, starting from the common divisor
with the derivative; what is left is a `p`-th power, and its root is decomposed in turn.

Peeling stops when a step no longer shortens the two polynomials it works on, and the descent
when the root is not shorter than the polynomial it came from.  Neither happens for a polynomial
other than zero.
-/

set_option autoImplicit false

namespace ZeroDim

structure SquareFreeFactor where
  factor : Poly
  multiplicity : Nat
deriving DecidableEq

structure SquareFreeDecomposition where
  unit : UInt32
  factors : List SquareFreeFactor
deriving DecidableEq

namespace Poly

/-- The factors of multiplicity `i * scale`, `(i + 1) * scale`, ... and the part that is left.
`w` is the product of the distinct factors that remain, and `c` the product of their further
powers and of the left part. -/
def peel (scale i : Nat) (w c : Poly) : List SquareFreeFactor × Poly :=
  if w.length ≤ 1 then ([], c)
  else
    let y := gcd w c
    let z := w / y
    let c' := c / y
    let (factors, rest) :=
      if y.length + c'.length < w.length + c.length then peel scale (i + 1) y c' else ([], c')
    (if 1 < z.length then ⟨z, i * scale⟩ :: factors else factors, rest)
termination_by w.length + c.length

/-- The factors of a monic polynomial, with multiplicities counted in steps of `scale`. -/
def factorsFrom (scale : Nat) (f : Poly) : List SquareFreeFactor :=
  let c := gcd f f.derivative
  let (factors, rest) := peel scale 1 (f / c) c
  if rest.length ≤ 1 then factors
  else
    let root := rest.frobeniusRoot
    if root.length < f.length then
      factors ++ factorsFrom (scale * rest.field.modulus.toNat) root
    else factors
termination_by f.length

def squareFreeDecomposition (f : Poly) : SquareFreeDecomposition :=
  match f.leadingCoeff? with
  | none => ⟨0, []⟩
  | some unit => ⟨unit, if 1 < f.length then factorsFrom 1 f.monic else []⟩

/-- Whether no square of a polynomial of positive degree divides `f`; constants count. -/
def isSquareFree (f : Poly) : Bool :=
  if f.length ≤ 1 then true
  else
    let d := f.derivative
    if d.isZero then false else (gcd f d).isOne

end Poly

namespace SquareFreeDecomposition

def isSquareFree (d : SquareFreeDecomposition) : Bool :=
  d.factors.all fun s => s.multiplicity == 1

def radical (d : SquareFreeDecomposition) (F : PrimeField) : Poly :=
  d.factors.foldl (fun acc s => acc * s.factor) (Poly.one F)

def toPoly (d : SquareFreeDecomposition) (F : PrimeField) : Poly :=
  d.factors.foldl (fun acc s => acc * s.factor ^ s.multiplicity) (Poly.constant F d.unit)

end SquareFreeDecomposition

/-- The product of the distinct monic irreducible factors, and zero for zero. -/
def Poly.radical (f : Poly) : Poly :=
  if f.isZero then f else f.squareFreeDecomposition.radical f.field

end ZeroDim
