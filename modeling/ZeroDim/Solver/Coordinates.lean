import ZeroDim.Elimination
import ZeroDim.Hankel.Inverse
import ZeroDim.Krylov.Record
import ZeroDim.Numerator
import ZeroDim.Solver.Outcome

/-! # The coordinates of the tracked variables

In shape position the coefficients of a coordinate solve a Hankel system with the stream of the
variable as right-hand side.  Otherwise a coordinate is a quotient of numerators modulo the
eliminant, which may be checked for every variable with a known square.
-/

set_option autoImplicit false

namespace ZeroDim

section Shape
variable (record : KrylovRecord) (inverse : HankelInverse)

def fillFromHankel : List TrackedVariable → Parametrization → Checked Parametrization
  | [], p => .ok p
  | x :: tracked, p => do
    let stream ← record.terms.column x.column (record.dimension + 1)
    let solution ← (← inverse.solveStream stream).mod? p.eliminant
    fillFromHankel tracked (← p.withCoordinate x.index solution)

end Shape

section Quotients
variable (record : KrylovRecord) (minimal : Poly)

def fillFromNumerators (inverse : Poly) :
    List TrackedVariable → Parametrization → Checked Parametrization
  | [], p => .ok p
  | x :: tracked, p => do
    let stream ← record.terms.column x.column minimal.natDegree
    let quotient ← numeratorQuotient minimal p.eliminant stream inverse
    fillFromNumerators inverse tracked (← p.withCoordinate x.index quotient)

/-- Checks the coordinates of the listed variables in order, up to the first that fails.
Variables without a square in the basis pass. -/
def scanCoordinates (p : Parametrization) :
    List TrackedVariable → WordSource → Checked (Verdict × WordSource)
  | [], source => .ok (.verified, source)
  | x :: tracked, source =>
    match x.squareIndex with
    | none => scanCoordinates p tracked source
    | some _ => do
      let l := minimal.natDegree
      let sequence ← record.terms.column 0 l
      let stream ← record.terms.column x.column l
      let square ← record.squares.column x.column l
      let (passed, source) ←
        verifyQuotient minimal p.eliminant sequence stream square (← p.coordinate x.index) source
      if passed then scanCoordinates p tracked source
      else
        let total := p.variableCount - 1
        return (.failed (total - 1 - x.index) total, source)

/-- Fills in the coordinates of the tracked variables, and checks them when asked to. -/
def fillFromQuotients (tracked : List TrackedVariable) (verify : Bool) (p : Parametrization)
    (source : WordSource) : Checked (Except SolverError Outcome × WordSource) := do
  let l := minimal.natDegree
  if l = 0 then return (.error .singularNumerator, source)
  else
    let sequence ← record.terms.column 0 l
    match ← numeratorInverse? minimal p.eliminant sequence with
    | none => return (.error .singularNumerator, source)
    | some inverse =>
      let p ← fillFromNumerators record minimal inverse tracked p
      if verify then
        let (verdict, source) ← scanCoordinates record minimal p tracked source
        return (.ok ⟨p, verdict⟩, source)
      else return (.ok ⟨p, .unchecked⟩, source)

end Quotients

end ZeroDim
