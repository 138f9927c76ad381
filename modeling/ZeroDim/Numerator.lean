import ZeroDim.Poly.Bezout
import ZeroDim.Random.Words

/-! # Numerators of generating series

A stream `u` with the recurrence `P` of degree `l` has a generating series with denominator `P`.
Its numerator is the polynomial part of `P` times the series,

  `(u_0 x ^ (l-1) + ... + u_{l-1}) * P` divided by `x ^ l`.

Outside of shape position, a variable is the numerator of its stream divided by that of the power
sums, modulo the eliminant.  The quotient is checked with a second functional: for a random
`lambda` other than zero, the streams `c + lambda s` and `q + lambda c` of the power sums `s`, the
variable `c` and its square `q` must have the same quotient.
-/

set_option autoImplicit false

namespace ZeroDim

/-- The numerator of a stream for the recurrence `minimal`. -/
def numerator (F : PrimeField) (stream : Array UInt32) (minimal : Poly) : Checked Poly := do
  let l := minimal.natDegree
  let terms ← segment stream 0 l
  return (Poly.ofCoeffs F terms.reverse * minimal).shiftDown l

section Quotient
variable (minimal eliminant : Poly)

def numeratorInverse? (stream : Array UInt32) : Checked (Option Poly) := do
  (← numerator eliminant.field stream minimal).inverseMod? eliminant

def numeratorQuotient (stream : Array UInt32) (inverse : Poly) : Checked Poly := do
  let reduced ← (← numerator eliminant.field stream minimal).mod? eliminant
  (reduced * inverse).mod? eliminant

def combinedStream (scalar : UInt32) (a b : Array UInt32) : Checked (Array UInt32) := do
  let l := minimal.natDegree
  let a ← segment a 0 l
  let b ← segment b 0 l
  return a.zipWith (fun x y => eliminant.field.mulAdd x scalar y) b

/-- Whether the functional shifted by `scalar` gives the expected quotient. -/
def shiftAgrees (scalar : UInt32) (sequence stream square : Array UInt32) (expected : Poly) :
    Checked Bool := do
  let shiftedSequence ← combinedStream minimal eliminant scalar stream sequence
  let shiftedStream ← combinedStream minimal eliminant scalar square stream
  match ← numeratorInverse? minimal eliminant shiftedSequence with
  | some inverse =>
    return decide (
      (← numeratorQuotient minimal eliminant shiftedStream inverse) = expected)
  | none => return false

/-- The check with a random shift. -/
def verifyQuotient (sequence stream square : Array UInt32) (expected : Poly)
    (source : WordSource) : Checked (Bool × WordSource) := do
  let (scalar, source) := source.nonzeroResidue eliminant.field
  return (← shiftAgrees minimal eliminant scalar sequence stream square expected, source)

end Quotient

end ZeroDim
