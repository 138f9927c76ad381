import ZeroDim.Poly.Division

/-! # The key equation

For a polynomial `f` of degree below `high`, Euclid's algorithm on `x ^ high` and `f` runs through
cofactors and remainders with

  `v * f = r` modulo `x ^ high`,

the remainders getting shorter while the cofactors get longer.  Stopped half way on the mirrored
points of a sequence, the monic cofactor is the minimal polynomial of the sequence, provided that
the sequence has a recurrence of at most half its length.  Stopped one coefficient earlier, it
gives a column of the inverse of a Hankel matrix.

The state outlives a run: points may be added and the recursion started again, and every start
sets all four polynomials.
-/

set_option autoImplicit false

namespace ZeroDim

/-- Points of a sequence, and two successive rows of the recursion: `v0 * f = r0` and
`v1 * f = r1` modulo `x ^ high`. -/
structure KeyEquation where
  field : PrimeField
  points : Array UInt32
  /-- The number of points of the last solution. -/
  solved : Nat
  r0 : Poly
  r1 : Poly
  v0 : Poly
  v1 : Poly
deriving DecidableEq

namespace KeyEquation

def empty (F : PrimeField) : KeyEquation where
  field := F
  points := #[]
  solved := 0
  r0 := .zero F
  r1 := .zero F
  v0 := .zero F
  v1 := .one F

def reset (e : KeyEquation) : KeyEquation := empty e.field

def moveTo (_ : KeyEquation) (F : PrimeField) : KeyEquation := empty F

def addPoints (e : KeyEquation) (points : Array UInt32) : KeyEquation :=
  { e with points := e.points ++ points.map e.field.residue }

def start (e : KeyEquation) (high : Nat) (f : Poly) : KeyEquation :=
  { e with r0 := .monomial e.field 1 high, r1 := f, v0 := .zero e.field, v1 := .one e.field }

def step (e : KeyEquation) : KeyEquation :=
  let (q, r) := e.r0.divMod e.r1
  { e with r0 := e.r1, r1 := r, v0 := e.v1, v1 := e.v0 - q * e.v1 }

theorem length_r1_step (e : KeyEquation) (h : e.r1.isZero = false) :
    e.step.r1.length < e.r1.length := e.r0.length_mod_lt h

/-- Steps until the remainder has at most `bound` coefficients. -/
def reduceBelow (e : KeyEquation) (bound : Nat) : KeyEquation :=
  if bound < e.r1.length then e.step.reduceBelow bound else e
termination_by e.r1.length
decreasing_by
  rename_i h
  apply length_r1_step
  cases hz : e.r1.isZero with
  | false => rfl
  | true =>
    have := Poly.length_eq_zero_iff.mpr hz
    omega

/-- Solves the key equation of all points: they are mirrored into a polynomial, and the
recursion stops when half of the length is left. -/
def solve (e : KeyEquation) : KeyEquation :=
  let n := e.points.size
  let e := (e.start n (.ofCoeffs e.field e.points.reverse)).reduceBelow ((n + 1) / 2)
  { e with solved := n }

/-- The minimal polynomial of the points of the last solution. -/
def minimalPolynomial (e : KeyEquation) : Poly := e.v1.monic

end KeyEquation

end ZeroDim
