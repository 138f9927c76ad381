import ZeroDim.Poly.Division

/-! # Greatest common divisors

Euclid's algorithm, alone and with the two cofactors that write the divisor as a combination of
the operands, and inverses modulo a polynomial.
-/

set_option autoImplicit false

namespace ZeroDim.Poly

/-- The last remainder other than zero in Euclid's algorithm. -/
def lastRemainder (a b : Poly) : Poly :=
  if b.isZero then a else lastRemainder b (a % b)
termination_by b.length
decreasing_by
  rename_i h
  exact length_mod_lt a (by simpa using h)

/-- The monic greatest common divisor, zero for two zeros. -/
def gcd (a b : Poly) : Poly := (lastRemainder a b).monic

/-- A polynomial written as `left * a + right * b` for fixed `a` and `b`. -/
structure Combination where
  value : Poly
  left : Poly
  right : Poly
deriving DecidableEq

def lastCombination (u v : Combination) : Combination :=
  if v.value.isZero then u
  else
    let q := u.value / v.value
    lastCombination v ⟨u.value % v.value, u.left - q * v.left, u.right - q * v.right⟩
termination_by v.value.length
decreasing_by
  rename_i h
  exact length_mod_lt u.value (by simpa using h)

/-- The monic greatest common divisor as a combination of the operands.  Two zeros have the
divisor `0 = 1 * 0 + 0 * 0`. -/
def extendedGcd (a b : Poly) : Combination :=
  let F := a.field
  let c := lastCombination ⟨a, one F, zero F⟩ ⟨b, zero F, one F⟩
  match c.value.leadingCoeff? with
  | none => ⟨c.value, one F, zero F⟩
  | some lead =>
    let scalar := leadInverse F lead
    ⟨c.value.scale scalar, c.left.scale scalar, c.right.scale scalar⟩

def inverseMod? (a m : Poly) : Checked (Option Poly) := do
  let reduced ← a.mod? m
  let c := extendedGcd m reduced
  return if c.value.isOne then some (c.right % m) else none

end ZeroDim.Poly
