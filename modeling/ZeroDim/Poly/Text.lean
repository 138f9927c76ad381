import ZeroDim.Poly.Basic

/-! # Polynomials as text

Terms are written highest power first, each with its coefficient, as in `5*x^2 + 1*x + 3`.  Zero
terms are left out, and the zero polynomial is `0`.
-/

set_option autoImplicit false

namespace ZeroDim

def decimal (c : UInt32) : String := c.toNat.repr

def commaList (cs : Array UInt32) : String := ", ".intercalate (cs.toList.map decimal)

namespace Poly

def termText (c : UInt32) : Nat → String
  | 0 => decimal c
  | 1 => s!"{decimal c}*x"
  | i => s!"{decimal c}*x^{i}"

def text (a : Poly) : String :=
  if a.isZero then "0"
  else
    let terms := a.coeffs.toList.zipIdx.filterMap fun (c, i) =>
      if c = 0 then none else some (termText c i)
    " + ".intercalate terms.reverse

def inspect (a : Poly) : String := s!"ModPoly({a.field.name}, [{commaList a.coeffs}])"

end Poly

end ZeroDim
