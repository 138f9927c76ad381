import ZeroDim.Parametrization.Basic
import ZeroDim.Poly.Text

/-! # Parametrizations as text

Both formats give the prime, the number of variables and the polynomials in the order of
`Parametrization.blocks`, each as its degree and its coefficients, low degree first.  The zero
polynomial has degree `-1` and the single coefficient `0`.
-/

set_option autoImplicit false

namespace ZeroDim

def Poly.blockText (a : Poly) : String :=
  match a.degree? with
  | none => "[-1,\n[0]]"
  | some degree => s!"[{degree},\n[{commaList a.coeffs}]]"

namespace Parametrization

/-- One item per line. -/
def text (p : Parametrization) : String :=
  s!"{p.field.text}\n{p.variableCount}\n" ++
    String.join (p.blocks.map fun a => a.blockText ++ "\n")

/-- A Maple list, closed by a colon. -/
def mapleText (p : Parametrization) : String :=
  s!"[{p.field.text}, \n{p.variableCount}" ++
    String.join (p.blocks.map fun a => ", \n" ++ a.blockText) ++ "]:\n"

end Parametrization

end ZeroDim
