import ZeroDim.Parametrization.Basic
import ZeroDim.Solver.Error

/-! # Outcomes

A parametrization with a verdict: in shape position it needs no check, otherwise its coordinates
may have been checked from the highest variable down, up to the first that failed.
-/

set_option autoImplicit false

namespace ZeroDim

inductive Verdict where
  /-- Nothing to check. -/
  | shapePosition
  /-- No check was asked for. -/
  | unchecked
  /-- Every coordinate passed. -/
  | verified
  /-- A coordinate failed, with `verified` of the `total` coordinates above it. -/
  | failed (verified total : Nat)
deriving DecidableEq, Repr

def Verdict.isTrusted : Verdict → Bool
  | .failed _ _ => false
  | _ => true

structure Outcome where
  parametrization : Parametrization
  verdict : Verdict
deriving DecidableEq

namespace Outcome

/-- The number of variables, or one more than the number of coordinates that stand above a
failed one. -/
def status (o : Outcome) : Nat :=
  match o.verdict with
  | .failed verified _ => verified + 1
  | _ => o.parametrization.variableCount

def trusted (o : Outcome) : Except SolverError Parametrization :=
  match o.verdict with
  | .failed verified total => .error (.unverified verified total)
  | _ => .ok o.parametrization

end Outcome

end ZeroDim
