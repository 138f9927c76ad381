import ZeroDim.Hankel.Window
import ZeroDim.KeyEquation

/-! # Inverses of Hankel matrices

Let `H` be the `d × d` matrix with entries `w_{i+j}` for a window `w` of `2 d - 1` terms.  Two
runs of the key equation, on the mirrored window and on the window itself, stopped when the
remainder has `d` coefficients, give vectors `z1` and `z2` with

  `H z1 = e_{d-1}`  and  `H (mirrored z2) = e_0`,

the last and the first column of the inverse.  When entry zero of `z1` is not zero, these two
determine the inverse, and a system is solved with four truncated products.  When it is zero, or
when a later window is singular, the next level of windows is tried; a singular direct window is
final.
-/

set_option autoImplicit false

namespace ZeroDim

/-- Two columns of the inverse of a Hankel matrix. -/
structure HankelInverse where
  dimension : Nat
  level : Level
  /-- The last column of the inverse. -/
  z1 : Poly
  /-- The first column of the inverse, mirrored. -/
  z2 : Poly
  /-- The inverse of entry zero of `z1`. -/
  pivotInverse : UInt32
deriving DecidableEq

inductive Attempt where
  | inverted (inverse : HankelInverse)
  | zeroPivot
  | singular
deriving DecidableEq

namespace KeyEquation

/-- The cofactor at a remainder of exactly `d` coefficients, scaled to make that remainder
monic. -/
def generator? (key : KeyEquation) (d : Nat) : Option Poly :=
  if key.r1.length = d then
    (key.r1.leadingCoeff?.bind key.field.inv?).map key.v1.scale
  else none

def descend (key : KeyEquation) (high : Nat) (f : Poly) (d : Nat) : KeyEquation :=
  (key.start high f).reduceBelow d

def attempt (key : KeyEquation) (window : Array UInt32) (d : Nat) (level : Level) :
    Attempt × KeyEquation :=
  let F := key.field
  let key := key.descend window.size (.ofCoeffs F window.reverse) d
  match key.generator? d with
  | none => (.singular, key)
  | some z1 =>
    match F.inv? (z1.coeff 0) with
    | none => (.zeroPivot, key)
    | some pivotInverse =>
      let key := key.descend window.size (.ofCoeffs F window) d
      match key.generator? d with
      | none => (.singular, key)
      | some z2 => (.inverted ⟨d, level, z1, z2, pivotInverse⟩, key)

/-- Inverts the Hankel matrix of a sequence at the first of the listed levels that allows it. -/
def invertAlong (sequence : Array UInt32) (d : Nat) :
    List Level → KeyEquation → Checked (Option HankelInverse × KeyEquation)
  | [], key => .ok (none, key)
  | level :: levels, key => do
    let window ← level.window key.field sequence (2 * d - 1)
    match key.attempt window d level with
    | (.inverted inverse, key) => return (some inverse, key)
    | (.zeroPivot, key) => invertAlong sequence d levels key
    | (.singular, key) =>
      if level = .direct then return (none, key) else invertAlong sequence d levels key

def invertHankel (key : KeyEquation) (sequence : Array UInt32) (d : Nat) :
    Checked (Option HankelInverse × KeyEquation) :=
  key.invertAlong sequence d Level.direct.onward

end KeyEquation

namespace HankelInverse

def field (h : HankelInverse) : PrimeField := h.z1.field

def solve (h : HankelInverse) (rhs : Array UInt32) : Checked Poly := do
  let d := h.dimension
  let c := Poly.ofCoeffs h.field (← segment rhs 0 d)
  let a := ((h.z1.mirror (d + 1)).mulLow c d).mirror d
  let b := (h.z2.mulLow c d).mirror d
  return (h.z1.mulLow b d - (h.z2.mirror (d + 1)).mulLow a d).scale h.pivotInverse

def solveStream (h : HankelInverse) (stream : Array UInt32) : Checked Poly := do
  h.solve (← h.level.window h.field stream h.dimension)

def productEntry (F : PrimeField) (d : Nat) (w : Array UInt32) (z : Nat → UInt32) (i : Nat) :
    UInt32 :=
  d.fold (fun j _ acc => F.mulAdd acc (w.getD (i + j) 0) (z j)) 0

/-- Whether the two columns are those of the inverse for a sequence. -/
def check (h : HankelInverse) (sequence : Array UInt32) : Checked Bool := do
  let d := h.dimension
  let w ← h.level.window h.field sequence (2 * d - 1)
  return (List.range d).all fun i =>
    productEntry h.field d w h.z1.coeff i == (if i = d - 1 then 1 else 0) &&
    productEntry h.field d w (fun j => h.z2.coeff (d - 1 - j)) i == (if i = 0 then 1 else 0)

end HankelInverse

end ZeroDim
