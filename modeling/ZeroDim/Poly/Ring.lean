import ZeroDim.Poly.Basic
import ZeroDim.Poly.Product

/-! # Polynomial arithmetic

The ring operations, scaling, truncation, shifts by powers of the indeterminate, mirroring, the
derivative, and the root of a `p`-th power.
-/

set_option autoImplicit false

namespace ZeroDim.Poly

def add (a b : Poly) : Poly :=
  tabulate a.field (max a.length b.length) fun i => a.field.add (a.coeff i) (b.coeff i)

def sub (a b : Poly) : Poly :=
  tabulate a.field (max a.length b.length) fun i => a.field.sub (a.coeff i) (b.coeff i)

def neg (a : Poly) : Poly := ofCoeffs a.field (a.coeffs.map a.field.neg)

def mul (a b : Poly) : Poly := ofCoeffs a.field (product a.field a.coeffs b.coeffs)

instance : Add Poly := ⟨add⟩
instance : Sub Poly := ⟨sub⟩
instance : Neg Poly := ⟨neg⟩
instance : Mul Poly := ⟨mul⟩

def scale (a : Poly) (c : UInt32) : Poly :=
  ofCoeffs a.field (a.coeffs.map fun d => a.field.mul d c)

def truncate (a : Poly) (n : Nat) : Poly := ofCoeffs a.field (a.coeffs.take n)

/-- The product modulo `x ^ n`; only the coefficients below `x ^ n` are multiplied. -/
def mulLow (a b : Poly) (n : Nat) : Poly :=
  ofCoeffs a.field ((product a.field (a.coeffs.take n) (b.coeffs.take n)).take n)

def shiftUp (a : Poly) (n : Nat) : Poly :=
  if a.isZero then a else ofCoeffs a.field (Array.replicate n 0 ++ a.coeffs)

def shiftDown (a : Poly) (n : Nat) : Poly := ofCoeffs a.field (a.coeffs.extract n a.length)

/-- The first `n` coefficients in the opposite order: that of `x ^ i` goes to
`x ^ (n - 1 - i)`. -/
def mirror (a : Poly) (n : Nat) : Poly := tabulate a.field n fun i => a.coeff (n - 1 - i)

def derivative (a : Poly) : Poly :=
  tabulate a.field (a.length - 1) fun i =>
    a.field.mul (a.coeff (i + 1)) (a.field.ofNat (i + 1))

def leadInverse (F : PrimeField) (c : UInt32) : UInt32 := (F.inv? c).getD 0

def monic (a : Poly) : Poly :=
  match a.leadingCoeff?.bind a.field.inv? with
  | some c => a.scale c
  | none => a

def pow (a : Poly) (n : Nat) : Poly :=
  if n = 0 then one a.field
  else
    let half := a.pow (n / 2)
    let square := half * half
    if n % 2 = 0 then square else square * a
termination_by n

instance : HPow Poly Nat Poly := ⟨pow⟩

/-- The polynomial with `p`-th power `a`, where only powers of `x ^ p` occur in `a`: raising to
the `p`-th power fixes every coefficient, so the root has every `p`-th one. -/
def frobeniusRoot (a : Poly) : Poly :=
  let p := a.field.modulus.toNat
  tabulate a.field ((a.length + p - 1) / p) fun i => a.coeff (i * p)

end ZeroDim.Poly
