import ZeroDim.Fault
import ZeroDim.Poly.Ring

/-! # Division with remainder

Long division from the highest quotient position down.  Each step subtracts a multiple of the
divisor that cancels one coefficient of the working remainder; after the last step only the
coefficients below the divisor's leading one are left, and the rest is dropped.

`a / b` and `a % b` are defined for every `b`, with quotient zero and remainder `a` for zero;
`divMod?` and `mod?` report that case as a fault.  A remainder is always shorter than its
divisor (`Poly.length_mod_lt`), which is what ends the Euclidean algorithms.
-/

set_option autoImplicit false

namespace ZeroDim

section LongDivision
variable (F : PrimeField) (b : Array UInt32)

/-- The remainder less `q` times the divisor, shifted up by `position`. -/
def cancel (position : Nat) (q : UInt32) (r : Array UInt32) : Array UInt32 :=
  r.mapIdx fun i c =>
    if position ≤ i ∧ i < position + b.size then F.sub c (F.mul q (b.getD (i - position) 0)) else c

/-- The quotient positions below `n` and the working remainder after the last step. -/
def longDivision (leadInv : UInt32) : Nat → Array UInt32 → Array UInt32 × Array UInt32
  | 0, r => (#[], r)
  | n + 1, r =>
    let q := F.mul (r.getD (n + b.size - 1) 0) leadInv
    let (quotient, r) := longDivision leadInv n (cancel F b n q r)
    (quotient.push q, r)

end LongDivision

namespace Poly

def divMod (a b : Poly) : Poly × Poly :=
  match b.leadingCoeff? with
  | none => (zero a.field, a)
  | some lead =>
    if a.length < b.length then (zero a.field, a)
    else
      let (quotient, r) := longDivision a.field b.coeffs (leadInverse a.field lead)
        (a.length - b.length + 1) a.coeffs
      (ofCoeffs a.field quotient, ofCoeffs a.field (r.take (b.length - 1)))

def div (a b : Poly) : Poly := (divMod a b).1

def mod (a b : Poly) : Poly := (divMod a b).2

instance : Div Poly := ⟨div⟩
instance : Mod Poly := ⟨mod⟩

def divMod? (a b : Poly) : Checked (Poly × Poly) :=
  if b.isZero then .error .zeroDivisor else .ok (divMod a b)

def mod? (a b : Poly) : Checked Poly :=
  if b.isZero then .error .zeroDivisor else .ok (a % b)

theorem length_mod_lt (a : Poly) {b : Poly} (hb : b.isZero = false) : (a % b).length < b.length := by
  have hpos : 0 < b.length := by
    rcases Nat.eq_zero_or_pos b.length with h | h
    · rw [length_eq_zero_iff.mp h] at hb
      contradiction
    · exact h
  show (divMod a b).2.length < b.length
  unfold divMod
  split
  · rename_i h
    rw [leadingCoeff?, Array.back?_eq_none_iff] at h
    simp [length, h] at hpos
  · split
    · assumption
    · refine Nat.lt_of_le_of_lt (length_ofCoeffs_le _ _) ?_
      simp only [Array.take_eq_extract, Array.size_extract]
      omega

end Poly

end ZeroDim
