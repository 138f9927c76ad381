import Mathlib
import ZeroDim.Proofs.Poly.Division

/-! # Operations on coefficients as operations on polynomials

What the operations that move, cut or replace coefficients are in the polynomial ring: remainders
and quotients by powers of the indeterminate, products with such powers, reflections, updates, and
the change of field. -/

set_option autoImplicit false

namespace ZeroDim

open Polynomial PrimeField

section Powers
variable {K : Type*} [Field K]

theorem coeff_mod_X_pow (f : K[X]) (n i : ℕ) :
    (f % X ^ n).coeff i = if i < n then f.coeff i else 0 := by
  split
  · rename_i hi
    have h := X_pow_dvd_iff.mp (dvd_sub_mod f (X ^ n)) i hi
    rw [coeff_sub, sub_eq_zero] at h
    exact h.symm
  · rename_i hi
    have hdeg := degree_mod_lt f (pow_ne_zero n (X_ne_zero (R := K)))
    rw [degree_X_pow] at hdeg
    exact (degree_lt_iff_coeff_zero _ _).mp hdeg i (Nat.le_of_not_lt hi)

theorem coeff_div_X_pow (f : K[X]) (n i : ℕ) : (f / X ^ n).coeff i = f.coeff (i + n) := by
  have h := congrArg (fun g => coeff g (i + n)) (EuclideanDomain.div_add_mod f (X ^ n))
  simp only [coeff_add, coeff_X_pow_mul, coeff_mod_X_pow, if_neg (Nat.not_lt.mpr (Nat.le_add_left n i)),
    add_zero] at h
  exact h

end Powers

/-- The polynomial over another field with the residues of the same numbers as coefficients. -/
noncomputable def PrimeField.transport (F : PrimeField) {G : PrimeField} (f : G.Element[X]) :
    F.Element[X] :=
  f.sum fun i x => C (x.val : F.Element) * X ^ i

theorem PrimeField.coeff_transport {F G : PrimeField} (f : G.Element[X]) (i : ℕ) :
    (F.transport f).coeff i = ((f.coeff i).val : F.Element) := by
  rw [transport, sum_def, finsetSum_coeff]
  simp only [coeff_C_mul, coeff_X_pow, mul_ite, mul_one, mul_zero]
  rw [Finset.sum_ite_eq]
  split
  · rfl
  · rename_i hi
    rw [notMem_support_iff.mp hi, ZMod.val_zero, Nat.cast_zero]

/-- A `p`-th power has only powers of `x ^ p`, and its coefficients are those of its base. -/
theorem PrimeField.contract_pow_modulus {F : PrimeField} (f : F.Element[X]) :
    contract F.modulus.toNat (f ^ F.modulus.toNat) = f := by
  rw [← ZMod.expand_card, contract_expand _ F.modulus_prime.ne_zero]

namespace Poly

variable {F : PrimeField} {a b : Poly}

theorem toPolynomial_ofSigned (F : PrimeField) (cs : Array Int64) :
    (ofSigned F cs).toPolynomial F =
      ∑ i ∈ Finset.range cs.size, C ((cs.getD i 0).toInt : F.Element) * X ^ i := by
  ext i
  rw [ofSigned, toPolynomial_ofCoeffs, coeff_polynomial, finsetSum_coeff]
  simp only [coeff_C_mul, coeff_X_pow, mul_ite, mul_one, mul_zero]
  rw [Finset.sum_ite_eq, Array.getD_eq_getD_getElem?, Array.getElem?_map]
  by_cases hi : i < cs.size
  · rw [if_pos (Finset.mem_range.mpr hi), Array.getElem?_eq_getElem hi, Option.map_some,
      Option.getD_some, value_ofSigned]
    simp [hi]
  · rw [if_neg (by simpa using hi), Array.getElem?_eq_none (by omega), Option.map_none,
      Option.getD_none, value_zero]

theorem toPolynomial_neg (ha : a.field = F) : (-a).toPolynomial F = -a.toPolynomial F := by
  ext i
  subst ha
  rw [coeff_toPolynomial, coeff_neg, value_neg (a.reduced_coeff i), Polynomial.coeff_neg,
    coeff_toPolynomial]

@[simp] theorem field_setCoeff (a : Poly) (i : ℕ) (c : UInt32) :
    (a.setCoeff i c).field = a.field := by
  unfold setCoeff
  split <;> rfl

theorem coeff_setCoeff (a : Poly) (i j : ℕ) (c : UInt32) :
    (a.setCoeff i c).coeff j = if j = i then a.field.residue c else a.coeff j := by
  unfold setCoeff
  split
  · rename_i h
    split
    · rename_i hj
      rw [h.2, coeff_eq_zero_of_length_le (by omega)]
    · rfl
  · rw [coeff_tabulate]
    by_cases hj : j = i
    · rw [if_pos (by omega), if_pos hj, if_pos hj]
    · rw [if_neg hj, if_neg hj]
      split
      · exact residue_of_reduced (a.reduced_coeff j)
      · rw [coeff_eq_zero_of_length_le (by omega)]

theorem toPolynomial_setCoeff (ha : a.field = F) (i : ℕ) (c : UInt32) :
    (a.setCoeff i c).toPolynomial F = (a.toPolynomial F).update i (F.value c) := by
  ext j
  subst ha
  rw [coeff_toPolynomial, coeff_setCoeff, coeff_update_apply, coeff_toPolynomial]
  split
  · exact value_residue
  · rfl

theorem toPolynomial_moveTo {G : PrimeField} (ha : a.field = G) (F : PrimeField) :
    (a.moveTo F).toPolynomial F = F.transport (a.toPolynomial G) := by
  ext i
  subst ha
  have hval : (a.field.value (a.coeff i)).val = (a.coeff i).toNat := by
    rw [← toNat_word, word_value (a.reduced_coeff i)]
  rw [coeff_toPolynomial, coeff_moveTo, value_residue, coeff_transport, coeff_toPolynomial, hval,
    value]

theorem toPolynomial_mulLow (ha : a.field = F) (hb : b.field = F) (n : ℕ) :
    (a.mulLow b n).toPolynomial F = a.toPolynomial F * b.toPolynomial F % X ^ n := by
  ext i
  rw [coeff_toPolynomial_mulLow ha hb, coeff_mod_X_pow]

theorem toPolynomial_truncate (a : Poly) (n : ℕ) :
    (a.truncate n).toPolynomial F = a.toPolynomial F % X ^ n := by
  ext i
  rw [coeff_mod_X_pow, coeff_toPolynomial, coeff_truncate, coeff_toPolynomial]
  split
  · rfl
  · exact value_zero

theorem toPolynomial_shiftUp (ha : a.field = F) (n : ℕ) :
    (a.shiftUp n).toPolynomial F = a.toPolynomial F * X ^ n := by
  subst ha
  unfold shiftUp
  split
  · rename_i hz
    rw [(isZero_iff rfl).mp hz, zero_mul]
  · ext i
    rw [toPolynomial_ofCoeffs, coeff_polynomial, coeff_mul_X_pow', coeff_toPolynomial, coeff,
      Array.getD_eq_getD_getElem?, Array.getD_eq_getD_getElem?, Array.getElem?_append]
    by_cases hi : i < n
    · rw [if_pos (by simpa using hi), if_neg (by omega)]
      simp [hi]
    · rw [if_neg (by simpa using hi), if_pos (by omega), Array.size_replicate]

theorem toPolynomial_shiftDown (a : Poly) (n : ℕ) :
    (a.shiftDown n).toPolynomial F = a.toPolynomial F / X ^ n := by
  ext i
  rw [coeff_div_X_pow, coeff_toPolynomial, coeff_shiftDown, coeff_toPolynomial, Nat.add_comm]

theorem toPolynomial_mirror (a : Poly) (n : ℕ) :
    (a.mirror n).toPolynomial F = reflect (n - 1) (a.toPolynomial F % X ^ n) := by
  ext i
  rw [coeff_toPolynomial_mirror, coeff_reflect, coeff_mod_X_pow]
  by_cases hi : i < n
  · rw [if_pos hi, revAt_le (by omega), if_pos (by omega)]
  · rcases Nat.eq_zero_or_pos n with rfl | hn
    · rw [if_neg hi, if_neg (Nat.not_lt_zero _)]
    · rw [if_neg hi, revAt_eq_self_of_lt (by omega), if_neg hi]

end Poly

end ZeroDim
