import Mathlib
import ZeroDim.Poly.Lemmas
import ZeroDim.Proofs.Field.Inverse

/-! # Polynomials over the field of residues

`Poly.toPolynomial F` reads the words of a polynomial as coefficients over the field of residues.
Over one field it is injective, lengths are degrees plus one, and the operations that work
coefficient by coefficient become those of the polynomial ring. -/

set_option autoImplicit false

namespace ZeroDim

open Polynomial PrimeField

namespace PrimeField

noncomputable def polynomial (F : PrimeField) (cs : Array UInt32) : F.Element[X] :=
  ∑ i ∈ Finset.range cs.size, C (F.value (cs.getD i 0)) * X ^ i

/-- The values of a vector of words, continued by zeros. -/
def terms (F : PrimeField) (cs : Array UInt32) (i : Nat) : F.Element := F.value (cs.getD i 0)

variable {F : PrimeField}

theorem getD_eq_zero_of_size_le {cs : Array UInt32} {i : Nat} (h : cs.size ≤ i) :
    cs.getD i 0 = 0 := by
  rw [Array.getD_eq_getD_getElem?, Array.getElem?_eq_none h, Option.getD_none]

theorem getD_extract {cs : Array UInt32} {lo hi i : ℕ} (h : lo + i < hi) :
    (cs.extract lo hi).getD i 0 = cs.getD (lo + i) 0 := by
  rw [Array.getD_eq_getD_getElem?, Array.getD_eq_getD_getElem?, Array.getElem?_extract]
  by_cases hs : lo + i < cs.size
  · rw [if_pos (by omega)]
  · rw [if_neg (by omega), Array.getElem?_eq_none (by omega)]

@[simp] theorem coeff_polynomial (cs : Array UInt32) (i : Nat) :
    (F.polynomial cs).coeff i = F.value (cs.getD i 0) := by
  rw [polynomial, finsetSum_coeff]
  simp only [coeff_C_mul, coeff_X_pow, mul_ite, mul_one, mul_zero]
  rw [Finset.sum_ite_eq]
  split
  · rfl
  · rename_i hi
    rw [getD_eq_zero_of_size_le (by simpa using hi), value_zero]

theorem coeff_polynomial_reverse {cs : Array UInt32} {i : Nat} (hi : i < cs.size) :
    (F.polynomial cs.reverse).coeff i = F.value (cs.getD (cs.size - 1 - i) 0) := by
  rw [coeff_polynomial, Array.getD_eq_getD_getElem?, Array.getD_eq_getD_getElem?,
    Array.getElem?_reverse hi]

theorem eq_of_terms_eq {u v : Array UInt32} (hu : F.AllReduced u) (hv : F.AllReduced v)
    (hsize : u.size = v.size) (h : ∀ i < u.size, F.terms u i = F.terms v i) : u = v := by
  apply Array.ext hsize
  intro i hi hi'
  have hvalue := h i hi
  rw [terms, terms, Array.getD_eq_getD_getElem?, Array.getD_eq_getD_getElem?,
    Array.getElem?_eq_getElem hi, Array.getElem?_eq_getElem hi'] at hvalue
  exact eq_of_value_eq (hu _ (Array.getElem_mem hi)) (hv _ (Array.getElem_mem hi')) hvalue

theorem degree_polynomial_lt (cs : Array UInt32) : (F.polynomial cs).degree < cs.size := by
  rw [degree_lt_iff_coeff_zero]
  intro i hi
  rw [coeff_polynomial, getD_eq_zero_of_size_le hi, value_zero]

end PrimeField

namespace Poly

noncomputable def toPolynomial (F : PrimeField) (a : Poly) : F.Element[X] := F.polynomial a.coeffs

variable {F : PrimeField} {a b : Poly}

@[simp] theorem coeff_toPolynomial (a : Poly) (i : Nat) :
    (a.toPolynomial F).coeff i = F.value (a.coeff i) := coeff_polynomial a.coeffs i

theorem toPolynomial_ofCoeffs (F : PrimeField) (cs : Array UInt32) :
    (ofCoeffs F cs).toPolynomial F = F.polynomial cs := by
  ext i
  rw [coeff_toPolynomial, coeff_ofCoeffs, value_residue, coeff_polynomial]

theorem toPolynomial_inj (ha : a.field = F) (hb : b.field = F) :
    a.toPolynomial F = b.toPolynomial F ↔ a = b := by
  constructor
  · intro h
    apply ext_coeff (ha.trans hb.symm)
    intro i
    have hi := congrArg (fun f => Polynomial.coeff f i) h
    simp only [coeff_toPolynomial] at hi
    exact eq_of_value_eq (ha ▸ a.reduced_coeff i) (hb ▸ b.reduced_coeff i) hi
  · rintro rfl
    rfl

/-! ## Lengths and degrees -/

theorem length_le_iff (ha : a.field = F) (n : Nat) :
    a.length ≤ n ↔ (a.toPolynomial F).degree < n := by
  constructor
  · intro h
    rw [degree_lt_iff_coeff_zero]
    intro i hi
    rw [coeff_toPolynomial, coeff_eq_zero_of_length_le (by omega), value_zero]
  · intro h
    by_contra hn
    have hlead := coeff_length_sub_one_ne (a := a) (by omega)
    have hz := (degree_lt_iff_coeff_zero _ _).mp h (a.length - 1) (by omega)
    rw [coeff_toPolynomial, value_eq_zero_iff (ha ▸ a.reduced_coeff _)] at hz
    exact hlead hz

theorem length_eq_zero_iff_toPolynomial (ha : a.field = F) :
    a.length = 0 ↔ a.toPolynomial F = 0 := by
  rw [← Nat.le_zero, length_le_iff ha, Nat.cast_zero, ← not_le, zero_le_degree_iff, not_not]

theorem isZero_iff (ha : a.field = F) : a.isZero = true ↔ a.toPolynomial F = 0 := by
  rw [← length_eq_zero_iff, length_eq_zero_iff_toPolynomial ha]

theorem isZero_eq_false_iff (ha : a.field = F) : a.isZero = false ↔ a.toPolynomial F ≠ 0 := by
  rw [← Bool.not_eq_true, isZero_iff ha]

theorem length_eq_natDegree_add_one (ha : a.field = F) (hne : a.toPolynomial F ≠ 0) :
    a.length = (a.toPolynomial F).natDegree + 1 := by
  apply Nat.le_antisymm
  · rw [length_le_iff ha, Nat.cast_add, Nat.cast_one, degree_eq_natDegree hne]
    exact_mod_cast Nat.lt_succ_self _
  · have h := (length_le_iff ha a.length).mp le_rfl
    rw [degree_eq_natDegree hne] at h
    exact_mod_cast h

theorem natDegree_toPolynomial (ha : a.field = F) :
    (a.toPolynomial F).natDegree = a.natDegree := by
  by_cases hz : a.toPolynomial F = 0
  · have hlen := (length_eq_zero_iff_toPolynomial ha).mpr hz
    rw [hz, natDegree_zero, Poly.natDegree, degree?, if_pos hlen, Option.getD_none]
  · have hlen := length_eq_natDegree_add_one ha hz
    rw [Poly.natDegree, degree?, if_neg (by omega), Option.getD_some]
    omega

theorem length_lt_length_iff (ha : a.field = F) (hb : b.field = F) (hne : b.toPolynomial F ≠ 0) :
    a.length < b.length ↔ (a.toPolynomial F).degree < (b.toPolynomial F).degree := by
  rw [length_eq_natDegree_add_one hb hne, Nat.lt_succ_iff, degree_eq_natDegree hne]
  rw [length_le_iff ha]

theorem leadingCoeff?_eq (ha : a.field = F) (hne : a.toPolynomial F ≠ 0) :
    a.leadingCoeff? = some (a.coeff (a.length - 1)) ∧
      F.value (a.coeff (a.length - 1)) = (a.toPolynomial F).leadingCoeff := by
  have hlen := length_eq_natDegree_add_one ha hne
  have hlt : a.coeffs.size - 1 < a.coeffs.size := by
    have : a.coeffs.size = a.length := rfl
    omega
  constructor
  · rw [leadingCoeff?, Array.back?_eq_getElem?, Array.getElem?_eq_getElem hlt]
    simp [coeff, length, hlt]
  · rw [leadingCoeff, coeff_toPolynomial, hlen, Nat.add_sub_cancel]

theorem leadingCoeff?_eq_none (ha : a.field = F) (hz : a.toPolynomial F = 0) :
    a.leadingCoeff? = none := by
  have hlen := (length_eq_zero_iff_toPolynomial ha).mpr hz
  rw [leadingCoeff?, Array.back?_eq_none_iff]
  exact Array.size_eq_zero_iff.mp hlen

/-! ## Operations -/

@[simp] theorem field_zero (F : PrimeField) : (zero F).field = F := rfl

@[simp] theorem field_one (F : PrimeField) : (one F).field = F := rfl

@[simp] theorem field_constant (F : PrimeField) (c : UInt32) : (constant F c).field = F := rfl

@[simp] theorem field_monomial (F : PrimeField) (c : UInt32) (n : Nat) :
    (monomial F c n).field = F := rfl

@[simp] theorem toPolynomial_zero (F : PrimeField) : (zero F).toPolynomial F = 0 := by
  rw [zero, toPolynomial_ofCoeffs]
  rfl

theorem toPolynomial_constant (F : PrimeField) (c : UInt32) :
    (constant F c).toPolynomial F = C (F.value c) := by
  rw [constant, toPolynomial_ofCoeffs]
  ext i
  rw [coeff_polynomial, coeff_C]
  cases i with
  | zero => simp
  | succ i =>
    have hz : (#[c] : Array UInt32).getD (i + 1) 0 = 0 := getD_eq_zero_of_size_le (by simp)
    rw [hz, value_zero, if_neg (Nat.succ_ne_zero i)]

@[simp] theorem toPolynomial_one (F : PrimeField) : (one F).toPolynomial F = 1 := by
  rw [one, toPolynomial_constant, value_one, C_1]

theorem toPolynomial_monomial (F : PrimeField) (c : UInt32) (n : Nat) :
    (Poly.monomial F c n).toPolynomial F = C (F.value c) * X ^ n := by
  rw [Poly.monomial, toPolynomial_ofCoeffs]
  ext i
  rw [coeff_polynomial, coeff_C_mul_X_pow]
  rcases Nat.lt_trichotomy i n with h | h | h
  · rw [if_neg (by omega)]
    simp [Array.getElem?_push, h, Nat.ne_of_lt h]
  · rw [if_pos h, h, Array.getD_eq_getD_getElem?, Array.getElem?_push]
    simp
  · rw [if_neg (by omega), getD_eq_zero_of_size_le, value_zero]
    simpa using h

theorem isOne_iff (ha : a.field = F) : a.isOne = true ↔ a.toPolynomial F = 1 := by
  rw [← toPolynomial_one F, toPolynomial_inj ha rfl, isOne, beq_iff_eq]
  have hone : (one F).coeffs = #[1] := by
    have h₁ : F.residue 1 = 1 := residue_of_reduced reduced_one
    apply Array.toList_inj.mp
    change (trim (#[1].map F.residue)).toList = [1]
    rw [toList_trim]
    simp [h₁]
  constructor
  · intro h
    apply ext_coeff ha
    intro i
    rw [coeff, coeff, h, hone]
  · rintro rfl
    exact hone

theorem toPolynomial_add (ha : a.field = F) (hb : b.field = F) :
    (a + b).toPolynomial F = a.toPolynomial F + b.toPolynomial F := by
  ext i
  subst ha
  rw [coeff_toPolynomial, coeff_add hb.symm, value_add (a.reduced_coeff i) (hb ▸ b.reduced_coeff i),
    Polynomial.coeff_add, coeff_toPolynomial, coeff_toPolynomial]

theorem toPolynomial_sub (ha : a.field = F) (hb : b.field = F) :
    (a - b).toPolynomial F = a.toPolynomial F - b.toPolynomial F := by
  ext i
  subst ha
  rw [coeff_toPolynomial, coeff_sub hb.symm, value_sub (a.reduced_coeff i) (hb ▸ b.reduced_coeff i),
    Polynomial.coeff_sub, coeff_toPolynomial, coeff_toPolynomial]

theorem toPolynomial_scale (ha : a.field = F) (c : UInt32) :
    (a.scale c).toPolynomial F = a.toPolynomial F * C (F.value c) := by
  ext i
  subst ha
  rw [coeff_toPolynomial, coeff_scale, value_mul, coeff_mul_C, coeff_toPolynomial]

theorem coeff_toPolynomial_mirror (n i : Nat) :
    ((a.mirror n).toPolynomial F).coeff i =
      if i < n then (a.toPolynomial F).coeff (n - 1 - i) else 0 := by
  rw [coeff_toPolynomial, coeff_mirror, coeff_toPolynomial]
  split
  · rfl
  · exact value_zero

theorem toPolynomial_derivative (ha : a.field = F) :
    a.derivative.toPolynomial F = Polynomial.derivative (a.toPolynomial F) := by
  ext i
  subst ha
  rw [coeff_toPolynomial, derivative, coeff_tabulate, coeff_derivative, coeff_toPolynomial]
  split
  · rw [value_residue, value_mul, value_ofNat]
    push_cast
    rfl
  · rename_i hi
    rw [coeff_eq_zero_of_length_le (by omega), value_zero, zero_mul]

theorem toPolynomial_monic (ha : a.field = F) :
    a.monic.toPolynomial F = a.toPolynomial F * C (a.toPolynomial F).leadingCoeff⁻¹ := by
  subst ha
  by_cases hz : a.toPolynomial a.field = 0
  · rw [monic, leadingCoeff?_eq_none rfl hz, Option.bind_none, hz, zero_mul]
  · obtain ⟨hlead, hval⟩ := leadingCoeff?_eq rfl hz
    have hne : a.field.value (a.coeff (a.length - 1)) ≠ 0 := by
      rw [hval]
      exact leadingCoeff_ne_zero.mpr hz
    rw [monic, hlead, Option.bind_some, inv?_eq_some_word hne, toPolynomial_scale rfl, value_word,
      hval]

theorem toPolynomial_frobeniusRoot (ha : a.field = F) :
    a.frobeniusRoot.toPolynomial F = contract F.modulus.toNat (a.toPolynomial F) := by
  ext i
  rw [coeff_toPolynomial, coeff_contract F.modulus_prime.ne_zero, coeff_toPolynomial, frobeniusRoot,
    coeff_tabulate, ha]
  split
  · rw [value_residue]
  · rename_i hi
    have hlen := (Nat.div_lt_iff_lt_mul F.modulus_prime.pos).mp
      (Nat.lt_succ_of_le (Nat.le_of_not_lt hi))
    rw [Nat.succ_mul] at hlen
    rw [coeff_eq_zero_of_length_le (by omega), value_zero]

/-! ## Values -/

theorem polynomial_cons (c : UInt32) (cs : List UInt32) :
    F.polynomial (c :: cs).toArray = C (F.value c) + X * F.polynomial cs.toArray := by
  ext i
  cases i with
  | zero => simp
  | succ i => simp

theorem value_eval (ha : a.field = F) (v : UInt32) :
    F.value (a.eval v) = (a.toPolynomial F).eval (F.value v) := by
  subst ha
  have hlist : ∀ cs : List UInt32,
      a.field.value (cs.foldr (fun c acc => a.field.mulAdd c acc v) 0) =
        (a.field.polynomial cs.toArray).eval (a.field.value v) := by
    intro cs
    induction cs with
    | nil => simp [polynomial]
    | cons c cs ih =>
      rw [List.foldr_cons, value_mulAdd, ih, polynomial_cons, eval_add, eval_C, eval_mul, eval_X,
        mul_comm (a.field.value v)]
  have h := hlist a.coeffs.toList
  rw [eval, ← Array.foldr_toList, h]
  rfl

theorem reduced_eval (a : Poly) (v : UInt32) : a.field.Reduced (a.eval v) := by
  rw [eval, ← Array.foldr_toList]
  cases a.coeffs.toList with
  | nil => exact a.field.reduced_zero
  | cons c cs => exact a.field.reduced_mulAdd _ _ _

end Poly

end ZeroDim
