import Mathlib
import ZeroDim.Numerator
import ZeroDim.Proofs.Poly.Division
import ZeroDim.Proofs.Sequence.Series

/-! # Quotients of numerators

The truncated product of a stream with its recurrence is the numerator of the generating series.
For a stream `act a s` the numerator is `a` times that of `s`, modulo the recurrence, so that the
quotient of the two is `a` modulo every divisor of the recurrence that is prime to the numerator
of `s`. -/

set_option autoImplicit false

namespace ZeroDim

open Polynomial PrimeField

variable {F : PrimeField} {minimal eliminant : Poly} {stream : Array UInt32} {u : ℕ → F.Element}

theorem numerator_spec (hP : minimal.field = F) (hsize : minimal.natDegree ≤ stream.size)
    (hu : ∀ i < minimal.natDegree, F.terms stream i = u i) :
    ∃ N, numerator F stream minimal = .ok N ∧ N.field = F ∧
      N.toPolynomial F = seriesNumerator (minimal.toPolynomial F) u := by
  set l := minimal.natDegree with hl
  set cs := stream.extract 0 l with hcs
  have hcsize : cs.size = l := by
    rw [hcs, Array.size_extract]
    omega
  refine ⟨(Poly.ofCoeffs F cs.reverse * minimal).shiftDown l, ?_, rfl, ?_⟩
  · rw [numerator, segment_eq_ok (Nat.zero_le _) hsize, ok_bind]
    rfl
  · ext i
    rw [Poly.coeff_toPolynomial, Poly.coeff_shiftDown, ← Poly.coeff_toPolynomial,
      Poly.toPolynomial_mul (Poly.field_ofCoeffs F _) hP, Poly.toPolynomial_ofCoeffs, coeff_mul,
      Finset.Nat.sum_antidiagonal_eq_sum_range_succ_mk, coeff_seriesNumerator,
      Poly.natDegree_toPolynomial hP, ← hl]
    have hvanish : ∀ j ∈ Finset.range (l + i + 1), j ∉ Finset.range l →
        (F.polynomial cs.reverse).coeff (j, l + i - j).1 *
          (minimal.toPolynomial F).coeff (j, l + i - j).2 = 0 := by
      intro j _ hj
      rw [coeff_polynomial, getD_eq_zero_of_size_le (by simp at hj; simp; omega), value_zero,
        zero_mul]
    rw [← Finset.sum_subset (Finset.range_subset_range.mpr (by omega)) hvanish,
      ← Finset.sum_range_reflect]
    apply Finset.sum_congr rfl
    intro j hj
    have hj := Finset.mem_range.mp hj
    simp only
    rw [coeff_polynomial_reverse (by omega), hcsize, hcs, getD_extract (by omega), ← terms,
      show 0 + (l - 1 - (l - 1 - j)) = j by omega, hu j hj, mul_comm,
      show l + i - (l - 1 - j) = i + 1 + j by omega]

section Quotient
variable (hP : minimal.field = F) (hE : eliminant.field = F) (hne : eliminant.toPolynomial F ≠ 0)
  (hsize : minimal.natDegree ≤ stream.size) (hu : ∀ i < minimal.natDegree, F.terms stream i = u i)
include hP hE hne hsize hu

theorem numeratorInverse?_of_isCoprime
    (hco : IsCoprime (seriesNumerator (minimal.toPolynomial F) u) (eliminant.toPolynomial F)) :
    ∃ inverse, numeratorInverse? minimal eliminant stream = .ok (some inverse) ∧
      inverse.field = F ∧ eliminant.toPolynomial F ∣
        seriesNumerator (minimal.toPolynomial F) u * inverse.toPolynomial F - 1 := by
  obtain ⟨N, hN, hNfield, hNeq⟩ := numerator_spec hP hsize hu
  rw [← hNeq] at hco ⊢
  obtain ⟨inverse, hinv, hfield, -, hspec⟩ := Poly.inverseMod?_of_isCoprime hNfield hE hne hco
  refine ⟨inverse, ?_, hfield, hspec⟩
  rw [numeratorInverse?, hE, hN, ok_bind, hinv]

theorem numeratorInverse?_of_not_isCoprime
    (hco : ¬IsCoprime (seriesNumerator (minimal.toPolynomial F) u) (eliminant.toPolynomial F)) :
    numeratorInverse? minimal eliminant stream = .ok none := by
  obtain ⟨N, hN, hNfield, hNeq⟩ := numerator_spec hP hsize hu
  rw [← hNeq] at hco
  rw [numeratorInverse?, hE, hN, ok_bind, Poly.inverseMod?_of_not_isCoprime hNfield hE hne hco]

theorem numeratorQuotient_spec {inverse : Poly} (hI : inverse.field = F) :
    ∃ q, numeratorQuotient minimal eliminant stream inverse = .ok q ∧ q.field = F ∧
      q.toPolynomial F = seriesNumerator (minimal.toPolynomial F) u * inverse.toPolynomial F %
        eliminant.toPolynomial F := by
  obtain ⟨N, hN, hNfield, hNeq⟩ := numerator_spec hP hsize hu
  have hred : (N % eliminant).field = F := (Poly.field_mod _ _).trans hNfield
  have hprod : (N % eliminant * inverse).field = F := hred
  refine ⟨N % eliminant * inverse % eliminant, ?_, (Poly.field_mod _ _).trans hprod, ?_⟩
  · rw [numeratorQuotient, hE, hN, ok_bind, Poly.mod?_eq_ok N hE hne, ok_bind,
      Poly.mod?_eq_ok _ hE hne]
  · rw [Poly.toPolynomial_mod hprod hE, Poly.toPolynomial_mul hred hI,
      Poly.toPolynomial_mod hNfield hE, hNeq]
    apply Polynomial.mod_eq_of_dvd_sub
    rw [← sub_mul, ← dvd_neg, ← neg_mul, neg_sub]
    exact (dvd_sub_mod _ _).mul_right _

end Quotient

theorem combinedStream_spec (hE : eliminant.field = F) (minimal : Poly) (scalar : UInt32)
    {a b : Array UInt32} (ha : minimal.natDegree ≤ a.size) (hb : minimal.natDegree ≤ b.size) :
    ∃ c, combinedStream minimal eliminant scalar a b = .ok c ∧ c.size = minimal.natDegree ∧
      ∀ i < minimal.natDegree, F.terms c i = F.terms a i + F.value scalar * F.terms b i := by
  subst hE
  refine ⟨(a.extract 0 minimal.natDegree).zipWith (fun x y => eliminant.field.mulAdd x scalar y)
    (b.extract 0 minimal.natDegree), ?_, ?_, ?_⟩
  · rw [combinedStream, segment_eq_ok (Nat.zero_le _) ha, ok_bind,
      segment_eq_ok (Nat.zero_le _) hb, ok_bind]
    rfl
  · rw [Array.size_zipWith, Array.size_extract, Array.size_extract]
    omega
  · intro i hi
    have hia : i < a.size := by omega
    have hib : i < b.size := by omega
    simp [PrimeField.terms, Array.getD_eq_getD_getElem?, hi, hia, hib]

/-- The quotient for `act a s` is `a`, modulo a divisor of the recurrence. -/
theorem seriesNumerator_act_mul_mod {K : Type*} [Field K] {P E a inverse : K[X]} {s : ℕ → K}
    (hs : act P s = 0) (hE : E ∣ P) (hinv : E ∣ seriesNumerator P s * inverse - 1) :
    seriesNumerator P (act a s) * inverse % E = a % E := by
  apply Polynomial.mod_eq_of_dvd_sub
  have h₁ := (hE.trans (dvd_mul_seriesNumerator_sub hs a)).mul_right inverse
  have h₂ := dvd_sub (hinv.mul_left a) h₁
  rwa [show a * (seriesNumerator P s * inverse - 1) -
    (a * seriesNumerator P s - seriesNumerator P (act a s)) * inverse =
      seriesNumerator P (act a s) * inverse - a by ring] at h₂

end ZeroDim
