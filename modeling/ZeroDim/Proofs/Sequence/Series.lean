import Mathlib
import ZeroDim.Proofs.Sequence.Recurrence

/-! # Numerators of generating series

The generating series of a sequence with recurrence `P` is a fraction with denominator `P`.  Its
numerator has the coefficients `P_{i+1} u_0 + P_{i+2} u_1 + ...`.  Modulo `P`, taking numerators
turns the action of polynomials into multiplication, and the numerator of a sequence is prime to
its minimal recurrence. -/

set_option autoImplicit false

namespace ZeroDim

open Polynomial

variable {K : Type*} [Field K] {P : K[X]} {s u : ℕ → K}

/-- The numerator of the generating series of a sequence, for the denominator `P`. -/
noncomputable def seriesNumerator (P : K[X]) (u : ℕ → K) : K[X] :=
  ∑ i ∈ Finset.range P.natDegree,
    C (∑ j ∈ Finset.range P.natDegree, P.coeff (i + 1 + j) * u j) * X ^ i

theorem coeff_seriesNumerator (P : K[X]) (u : ℕ → K) (i : ℕ) :
    (seriesNumerator P u).coeff i = ∑ j ∈ Finset.range P.natDegree, P.coeff (i + 1 + j) * u j := by
  rw [seriesNumerator, finsetSum_coeff]
  simp only [coeff_C_mul, coeff_X_pow, mul_ite, mul_one, mul_zero]
  rw [Finset.sum_ite_eq]
  split
  · rfl
  · rename_i hi
    symm
    apply Finset.sum_eq_zero
    intro j _
    rw [coeff_eq_zero_of_natDegree_lt (by simp at hi; omega), zero_mul]

theorem degree_seriesNumerator_lt (hP : P ≠ 0) (u : ℕ → K) :
    (seriesNumerator P u).degree < P.degree := by
  rw [degree_eq_natDegree hP, degree_lt_iff_coeff_zero]
  intro i hi
  rw [coeff_seriesNumerator]
  apply Finset.sum_eq_zero
  intro j _
  rw [coeff_eq_zero_of_natDegree_lt (by omega), zero_mul]

theorem seriesNumerator_add (P : K[X]) (s u : ℕ → K) :
    seriesNumerator P (s + u) = seriesNumerator P s + seriesNumerator P u := by
  ext i
  simp only [coeff_add, coeff_seriesNumerator, Pi.add_apply, mul_add, Finset.sum_add_distrib]

theorem seriesNumerator_smul (P : K[X]) (c : K) (u : ℕ → K) :
    seriesNumerator P (c • u) = C c * seriesNumerator P u := by
  ext i
  simp only [coeff_C_mul, coeff_seriesNumerator, Pi.smul_apply, smul_eq_mul, Finset.mul_sum]
  apply Finset.sum_congr rfl
  intro j _
  ring

theorem X_mul_seriesNumerator (hs : act P s = 0) :
    X * seriesNumerator P s = seriesNumerator P (act X s) + C (s 0) * P := by
  have hstep : ∀ i, ∑ j ∈ Finset.range P.natDegree, P.coeff (i + 1 + j) * s (j + 1) +
      s 0 * P.coeff i = ∑ j ∈ Finset.range (P.natDegree + 1), P.coeff (i + j) * s j := by
    intro i
    rw [Finset.sum_range_succ', Nat.add_zero, mul_comm (s 0)]
    congr 1
    apply Finset.sum_congr rfl
    intro j _
    rw [show i + 1 + j = i + (j + 1) by omega]
  have hact : ∀ j, act X s j = s (j + 1) := act_X_apply s
  ext i
  rw [coeff_add, coeff_C_mul, coeff_seriesNumerator]
  simp only [hact]
  rw [hstep]
  cases i with
  | zero =>
    have hzero := congrFun hs 0
    rw [act_apply (degree_lt_succ_natDegree P)] at hzero
    rw [coeff_X_mul_zero]
    simpa using hzero.symm
  | succ i =>
    rw [coeff_X_mul, coeff_seriesNumerator, Finset.sum_range_succ,
      coeff_eq_zero_of_natDegree_lt (by omega), zero_mul, add_zero]

/-- The numerator of `act a s` is `a` times the numerator of `s`, modulo the recurrence. -/
theorem dvd_mul_seriesNumerator_sub (hs : act P s = 0) (a : K[X]) :
    P ∣ a * seriesNumerator P s - seriesNumerator P (act a s) := by
  induction a using Polynomial.induction_on with
  | C c => rw [act_C, seriesNumerator_smul, sub_self]; exact dvd_zero P
  | add a b iha ihb =>
    rw [act_add, seriesNumerator_add]
    have := dvd_add iha ihb
    rwa [show a * seriesNumerator P s - seriesNumerator P (act a s) +
      (b * seriesNumerator P s - seriesNumerator P (act b s)) = (a + b) * seriesNumerator P s -
      (seriesNumerator P (act a s) + seriesNumerator P (act b s)) by ring] at this
  | monomial n c ih =>
    have hP : act P (act (C c * X ^ n) s) = 0 := by rw [act_comm, hs, act_zero_right]
    have hX := X_mul_seriesNumerator hP
    rw [← act_mul, show X * (C c * X ^ n) = C c * X ^ (n + 1) by ring] at hX
    obtain ⟨q, hq⟩ := ih
    refine ⟨X * q + C (act (C c * X ^ n) s 0), ?_⟩
    linear_combination X * hq + hX

theorem eq_zero_of_seriesNumerator_eq_zero (hP : P ≠ 0) (hu : act P u = 0)
    (h : seriesNumerator P u = 0) : u = 0 := by
  apply eq_zero_of_act_eq_zero hP hu
  intro j
  induction j using Nat.strong_induction_on with
  | _ j ih =>
    intro hj
    have hcoeff := congrArg (fun f => f.coeff (P.natDegree - 1 - j)) h
    simp only [coeff_seriesNumerator, coeff_zero] at hcoeff
    rw [Finset.sum_eq_single j] at hcoeff
    · rw [show P.natDegree - 1 - j + 1 + j = P.natDegree by omega] at hcoeff
      exact (mul_eq_zero.mp hcoeff).resolve_left (leadingCoeff_ne_zero.mpr hP)
    · intro m hm hne
      have hm := Finset.mem_range.mp hm
      rcases Nat.lt_or_gt_of_ne hne with hlt | hgt
      · rw [ih m hlt hm, mul_zero]
      · rw [coeff_eq_zero_of_natDegree_lt (by omega), zero_mul]
    · intro hnot
      exact absurd (Finset.mem_range.mpr hj) hnot

theorem IsMinimalRecurrence.isCoprime_seriesNumerator (h : IsMinimalRecurrence P s) :
    IsCoprime (seriesNumerator P s) P := by
  apply isCoprime_of_dvd
  · rintro ⟨-, hz⟩
    exact h.monic.ne_zero hz
  · intro d hd _ hdN hdP
    obtain ⟨Q, hQ⟩ := hdP
    obtain ⟨N, hN⟩ := hdN
    have hQne : Q ≠ 0 := by
      rintro rfl
      exact h.monic.ne_zero (by rw [hQ, mul_zero])
    have hrec : act P (act Q s) = 0 := by rw [act_comm, h.recurrence, act_zero_right]
    -- the cofactor of a common divisor would be a recurrence of smaller degree
    have hdvd : P ∣ seriesNumerator P (act Q s) := by
      have h₁ := dvd_mul_seriesNumerator_sub h.recurrence Q
      have h₂ : P ∣ Q * seriesNumerator P s := by
        rw [hN]
        nth_rewrite 1 [hQ]
        exact ⟨N, by ring⟩
      simpa using dvd_sub h₂ h₁
    have hzero : seriesNumerator P (act Q s) = 0 :=
      eq_zero_of_dvd_of_degree_lt hdvd (degree_seriesNumerator_lt h.monic.ne_zero _)
    have hPQ := h.dvd Q (eq_zero_of_seriesNumerator_eq_zero h.monic.ne_zero hrec hzero)
    apply hd
    obtain ⟨R, hR⟩ := hPQ
    have hone : d * R = 1 := by
      apply mul_right_cancel₀ hQne
      rw [one_mul]
      nth_rewrite 2 [hR]
      rw [hQ]
      ring
    exact IsUnit.of_mul_eq_one R hone

end ZeroDim
