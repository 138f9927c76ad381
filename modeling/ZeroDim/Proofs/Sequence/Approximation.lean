import Mathlib
import ZeroDim.Proofs.KeyEquation
import ZeroDim.Proofs.Poly.Operations
import ZeroDim.Proofs.Strict.Hankel

/-! # Minimal approximations

Stopped at a bound, the recursion on `x ^ high` and `f` leaves the cofactor of least degree for
which cofactor times `f` has a remainder modulo `x ^ high` of at most that many coefficients.  A
smaller cofactor would be a multiple of it, as the rows cross to `x ^ high`; the same crossing makes
the cofactor coprime to that of `x ^ high`, which is not stored.

A bound above `high` stops the recursion before its first step, at the cofactor one.  Stopping twice
leaves the state that the smaller bound leaves alone. -/

set_option autoImplicit false

namespace ZeroDim

open Polynomial PrimeField

variable {F : PrimeField}

namespace KeyEquation

theorem reduceBelow_of_length_le {e : KeyEquation} {bound : ℕ} (h : e.r1.length ≤ bound) :
    e.reduceBelow bound = e := by
  rw [reduceBelow, if_neg (Nat.not_lt.mpr h)]

/-- A stop on the way to a smaller bound changes nothing. -/
theorem reduceBelow_reduceBelow (e : KeyEquation) {bound bound' : ℕ} (h : bound' ≤ bound) :
    (e.reduceBelow bound).reduceBelow bound' = e.reduceBelow bound' := by
  fun_induction reduceBelow e bound with
  | case1 e hlt ih => rw [ih, reduceBelow.eq_def e, if_pos (by omega)]
  | case2 e _ => rfl

section Rows
variable {high : ℕ} {f : F.Element[X]} {e : KeyEquation}

theorem Rows.exists_cofactor (h : e.Rows F high f) :
    ∃ u : F.Element[X], (∀ u', u' * X ^ high + e.v1.toPolynomial F * f = e.r1.toPolynomial F ↔
      u' = u) ∧ IsCoprime (e.v1.toPolynomial F) u := by
  have hpow : (X : F.Element[X]) ^ high ≠ 0 := pow_ne_zero high X_ne_zero
  obtain ⟨k₀, hk₀⟩ := h.first
  obtain ⟨k₁, hk₁⟩ := h.second
  obtain ⟨unit, hunit⟩ := h.cross.symm
  refine ⟨-k₁, fun u' => ⟨fun hu' => ?_, ?_⟩, ?_⟩
  · apply mul_left_cancel₀ hpow
    linear_combination hu' - hk₁
  · rintro rfl
    linear_combination hk₁
  · -- `x ^ high` cancels from the cross product of the rows
    have hbezout : (unit : F.Element[X]) = e.v1.toPolynomial F * k₀ - e.v0.toPolynomial F * k₁ := by
      apply mul_left_cancel₀ hpow
      linear_combination hunit - e.v0.toPolynomial F * hk₁ + e.v1.toPolynomial F * hk₀
    refine ⟨↑unit⁻¹ * k₀, ↑unit⁻¹ * e.v0.toPolynomial F, ?_⟩
    have hinverse := unit.inv_mul
    linear_combination (↑unit⁻¹ : F.Element[X]) * -hbezout + hinverse

theorem Rows.mulLow_eq {f : Poly} (h : e.Rows F high (f.toPolynomial F)) (hf : f.field = F) :
    e.v1.mulLow f high = e.r1 := by
  have hdeg : (e.r1.toPolynomial F).degree < (X ^ high : F.Element[X]).degree := by
    have hadd := h.degree_add
    have hlt := h.degree_remainder
    rw [degree_eq_natDegree h.remainder_ne_zero] at hlt
    rw [degree_X_pow]
    exact lt_of_lt_of_le hlt (by exact_mod_cast (by omega))
  rw [← Poly.toPolynomial_inj ((Poly.field_mulLow _ _ _).trans h.field_v1) h.field_r1,
    Poly.toPolynomial_mulLow h.field_v1 hf, mod_eq_of_dvd_sub h.second,
    (mod_eq_self_iff (pow_ne_zero high X_ne_zero)).mpr hdeg]

theorem Rows.natDegree_cofactor_le_of_short {bound : ℕ} (h : e.Rows F high f)
    (hr1 : e.r1.length ≤ bound) (hr0 : bound < e.r0.length) {v : F.Element[X]} (hv : v ≠ 0)
    (hshort : (v * f % X ^ high : F.Element[X]).degree < bound) :
    (e.v1.toPolynomial F).natDegree ≤ v.natDegree := by
  by_contra hlt
  have hroom := h.natDegree_cofactor_le hr0
  obtain ⟨hdvd, -⟩ := h.dvd_of_short hr1 hr0 (v := v) (by omega) hshort (dvd_sub_mod _ _)
  exact hlt (natDegree_le_of_dvd hdvd hv)

end Rows

theorem rows_start_reduceBelow_any (e : KeyEquation) (he : e.field = F) {high : ℕ} {f : Poly}
    (hf : f.field = F) (hlen : f.length ≤ high) (bound : ℕ) :
    ((e.start high f).reduceBelow bound).Rows F high (f.toPolynomial F) ∧
      ((e.start high f).reduceBelow bound).r1.length ≤ bound ∧
      ∀ v : F.Element[X], v ≠ 0 → (v * f.toPolynomial F % X ^ high : F.Element[X]).degree < bound →
        (((e.start high f).reduceBelow bound).v1.toPolynomial F).natDegree ≤ v.natDegree := by
  rcases Nat.lt_or_ge high bound with hlarge | hle
  · have hstop : (e.start high f).reduceBelow bound = e.start high f :=
      reduceBelow_of_length_le (hlen.trans hlarge.le)
    rw [hstop]
    refine ⟨rows_start e he hf hlen, hlen.trans hlarge.le, fun v _ _ => ?_⟩
    subst he
    rw [start, Poly.toPolynomial_one, natDegree_one]
    exact Nat.zero_le _
  · obtain ⟨hrows, hr1, hr0⟩ := rows_start_reduceBelow e he hf hlen hle
    exact ⟨hrows, hr1, fun v hv hshort => hrows.natDegree_cofactor_le_of_short hr1 hr0 hv hshort⟩

/-- The recursion stops without a division by zero, at the cofactor of least degree whose remainder
keeps within the bound; a second stop at a smaller bound is one stop at that bound. -/
theorem reduceBelow_minimal (e : KeyEquation) (he : e.field = F) {high : ℕ} {f : Poly}
    (hf : f.field = F) (hlen : f.length ≤ high) (bound : ℕ) :
    ∃ s, Strict.KeyEquation.reduceBelow (e.start high f) bound = .ok s ∧
      (e.start high f).reduceBelow bound = s ∧ s.r1.length ≤ bound ∧ s.v1.isZero = false ∧
      s.v1.mulLow f high = s.r1 ∧ s.v1.natDegree + s.r0.natDegree = high ∧
      (∃ u : F.Element[X], (∀ u', u' * X ^ high + s.v1.toPolynomial F * f.toPolynomial F =
        s.r1.toPolynomial F ↔ u' = u) ∧ IsCoprime (s.v1.toPolynomial F) u) ∧
      (∀ v : F.Element[X], v ≠ 0 → (v * f.toPolynomial F % X ^ high : F.Element[X]).degree < bound →
        s.v1.natDegree ≤ v.natDegree) ∧
      ∀ bound' ≤ bound, s.reduceBelow bound' = (e.start high f).reduceBelow bound' ∧
        Strict.KeyEquation.reduceBelow s bound' = .ok ((e.start high f).reduceBelow bound') := by
  obtain ⟨hrows, hshort, hminimal⟩ := rows_start_reduceBelow_any e he hf hlen bound
  obtain ⟨hrun, hover⟩ := Strict.KeyEquation.descend_eq he hf high bound
  have hadd := hrows.degree_add
  rw [Poly.natDegree_toPolynomial hrows.field_v1,
    Poly.natDegree_toPolynomial hrows.field_r0] at hadd
  refine ⟨(e.start high f).reduceBelow bound, hrun, rfl, hshort, ?_, hrows.mulLow_eq hf, hadd,
    hrows.exists_cofactor, ?_, ?_⟩
  · exact (Poly.isZero_eq_false_iff hrows.field_v1).mpr hrows.cofactor_ne_zero
  · rw [← Poly.natDegree_toPolynomial hrows.field_v1]
    exact hminimal
  · intro bound' hle
    have hstop := reduceBelow_reduceBelow (e.start high f) hle
    refine ⟨hstop, ?_⟩
    rw [← hstop]
    exact (Strict.KeyEquation.reduceBelow_eq bound' hover).1

/-- The mirrored points 3, 1, 4, 1, 5, 9 over 101 elements, stopped half way after three steps: no
cofactor of degree below three has so short a remainder. -/
theorem reduceBelow_minimal_sixPoints :
    ∃ (F : PrimeField) (f : Poly), F.modulus = 101 ∧ f = .ofCoeffs F #[9, 5, 1, 4, 1, 3] ∧
      f.field = F ∧ f.length ≤ 6 ∧
      (((empty F).start 6 f).reduceBelow 3).v1 = .ofCoeffs F #[14, 8, 69, 78] ∧
      (((empty F).start 6 f).reduceBelow 3).r1 = .ofCoeffs F #[25, 41, 69] ∧
      (Poly.ofCoeffs F #[14, 8, 69, 78]).mulLow f 6 = .ofCoeffs F #[25, 41, 69] ∧
      ∀ v : F.Element[X], v ≠ 0 →
        (v * f.toPolynomial F % X ^ 6 : F.Element[X]).degree < (3 : ℕ) → 3 ≤ v.natDegree := by
  let F : PrimeField := ⟨101, by decide +kernel, by decide⟩
  let f := Poly.ofCoeffs F #[9, 5, 1, 4, 1, 3]
  let e := (empty F).start 6 f
  have hsteps : e.reduceBelow 3 = e.step.step.step := by
    rw [reduceBelow, if_pos (by decide +kernel), reduceBelow, if_pos (by decide +kernel),
      reduceBelow, if_pos (by decide +kernel)]
    exact reduceBelow_of_length_le (by decide +kernel)
  have hv1 : (e.reduceBelow 3).v1 = .ofCoeffs F #[14, 8, 69, 78] := by
    rw [hsteps]
    decide +kernel
  have hr1 : (e.reduceBelow 3).r1 = .ofCoeffs F #[25, 41, 69] := by
    rw [hsteps]
    decide +kernel
  have hlen : f.length ≤ 6 := by decide +kernel
  obtain ⟨s, -, rfl, -, -, hremainder, -, -, hminimal, -⟩ :=
    reduceBelow_minimal (empty F) rfl (f := f) rfl hlen 3
  have hdegree : (Poly.ofCoeffs F #[14, 8, 69, 78]).natDegree = 3 := by decide +kernel
  rw [hv1, hr1] at hremainder
  rw [hv1, hdegree] at hminimal
  exact ⟨F, f, rfl, rfl, rfl, hlen, hv1, hr1, hremainder, hminimal⟩

end KeyEquation

end ZeroDim
