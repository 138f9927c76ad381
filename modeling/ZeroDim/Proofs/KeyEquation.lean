import Mathlib
import ZeroDim.KeyEquation
import ZeroDim.Proofs.Poly.Division
import ZeroDim.Proofs.Sequence.Recurrence

/-! # Solutions of the key equation

Two successive rows of the recursion keep their congruences, the degrees of cofactors and
remainders add up to `high`, and the rows stay independent: their cross product is `x ^ high` up to
a unit.  Every short solution is therefore a multiple of the last cofactor, and the cofactor that
is left for the mirrored terms of a sequence is its minimal recurrence, as soon as a recurrence of
half the length exists. -/

set_option autoImplicit false

namespace ZeroDim

open Polynomial PrimeField

variable {F : PrimeField}

namespace KeyEquation

/-- What two rows of the recursion on `x ^ high` and `f` have in common. -/
structure Rows (F : PrimeField) (high : ℕ) (f : F.Element[X]) (e : KeyEquation) : Prop where
  field_r0 : e.r0.field = F
  field_r1 : e.r1.field = F
  field_v0 : e.v0.field = F
  field_v1 : e.v1.field = F
  first : X ^ high ∣ e.v0.toPolynomial F * f - e.r0.toPolynomial F
  second : X ^ high ∣ e.v1.toPolynomial F * f - e.r1.toPolynomial F
  cross : Associated (e.v0.toPolynomial F * e.r1.toPolynomial F -
    e.v1.toPolynomial F * e.r0.toPolynomial F) (X ^ high)
  degree_cofactor : (e.v0.toPolynomial F).degree < (e.v1.toPolynomial F).degree
  degree_remainder : (e.r1.toPolynomial F).degree < (e.r0.toPolynomial F).degree
  degree_add : (e.v1.toPolynomial F).natDegree + (e.r0.toPolynomial F).natDegree = high

theorem rows_start (e : KeyEquation) (he : e.field = F) {high : ℕ} {f : Poly} (hf : f.field = F)
    (hlen : f.length ≤ high) : (e.start high f).Rows F high (f.toPolynomial F) := by
  subst he
  have hmono : (Poly.monomial e.field 1 high).toPolynomial e.field = X ^ high := by
    rw [Poly.toPolynomial_monomial, value_one, C_1, one_mul]
  have hdeg := (Poly.length_le_iff hf high).mp hlen
  refine ⟨rfl, hf, rfl, rfl, ?_, ?_, ?_, ?_, ?_, ?_⟩ <;>
    simp only [start, hmono, Poly.toPolynomial_zero, Poly.toPolynomial_one]
  · simp
  · simp
  · rw [zero_mul, one_mul, zero_sub]
    exact Associated.rfl.neg_left
  · rw [degree_zero, degree_one]
    exact WithBot.bot_lt_coe 0
  · rwa [degree_X_pow]
  · rw [natDegree_one, natDegree_X_pow, Nat.zero_add]

namespace Rows

variable {high : ℕ} {f : F.Element[X]} {e : KeyEquation}

theorem cofactor_ne_zero (h : e.Rows F high f) : e.v1.toPolynomial F ≠ 0 := by
  intro hz
  have := h.degree_cofactor
  rw [hz, degree_zero] at this
  exact not_lt_bot this

theorem remainder_ne_zero (h : e.Rows F high f) : e.r0.toPolynomial F ≠ 0 := by
  intro hz
  have := h.degree_remainder
  rw [hz, degree_zero] at this
  exact not_lt_bot this

theorem natDegree_quotient (h : e.Rows F high f) (hr : e.r1.toPolynomial F ≠ 0) :
    (e.r1.toPolynomial F).natDegree +
        (e.r0.toPolynomial F / e.r1.toPolynomial F).natDegree = (e.r0.toPolynomial F).natDegree ∧
      0 < (e.r0.toPolynomial F / e.r1.toPolynomial F).natDegree := by
  have hsum := degree_add_div hr h.degree_remainder.le
  have hlt := natDegree_lt_natDegree hr h.degree_remainder
  have hqne : e.r0.toPolynomial F / e.r1.toPolynomial F ≠ 0 := by
    intro hz
    rw [hz, degree_zero, WithBot.add_bot] at hsum
    exact h.remainder_ne_zero (degree_eq_bot.mp hsum.symm)
  rw [degree_eq_natDegree hr, degree_eq_natDegree hqne,
    degree_eq_natDegree h.remainder_ne_zero] at hsum
  norm_cast at hsum
  omega

theorem degree_next (h : e.Rows F high f) (hr : e.r1.toPolynomial F ≠ 0) :
    (e.v0.toPolynomial F -
        e.r0.toPolynomial F / e.r1.toPolynomial F * e.v1.toPolynomial F).degree =
      ((e.r0.toPolynomial F / e.r1.toPolynomial F).natDegree +
        (e.v1.toPolynomial F).natDegree : ℕ) := by
  obtain ⟨-, hpos⟩ := h.natDegree_quotient hr
  have hqne : e.r0.toPolynomial F / e.r1.toPolynomial F ≠ 0 := ne_zero_of_natDegree_gt hpos
  have hprod : (e.r0.toPolynomial F / e.r1.toPolynomial F * e.v1.toPolynomial F).degree =
      ((e.r0.toPolynomial F / e.r1.toPolynomial F).natDegree +
        (e.v1.toPolynomial F).natDegree : ℕ) := by
    rw [degree_mul, degree_eq_natDegree hqne, degree_eq_natDegree h.cofactor_ne_zero, Nat.cast_add]
  rw [degree_sub_eq_right_of_degree_lt, hprod]
  have hv := h.degree_cofactor
  rw [degree_eq_natDegree h.cofactor_ne_zero] at hv
  rw [hprod]
  exact lt_of_lt_of_le hv (by exact_mod_cast Nat.le_add_left _ _)

theorem step (h : e.Rows F high f) (hr : e.r1.toPolynomial F ≠ 0) : e.step.Rows F high f := by
  obtain ⟨hsum, hpos⟩ := h.natDegree_quotient hr
  have hnext := h.degree_next hr
  have hq : (e.r0 / e.r1).field = F := (Poly.field_div _ _).trans h.field_r0
  have hmod : e.step.r1.toPolynomial F = e.r0.toPolynomial F % e.r1.toPolynomial F :=
    Poly.toPolynomial_mod h.field_r0 h.field_r1
  have hcof : e.step.v1.toPolynomial F = e.v0.toPolynomial F -
      e.r0.toPolynomial F / e.r1.toPolynomial F * e.v1.toPolynomial F := by
    change (e.v0 - e.r0 / e.r1 * e.v1).toPolynomial F = _
    rw [Poly.toPolynomial_sub h.field_v0 ((Poly.field_mul _ _).trans hq),
      Poly.toPolynomial_mul hq h.field_v1, Poly.toPolynomial_div h.field_r0 h.field_r1]
  have hdiv := EuclideanDomain.div_add_mod (e.r0.toPolynomial F) (e.r1.toPolynomial F)
  have hr0 : e.step.r0 = e.r1 := rfl
  have hv0 : e.step.v0 = e.v1 := rfl
  refine ⟨h.field_r1, (Poly.field_mod _ _).trans h.field_r0, h.field_v1, h.field_v0, ?_, ?_, ?_,
    ?_, ?_, ?_⟩
  · exact h.second
  · rw [hmod, hcof]
    have := dvd_sub h.first (h.second.mul_left (e.r0.toPolynomial F / e.r1.toPolynomial F))
    rwa [show e.v0.toPolynomial F * f - e.r0.toPolynomial F -
        e.r0.toPolynomial F / e.r1.toPolynomial F *
          (e.v1.toPolynomial F * f - e.r1.toPolynomial F) =
        (e.v0.toPolynomial F - e.r0.toPolynomial F / e.r1.toPolynomial F * e.v1.toPolynomial F) * f -
          e.r0.toPolynomial F % e.r1.toPolynomial F by linear_combination hdiv] at this
  · rw [hmod, hcof, hr0, hv0]
    have hcross := h.cross.neg_left
    rwa [show -(e.v0.toPolynomial F * e.r1.toPolynomial F -
        e.v1.toPolynomial F * e.r0.toPolynomial F) =
        e.v1.toPolynomial F * (e.r0.toPolynomial F % e.r1.toPolynomial F) -
          (e.v0.toPolynomial F - e.r0.toPolynomial F / e.r1.toPolynomial F * e.v1.toPolynomial F) *
            e.r1.toPolynomial F by linear_combination -e.v1.toPolynomial F * hdiv] at hcross
  · rw [hcof, hv0, hnext, degree_eq_natDegree h.cofactor_ne_zero]
    exact_mod_cast Nat.lt_add_of_pos_left hpos
  · rw [hmod]
    exact degree_mod_lt _ hr
  · have hadd := h.degree_add
    rw [hcof, hr0, natDegree_eq_of_degree_eq_some hnext]
    omega

theorem dvd_of_short {bound : ℕ} (h : e.Rows F high f) (hr1 : e.r1.length ≤ bound)
    (hr0 : bound < e.r0.length) {v r : F.Element[X]} (hv : v.natDegree + bound ≤ high)
    (hr : r.degree < bound) (hsol : X ^ high ∣ v * f - r) :
    e.v1.toPolynomial F ∣ v ∧ v * e.r1.toPolynomial F = r * e.v1.toPolynomial F := by
  have hr1deg := (Poly.length_le_iff h.field_r1 bound).mp hr1
  have hr0deg : bound ≤ (e.r0.toPolynomial F).natDegree := by
    have := Poly.length_eq_natDegree_add_one h.field_r0 h.remainder_ne_zero
    omega
  have hlt : (v * e.r1.toPolynomial F - r * e.v1.toPolynomial F).degree < high := by
    have hadd := h.degree_add
    refine lt_of_le_of_lt (degree_sub_le _ _) (max_lt ?_ ?_)
    · refine lt_of_lt_of_le (degree_mul_lt (degree_lt_succ_natDegree v) hr1deg) ?_
      exact_mod_cast (by omega)
    · refine lt_of_lt_of_le (degree_mul_lt hr (degree_lt_succ_natDegree _)) ?_
      exact_mod_cast (by omega)
  have hdvd : X ^ high ∣ v * e.r1.toPolynomial F - r * e.v1.toPolynomial F := by
    have := dvd_sub (hsol.mul_left (e.v1.toPolynomial F)) (h.second.mul_left v)
    rwa [show e.v1.toPolynomial F * (v * f - r) - v * (e.v1.toPolynomial F * f -
      e.r1.toPolynomial F) = v * e.r1.toPolynomial F - r * e.v1.toPolynomial F by ring] at this
  -- the two products agree modulo `x ^ high`, and both are shorter
  have heq : v * e.r1.toPolynomial F = r * e.v1.toPolynomial F :=
    sub_eq_zero.mp (eq_zero_of_dvd_of_degree_lt hdvd (by rwa [degree_X_pow]))
  refine ⟨?_, heq⟩
  obtain ⟨c, hc⟩ : X ^ high ∣ e.v0.toPolynomial F * r - v * e.r0.toPolynomial F := by
    have := dvd_sub (h.first.mul_left v) (hsol.mul_left (e.v0.toPolynomial F))
    rwa [show v * (e.v0.toPolynomial F * f - e.r0.toPolynomial F) -
      e.v0.toPolynomial F * (v * f - r) =
      e.v0.toPolynomial F * r - v * e.r0.toPolynomial F by ring] at this
  -- the remainders and the cofactors cross to `x ^ high`, so the cofactor divides `v` itself
  obtain ⟨u, hu⟩ := h.cross.symm
  have hmul : X ^ high * (v * (u : F.Element[X])) = X ^ high * (e.v1.toPolynomial F * c) := by
    linear_combination v * hu + e.v0.toPolynomial F * heq + e.v1.toPolynomial F * hc
  have hvu := mul_left_cancel₀ (pow_ne_zero high X_ne_zero) hmul
  have hdvd' : e.v1.toPolynomial F ∣ v * (u : F.Element[X]) := ⟨c, hvu⟩
  exact u.isUnit.dvd_mul_right.mp hdvd'

end Rows

/-! ## Runs of the recursion -/

theorem field_reduceBelow (e : KeyEquation) (bound : ℕ) :
    (e.reduceBelow bound).field = e.field := by
  fun_induction reduceBelow e bound with
  | case1 e _ ih => exact ih
  | case2 e _ => rfl

theorem rows_reduceBelow {high : ℕ} {f : F.Element[X]} (e : KeyEquation) (bound : ℕ)
    (h : e.Rows F high f) (hb : bound < e.r0.length) :
    (e.reduceBelow bound).Rows F high f ∧ (e.reduceBelow bound).r1.length ≤ bound ∧
      bound < (e.reduceBelow bound).r0.length := by
  fun_induction reduceBelow e bound with
  | case1 e hlt ih =>
    have hne : e.r1.toPolynomial F ≠ 0 := by
      intro hz
      have := (Poly.length_eq_zero_iff_toPolynomial h.field_r1).mpr hz
      omega
    exact ih (h.step hne) hlt
  | case2 e hle => exact ⟨h, Nat.le_of_not_lt hle, hb⟩

theorem rows_start_reduceBelow (e : KeyEquation) (he : e.field = F) {high bound : ℕ} {f : Poly}
    (hf : f.field = F) (hlen : f.length ≤ high) (hb : bound ≤ high) :
    ((e.start high f).reduceBelow bound).Rows F high (f.toPolynomial F) ∧
      ((e.start high f).reduceBelow bound).r1.length ≤ bound ∧
      bound < ((e.start high f).reduceBelow bound).r0.length := by
  have hrows := rows_start e he hf hlen
  apply rows_reduceBelow _ _ hrows
  have hr0 : (e.start high f).r0.toPolynomial F = X ^ high := by
    subst he
    change (Poly.monomial e.field 1 high).toPolynomial e.field = X ^ high
    rw [Poly.toPolynomial_monomial, value_one, C_1, one_mul]
  rw [Poly.length_eq_natDegree_add_one hrows.field_r0 hrows.remainder_ne_zero, hr0,
    natDegree_X_pow]
  omega

theorem Rows.coeff_mul {high : ℕ} {f : F.Element[X]} {e : KeyEquation} (h : e.Rows F high f) {i : ℕ}
    (hi : i < high) : (e.v1.toPolynomial F * f).coeff i = (e.r1.toPolynomial F).coeff i := by
  have hz := X_pow_dvd_iff.mp h.second i hi
  rwa [coeff_sub, sub_eq_zero] at hz

theorem Rows.natDegree_cofactor_le {high bound : ℕ} {f : F.Element[X]} {e : KeyEquation}
    (h : e.Rows F high f) (hb : bound < e.r0.length) :
    (e.v1.toPolynomial F).natDegree + bound ≤ high := by
  have hadd := h.degree_add
  have hlen := Poly.length_eq_natDegree_add_one h.field_r0 h.remainder_ne_zero
  omega

/-! ## Mirrored sequences -/

section Mirrored
variable {s : Array UInt32} {e : KeyEquation}

/-- The cofactor takes the terms to zero as far as the remainder has no coefficients. -/
theorem Rows.act_cofactor_eq_zero (h : e.Rows F s.size (F.polynomial s.reverse)) {i : ℕ}
    (h₁ : i + (e.v1.toPolynomial F).natDegree < s.size) (h₂ : i + e.r1.length < s.size) :
    act (e.v1.toPolynomial F) (F.terms s) i = 0 := by
  have hcoeff := h.coeff_mul (show s.size - 1 - i < s.size by omega)
  rw [coeff_mul_of_mirrored (s := F.terms s) (N := s.size - 1)] at hcoeff
  · rw [show s.size - 1 - (s.size - 1 - i) = i by omega] at hcoeff
    rw [hcoeff, Poly.coeff_toPolynomial, Poly.coeff_eq_zero_of_length_le (by omega), value_zero]
  · exact lt_of_lt_of_le (degree_lt_succ_natDegree _) (by exact_mod_cast (by omega))
  · omega
  · intro j hj
    exact coeff_polynomial_reverse (by omega)

theorem degree_mul_mod_lt {g : F.Element[X]} {m : ℕ} (hg : g.degree < (m + 1 : ℕ))
    (hzero : ∀ i, i + m < s.size → act g (F.terms s) i = 0) :
    (g * F.polynomial s.reverse % X ^ s.size : F.Element[X]).degree < m := by
  rw [degree_lt_iff_coeff_zero]
  intro k hk
  by_cases hlt : k < s.size
  · have hcoeff := X_pow_dvd_iff.mp (dvd_sub_mod (g * F.polynomial s.reverse) (X ^ s.size)) k hlt
    rw [coeff_sub, sub_eq_zero] at hcoeff
    rw [← hcoeff, coeff_mul_of_mirrored (s := F.terms s) (N := s.size - 1)]
    · exact hzero _ (by omega)
    · exact lt_of_lt_of_le hg (by exact_mod_cast (by omega))
    · omega
    · intro j hj
      exact coeff_polynomial_reverse (by omega)
  · apply coeff_eq_zero_of_degree_lt
    refine lt_of_lt_of_le (degree_mod_lt _ (pow_ne_zero _ X_ne_zero)) ?_
    rw [degree_X_pow]
    exact_mod_cast Nat.le_of_not_lt hlt

theorem Rows.dvd_of_act_eq_zero {bound m : ℕ} (h : e.Rows F s.size (F.polynomial s.reverse))
    (hr1 : e.r1.length ≤ bound) (hr0 : bound < e.r0.length) {g : F.Element[X]}
    (hg : g.degree < (m + 1 : ℕ)) (hm : m ≤ bound) (hbound : g.natDegree + bound ≤ s.size)
    (hzero : ∀ i, i + m < s.size → act g (F.terms s) i = 0) :
    e.v1.toPolynomial F ∣ g ∧
      ∃ r : F.Element[X], r.degree < m ∧ g * e.r1.toPolynomial F = r * e.v1.toPolynomial F := by
  have hrdeg := degree_mul_mod_lt hg hzero
  obtain ⟨hdvd, heq⟩ := h.dvd_of_short hr1 hr0 hbound
    (lt_of_lt_of_le hrdeg (by exact_mod_cast hm)) (dvd_sub_mod _ _)
  exact ⟨hdvd, _, hrdeg, heq⟩

end Mirrored

/-! ## The minimal polynomial of a sequence -/

theorem terms_map_residue (F : PrimeField) (s : Array UInt32) (i : ℕ) :
    F.terms (s.map F.residue) i = F.terms s i := by
  rw [terms, terms, Array.getD_eq_getD_getElem?, Array.getD_eq_getD_getElem?, Array.getElem?_map]
  cases s[i]? with
  | none => rfl
  | some a => exact value_residue

theorem points_addPoints (F : PrimeField) (s : Array UInt32) :
    ((empty F).addPoints s).points = s.map F.residue := Array.empty_append

theorem terms_points_addPoints (F : PrimeField) (s : Array UInt32) (i : ℕ) :
    F.terms ((empty F).addPoints s).points i = F.terms s i := by
  rw [points_addPoints, terms_map_residue]

theorem size_points_addPoints (F : PrimeField) (s : Array UInt32) :
    ((empty F).addPoints s).points.size = s.size := by
  rw [points_addPoints, Array.size_map]

theorem rows_solve (e : KeyEquation) (he : e.field = F) :
    e.solve.Rows F e.points.size (F.polynomial e.points.reverse) ∧
      e.solve.r1.length ≤ (e.points.size + 1) / 2 ∧
      (e.points.size + 1) / 2 < e.solve.r0.length := by
  have hlen : (Poly.ofCoeffs e.field e.points.reverse).length ≤ e.points.size := by
    simpa using Poly.length_ofCoeffs_le e.field e.points.reverse
  obtain ⟨h, hr1, hr0⟩ := rows_start_reduceBelow e he (f := .ofCoeffs e.field e.points.reverse) he
    hlen (show (e.points.size + 1) / 2 ≤ e.points.size by omega)
  subst he
  rw [Poly.toPolynomial_ofCoeffs] at h
  exact ⟨⟨h.field_r0, h.field_r1, h.field_v0, h.field_v1, h.first, h.second, h.cross,
    h.degree_cofactor, h.degree_remainder, h.degree_add⟩, hr1, hr0⟩

section Solve
variable (e : KeyEquation) (he : e.field = F)
include he

theorem act_solve_cofactor {i : ℕ} (h₁ : i + (e.solve.v1.toPolynomial F).natDegree < e.points.size)
    (h₂ : i + e.solve.r1.length < e.points.size) :
    act (e.solve.v1.toPolynomial F) (F.terms e.points) i = 0 :=
  (rows_solve e he).1.act_cofactor_eq_zero h₁ h₂

/-- The last cofactor divides every recurrence of at most half the length, and if there is one,
its remainder is shorter than itself. -/
theorem solve_cofactor_dvd {Q : F.Element[X]} (hdeg : 2 * Q.natDegree ≤ e.points.size)
    (hQ : ∀ i, i + Q.natDegree < e.points.size → act Q (F.terms e.points) i = 0) :
    e.solve.v1.toPolynomial F ∣ Q ∧
      (Q ≠ 0 → e.solve.r1.length ≤ (e.solve.v1.toPolynomial F).natDegree) := by
  obtain ⟨h, hr1, hr0⟩ := rows_solve e he
  obtain ⟨hdvd, r, hrdeg, heq⟩ := h.dvd_of_act_eq_zero hr1 hr0 (degree_lt_succ_natDegree Q)
    (by omega) (by omega) hQ
  refine ⟨hdvd, ?_⟩
  intro hne
  rw [Poly.length_le_iff h.field_r1, ← degree_eq_natDegree h.cofactor_ne_zero]
  have hmul := congrArg Polynomial.degree heq
  rw [degree_mul, degree_mul, degree_eq_natDegree hne] at hmul
  by_contra hle
  rw [not_lt] at hle
  rw [degree_eq_natDegree h.cofactor_ne_zero] at hmul hle
  have hlt : r.degree + ((e.solve.v1.toPolynomial F).natDegree : WithBot ℕ) <
      (Q.natDegree : WithBot ℕ) + ((e.solve.v1.toPolynomial F).natDegree : WithBot ℕ) :=
    WithBot.add_lt_add_right (WithBot.natCast_ne_bot _) hrdeg
  rw [← hmul] at hlt
  exact absurd (add_le_add_right hle (Q.natDegree : WithBot ℕ)) (not_le.mpr hlt)

theorem field_minimalPolynomial : e.solve.minimalPolynomial.field = F := by
  rw [minimalPolynomial, Poly.field_monic]
  exact (rows_solve e he).1.field_v1

theorem associated_minimalPolynomial :
    Associated (e.solve.minimalPolynomial.toPolynomial F) (e.solve.v1.toPolynomial F) :=
  Poly.associated_toPolynomial_monic (rows_solve e he).1.field_v1

theorem monic_minimalPolynomial : (e.solve.minimalPolynomial.toPolynomial F).Monic :=
  Poly.monic_toPolynomial_monic (rows_solve e he).1.field_v1 (rows_solve e he).1.cofactor_ne_zero

theorem natDegree_minimalPolynomial_eq :
    (e.solve.minimalPolynomial.toPolynomial F).natDegree =
      (e.solve.v1.toPolynomial F).natDegree :=
  natDegree_eq_of_degree_eq (degree_eq_degree_of_associated (associated_minimalPolynomial e he))

theorem natDegree_minimalPolynomial_le :
    (e.solve.minimalPolynomial.toPolynomial F).natDegree ≤ e.points.size / 2 := by
  obtain ⟨h, -, hr0⟩ := rows_solve e he
  rw [natDegree_minimalPolynomial_eq e he]
  have := h.natDegree_cofactor_le hr0
  omega

theorem act_minimalPolynomial {s : ℕ → F.Element} {i : ℕ}
    (h : act (e.solve.v1.toPolynomial F) s i = 0) :
    act (e.solve.minimalPolynomial.toPolynomial F) s i = 0 := by
  rw [minimalPolynomial, Poly.toPolynomial_monic (rows_solve e he).1.field_v1, mul_comm,
    act_C_mul_apply, h, mul_zero]

theorem act_minimalPolynomial_of_degree {d : ℕ} (hsize : e.points.size = 2 * d)
    (hdeg : (e.solve.minimalPolynomial.toPolynomial F).natDegree = d) {i : ℕ} (hi : i < d) :
    act (e.solve.minimalPolynomial.toPolynomial F) (F.terms e.points) i = 0 := by
  obtain ⟨-, hr1, -⟩ := rows_solve e he
  rw [natDegree_minimalPolynomial_eq e he] at hdeg
  exact act_minimalPolynomial e he (act_solve_cofactor e he (by omega) (by omega))

/-- For a sequence with a recurrence of degree up to `d`, the first `2 * d` terms give its minimal
recurrence. -/
theorem isMinimalRecurrence_solve {d : ℕ} (hsize : e.points.size = 2 * d) {s : ℕ → F.Element}
    (hs : ∀ i < 2 * d, F.terms e.points i = s i) {Q : F.Element[X]} (hmonic : Q.Monic)
    (hdeg : Q.natDegree ≤ d) (hrec : act Q s = 0) :
    IsMinimalRecurrence (e.solve.minimalPolynomial.toPolynomial F) s := by
  have hterms : ∀ {f : F.Element[X]} {i : ℕ}, i + f.natDegree < e.points.size →
      act f (F.terms e.points) i = act f s i := by
    intro f i hi
    apply act_congr (degree_lt_succ_natDegree f)
    intro j hj
    exact hs (i + j) (by omega)
  have hcofactor : ∀ f : F.Element[X], f.natDegree ≤ d → act f s = 0 →
      e.solve.v1.toPolynomial F ∣ f ∧
        (f ≠ 0 → e.solve.r1.length ≤ (e.solve.v1.toPolynomial F).natDegree) := by
    intro f hf hzero
    apply solve_cofactor_dvd e he (by omega)
    intro i hi
    rw [hterms hi, hzero, Pi.zero_apply]
  have hle := natDegree_minimalPolynomial_le e he
  have hnat := natDegree_minimalPolynomial_eq e he
  have hP : act (e.solve.minimalPolynomial.toPolynomial F) s = 0 := by
    apply eq_zero_of_act_eq_zero hmonic.ne_zero
    · rw [act_comm, hrec, act_zero_right]
    · intro i hi
      have hr1 := (hcofactor Q hdeg hrec).2 hmonic.ne_zero
      apply act_minimalPolynomial e he
      rw [← hterms (by omega)]
      exact act_solve_cofactor e he (by omega) (by omega)
  refine ⟨monic_minimalPolynomial e he, hP, ?_⟩
  intro R hR
  rw [← EuclideanDomain.mod_eq_zero]
  set P := e.solve.minimalPolynomial.toPolynomial F
  have hPne : P ≠ 0 := (monic_minimalPolynomial e he).ne_zero
  have hmod : act (R % P) s = 0 := by
    rw [EuclideanDomain.mod_eq_sub_mul_div, mul_comm, act_sub, act_mul, hP, hR, act_zero_right,
      sub_zero]
  have hdvd := (hcofactor (R % P) ((natDegree_le_natDegree (degree_mod_lt R hPne).le).trans
    (by omega)) hmod).1
  exact eq_zero_of_dvd_of_degree_lt ((associated_minimalPolynomial e he).dvd_iff_dvd_left.mpr hdvd)
    (degree_mod_lt R hPne)

end Solve

end KeyEquation

end ZeroDim
