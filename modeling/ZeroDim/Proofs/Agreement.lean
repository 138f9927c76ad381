import Mathlib
import ZeroDim.Proofs.Hankel.Solution
import ZeroDim.Proofs.Numerator

/-! # Agreement of the two ways to a coordinate

For a minimal polynomial of full degree a stream can be divided by the power sums in two ways: with
the inverse of a Hankel matrix at one of three levels, and with the quotient of two numerators.
Both find the one polynomial below the degree that takes the power sums to the stream. -/

set_option autoImplicit false

namespace ZeroDim

open Polynomial PrimeField

variable {F : PrimeField}

namespace KeyEquation

/-- The minimal polynomial of half as many terms is that of a sequence which goes on with it. -/
theorem exists_isMinimalRecurrence {d : ℕ} {s : Array UInt32} (hs : s.size = 2 * d)
    (hdeg : ((empty F).addPoints s).solve.minimalPolynomial.natDegree = d) :
    ∃ u : ℕ → F.Element, (∀ i < 2 * d, F.terms s i = u i) ∧ IsMinimalRecurrence
      (((empty F).addPoints s).solve.minimalPolynomial.toPolynomial F) u := by
  set e := (empty F).addPoints s with he
  have hfield : e.field = F := rfl
  have hsize : e.points.size = 2 * d := (size_points_addPoints F s).trans hs
  rw [← Poly.natDegree_toPolynomial (field_minimalPolynomial e hfield)] at hdeg
  have hmonic := monic_minimalPolynomial e hfield
  have hrec : ∀ i, i + (e.solve.minimalPolynomial.toPolynomial F).natDegree < 2 * d →
      act (e.solve.minimalPolynomial.toPolynomial F) (F.terms e.points) i = 0 := by
    intro i hi
    exact act_minimalPolynomial_of_degree e hfield hsize hdeg (by omega)
  obtain ⟨u, hu, hterms⟩ := exists_act_eq_zero hmonic hrec
  refine ⟨u, ?_, isMinimalRecurrence_solve e hfield hsize ?_ hmonic hdeg.le hu⟩
  · intro i hi
    rw [← terms_points_addPoints, ← he, hterms i hi]
  · intro i hi
    exact (hterms i hi).symm

end KeyEquation

/-- A stream that obeys the minimal polynomial of the power sums is divided by them alike through
a Hankel inverse of any level and through the numerators. -/
theorem solveStream_eq_numeratorQuotient {d : ℕ} (hd : 1 ≤ d) {s c : Array UInt32}
    (hs : s.size = 2 * d) (hsr : F.AllReduced s) (hc : c.size = d + 1) (hcr : F.AllReduced c)
    {P : Poly} (hP : P = ((KeyEquation.empty F).addPoints s).solve.minimalPolynomial)
    (hdeg : P.natDegree = d)
    (hrec : ∑ j ∈ Finset.range (d + 1), F.value (P.coeff j) * F.value (c.getD j 0) = 0)
    {key key' : KeyEquation} (hkey : key.field = F) {inverse : HankelInverse}
    (hinv : key.invertHankel s d = .ok (some inverse, key')) :
    ∃ I q, numeratorInverse? P P s = .ok (some I) ∧ inverse.solveStream c = .ok q ∧
      numeratorQuotient P P c I = .ok q := by
  have hPfield : P.field = F := hP ▸ KeyEquation.field_minimalPolynomial _ rfl
  have hnat : (P.toPolynomial F).natDegree = d := (Poly.natDegree_toPolynomial hPfield).trans hdeg
  -- both vectors are initial parts of sequences with the recurrence `P`
  obtain ⟨u, hu, hmin⟩ := KeyEquation.exists_isMinimalRecurrence hs (hP ▸ hdeg)
  rw [← hP] at hmin
  have hPne := hmin.monic.ne_zero
  obtain ⟨v, hv, hcv⟩ := exists_act_eq_zero (s := F.terms c) (N := d + 1) hmin.monic (by
    intro i hi
    rw [show i = 0 by omega, act_apply (degree_lt_succ_natDegree _), hnat]
    simpa only [Poly.coeff_toPolynomial, Nat.zero_add, terms] using hrec)
  obtain ⟨hdim, hholds⟩ := KeyEquation.invertHankel_eq_some hsr hd hs.ge hkey hinv
  obtain ⟨q, hq, hqfield, hqdeg, hact⟩ := (hholds u hu).solveStream_spec hmin.monic
    (hnat.trans hdim.symm) hmin.recurrence hv hcr (by omega) fun i hi => (hcv i (by omega)).symm
  obtain ⟨I, hI, hIfield, hIdvd⟩ := numeratorInverse?_of_isCoprime hPfield hPfield hPne
    (by omega) (fun i hi => hu i (by omega)) hmin.isCoprime_seriesNumerator
  obtain ⟨q', hq', hqfield', hqeq'⟩ := numeratorQuotient_spec hPfield hPfield hPne
    (by omega) (fun i hi => (hcv i (by omega)).symm) hIfield
  refine ⟨I, q, hI, hq, ?_⟩
  rw [hq', Except.ok.injEq, ← Poly.toPolynomial_inj hqfield' hqfield, hqeq', ← hact,
    seriesNumerator_act_mul_mod hmin.recurrence dvd_rfl hIdvd, mod_eq_self_iff hPne,
    degree_eq_natDegree hPne, hnat, ← hdim]
  exact hqdeg

/-- Power sums with `s_1 = 0`, where the direct level has a zero pivot and the shifted one is
used. -/
theorem solveStream_eq_numeratorQuotient_shifted :
    let F : PrimeField := ⟨7, by decide +kernel, by decide⟩
    let P := Poly.ofCoeffs F #[6, 0, 1]
    ∃ inverse key', (KeyEquation.empty F).invertHankel #[1, 0, 1, 0] 2 = .ok (some inverse, key') ∧
      inverse.level = .shifted ∧
      ∃ I q, numeratorInverse? P P #[1, 0, 1, 0] = .ok (some I) ∧
        inverse.solveStream #[2, 3, 2] = .ok q ∧ numeratorQuotient P P #[2, 3, 2] I = .ok q := by
  intro F P
  have hinv : ((KeyEquation.empty F).invertHankel #[1, 0, 1, 0] 2).map Prod.fst =
      .ok (some ⟨2, .shifted, .ofCoeffs F #[1], .ofCoeffs F #[1], 1⟩) := by decide +kernel
  obtain ⟨⟨_, key'⟩, hrun, rfl⟩ := map_eq_ok.mp hinv
  exact ⟨_, key', hrun, rfl, solveStream_eq_numeratorQuotient (F := F) (d := 2) (by decide)
    (by decide) (by decide +kernel) (by decide) (by decide +kernel) (by decide +kernel)
    (by decide +kernel) (by decide +kernel) rfl hrun⟩

end ZeroDim
