import Mathlib
import ZeroDim.Proofs.Hankel.Regular

/-! # Degree and regularity

Two runs of the key equation look at the same terms: one on `2 d` mirrored terms, for the minimal
polynomial, and one on the first `2 d - 1` of them, for a column of the inverse of the Hankel
matrix. They agree, for terms without any recurrence too: the minimal polynomial has degree `d`
exactly when the matrix is regular, and then the other run stops at a remainder of `d`
coefficients. -/

set_option autoImplicit false

namespace ZeroDim

open Polynomial PrimeField

variable {F : PrimeField} {d : ℕ}

namespace KeyEquation

theorem natDegree_solve_eq_iff (e : KeyEquation) (he : e.field = F)
    (hsize : e.points.size = 2 * d) :
    (e.solve.minimalPolynomial.toPolynomial F).natDegree = d ↔
      (hankelMatrix d (F.terms e.points)).det ≠ 0 := by
  obtain ⟨rows, hr1, hr0⟩ := rows_solve e he
  have hle := natDegree_minimalPolynomial_le e he
  rw [natDegree_minimalPolynomial_eq e he] at hle ⊢
  constructor
  · intro hdegree hdet
    obtain ⟨f, hne, hf, hzero⟩ := det_hankelMatrix_eq_zero_iff.mp hdet
    have hnat : f.natDegree < d := (natDegree_lt_iff_degree_lt hne).mpr hf
    -- what goes to zero would be a multiple of the cofactor
    obtain ⟨hdvd, -⟩ := rows.dvd_of_act_eq_zero (m := d) hr1 hr0
      (hf.trans (by exact_mod_cast Nat.lt_succ_self d)) (by omega) (by omega)
      fun i hi => hzero i (by omega)
    have := natDegree_le_of_dvd hdvd hne
    omega
  · intro hdet
    by_contra hne
    exact hdet (rows.det_eq_zero (by omega) (by omega) (by omega))

/-- The degree of the minimal polynomial of `2 d` terms is at most `d`; it is `d` exactly when the
Hankel matrix is regular, and exactly when the run on the direct window finds a generator. -/
theorem natDegree_eq_iff_regular (hd : 1 ≤ d) {s : Array UInt32} (hsize : s.size = 2 * d)
    {key key' : KeyEquation} (hkey : key.field = F) (hkey' : key'.field = F) :
    (key.reset.addPoints s).solve.minimalPolynomial.natDegree ≤ d ∧
      ((key.reset.addPoints s).solve.minimalPolynomial.natDegree = d ↔
        (hankelMatrix d (F.terms s)).det ≠ 0) ∧
      ∃ w, Level.direct.window F s (2 * d - 1) = .ok w ∧
        ((hankelMatrix d (F.terms s)).det ≠ 0 ↔
          ((key'.descend w.size (.ofCoeffs F w.reverse) d).generator? d).isSome) := by
  subst hkey
  set e := key.reset.addPoints s with he
  have hfield : e.field = key.field := rfl
  have hpoints : e.points.size = 2 * d := (size_points_addPoints key.field s).trans hsize
  have hterms : key.field.terms e.points = key.field.terms s :=
    funext (terms_points_addPoints key.field s)
  have hle := natDegree_minimalPolynomial_le e hfield
  have hiff := natDegree_solve_eq_iff e hfield hpoints
  rw [Poly.natDegree_toPolynomial (field_minimalPolynomial e hfield)] at hle hiff
  refine ⟨by omega, hterms ▸ hiff, s.extract 0 (2 * d - 1), segment_eq_ok (by omega) (by omega),
    ?_⟩
  have hwindow : hankelMatrix d (key.field.terms (s.extract 0 (2 * d - 1))) =
      hankelMatrix d (key.field.terms s) := by
    apply hankelMatrix_congr
    intro i hi
    rw [terms, getD_extract (by omega), Nat.zero_add, terms]
  rw [generator?_mirrored_isSome_iff hkey' hd (by rw [Array.size_extract]; omega), hwindow]

/-- Over 101 elements, `1, 0, 99, 95` has a minimal polynomial of degree two. -/
theorem natDegree_eq_iff_regular_two :
    ∃ F : PrimeField, F.modulus = 101 ∧
      ((empty F).reset.addPoints #[1, 0, 99, 95]).solve.minimalPolynomial.natDegree = 2 ∧
      (hankelMatrix 2 (F.terms #[1, 0, 99, 95])).det ≠ 0 ∧
      ∃ w, Level.direct.window F #[1, 0, 99, 95] 3 = .ok w ∧
        (((empty F).descend w.size (.ofCoeffs F w.reverse) 2).generator? 2).isSome := by
  let F : PrimeField := ⟨101, by decide +kernel, by decide⟩
  obtain ⟨-, hregular, w, hw, hgenerator⟩ := natDegree_eq_iff_regular (d := 2) (by decide)
    (show (#[1, 0, 99, 95] : Array UInt32).size = 2 * 2 by decide) (rfl : (empty F).field = F)
    (rfl : (empty F).field = F)
  have hdegree :
      ((empty F).reset.addPoints #[1, 0, 99, 95]).solve.minimalPolynomial.natDegree = 2 := by
    decide +kernel
  have hdet := hregular.mp hdegree
  exact ⟨F, rfl, hdegree, hdet, w, hw, hgenerator.mp hdet⟩

end KeyEquation

end ZeroDim
