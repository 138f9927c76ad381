import Mathlib
import ZeroDim.Proofs.Poly.Factors

/-! # Three ways to see square-freeness

A polynomial other than zero is square-free when its common divisor with the derivative is one, when
its decomposition has no multiplicity but one, and when its radical is its monic multiple.  The
first test sees the derivative alone, the other two go through peeling and `p`-th roots; over a
field of residues they agree, because irreducible polynomials are separable. -/

set_option autoImplicit false

namespace ZeroDim

open Polynomial PrimeField UniqueFactorizationMonoid

variable {F : PrimeField}

theorem squarefree_iff_not_sq_dvd {K : Type*} [Field K] {f : K[X]} (hf : f ≠ 0) :
    Squarefree f ↔ ∀ g : K[X], 0 < g.natDegree → ¬g ^ 2 ∣ f := by
  constructor
  · intro h g hpos hdvd
    rw [pow_two] at hdvd
    rw [natDegree_eq_zero_of_isUnit (h g hdvd)] at hpos
    exact lt_irrefl 0 hpos
  · intro h g hdvd
    rw [← pow_two] at hdvd
    have hg : g ≠ 0 := by
      rintro rfl
      rw [zero_pow two_ne_zero] at hdvd
      exact hf (zero_dvd_iff.mp hdvd)
    have hzero : g.natDegree = 0 := Nat.eq_zero_of_not_pos fun hpos => h g hpos hdvd
    rw [isUnit_iff_degree_eq_zero, degree_eq_natDegree hg, hzero, Nat.cast_zero]

theorem squarefree_iff_radical_eq {K : Type*} [Field K] [DecidableEq K] {f : K[X]}
    (hf : f.Monic) : Squarefree f ↔ radical f = f := by
  constructor
  · intro h
    exact eq_of_monic_of_associated (monic_radical hf.ne_zero) hf
      (radical_associated h.isRadical hf.ne_zero)
  · intro h
    rw [← h]
    exact squarefree_radical

namespace Poly

variable {f : Poly} (hf : f.field = F) (hne : f.toPolynomial F ≠ 0)
include hf hne

/-- The decomposition of square-free polynomials, and of no others, has multiplicities one. -/
theorem isSquareFree_squareFreeDecomposition_iff :
    f.squareFreeDecomposition.isSquareFree = true ↔ Squarefree (f.toPolynomial F) := by
  obtain ⟨hfactors, hcollects, honce⟩ := squareFreeDecomposition_collects hf hne
  rw [squarefree_iff_multiplicity_le_one hne, SquareFreeDecomposition.isSquareFree,
    List.all_eq_true]
  simp only [beq_iff_eq]
  constructor
  · intro hones q hq
    by_contra hlt
    have hsum := honce q hq
    rw [if_pos (by omega)] at hsum
    -- some factor collects `q`, so that its multiplicity is that of `q`
    obtain ⟨m, hmem, hm⟩ := List.exists_mem_ne_zero_of_sum_ne_zero (hsum ▸ one_ne_zero)
    obtain ⟨s, hs, rfl⟩ := List.mem_map.mp hmem
    rw [(hcollects s hs).multiplicity_eq q hq] at hm
    split at hm
    · rename_i hcase
      have := hones s hs
      omega
    · contradiction
  · intro hle s hs
    obtain ⟨q, hq, hpos, he⟩ := (hcollects s hs).exists_irreducible (hfactors s hs).2.ne_zero
    have := hle q hq
    omega

omit hne in
theorem squarefree_monic_iff :
    Squarefree (f.monic.toPolynomial F) ↔ Squarefree (f.toPolynomial F) := by
  have h := associated_toPolynomial_monic hf
  exact ⟨fun hs => hs.squarefree_of_dvd h.symm.dvd, fun hs => hs.squarefree_of_dvd h.dvd⟩

theorem radical_eq_monic_iff : f.radical = f.monic ↔ Squarefree (f.toPolynomial F) := by
  obtain ⟨hfield, heq⟩ := toPolynomial_radical hf hne
  have hassociated := associated_toPolynomial_monic hf
  rw [← toPolynomial_inj hfield ((field_monic f).trans hf), heq,
    ← UniqueFactorizationMonoid.radical_eq_of_associated hassociated,
    ← squarefree_iff_radical_eq (monic_toPolynomial_monic hf hne), squarefree_monic_iff hf]

theorem radical_radical : f.radical.radical = f.radical := by
  obtain ⟨hfield, heq⟩ := toPolynomial_radical hf hne
  have hne' : f.radical.toPolynomial F ≠ 0 := by
    rw [heq]
    exact radical_ne_zero
  obtain ⟨hfield', heq'⟩ := toPolynomial_radical hfield hne'
  rw [← toPolynomial_inj hfield' hfield, heq', heq, UniqueFactorizationMonoid.radical_radical]

/-- All tests of square-freeness agree with the algebra, and the radical is the square-free
polynomial with the same irreducible divisors. -/
theorem isSquareFree_iff_radical :
    (f.isSquareFree = true ↔ ∀ g : F.Element[X], 0 < g.natDegree → ¬g ^ 2 ∣ f.toPolynomial F) ∧
      (f.isSquareFree = true ↔ f.squareFreeDecomposition.isSquareFree = true) ∧
      (f.isSquareFree = true ↔ f.radical = f.monic) ∧
      f.radical.field = F ∧ (f.radical.toPolynomial F).Monic ∧
      Squarefree (f.radical.toPolynomial F) ∧ f.radical.toPolynomial F ∣ f.toPolynomial F ∧
      (∀ q, Irreducible q → q ∣ f.toPolynomial F → q ∣ f.radical.toPolynomial F) ∧
      f.radical.radical = f.radical := by
  have htest := isSquareFree_iff hf hne
  obtain ⟨hfield, heq⟩ := toPolynomial_radical hf hne
  refine ⟨?_, ?_, ?_, hfield, ?_, ?_, ?_, ?_, radical_radical hf hne⟩
  · rw [htest, squarefree_iff_not_sq_dvd hne]
  · rw [htest, isSquareFree_squareFreeDecomposition_iff hf hne]
  · rw [htest, radical_eq_monic_iff hf hne]
  · rw [heq]
    exact monic_radical hne
  · rw [heq]
    exact squarefree_radical
  · rw [heq]
    exact radical_dvd_self
  · intro q hq hdvd
    rw [heq]
    exact (dvd_radical_iff_of_irreducible hq hne).mpr hdvd

omit hf hne in
/-- Over three elements, `2 x (x + 1)^3`. -/
theorem isSquareFree_iff_radical_cube :
    ∃ (F : PrimeField) (f : Poly), F.modulus = 3 ∧ f = .ofCoeffs F #[0, 2, 0, 0, 2] ∧
      f.toPolynomial F ≠ 0 ∧ f.isSquareFree = false ∧ f.radical = .ofCoeffs F #[0, 1, 1] ∧
      f.squareFreeDecomposition.isSquareFree = false ∧ f.radical ≠ f.monic ∧
      f.radical.radical = f.radical := by
  let F : PrimeField := ⟨3, by decide +kernel, by decide⟩
  let f := Poly.ofCoeffs F #[0, 2, 0, 0, 2]
  have hne : f.toPolynomial F ≠ 0 := (isZero_eq_false_iff (F := F) rfl).mp (by decide +kernel)
  obtain ⟨-, hdecomposition, hradical, -, -, -, -, -, htwice⟩ :=
    isSquareFree_iff_radical (F := F) rfl hne
  have hfalse : f.isSquareFree = false := by decide +kernel
  rw [hfalse] at hdecomposition hradical
  refine ⟨F, f, rfl, rfl, hne, hfalse, by decide +kernel, ?_, ?_, htwice⟩
  · exact Bool.eq_false_iff.mpr fun h => Bool.false_ne_true (hdecomposition.mpr h)
  · exact fun h => Bool.false_ne_true (hradical.mpr h)

end Poly

end ZeroDim
