import Mathlib

/-! # Multiplicities of irreducible factors

A polynomial over a field is known, up to a unit, from the multiplicities of all irreducible
polynomials in it.  Common divisors take minima, quotients take differences, and over a perfect
field of characteristic `p` the common divisor with the derivative lowers by one the multiplicities
that `p` does not divide and keeps the others. -/

set_option autoImplicit false

namespace ZeroDim

open Polynomial UniqueFactorizationMonoid

variable {K : Type*} [Field K] {q f g d : K[X]}

theorem finiteMultiplicity (hq : Irreducible q) (hf : f ≠ 0) : FiniteMultiplicity q f :=
  FiniteMultiplicity.of_not_isUnit hq.not_isUnit hf

theorem pow_dvd_iff_le_multiplicity (hq : Irreducible q) (hf : f ≠ 0) {k : ℕ} :
    q ^ k ∣ f ↔ k ≤ multiplicity q f :=
  (finiteMultiplicity hq hf).pow_dvd_iff_le_multiplicity

theorem multiplicity_mul_of_ne_zero (hq : Irreducible q) (hf : f ≠ 0) (hg : g ≠ 0) :
    multiplicity q (f * g) = multiplicity q f + multiplicity q g :=
  multiplicity_mul hq.prime (finiteMultiplicity hq (mul_ne_zero hf hg))

theorem multiplicity_div (hq : Irreducible q) (hf : f ≠ 0) (hd : d ∣ f) :
    multiplicity q (f / d) = multiplicity q f - multiplicity q d := by
  obtain ⟨g, rfl⟩ := hd
  have hdne := left_ne_zero_of_mul hf
  have hgne := right_ne_zero_of_mul hf
  rw [mul_div_cancel_left₀ g hdne, multiplicity_mul_of_ne_zero hq hdne hgne,
    Nat.add_sub_cancel_left]

theorem multiplicity_eq_min (hq : Irreducible q) (hf : f ≠ 0) (hg : g ≠ 0)
    (hd : ∀ r, r ∣ d ↔ r ∣ f ∧ r ∣ g) :
    multiplicity q d = min (multiplicity q f) (multiplicity q g) := by
  have hdne : d ≠ 0 := ne_zero_of_dvd_ne_zero hf ((hd d).mp dvd_rfl).1
  apply eq_of_forall_le_iff
  intro k
  rw [← pow_dvd_iff_le_multiplicity hq hdne, hd, pow_dvd_iff_le_multiplicity hq hf,
    pow_dvd_iff_le_multiplicity hq hg, le_min_iff]

theorem dvd_of_multiplicity_le (hf : f ≠ 0) (hg : g ≠ 0)
    (h : ∀ q, Irreducible q → multiplicity q f ≤ multiplicity q g) : f ∣ g := by
  classical
  rw [dvd_iff_normalizedFactors_le_normalizedFactors hf hg, Multiset.le_iff_count]
  intro q
  by_cases hq : q ∈ normalizedFactors f
  · have hirr := irreducible_of_normalized_factor q hq
    have hcount : ∀ {r : K[X]}, r ≠ 0 → (normalizedFactors r).count q = multiplicity q r := by
      intro r hr
      have := emultiplicity_eq_count_normalizedFactors hirr hr
      rw [normalize_normalized_factor q hq,
        (finiteMultiplicity hirr hr).emultiplicity_eq_multiplicity] at this
      exact_mod_cast this.symm
    rw [hcount hf, hcount hg]
    exact h q hirr
  · rw [Multiset.count_eq_zero_of_notMem hq]
    exact Nat.zero_le _

theorem eq_of_multiplicity_eq (hf : f.Monic) (hg : g.Monic)
    (h : ∀ q, Irreducible q → multiplicity q f = multiplicity q g) : f = g := by
  apply eq_of_monic_of_associated hf hg
  apply associated_of_dvd_dvd
  · exact dvd_of_multiplicity_le hf.ne_zero hg.ne_zero fun q hq => (h q hq).le
  · exact dvd_of_multiplicity_le hg.ne_zero hf.ne_zero fun q hq => (h q hq).ge

theorem multiplicity_eq_zero_of_isUnit (hq : Irreducible q) (hf : IsUnit f) :
    multiplicity q f = 0 :=
  multiplicity_of_isUnit_right hq.not_isUnit hf

theorem squarefree_iff_multiplicity_le_one (hf : f ≠ 0) :
    Squarefree f ↔ ∀ q, Irreducible q → multiplicity q f ≤ 1 := by
  rw [squarefree_iff_irreducible_sq_not_dvd_of_ne_zero hf]
  refine forall_congr' fun q => forall_congr' fun hq => ?_
  rw [← pow_two, pow_dvd_iff_le_multiplicity hq hf]
  omega

theorem isCoprime_of_multiplicity (hf : f ≠ 0)
    (h : ∀ q, Irreducible q → multiplicity q f = 0 ∨ multiplicity q g = 0) : IsCoprime f g := by
  apply isCoprime_of_irreducible_dvd
  · rintro ⟨hz, -⟩
    exact hf hz
  · intro q hq hqf hqg
    have h₁ := multiplicity_pos_of_dvd hqf
    have h₂ := multiplicity_pos_of_dvd hqg
    have := h q hq
    omega

theorem eq_radical_of_multiplicity [DecidableEq K] (hf : f.Monic) (hg : g ≠ 0)
    (h : ∀ q, Irreducible q → multiplicity q f = if 0 < multiplicity q g then 1 else 0) :
    f = radical g := by
  have hmonic : (radical g).Monic := by
    rw [radical]
    apply monic_prod_of_monic
    intro q hq
    have hmem := mem_primeFactors.mp hq
    rw [← normalize_normalized_factor q hmem]
    exact monic_normalize (irreducible_of_normalized_factor q hmem).ne_zero
  apply eq_of_multiplicity_eq hf hmonic
  intro q hq
  rw [h q hq]
  split
  · rename_i hdvd
    rw [dvd_iff_multiplicity_pos] at hdvd
    have hpos := multiplicity_pos_of_dvd ((dvd_radical_iff_of_irreducible hq hg).mpr hdvd)
    have hle : emultiplicity q (radical g) ≤ 1 :=
      ((squarefree_iff_emultiplicity_le_one _).mp squarefree_radical q).resolve_right hq.not_isUnit
    have hle' : multiplicity q (radical g) ≤ 1 :=
      multiplicity_le_of_emultiplicity_le (by exact_mod_cast hle)
    omega
  · rename_i hdvd
    symm
    rw [multiplicity_eq_zero, dvd_radical_iff_of_irreducible hq hg, ← dvd_iff_multiplicity_pos]
    exact hdvd

/-- No multiplicity exceeds the degree, so that a power of the radical takes them all. -/
theorem dvd_radical_pow [DecidableEq K] {n : ℕ} (hf : f ≠ 0) (hle : f.natDegree ≤ n) :
    f ∣ radical f ^ n := by
  have hR : radical f ≠ 0 := radical_ne_zero
  apply dvd_of_multiplicity_le hf (pow_ne_zero n hR)
  intro q hq
  rw [(finiteMultiplicity hq hR).multiplicity_pow hq.prime]
  rcases Nat.eq_zero_or_pos (multiplicity q f) with hzero | hpos
  · rw [hzero]
    exact Nat.zero_le _
  · have hradical : 0 < multiplicity q (radical f) := by
      apply multiplicity_pos_of_dvd
      rw [dvd_radical_iff_of_irreducible hq hf]
      exact dvd_iff_multiplicity_pos.mp hpos
    have hdegree := natDegree_le_of_dvd (pow_multiplicity_dvd q f) hf
    rw [natDegree_pow] at hdegree
    calc multiplicity q f ≤ multiplicity q f * q.natDegree :=
          Nat.le_mul_of_pos_right _ hq.natDegree_pos
      _ ≤ n := hdegree.trans hle
      _ ≤ n * multiplicity q (radical f) :=
          Nat.le_mul_of_pos_right _ hradical

/-! ## Derivatives -/

section Derivative
variable {p : ℕ} [CharP K p] [PerfectField K]

theorem not_dvd_derivative_of_irreducible (hq : Irreducible q) : ¬q ∣ derivative q := by
  intro h
  have hsep : IsCoprime q (derivative q) := PerfectField.separable_of_irreducible hq
  exact hq.not_isUnit (hsep.isUnit_of_dvd' dvd_rfl h)

theorem multiplicity_gcd_derivative (hq : Irreducible q) (hf : f ≠ 0)
    (hd : ∀ r, r ∣ d ↔ r ∣ f ∧ r ∣ derivative f) :
    multiplicity q d = if p ∣ multiplicity q f then multiplicity q f else multiplicity q f - 1 := by
  have hdne : d ≠ 0 := ne_zero_of_dvd_ne_zero hf ((hd d).mp dvd_rfl).1
  obtain ⟨g, hfg, hg⟩ := (finiteMultiplicity hq hf).exists_eq_pow_mul_and_not_dvd
  set e := multiplicity q f with he
  have hderiv : derivative f = C (e : K) * (q ^ (e - 1) * (derivative q * g)) +
      q ^ e * derivative g := by
    rw [hfg, derivative_mul, derivative_pow]
    ring
  have hle : multiplicity q d ≤ e := by
    rw [he, ← pow_dvd_iff_le_multiplicity hq hf]
    exact (pow_multiplicity_dvd q d).trans ((hd d).mp dvd_rfl).1
  split
  · rename_i hpe
    apply le_antisymm hle
    rw [← pow_dvd_iff_le_multiplicity hq hdne, hd, hderiv, (CharP.cast_eq_zero_iff K p e).mpr hpe,
      C_0, zero_mul, zero_add]
    exact ⟨(pow_dvd_iff_le_multiplicity hq hf).mpr le_rfl, dvd_mul_right _ _⟩
  · rename_i hpe
    have hunit : IsUnit (C (e : K)) := by
      rw [isUnit_C, isUnit_iff_ne_zero]
      exact fun h => hpe ((CharP.cast_eq_zero_iff K p e).mp h)
    have hpos : e ≠ 0 := by
      rintro hzero
      exact hpe (hzero ▸ dvd_zero p)
    apply le_antisymm
    · by_contra hlt
      have hdvd : q ^ e ∣ derivative f :=
        ((hd _).mp ((pow_dvd_iff_le_multiplicity hq hdne).mpr (by omega))).2
      rw [hderiv, dvd_add_left (dvd_mul_right _ _), hunit.dvd_mul_left] at hdvd
      nth_rewrite 1 [show e = e - 1 + 1 by omega] at hdvd
      rw [pow_succ, mul_dvd_mul_iff_left (pow_ne_zero _ hq.ne_zero)] at hdvd
      rcases hq.prime.dvd_or_dvd hdvd with h | h
      · exact not_dvd_derivative_of_irreducible hq h
      · exact hg h
    · rw [← pow_dvd_iff_le_multiplicity hq hdne, hd, hderiv]
      refine ⟨(pow_dvd_iff_le_multiplicity hq hf).mpr (by omega), dvd_add ?_ ?_⟩
      · exact (dvd_mul_right _ _).mul_left _
      · exact (pow_dvd_pow q (by omega)).mul_right _

theorem derivative_eq_zero_of_dvd_multiplicity (hf : f ≠ 0)
    (h : ∀ q, Irreducible q → p ∣ multiplicity q f) : derivative f = 0 := by
  classical
  set d := EuclideanDomain.gcd f (derivative f)
  have hd : ∀ r, r ∣ d ↔ r ∣ f ∧ r ∣ derivative f := by
    intro r
    exact ⟨fun hr => ⟨hr.trans (EuclideanDomain.gcd_dvd_left _ _),
      hr.trans (EuclideanDomain.gcd_dvd_right _ _)⟩, fun hr => EuclideanDomain.dvd_gcd hr.1 hr.2⟩
  have hdne : d ≠ 0 := ne_zero_of_dvd_ne_zero hf ((hd d).mp dvd_rfl).1
  have hdvd : f ∣ d := by
    apply dvd_of_multiplicity_le hf hdne
    intro q hq
    rw [multiplicity_gcd_derivative (p := p) hq hf hd, if_pos (h q hq)]
  by_contra hne
  exact absurd (degree_le_of_dvd ((hd f).mp hdvd).2 hne) (not_le.mpr (degree_derivative_lt hf))

end Derivative

end ZeroDim
