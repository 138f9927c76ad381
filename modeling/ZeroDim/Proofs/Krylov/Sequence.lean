import Mathlib
import ZeroDim.Proofs.Sequence.Recurrence

/-! # Krylov sequences

The sequence `u A^i v` of a matrix between two vectors.  Polynomials act on it through the matrix,
so the characteristic polynomial is one of its recurrences.  When the minimal recurrence has the
dimension as degree, it is the characteristic polynomial, and the vectors `A^i v` span the space:
a polynomial that takes the sequence of `u` to that of `u'` then takes `u` to `u'`. -/

set_option autoImplicit false

namespace ZeroDim

open Polynomial Matrix

variable {K : Type*} [Field K] {n : ℕ}

def unitVector (K : Type*) [Field K] (n k : ℕ) : Fin n → K := fun r => if (r : ℕ) = k then 1 else 0

theorem unitVector_dotProduct {k : ℕ} (hk : k < n) (v : Fin n → K) :
    unitVector K n k ⬝ᵥ v = v ⟨k, hk⟩ := by
  rw [dotProduct, Finset.sum_eq_single ⟨k, hk⟩]
  · rw [unitVector, if_pos rfl, one_mul]
  · intro r _ hr
    rw [unitVector, if_neg fun h => hr (Fin.ext h), zero_mul]
  · intro hnot
    exact absurd (Finset.mem_univ _) hnot

/-- The sequence of a matrix between two vectors. -/
def krylov (A : Matrix (Fin n) (Fin n) K) (u v : Fin n → K) (i : ℕ) : K := u ⬝ᵥ (A ^ i *ᵥ v)

variable {A : Matrix (Fin n) (Fin n) K} {u u' v : Fin n → K} {a P : K[X]}

theorem krylov_vecMul_apply (f : K[X]) (i : ℕ) :
    krylov A (u ᵥ* aeval A f) v i = u ⬝ᵥ (A ^ i *ᵥ (aeval A f *ᵥ v)) := by
  have hcomm : aeval A f * A ^ i = A ^ i * aeval A f := by
    have hpow : A ^ i = aeval A (X ^ i : K[X]) := by rw [map_pow, aeval_X]
    rw [hpow, ← map_mul, ← map_mul, mul_comm]
  rw [krylov, ← dotProduct_mulVec, mulVec_mulVec, mulVec_mulVec, hcomm]

theorem act_krylov (f : K[X]) : act f (krylov A u v) = krylov A (u ᵥ* aeval A f) v := by
  funext i
  rw [act_apply (degree_lt_succ_natDegree f), krylov_vecMul_apply, mulVec_mulVec,
    aeval_eq_sum_range, Finset.mul_sum, sum_mulVec, dotProduct_sum]
  apply Finset.sum_congr rfl
  intro j _
  rw [krylov, mul_smul_comm, smul_mulVec, dotProduct_smul, smul_eq_mul, pow_add]

theorem krylov_sub (i : ℕ) : krylov A (u - u') v i = krylov A u v i - krylov A u' v i := by
  rw [krylov, sub_dotProduct, krylov, krylov]

theorem krylov_smul (c : K) : krylov A u (c • v) = c • krylov A u v := by
  funext i
  simp [krylov, mulVec_smul, dotProduct_smul]

theorem act_charpoly_krylov : act A.charpoly (krylov A u v) = 0 := by
  funext i
  rw [act_krylov, aeval_self_charpoly, vecMul_zero, krylov, zero_dotProduct, Pi.zero_apply]

section Cyclic
variable (hP : IsMinimalRecurrence P (krylov A u v)) (hdeg : P.natDegree = n)
include hP hdeg

theorem eq_charpoly_of_natDegree : P = A.charpoly := by
  symm
  apply eq_of_monic_of_dvd_of_natDegree_le hP.monic A.charpoly_monic (hP.dvd _ act_charpoly_krylov)
  rw [A.charpoly_natDegree_eq_dim, Fintype.card_fin, hdeg]

theorem linearIndependent_krylov : LinearIndependent K fun i : Fin n => A ^ (i : ℕ) *ᵥ v := by
  rw [Fintype.linearIndependent_iff]
  intro g hg
  set f : K[X] := ∑ i : Fin n, C (g i) * X ^ (i : ℕ) with hf
  have hcoeff : ∀ i : Fin n, f.coeff i = g i := by
    intro i
    rw [hf, finsetSum_coeff, Finset.sum_eq_single i]
    · simp
    · intro j _ hj
      rw [coeff_C_mul_X_pow, if_neg fun h => hj (Fin.ext h.symm)]
    · intro hnot
      exact absurd (Finset.mem_univ _) hnot
  have hzero : aeval A f *ᵥ v = 0 := by
    rw [hf, map_sum, sum_mulVec, ← hg]
    apply Finset.sum_congr rfl
    intro i _
    rw [map_mul, aeval_C, map_pow, aeval_X, ← Algebra.smul_def, smul_mulVec]
  have hact : act f (krylov A u v) = 0 := by
    funext i
    rw [act_krylov, krylov_vecMul_apply, hzero, mulVec_zero, dotProduct_zero, Pi.zero_apply]
  have hlt : f.degree < P.degree := by
    rw [degree_eq_natDegree hP.monic.ne_zero, hdeg, degree_lt_iff_coeff_zero]
    intro j hj
    rw [hf, finsetSum_coeff]
    apply Finset.sum_eq_zero
    intro i _
    rw [coeff_C_mul_X_pow, if_neg (by have := i.isLt; omega)]
  intro i
  rw [← hcoeff, hP.eq_zero_of_degree_lt hact hlt, coeff_zero]

theorem eq_zero_of_krylov_eq_zero {u' : Fin n → K} (h : krylov A u' v = 0) : u' = 0 := by
  have hspan := (linearIndependent_krylov hP hdeg).span_eq_top_of_card_eq_finrank' (by simp)
  apply dotProduct_eq_zero
  intro x
  have hx : x ∈ Submodule.span K (Set.range fun i : Fin n => A ^ (i : ℕ) *ᵥ v) := by
    rw [hspan]
    exact Submodule.mem_top
  induction hx using Submodule.span_induction with
  | mem x hx =>
    obtain ⟨i, rfl⟩ := hx
    exact congrFun h i
  | zero => exact dotProduct_zero u'
  | add x y _ _ hx hy => rw [dotProduct_add, hx, hy, add_zero]
  | smul c x _ hx => rw [dotProduct_smul, hx, smul_zero]

/-- A polynomial that takes one sequence to another takes the row vectors to each other. -/
theorem vecMul_aeval_of_act_krylov (h : act a (krylov A u v) = krylov A u' v) :
    u' = u ᵥ* aeval A a := by
  apply Eq.symm
  apply sub_eq_zero.mp
  apply eq_zero_of_krylov_eq_zero hP hdeg
  funext i
  rw [krylov_sub, ← act_krylov, h, sub_self, Pi.zero_apply]

end Cyclic

end ZeroDim
