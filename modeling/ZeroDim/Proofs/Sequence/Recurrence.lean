import Mathlib

/-! # Polynomials acting on sequences

A polynomial acts on the sequences over a field with the indeterminate as the shift, so that
`act f s` has the terms `f_0 s_i + f_1 s_{i+1} + ...`.  The polynomials that take a sequence to
zero are its recurrences, and a sequence with a recurrence is determined by as many terms as the
degree of the recurrence.  The minimal recurrence is the monic one that divides all others. -/

set_option autoImplicit false

namespace ZeroDim

open Polynomial

variable {K : Type*} [Field K] {f g P : K[X]} {s u : ℕ → K}

def shift (K : Type*) [Field K] : Module.End K (ℕ → K) := LinearMap.funLeft K K (· + 1)

noncomputable def act (f : K[X]) (s : ℕ → K) : ℕ → K := aeval (shift K) f s

theorem shift_pow_apply (j : ℕ) (s : ℕ → K) (i : ℕ) : (shift K ^ j) s i = s (i + j) := by
  induction j generalizing s with
  | zero => simp
  | succ j ih =>
    rw [pow_succ, Module.End.mul_apply, ih]
    simp only [shift, LinearMap.funLeft_apply]
    rw [Nat.add_assoc]

/-- The terms of the result, as sums over any range that holds all coefficients. -/
theorem act_apply {n : ℕ} (h : f.degree < n) (s : ℕ → K) (i : ℕ) :
    act f s i = ∑ j ∈ Finset.range n, f.coeff j * s (i + j) := by
  by_cases hz : f = 0
  · subst hz
    simp [act]
  · rw [degree_eq_natDegree hz, Nat.cast_lt] at h
    rw [act, aeval_eq_sum_range' h, LinearMap.sum_apply, Finset.sum_apply]
    apply Finset.sum_congr rfl
    intro j _
    rw [LinearMap.smul_apply, Pi.smul_apply, shift_pow_apply, smul_eq_mul]

theorem degree_lt_succ_natDegree (f : K[X]) : f.degree < (f.natDegree + 1 : ℕ) :=
  lt_of_le_of_lt degree_le_natDegree (by exact_mod_cast Nat.lt_succ_self _)

theorem act_mul (f g : K[X]) (s : ℕ → K) : act (f * g) s = act f (act g s) := by
  rw [act, map_mul, Module.End.mul_apply, act, act]

theorem act_comm (f g : K[X]) (s : ℕ → K) : act f (act g s) = act g (act f s) := by
  rw [← act_mul, mul_comm, act_mul]

@[simp] theorem act_one (s : ℕ → K) : act 1 s = s := by
  rw [act, map_one, Module.End.one_apply]

@[simp] theorem act_zero (s : ℕ → K) : act 0 s = 0 := by
  rw [act, map_zero, LinearMap.zero_apply]

@[simp] theorem act_zero_right (f : K[X]) : act f (0 : ℕ → K) = 0 := by
  rw [act, LinearMap.map_zero]

theorem act_add (f g : K[X]) (s : ℕ → K) : act (f + g) s = act f s + act g s := by
  rw [act, map_add, LinearMap.add_apply, act, act]

theorem act_sub (f g : K[X]) (s : ℕ → K) : act (f - g) s = act f s - act g s := by
  rw [act, map_sub, LinearMap.sub_apply, act, act]

theorem act_sub_right (f : K[X]) (s u : ℕ → K) : act f (s - u) = act f s - act f u := by
  rw [act, LinearMap.map_sub, act, act]

theorem act_smul_right (f : K[X]) (c : K) (s : ℕ → K) : act f (c • s) = c • act f s := by
  rw [act, LinearMap.map_smul, act]

theorem act_C (c : K) (s : ℕ → K) : act (C c) s = c • s := by
  rw [act, aeval_C, Module.algebraMap_end_apply]

theorem act_sum {ι : Type*} (t : Finset ι) (f : ι → K[X]) (s : ℕ → K) :
    act (∑ j ∈ t, f j) s = ∑ j ∈ t, act (f j) s := by
  simp only [act, map_sum, LinearMap.sum_apply]

theorem act_X_apply (s : ℕ → K) (i : ℕ) : act X s i = s (i + 1) := by
  rw [act, aeval_X, ← pow_one (shift K), shift_pow_apply]

theorem act_X_mul_apply (f : K[X]) (s : ℕ → K) (i : ℕ) : act (X * f) s i = act f s (i + 1) := by
  rw [act_mul, act_X_apply]

theorem act_C_mul_apply (c : K) (f : K[X]) (s : ℕ → K) (i : ℕ) :
    act (C c * f) s i = c * act f s i := by
  rw [act_mul, act_C, Pi.smul_apply, smul_eq_mul]

/-- A term of the result depends on as many terms as the polynomial has coefficients. -/
theorem act_congr {n i : ℕ} (h : f.degree < n) (hs : ∀ j < n, s (i + j) = u (i + j)) :
    act f s i = act f u i := by
  rw [act_apply h, act_apply h]
  apply Finset.sum_congr rfl
  intro j hj
  rw [hs j (Finset.mem_range.mp hj)]

/-! ## Recurrences -/

theorem eq_zero_of_act_eq_zero (hP : P ≠ 0) (hu : act P u = 0)
    (h : ∀ i < P.natDegree, u i = 0) : u = 0 := by
  funext n
  induction n using Nat.strong_induction_on with
  | _ n ih =>
    by_cases hn : n < P.natDegree
    · exact h n hn
    · have hterm := congrFun hu (n - P.natDegree)
      rw [act_apply (degree_lt_succ_natDegree P), Finset.sum_range_succ, Finset.sum_eq_zero,
        zero_add, Nat.sub_add_cancel (by omega)] at hterm
      · exact (mul_eq_zero.mp hterm).resolve_left (leadingCoeff_ne_zero.mpr hP)
      · intro j hj
        have hj := Finset.mem_range.mp hj
        rw [ih _ (by omega), Pi.zero_apply, mul_zero]

theorem eq_of_act_eq_zero (hP : P ≠ 0) (hs : act P s = 0) (hu : act P u = 0)
    (h : ∀ i < P.natDegree, s i = u i) : s = u := by
  apply sub_eq_zero.mp
  apply eq_zero_of_act_eq_zero hP
  · rw [act_sub_right, hs, hu, sub_zero]
  · intro i hi
    rw [Pi.sub_apply, h i hi, sub_self]

theorem eq_zero_of_isCoprime (h : IsCoprime f g) (hf : act f u = 0) (hg : act g u = 0) : u = 0 := by
  obtain ⟨a, b, hab⟩ := h
  rw [← act_one u, ← hab, act_add, act_mul, act_mul, hf, hg, act_zero_right, act_zero_right,
    add_zero]

/-- Terms that obey a monic recurrence as far as they go are the first terms of a sequence that
obeys it throughout. -/
theorem exists_act_eq_zero {N : ℕ} (hP : P.Monic) (h : ∀ i, i + P.natDegree < N → act P s i = 0) :
    ∃ u : ℕ → K, act P u = 0 ∧ ∀ i < N, u i = s i := by
  let E : LinearRecurrence K := ⟨P.natDegree, fun i => -P.coeff i⟩
  have hrec : act P (E.mkSol fun i => s i) = 0 := by
    funext n
    have hsol := E.is_sol_mkSol (fun i => s i) n
    rw [act_apply (degree_lt_succ_natDegree P), Finset.sum_range_succ, hP.coeff_natDegree, one_mul,
      hsol, ← Fin.sum_univ_eq_sum_range (fun j => P.coeff j * _), ← Finset.sum_add_distrib]
    apply Finset.sum_eq_zero
    intro j _
    simp only [E]
    ring
  refine ⟨E.mkSol fun i => s i, hrec, ?_⟩
  intro n
  induction n using Nat.strong_induction_on with
  | _ n ih =>
    intro hn
    by_cases hlt : n < P.natDegree
    · exact E.mkSol_eq_init _ ⟨n, hlt⟩
    · have hu := congrFun hrec (n - P.natDegree)
      have hs := h (n - P.natDegree) (by omega)
      rw [act_apply (degree_lt_succ_natDegree P), Finset.sum_range_succ, hP.coeff_natDegree, one_mul,
        Nat.sub_add_cancel (by omega)] at hu hs
      rw [Finset.sum_congr rfl fun j hj => by
        rw [ih (n - P.natDegree + j) (by have := Finset.mem_range.mp hj; omega)
          (by have := Finset.mem_range.mp hj; omega)], Pi.zero_apply, ← hs] at hu
      exact add_left_cancel hu

/-- The monic recurrence that divides all recurrences of a sequence. -/
structure IsMinimalRecurrence (P : K[X]) (s : ℕ → K) : Prop where
  monic : P.Monic
  recurrence : act P s = 0
  dvd : ∀ Q : K[X], act Q s = 0 → P ∣ Q

theorem IsMinimalRecurrence.eq_zero_of_degree_lt (h : IsMinimalRecurrence P s)
    (hf : act f s = 0) (hdeg : f.degree < P.degree) : f = 0 := by
  by_contra hne
  exact absurd (degree_le_of_dvd (h.dvd f hf) hne) (not_le.mpr hdeg)

theorem IsMinimalRecurrence.smul (h : IsMinimalRecurrence P s) {c : K} (hc : c ≠ 0) :
    IsMinimalRecurrence P (c • s) := by
  refine ⟨h.monic, ?_, ?_⟩
  · rw [act_smul_right, h.recurrence, smul_zero]
  · intro Q hQ
    rw [act_smul_right] at hQ
    exact h.dvd Q ((smul_eq_zero.mp hQ).resolve_left hc)

theorem IsMinimalRecurrence.unique {Q : K[X]} (h : IsMinimalRecurrence P s)
    (h' : IsMinimalRecurrence Q s) : P = Q :=
  eq_of_monic_of_associated h.monic h'.monic
    (associated_of_dvd_dvd (h.dvd Q h'.recurrence) (h'.dvd P h.recurrence))

/-! ## Recurrences of an initial part

Mirrored into a polynomial `f` with `f_i = s_{N-i}`, an initial part of a sequence is acted on by
multiplication. -/

theorem coeff_mul_of_mirrored {N k : ℕ} (hg : g.degree < (k + 1 : ℕ)) (hk : k ≤ N)
    (hf : ∀ i ≤ k, f.coeff i = s (N - i)) : (g * f).coeff k = act g s (N - k) := by
  rw [coeff_mul, Finset.Nat.sum_antidiagonal_eq_sum_range_succ_mk, act_apply hg]
  apply Finset.sum_congr rfl
  intro j hj
  have hj := Finset.mem_range.mp hj
  simp only
  rw [hf (k - j) (by omega), show N - (k - j) = N - k + j by omega]

theorem coeff_mul_of_reflected {N k : ℕ} (hg : g.natDegree ≤ N) (hk : N ≤ k)
    (hf : ∀ i ≤ k, f.coeff i = s i) : (g * f).coeff k = act (reflect N g) s (k - N) := by
  have hdeg : (reflect N g).degree < (N + 1 : ℕ) := by
    rw [degree_lt_iff_coeff_zero]
    intro i hi
    rw [coeff_reflect, revAt_eq_self_of_lt (by omega), coeff_eq_zero_of_natDegree_lt (by omega)]
  rw [act_apply hdeg, ← Finset.sum_range_reflect, coeff_mul,
    Finset.Nat.sum_antidiagonal_eq_sum_range_succ_mk]
  have hvanish : ∀ j ∈ Finset.range (k + 1), j ∉ Finset.range (N + 1) →
      g.coeff (j, k - j).1 * f.coeff (j, k - j).2 = 0 := by
    intro j _ hj
    rw [coeff_eq_zero_of_natDegree_lt (by simp at hj; omega), zero_mul]
  rw [← Finset.sum_subset (Finset.range_subset_range.mpr (by omega)) hvanish]
  apply Finset.sum_congr rfl
  intro j hj
  have hj := Finset.mem_range.mp hj
  simp only
  rw [hf (k - j) (by omega), coeff_reflect, revAt_le (by omega),
    show N - (N + 1 - 1 - j) = j by omega, show k - N + (N + 1 - 1 - j) = k - j by omega]

end ZeroDim
