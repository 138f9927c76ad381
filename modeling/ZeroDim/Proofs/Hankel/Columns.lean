import Mathlib
import ZeroDim.Proofs.Sequence.Recurrence

/-! # The inverse of a Hankel matrix from two of its columns

The Hankel matrix of `w` takes the coefficients of a polynomial `f` to the first terms of
`act f w`.  Let `x` go to the last unit vector and `y` to the first.  Then

  `B_j = x * (y without its j lowest terms) - X * y * (x without its j + 1 lowest terms)`,

each remainder shifted down, goes to `x_0` times the `j`-th unit vector: going from `B_j` to
`B_{j+1}` moves one step along the diagonal of the product, and the first column and the vanishing
of `B_j` beyond the dimension start the two halves.  Solving a system is therefore a combination
of the `B_j`, and the matrix is regular when `x_0` is not zero. -/

set_option autoImplicit false

namespace ZeroDim

open Polynomial

variable {K : Type*} [Field K]

theorem coeff_iterate_divX (k : ℕ) (f : K[X]) (i : ℕ) : (divX^[k] f).coeff i = f.coeff (i + k) := by
  induction k generalizing i with
  | zero => rfl
  | succ k ih => rw [Function.iterate_succ_apply', coeff_divX, ih, Nat.add_assoc, Nat.add_comm 1]

theorem iterate_divX_eq (k : ℕ) (f : K[X]) :
    divX^[k] f = X * divX^[k + 1] f + C (f.coeff k) := by
  have h := X_mul_divX_add (divX^[k] f)
  rw [coeff_iterate_divX, Nat.zero_add, ← Function.iterate_succ_apply' divX] at h
  exact h.symm

theorem iterate_divX_eq_zero {d k : ℕ} {f : K[X]} (hf : f.degree < d) (hk : d ≤ k) :
    divX^[k] f = 0 := by
  ext i
  rw [coeff_iterate_divX, (degree_lt_iff_coeff_zero _ _).mp hf _ (by omega), coeff_zero]

/-- The last column `x` and the first column `y` of the inverse of the Hankel matrix of `w`. -/
structure HankelColumns (d : ℕ) (w : ℕ → K) (x y : K[X]) : Prop where
  degree_last : x.degree < d
  degree_first : y.degree < d
  last : ∀ i < d, act x w i = if i = d - 1 then 1 else 0
  first : ∀ i < d, act y w i = if i = 0 then 1 else 0

/-- Column `j` of the inverse, times `x_0`. -/
noncomputable def hankelColumn (x y : K[X]) (j : ℕ) : K[X] :=
  x * divX^[j] y - X * y * divX^[j + 1] x

theorem hankelColumn_zero (x y : K[X]) : hankelColumn x y 0 = C (x.coeff 0) * y := by
  have h := iterate_divX_eq 0 x
  rw [Function.iterate_zero, id, Nat.zero_add] at h
  rw [hankelColumn, Function.iterate_zero, id, Nat.zero_add]
  linear_combination y * h

theorem hankelColumn_sub (x y : K[X]) (j : ℕ) :
    hankelColumn x y j - X * hankelColumn x y (j + 1) =
      C (y.coeff j) * x - C (x.coeff (j + 1)) * (X * y) := by
  have hy := iterate_divX_eq j y
  have hx := iterate_divX_eq (j + 1) x
  rw [hankelColumn, hankelColumn]
  linear_combination x * hy - X * y * hx

namespace HankelColumns

variable {d : ℕ} {w : ℕ → K} {x y : K[X]} (h : HankelColumns d w x y)
include h

theorem hankelColumn_eq_zero {j : ℕ} (hj : d ≤ j) : hankelColumn x y j = 0 := by
  rw [hankelColumn, iterate_divX_eq_zero h.degree_first hj,
    iterate_divX_eq_zero h.degree_last (by omega), mul_zero, mul_zero, sub_zero]

theorem degree_hankelColumn_lt (j : ℕ) : (hankelColumn x y j).degree < d := by
  have hxz := (degree_lt_iff_coeff_zero _ _).mp h.degree_last
  have hyz := (degree_lt_iff_coeff_zero _ _).mp h.degree_first
  rw [degree_lt_iff_coeff_zero]
  induction j with
  | zero =>
    intro i hi
    rw [hankelColumn_zero, coeff_C_mul, hyz i hi, mul_zero]
  | succ j ih =>
    intro i hi
    have hstep := congrArg (fun f => f.coeff (i + 1)) (hankelColumn_sub x y j)
    simp only [coeff_sub, coeff_X_mul, coeff_C_mul] at hstep
    rw [ih (i + 1) (by omega), hxz (i + 1) (by omega), hyz i hi] at hstep
    simpa using hstep

theorem act_hankelColumn_succ {i j : ℕ} (hi : i + 1 < d) :
    act (hankelColumn x y (j + 1)) w (i + 1) = act (hankelColumn x y j) w i := by
  have hstep := congrArg (fun f => act f w i) (hankelColumn_sub x y j)
  simp only [act_sub, Pi.sub_apply, act_C_mul_apply, act_X_mul_apply] at hstep
  rw [h.last i (by omega), h.first (i + 1) hi, if_neg (by omega), if_neg (by omega), mul_zero,
    mul_zero, sub_zero] at hstep
  exact (sub_eq_zero.mp hstep).symm

theorem act_hankelColumn_of_lt {i j : ℕ} (hi : i < d) (hij : i < j) :
    act (hankelColumn x y j) w i = 0 := by
  -- along the diagonal, down to the last row, where the column is beyond the dimension
  obtain ⟨k, hk⟩ : ∃ k, i + k + 1 = d := ⟨d - 1 - i, by omega⟩
  induction k generalizing i j with
  | zero => rw [h.hankelColumn_eq_zero (by omega), act_zero, Pi.zero_apply]
  | succ k ih =>
    rw [← h.act_hankelColumn_succ (by omega)]
    exact ih (by omega) (by omega) (by omega)

theorem act_hankelColumn {i : ℕ} (hi : i < d) (j : ℕ) :
    act (hankelColumn x y j) w i = if i = j then x.coeff 0 else 0 := by
  induction j generalizing i with
  | zero =>
    rw [hankelColumn_zero, act_C_mul_apply, h.first i hi]
    split <;> simp
  | succ j ih =>
    cases i with
    | zero => rw [h.act_hankelColumn_of_lt hi (Nat.succ_pos j), if_neg (by omega)]
    | succ i =>
      rw [h.act_hankelColumn_succ hi, ih (by omega)]
      simp only [Nat.add_right_cancel_iff]

theorem degree_sum_hankelColumn_lt (c : ℕ → K) :
    (∑ j ∈ Finset.range d, C (c j) * hankelColumn x y j).degree < d := by
  rw [degree_lt_iff_coeff_zero]
  intro i hi
  rw [finsetSum_coeff]
  apply Finset.sum_eq_zero
  intro j _
  rw [coeff_C_mul, (degree_lt_iff_coeff_zero _ _).mp (h.degree_hankelColumn_lt j) i hi, mul_zero]

theorem act_sum_hankelColumn (c : ℕ → K) {i : ℕ} (hi : i < d) :
    act (∑ j ∈ Finset.range d, C (c j) * hankelColumn x y j) w i = x.coeff 0 * c i := by
  rw [act_sum, Finset.sum_apply]
  simp only [act_C_mul_apply, h.act_hankelColumn hi, mul_ite, mul_zero]
  rw [Finset.sum_ite_eq, if_pos (Finset.mem_range.mpr hi), mul_comm]

theorem eq_zero_of_act_eq_zero {f : K[X]} (hx : x.coeff 0 ≠ 0) (hdeg : f.degree < d)
    (hf : ∀ i < d, act f w i = 0) : f = 0 := by
  ext j
  by_cases hj : j < d
  · -- pair `f` with column `j` in both orders
    have hleft : act (f * hankelColumn x y j) w 0 = f.coeff j * x.coeff 0 := by
      rw [act_mul, act_apply hdeg]
      simp only [Nat.zero_add]
      rw [Finset.sum_eq_single j]
      · rw [h.act_hankelColumn hj, if_pos rfl]
      · intro i hi hne
        rw [h.act_hankelColumn (Finset.mem_range.mp hi), if_neg hne, mul_zero]
      · intro hnot
        exact absurd (Finset.mem_range.mpr hj) hnot
    have hright : act (f * hankelColumn x y j) w 0 = 0 := by
      rw [mul_comm, act_mul, act_apply (h.degree_hankelColumn_lt j)]
      apply Finset.sum_eq_zero
      intro i hi
      rw [Nat.zero_add, hf i (Finset.mem_range.mp hi), mul_zero]
    rw [hleft] at hright
    exact (mul_eq_zero.mp hright).resolve_right hx
  · rw [(degree_lt_iff_coeff_zero _ _).mp hdeg j (by omega), coeff_zero]

theorem sum_hankelColumn_act {f : K[X]} (hx : x.coeff 0 ≠ 0) (hdeg : f.degree < d) :
    ∑ j ∈ Finset.range d, C (act f w j) * hankelColumn x y j = C (x.coeff 0) * f := by
  apply sub_eq_zero.mp
  apply h.eq_zero_of_act_eq_zero hx
  · refine lt_of_le_of_lt (degree_sub_le _ _) (max_lt (h.degree_sum_hankelColumn_lt _) ?_)
    rwa [degree_C_mul hx]
  · intro i hi
    rw [act_sub, Pi.sub_apply, h.act_sum_hankelColumn _ hi, act_C_mul_apply, sub_self]

/-- Two columns with a pivot belong to one window only: what acts on one window in a known way is a
combination of columns, and the columns act on both windows alike. -/
theorem window_unique {w' : ℕ → K} (h' : HankelColumns d w' x y) (hx : x.coeff 0 ≠ 0) {i : ℕ}
    (hi : i < 2 * d - 1) : w' i = w i := by
  obtain ⟨j, k, rfl, hj, hk⟩ : ∃ j k, i = j + k ∧ j < d ∧ k < d :=
    ⟨min i (d - 1), i - min i (d - 1), by omega, by omega, by omega⟩
  have hdeg : (X ^ k : K[X]).degree < d := by
    rw [degree_X_pow]
    exact_mod_cast hk
  have hshift : ∀ u : ℕ → K, act (X ^ k) u j = u (j + k) := by
    intro u
    rw [act, map_pow, aeval_X, shift_pow_apply]
  have hact := congrArg (fun f => act f w' j) (h.sum_hankelColumn_act hx hdeg)
  simp only [h'.act_sum_hankelColumn _ hj, act_C_mul_apply, hshift] at hact
  exact (mul_left_cancel₀ hx hact).symm

end HankelColumns

end ZeroDim
