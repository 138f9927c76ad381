import Mathlib
import ZeroDim.Proofs.Hankel.Solution

/-! # When an inversion fails

An attempt to invert a Hankel matrix tells exactly what the matrix is like: it is singular, or its
inverse has a zero at the pivot, the first entry of the last column, or it is inverted.  The
recursion stops at a remainder of `d` coefficients for a regular matrix and at a shorter one for a
singular one, because its cofactor then goes to zero; and a polynomial that goes to zero is a
multiple of the cofactor with a remainder that is too short.

Where the minimal recurrence of the sequence has degree `d`, the direct window is regular, and the
search through the levels fails only for want of a pivot there. -/

set_option autoImplicit false

namespace ZeroDim

open Polynomial PrimeField Matrix

/-! ## Hankel matrices -/

section Matrices
variable {K : Type*} [Field K] {d : ℕ} {w w' : ℕ → K}

def hankelMatrix (d : ℕ) (w : ℕ → K) : Matrix (Fin d) (Fin d) K :=
  Matrix.of fun i j => w (i + j)

noncomputable def hankelPivot (d : ℕ) (w : ℕ → K) : K :=
  if h : 0 < d then (hankelMatrix d w)⁻¹ ⟨0, h⟩ ⟨d - 1, Nat.sub_lt h Nat.one_pos⟩ else 0

/-- A window that gives no inverse: the matrix is singular, or its pivot is zero. -/
def HankelFails (d : ℕ) (w : ℕ → K) : Prop := (hankelMatrix d w).det = 0 ∨ hankelPivot d w = 0

theorem hankelMatrix_mulVec {f : K[X]} (hf : f.degree < d) :
    hankelMatrix d w *ᵥ toFn d f = fun i : Fin d => act f w i := by
  funext i
  rw [act_apply hf, Finset.sum_range, mulVec, dotProduct]
  apply Finset.sum_congr rfl
  intro j _
  exact mul_comm _ _

omit [Field K] in
theorem hankelMatrix_congr (h : ∀ i < 2 * d - 1, w i = w' i) :
    hankelMatrix d w = hankelMatrix d w' := by
  ext i j
  exact h _ (by omega)

theorem det_hankelMatrix_eq_zero_iff : (hankelMatrix d w).det = 0 ↔
    ∃ f : K[X], f ≠ 0 ∧ f.degree < d ∧ ∀ i < d, act f w i = 0 := by
  classical
  rw [← exists_mulVec_eq_zero_iff]
  constructor
  · rintro ⟨v, hv, hzero⟩
    have hdeg := ofFn_degree_lt v
    refine ⟨ofFn d v, ?_, hdeg, ?_⟩
    · intro h
      exact hv (injective_ofFn d (h.trans (ofFn_zero d).symm))
    · intro i hi
      have hi' := congrFun (hankelMatrix_mulVec (w := w) hdeg) ⟨i, hi⟩
      rw [toFn_comp_ofFn_eq_id, hzero] at hi'
      exact hi'.symm
  · rintro ⟨f, hf, hdeg, hzero⟩
    refine ⟨toFn d f, ?_, ?_⟩
    · intro h
      apply hf
      ext j
      by_cases hj : j < d
      · exact congrFun h ⟨j, hj⟩
      · exact (degree_lt_iff_coeff_zero _ _).mp hdeg j (Nat.le_of_not_lt hj)
    · rw [hankelMatrix_mulVec hdeg]
      funext i
      exact hzero i i.isLt

theorem coeff_eq_inverse (hdet : (hankelMatrix d w).det ≠ 0) {z : K[X]} (hdeg : z.degree < d)
    (k : Fin d) (hz : ∀ i < d, act z w i = if i = k then 1 else 0) (j : Fin d) :
    z.coeff j = (hankelMatrix d w)⁻¹ j k := by
  have hcolumn : hankelMatrix d w *ᵥ toFn d z = Pi.single k 1 := by
    rw [hankelMatrix_mulVec hdeg]
    funext i
    rw [hz i i.isLt, Pi.single_apply]
    exact if_congr Fin.ext_iff.symm rfl rfl
  have hinverse : toFn d z = (hankelMatrix d w)⁻¹ *ᵥ Pi.single k 1 := by
    rw [← hcolumn, mulVec_mulVec, nonsing_inv_mul _ (isUnit_iff_ne_zero.mpr hdet), one_mulVec]
  rw [mulVec_single_one] at hinverse
  exact congrFun hinverse j

theorem coeff_zero_eq_hankelPivot (hd : 0 < d) (hdet : (hankelMatrix d w).det ≠ 0) {z : K[X]}
    (hdeg : z.degree < d) (hz : ∀ i < d, act z w i = if i = d - 1 then 1 else 0) :
    z.coeff 0 = hankelPivot d w := by
  rw [hankelPivot, dif_pos hd]
  exact coeff_eq_inverse hdet hdeg ⟨d - 1, Nat.sub_lt hd Nat.one_pos⟩ hz ⟨0, hd⟩

/-- Mirroring the window mirrors the rows and the columns of the matrix. -/
theorem det_hankelMatrix_mirrored (h : ∀ i < 2 * d - 1, w' i = w (2 * d - 2 - i)) :
    (hankelMatrix d w').det = (hankelMatrix d w).det := by
  have hmirror : hankelMatrix d w' = (hankelMatrix d w).submatrix Fin.revPerm Fin.revPerm := by
    ext i j
    have hij := h (i + j) (by omega)
    rw [show 2 * d - 2 - (i + j : ℕ) = (i.rev + j.rev : ℕ) by
      rw [Fin.val_rev, Fin.val_rev]; omega] at hij
    exact hij
  rw [hmirror, det_submatrix_equiv_self]

theorem IsMinimalRecurrence.det_hankelMatrix_ne_zero {P : K[X]} (h : IsMinimalRecurrence P w)
    (hdeg : P.natDegree = d) : (hankelMatrix d w).det ≠ 0 := by
  intro hdet
  obtain ⟨f, hne, hf, hzero⟩ := det_hankelMatrix_eq_zero_iff.mp hdet
  have hact : act f w = 0 := by
    apply eq_zero_of_act_eq_zero h.monic.ne_zero
    · rw [act_comm, h.recurrence, act_zero_right]
    · intro i hi
      exact hzero i (hdeg ▸ hi)
  apply hne
  apply h.eq_zero_of_degree_lt hact
  rwa [degree_eq_natDegree h.monic.ne_zero, hdeg]

end Matrices

variable {F : PrimeField} {d : ℕ}

namespace KeyEquation

/-! ## The two runs of an attempt -/

section Rows
variable {w : Array UInt32} {e : KeyEquation}

/-- A short cofactor with a short remainder makes the matrix singular: the cofactor goes to
zero. -/
theorem Rows.det_eq_zero (h : e.Rows F w.size (F.polynomial w.reverse))
    (hcofactor : (e.v1.toPolynomial F).natDegree < d)
    (h₁ : d + (e.v1.toPolynomial F).natDegree ≤ w.size) (h₂ : d + e.r1.length ≤ w.size) :
    (hankelMatrix d (F.terms w)).det = 0 := by
  rw [det_hankelMatrix_eq_zero_iff]
  refine ⟨e.v1.toPolynomial F, h.cofactor_ne_zero, ?_, ?_⟩
  · exact lt_of_lt_of_le (degree_lt_succ_natDegree _) (by exact_mod_cast hcofactor)
  · intro i hi
    exact h.act_cofactor_eq_zero (by omega) (by omega)

/-- A remainder of `d` coefficients makes it regular: what goes to zero is a multiple of the
cofactor, with a remainder shorter than that. -/
theorem Rows.det_ne_zero (hw : w.size = 2 * d - 1) (hr0 : d < e.r0.length) (hd : 0 < d)
    (h : e.Rows F w.size (F.polynomial w.reverse)) (hlen : e.r1.length = d) :
    (hankelMatrix d (F.terms w)).det ≠ 0 := by
  intro hdet
  obtain ⟨f, hne, hdeg, hzero⟩ := det_hankelMatrix_eq_zero_iff.mp hdet
  have hnat : f.natDegree < d := (natDegree_lt_iff_degree_lt hne).mpr hdeg
  have hr1 : e.r1.toPolynomial F ≠ 0 := by
    intro hz
    have := (Poly.length_eq_zero_iff_toPolynomial h.field_r1).mpr hz
    omega
  have hr1deg := Poly.length_eq_natDegree_add_one h.field_r1 hr1
  obtain ⟨hdvd, r, hrdeg, heq⟩ := h.dvd_of_act_eq_zero (m := d - 1) hlen.le hr0
    (by rwa [Nat.sub_add_cancel hd]) (by omega) (by omega) fun i hi => hzero i (by omega)
  have hrne : r ≠ 0 := by
    intro hz
    rw [hz, zero_mul] at heq
    exact (mul_eq_zero.mp heq).elim hne hr1
  have hsum := congrArg natDegree heq
  rw [natDegree_mul hne hr1, natDegree_mul hrne h.cofactor_ne_zero] at hsum
  have hle := natDegree_le_of_dvd hdvd hne
  have hrnat : r.natDegree < d - 1 := (natDegree_lt_iff_degree_lt hrne).mpr hrdeg
  omega

end Rows

theorem generator?_isSome_iff {key : KeyEquation} (hkey : key.field = F) (hr1 : key.r1.field = F)
    (hd : 0 < d) : (key.generator? d).isSome ↔ key.r1.length = d := by
  unfold generator?
  split
  · rename_i hlen
    have hne : key.r1.toPolynomial F ≠ 0 := by
      intro hz
      have := (Poly.length_eq_zero_iff_toPolynomial hr1).mpr hz
      omega
    obtain ⟨hlead, hval⟩ := Poly.leadingCoeff?_eq hr1 hne
    have hunit : F.value (key.r1.coeff (key.r1.length - 1)) ≠ 0 := by
      rw [hval]
      exact leadingCoeff_ne_zero.mpr hne
    rw [hlead, Option.bind_some, hkey, inv?_eq_some_word hunit]
    exact iff_of_true rfl hlen
  · rename_i hlen
    exact iff_of_false (by simp) hlen

section Windows
variable {key : KeyEquation} (hkey : key.field = F) (hd : 0 < d) {w : Array UInt32}
  (hw : w.size = 2 * d - 1)
include hkey hd hw

/-- The run on a mirrored window decides whether the matrix is regular. -/
theorem generator?_mirrored_isSome_iff :
    ((key.descend w.size (.ofCoeffs F w.reverse) d).generator? d).isSome ↔
      (hankelMatrix d (F.terms w)).det ≠ 0 := by
  have hlen : (Poly.ofCoeffs F w.reverse).length ≤ w.size := by
    simpa using Poly.length_ofCoeffs_le F w.reverse
  obtain ⟨rows, hr1, hr0⟩ := rows_start_reduceBelow key hkey (Poly.field_ofCoeffs F _) hlen
    (show d ≤ w.size by omega)
  rw [Poly.toPolynomial_ofCoeffs] at rows
  rw [generator?_isSome_iff ((field_descend _ _ _ _).trans hkey) rows.field_r1 hd]
  constructor
  · exact rows.det_ne_zero hw hr0 hd
  · intro hdet
    have hle := rows.natDegree_cofactor_le hr0
    by_contra hne
    have hshort := lt_of_le_of_ne hr1 hne
    exact hdet (rows.det_eq_zero (by omega) (by omega) (by omega))

theorem generator?_window_isSome_iff :
    ((key.descend w.size (.ofCoeffs F w) d).generator? d).isSome ↔
      (hankelMatrix d (F.terms w)).det ≠ 0 := by
  have hmirrored := generator?_mirrored_isSome_iff (w := w.reverse) hkey hd (by simpa using hw)
  rw [Array.size_reverse, Array.reverse_reverse] at hmirrored
  rw [hmirrored, det_hankelMatrix_mirrored (w := F.terms w)]
  intro i hi
  rw [terms, ← coeff_polynomial, coeff_polynomial_reverse (by omega), hw, terms]
  rfl

end Windows

end KeyEquation

/-! ## Attempts -/

def Attempt.Explains (d : ℕ) (w : ℕ → F.Element) : Attempt → Prop
  | .inverted _ => (hankelMatrix d w).det ≠ 0 ∧ hankelPivot d w ≠ 0
  | .zeroPivot => (hankelMatrix d w).det ≠ 0 ∧ hankelPivot d w = 0
  | .singular => (hankelMatrix d w).det = 0

theorem Attempt.Explains.congr {w w' : ℕ → F.Element} (h : ∀ i < 2 * d - 1, w i = w' i)
    {attempt : Attempt} (hw : attempt.Explains d w) : attempt.Explains d w' := by
  have hmatrix := hankelMatrix_congr h
  have hpivot : hankelPivot d w = hankelPivot d w' := by
    unfold hankelPivot
    rw [hmatrix]
  cases attempt with
  | inverted inverse => exact ⟨hmatrix ▸ hw.1, hpivot ▸ hw.2⟩
  | zeroPivot => exact ⟨hmatrix ▸ hw.1, hpivot ▸ hw.2⟩
  | singular => exact (congrArg det hmatrix).symm.trans hw

namespace KeyEquation

theorem attempt_explains {key : KeyEquation} (hkey : key.field = F) (hd : 0 < d)
    {w : Array UInt32} (hw : w.size = 2 * d - 1) (level : Level) :
    (key.attempt w d level).1.Explains d (F.terms w) := by
  subst hkey
  have hfirst := generator?_mirrored_isSome_iff (rfl : key.field = _) hd hw
  have hsecond := generator?_window_isSome_iff
    (field_descend key w.size (.ofCoeffs key.field w.reverse) d) hd hw
  unfold attempt
  dsimp only
  split
  · rename_i hnone
    rw [hnone] at hfirst
    exact not_not.mp fun hdet => Bool.false_ne_true (hfirst.mpr hdet)
  · rename_i z1 hz1
    rw [hz1] at hfirst
    have hdet := hfirst.mp rfl
    have hpivot : (z1.toPolynomial key.field).coeff 0 = hankelPivot d (key.field.terms w) := by
      have hw' : w.reverse.size = 2 * d - 1 := by rw [Array.size_reverse, hw]
      rw [show w.size = w.reverse.size from Array.size_reverse.symm] at hz1
      obtain ⟨-, hdeg, hcoeff⟩ := descend_spec rfl hd hw' hz1
      apply coeff_zero_eq_hankelPivot hd hdet hdeg
      intro i hi
      rw [← coeff_mul_mirroredWindow hw hdeg hi, hcoeff (2 * d - 2 - i) (by omega) (by omega)]
      exact if_congr (by omega) rfl rfl
    rw [Poly.coeff_toPolynomial] at hpivot
    split
    · rename_i hnone
      rw [inv?_eq] at hnone
      split at hnone
      · rename_i hzero
        exact ⟨hdet, hpivot ▸ hzero⟩
      · contradiction
    · rename_i pivotInverse hsome
      have hne : hankelPivot d (key.field.terms w) ≠ 0 := by
        intro hzero
        rw [inv?_eq, if_pos (hpivot.trans hzero)] at hsome
        contradiction
      split
      · -- the second run cannot stop earlier than the first
        rename_i hnone
        rw [hnone] at hsecond
        exact absurd (hsecond.mpr hdet) Bool.false_ne_true
      · exact ⟨hdet, hne⟩

/-! ## The search through the levels -/

end KeyEquation

def Level.view (level : Level) (s : ℕ → F.Element) (i : ℕ) : F.Element :=
  match level with
  | .direct => s i
  | .shifted => s (i + 1)
  | .deflated => s i - s (i + 1)

theorem Level.act_factor (level : Level) (s : ℕ → F.Element) :
    act (level.factor F) s = level.view s := by
  funext i
  cases level with
  | direct => rw [factor, act_one, view]
  | shifted => rw [factor, act_X_apply, view]
  | deflated => rw [factor, act_sub, act_one, Pi.sub_apply, act_X_apply, view]

/-- None of the listed levels gives an inverse; a singular direct window ends the list. -/
def Level.Unusable (d : ℕ) (s : ℕ → F.Element) : List Level → Prop
  | [] => True
  | level :: levels =>
    ((hankelMatrix d (level.view s)).det = 0 ∧ (level = .direct ∨ Unusable d s levels)) ∨
      ((hankelMatrix d (level.view s)).det ≠ 0 ∧ hankelPivot d (level.view s) = 0 ∧
        Unusable d s levels)

theorem Level.unusable_cons_iff {s : ℕ → F.Element} {level : Level} {levels : List Level}
    (h : level ≠ .direct) : Unusable d s (level :: levels) ↔
      HankelFails d (level.view s) ∧ Unusable d s levels := by
  rw [Unusable, or_iff_right h, HankelFails]
  tauto

/-- All levels together are unusable when the direct matrix is singular or every level fails. -/
theorem Level.unusable_onward_iff {s : ℕ → F.Element} : Unusable d s Level.direct.onward ↔
    (hankelMatrix d s).det = 0 ∨ ∀ level : Level, HankelFails d (level.view s) := by
  change Unusable d s [.direct, .shifted, .deflated] ↔ _
  rw [Unusable, unusable_cons_iff (by decide), unusable_cons_iff (by decide)]
  constructor
  · rintro (⟨hdet, -⟩ | ⟨-, hpivot, hshifted, hdeflated, -⟩)
    · exact .inl hdet
    · right
      intro level
      cases level with
      | direct => exact .inr hpivot
      | shifted => exact hshifted
      | deflated => exact hdeflated
  · intro h
    by_cases hdet : (hankelMatrix d s).det = 0
    · exact .inl ⟨hdet, .inl rfl⟩
    · have hfails := h.resolve_left hdet
      exact .inr ⟨hdet, (hfails .direct).resolve_left hdet, hfails .shifted, hfails .deflated,
        trivial⟩

namespace KeyEquation

section Search
variable {sequence : Array UInt32} (hr : F.AllReduced sequence) (hd : 0 < d)
  (hsize : 2 * d ≤ sequence.size) {s : ℕ → F.Element}
  (hs : ∀ i < 2 * d, F.terms sequence i = s i)
include hr hd hsize hs

theorem invertAlong_eq_none_iff (levels : List Level) (key : KeyEquation) (hkey : key.field = F) :
    (∃ key', key.invertAlong sequence d levels = .ok (none, key')) ↔
      Level.Unusable d s levels := by
  induction levels generalizing key with
  | nil => exact iff_of_true ⟨key, rfl⟩ trivial
  | cons level levels ih =>
    obtain ⟨w, hw, hwsize, -, hterms⟩ := level.window_spec hr (show 2 * d - 1 + 1 ≤ _ by omega)
    have hfield := (field_attempt key w d level).trans hkey
    have hexplains : (key.attempt w d level).1.Explains d (level.view s) := by
      refine (attempt_explains hkey hd hwsize level).congr ?_
      intro i hi
      rw [← level.act_factor]
      exact hterms s (fun j hj => hs j (by omega)) i hi
    rw [invertAlong, hkey, hw, ok_bind, Level.Unusable]
    generalize key.attempt w d level = attempted at hfield hexplains ⊢
    obtain ⟨attempt, key'⟩ := attempted
    cases attempt with
    | inverted inverse =>
      obtain ⟨hdet, hpivot⟩ := hexplains
      refine iff_of_false ?_ ?_
      · rintro ⟨key'', h⟩
        have := (Prod.mk.inj (Except.ok.inj h)).1
        contradiction
      · rintro (⟨hzero, -⟩ | ⟨-, hzero, -⟩)
        · exact hdet hzero
        · exact hpivot hzero
    | zeroPivot =>
      obtain ⟨hdet, hpivot⟩ := hexplains
      rw [or_iff_right fun h => hdet h.1, and_iff_right hdet, and_iff_right hpivot]
      exact ih key' hfield
    | singular =>
      have hdet : (hankelMatrix d (level.view s)).det = 0 := hexplains
      rw [or_iff_left fun h => h.1 hdet, and_iff_right hdet]
      dsimp only
      split
      · rename_i hdirect
        exact iff_of_true ⟨key', rfl⟩ (.inl hdirect)
      · rename_i hdirect
        rw [or_iff_right hdirect]
        exact ih key' hfield

theorem invertHankel_eq_none_iff (hdet : (hankelMatrix d s).det ≠ 0) {key : KeyEquation}
    (hkey : key.field = F) : (∃ key', key.invertHankel sequence d = .ok (none, key')) ↔
      hankelPivot d s = 0 ∧ HankelFails d (fun i => s (i + 1)) ∧
        HankelFails d (fun i => s i - s (i + 1)) := by
  rw [invertHankel, invertAlong_eq_none_iff hr hd hsize hs _ key hkey, Level.unusable_onward_iff,
    or_iff_right hdet]
  constructor
  · intro hfails
    exact ⟨(hfails .direct).resolve_left hdet, hfails .shifted, hfails .deflated⟩
  · rintro ⟨hpivot, hshifted, hdeflated⟩ level
    cases level with
    | direct => exact .inr hpivot
    | shifted => exact hshifted
    | deflated => exact hdeflated

end Search

end KeyEquation

end ZeroDim
