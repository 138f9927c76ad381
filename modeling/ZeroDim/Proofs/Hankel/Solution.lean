import Mathlib
import ZeroDim.Hankel.Inverse
import ZeroDim.Proofs.Hankel.Columns
import ZeroDim.Proofs.KeyEquation

/-! # Solutions of Hankel systems

A successful inversion holds the last and the first column of the inverse, for the window of its
level, and the four truncated products of `HankelInverse.solve` combine the columns into the
solution.  Seen through the window of level `L`, a sequence is acted on by `1`, `X` or `1 - X`.
When the sequence has a recurrence of the dimension as degree, a regular window makes this factor
prime to the recurrence, so that the solution at any level solves the system without window. -/

set_option autoImplicit false

namespace ZeroDim

open Polynomial PrimeField

variable {F : PrimeField}

/-! ## Windows -/

noncomputable def Level.factor (F : PrimeField) : Level → F.Element[X]
  | .direct => 1
  | .shifted => X
  | .deflated => 1 - X

/-- A window exists when the sequence is one term longer, and shows the action of its factor. -/
theorem Level.window_spec (level : Level) {stream : Array UInt32} (hr : F.AllReduced stream)
    {n : ℕ} (hn : n + 1 ≤ stream.size) :
    ∃ w, level.window F stream n = .ok w ∧ w.size = n ∧ F.AllReduced w ∧
      ∀ s : ℕ → F.Element, (∀ i ≤ n, F.terms stream i = s i) →
        ∀ i < n, F.terms w i = act (level.factor F) s i := by
  cases level with
  | direct =>
    refine ⟨stream.extract 0 n, segment_eq_ok (by omega) (by omega), ?_, hr.extract _ _, ?_⟩
    · rw [Array.size_extract]
      omega
    · intro s hs i hi
      rw [Level.factor, act_one, terms, getD_extract (by omega), Nat.zero_add]
      exact hs i (by omega)
  | shifted =>
    refine ⟨stream.extract 1 (n + 1), segment_eq_ok (by omega) hn, ?_, hr.extract _ _, ?_⟩
    · rw [Array.size_extract]
      omega
    · intro s hs i hi
      rw [Level.factor, act_X_apply, terms, getD_extract (by omega), Nat.add_comm 1]
      exact hs (i + 1) (by omega)
  | deflated =>
    have hterms : F.AllReduced (stream.extract 0 (n + 1)) := hr.extract _ _
    refine ⟨Array.ofFn fun i : Fin n => F.sub ((stream.extract 0 (n + 1)).getD i 0)
      ((stream.extract 0 (n + 1)).getD (i + 1) 0), ?_, Array.size_ofFn, ?_, ?_⟩
    · rw [Level.window, segment_eq_ok (Nat.zero_le _) hn]
      rfl
    · exact allReduced_ofFn fun i => reduced_sub (hterms.getD _) (hterms.getD _)
    · intro s hs i hi
      rw [Level.factor, act_sub, act_one, Pi.sub_apply, act_X_apply, terms,
        getD_ofFn (fun i => F.sub ((stream.extract 0 (n + 1)).getD i 0)
          ((stream.extract 0 (n + 1)).getD (i + 1) 0)), if_pos hi,
        value_sub (hterms.getD _) (hterms.getD _), getD_extract (by omega),
        getD_extract (by omega), Nat.zero_add, Nat.zero_add, ← hs i (by omega),
        ← hs (i + 1) (by omega), terms, terms]

theorem Level.of_window {level : Level} {stream w : Array UInt32} {n : ℕ}
    (h : level.window F stream n = .ok w) :
    w.size = n ∧ (F.AllReduced stream → F.AllReduced w) := by
  cases level with
  | direct =>
    obtain ⟨hle, rfl⟩ := segment_eq_ok_iff.mp h
    exact ⟨by rw [Array.size_extract]; omega, fun hr => hr.extract _ _⟩
  | shifted =>
    obtain ⟨hle, rfl⟩ := segment_eq_ok_iff.mp h
    exact ⟨by rw [Array.size_extract]; omega, fun hr => hr.extract _ _⟩
  | deflated =>
    obtain ⟨terms, hterms, h⟩ := bind_eq_ok.mp h
    obtain ⟨hle, rfl⟩ := segment_eq_ok_iff.mp hterms
    rw [← Except.ok.inj h]
    refine ⟨Array.size_ofFn, fun hr => allReduced_ofFn fun i => ?_⟩
    exact reduced_sub ((hr.extract _ _).getD _) ((hr.extract _ _).getD _)

/-- Multiplication with the mirrored window acts on the window. -/
theorem coeff_mul_mirroredWindow {d : ℕ} {w : Array UInt32} (hw : w.size = 2 * d - 1)
    {g : F.Element[X]} (hg : g.degree < d) {i : ℕ} (hi : i < d) :
    (g * F.polynomial w.reverse).coeff (2 * d - 2 - i) = act g (F.terms w) i := by
  rw [coeff_mul_of_mirrored (s := F.terms w) (N := 2 * d - 2),
    show 2 * d - 2 - (2 * d - 2 - i) = i by omega]
  · exact lt_of_lt_of_le hg (by exact_mod_cast (by omega))
  · omega
  · intro j hj
    rw [coeff_polynomial_reverse (by omega), hw, terms,
      show 2 * d - 1 - 1 - j = 2 * d - 2 - j by omega]

/-- Multiplication with the window itself acts by the mirrored polynomial. -/
theorem coeff_mul_window {d : ℕ} {w : Array UInt32} {g : F.Element[X]} (hg : g.degree < d)
    (i : ℕ) :
    (g * F.polynomial w).coeff (d - 1 + i) = act (reflect (d - 1) g) (F.terms w) i := by
  rw [coeff_mul_of_reflected (s := F.terms w) (N := d - 1), Nat.add_sub_cancel_left]
  · rw [natDegree_le_iff_coeff_eq_zero]
    intro j hj
    exact (degree_lt_iff_coeff_zero _ _).mp hg j (by omega)
  · omega
  · intro j _
    rw [coeff_polynomial, terms]

/-! ## Columns from the key equation -/

namespace HankelInverse

noncomputable def lastColumn (F : PrimeField) (h : HankelInverse) : F.Element[X] :=
  h.z1.toPolynomial F

noncomputable def firstColumn (F : PrimeField) (h : HankelInverse) : F.Element[X] :=
  reflect (h.dimension - 1) (h.z2.toPolynomial F)

end HankelInverse

/-- The columns of an inverse are those of the Hankel matrix of `w`. -/
structure HankelInverse.Holds (F : PrimeField) (w : ℕ → F.Element) (h : HankelInverse) : Prop where
  field_z1 : h.z1.field = F
  field_z2 : h.z2.field = F
  columns : HankelColumns h.dimension w (h.lastColumn F) (h.firstColumn F)
  degree_z2 : (h.z2.toPolynomial F).degree < h.dimension
  pivot : F.value h.pivotInverse * (h.lastColumn F).coeff 0 = 1

theorem HankelInverse.Holds.congr {w w' : ℕ → F.Element} {h : HankelInverse} (hw : h.Holds F w)
    (heq : ∀ i < 2 * h.dimension - 1, w i = w' i) : h.Holds F w' := by
  have hact : ∀ {f : F.Element[X]} {i : ℕ}, f.degree < h.dimension → i < h.dimension →
      act f w' i = act f w i := by
    intro f i hf hi
    apply act_congr hf
    intro j hj
    exact (heq (i + j) (by omega)).symm
  refine ⟨hw.field_z1, hw.field_z2, ⟨hw.columns.degree_last, hw.columns.degree_first, ?_, ?_⟩,
    hw.degree_z2, hw.pivot⟩
  · intro i hi
    rw [hact hw.columns.degree_last hi, hw.columns.last i hi]
  · intro i hi
    rw [hact hw.columns.degree_first hi, hw.columns.first i hi]

namespace KeyEquation

theorem field_descend (key : KeyEquation) (high : ℕ) (f : Poly) (d : ℕ) :
    (key.descend high f d).field = key.field := field_reduceBelow _ _

theorem generator?_spec {key : KeyEquation} (hkey : key.field = F) {f : F.Element[X]} {d : ℕ}
    (hd : 0 < d) (h : key.Rows F (2 * d - 1) f) (hr0 : d < key.r0.length) {z : Poly}
    (hz : key.generator? d = some z) :
    z.field = F ∧ (z.toPolynomial F).degree < d ∧
      ∀ k, d - 1 ≤ k → k < 2 * d - 1 →
        (z.toPolynomial F * f).coeff k = if k = d - 1 then 1 else 0 := by
  unfold generator? at hz
  split at hz
  · rename_i hlen
    have hne : key.r1.toPolynomial F ≠ 0 := by
      intro h0
      have := (Poly.length_eq_zero_iff_toPolynomial h.field_r1).mpr h0
      omega
    obtain ⟨hlead, hval⟩ := Poly.leadingCoeff?_eq h.field_r1 hne
    have hunit : F.value (key.r1.coeff (key.r1.length - 1)) ≠ 0 := by
      rw [hval]
      exact leadingCoeff_ne_zero.mpr hne
    rw [hlead, Option.bind_some, hkey, inv?_eq_some_word hunit, Option.map_some,
      Option.some.injEq] at hz
    subst hz
    refine ⟨h.field_v1, ?_, ?_⟩
    · have hle := h.natDegree_cofactor_le hr0
      rw [degree_lt_iff_coeff_zero]
      intro i hi
      rw [Poly.toPolynomial_scale h.field_v1, coeff_mul_C,
        coeff_eq_zero_of_natDegree_lt (by omega), zero_mul]
    · intro k hk₁ hk₂
      rw [Poly.toPolynomial_scale h.field_v1, value_word, mul_right_comm, coeff_mul_C,
        h.coeff_mul hk₂, Poly.coeff_toPolynomial]
      split
      · rename_i hk
        rw [hk, ← hlen, mul_inv_cancel₀ hunit]
      · rw [Poly.coeff_eq_zero_of_length_le (by omega), value_zero, zero_mul]
  · contradiction

theorem field_attempt (key : KeyEquation) (w : Array UInt32) (d : ℕ) (level : Level) :
    (key.attempt w d level).2.field = key.field := by
  unfold attempt
  dsimp only
  split
  · exact field_descend _ _ _ _
  · split
    · exact field_descend _ _ _ _
    · split
      · exact (field_descend _ _ _ _).trans (field_descend _ _ _ _)
      · exact (field_descend _ _ _ _).trans (field_descend _ _ _ _)

theorem descend_spec {key : KeyEquation} (hkey : key.field = F) {d : ℕ} (hd : 0 < d)
    {cs : Array UInt32} (hcs : cs.size = 2 * d - 1) {z : Poly}
    (hz : (key.descend cs.size (.ofCoeffs F cs) d).generator? d = some z) :
    z.field = F ∧ (z.toPolynomial F).degree < d ∧
      ∀ k, d - 1 ≤ k → k < 2 * d - 1 →
        (z.toPolynomial F * F.polynomial cs).coeff k = if k = d - 1 then 1 else 0 := by
  have hlen : (Poly.ofCoeffs F cs).length ≤ cs.size := Poly.length_ofCoeffs_le F cs
  obtain ⟨rows, -, hr0⟩ := rows_start_reduceBelow key hkey (Poly.field_ofCoeffs F cs) hlen
    (show d ≤ cs.size by omega)
  rw [Poly.toPolynomial_ofCoeffs] at rows
  rw [hcs] at rows hr0 hz
  exact generator?_spec ((field_descend _ _ _ _).trans hkey) hd rows hr0 hz

theorem attempt_spec {key : KeyEquation} (hkey : key.field = F) {d : ℕ} (hd : 0 < d)
    {w : Array UInt32} (hw : w.size = 2 * d - 1) (level : Level) (inverse : HankelInverse)
    (h : (key.attempt w d level).1 = .inverted inverse) :
    inverse.dimension = d ∧ inverse.level = level ∧ inverse.Holds F (F.terms w) := by
  subst hkey
  have hw' : w.reverse.size = 2 * d - 1 := by rw [Array.size_reverse, hw]
  have hsize : w.size = w.reverse.size := Array.size_reverse.symm
  unfold attempt at h
  dsimp only at h
  split at h
  · contradiction
  · rename_i z1 hz1
    split at h
    · contradiction
    · rename_i pivotInverse hpivot
      split at h
      · contradiction
      · rename_i z2 hz2
        rw [Attempt.inverted.injEq] at h
        subst h
        rw [hsize] at hz1
        obtain ⟨hf1, hdeg1, hcoeff1⟩ := descend_spec rfl hd hw' hz1
        obtain ⟨hf2, hdeg2, hcoeff2⟩ := descend_spec (field_descend _ _ _ _) hd hw hz2
        refine ⟨rfl, rfl, hf1, hf2, ⟨hdeg1, ?_, ?_, ?_⟩, hdeg2, ?_⟩
        · rw [degree_lt_iff_coeff_zero]
          intro i hi
          have hi : d ≤ i := hi
          rw [HankelInverse.firstColumn, coeff_reflect, revAt_eq_self_of_lt (by dsimp only; omega)]
          exact (degree_lt_iff_coeff_zero _ _).mp hdeg2 i hi
        · intro i hi
          have hi : i < d := hi
          have hcoeff := hcoeff1 (2 * d - 2 - i) (by omega) (by omega)
          rw [coeff_mul_mirroredWindow hw hdeg1 hi] at hcoeff
          rw [HankelInverse.lastColumn, hcoeff]
          exact if_congr (by dsimp only; omega) rfl rfl
        · intro i hi
          have hi : i < d := hi
          have hcoeff := hcoeff2 (d - 1 + i) (by omega) (by omega)
          rw [coeff_mul_window hdeg2 i] at hcoeff
          rw [HankelInverse.firstColumn, hcoeff]
          exact if_congr (by omega) rfl rfl
        · dsimp only
          rw [inv?_eq] at hpivot
          split at hpivot
          · contradiction
          · rename_i hne
            rw [Option.some.injEq] at hpivot
            rw [← hpivot, value_word, HankelInverse.lastColumn, Poly.coeff_toPolynomial]
            exact inv_mul_cancel₀ hne

/-- What a search does at a level: it ends there with an inverse or with a singular direct window,
or goes on after a failure. -/
theorem invertAlong_cons_eq_ok {sequence : Array UInt32} {d : ℕ} {level : Level}
    {levels : List Level} {key key' : KeyEquation} {result : Option HankelInverse}
    (h : key.invertAlong sequence d (level :: levels) = .ok (result, key')) :
    ∃ w key₁, level.window key.field sequence (2 * d - 1) = .ok w ∧ key₁.field = key.field ∧
      ((∃ inverse, (key.attempt w d level).1 = .inverted inverse ∧ result = some inverse ∧
          key' = key₁) ∨
        ((key.attempt w d level).1 = .singular ∧ level = .direct ∧ result = none ∧ key' = key₁) ∨
        (((key.attempt w d level).1 = .zeroPivot ∨ (key.attempt w d level).1 = .singular) ∧
          key₁.invertAlong sequence d levels = .ok (result, key'))) := by
  obtain ⟨w, hw, h⟩ := bind_eq_ok.mp h
  refine ⟨w, (key.attempt w d level).2, hw, field_attempt key w d level, ?_⟩
  generalize key.attempt w d level = attempted at h ⊢
  obtain ⟨attempt, key₁⟩ := attempted
  cases attempt with
  | inverted inverse =>
    obtain ⟨rfl, rfl⟩ := Prod.mk.inj (Except.ok.inj h)
    exact .inl ⟨inverse, rfl, rfl, rfl⟩
  | zeroPivot => exact .inr (.inr ⟨.inl rfl, h⟩)
  | singular =>
    dsimp only at h
    split at h
    · rename_i hdirect
      obtain ⟨rfl, rfl⟩ := Prod.mk.inj (Except.ok.inj h)
      exact .inr (.inl ⟨rfl, hdirect, rfl, rfl⟩)
    · exact .inr (.inr ⟨.inr rfl, h⟩)

theorem field_invertAlong {sequence : Array UInt32} {d : ℕ} (levels : List Level)
    {key key' : KeyEquation} {result : Option HankelInverse}
    (h : key.invertAlong sequence d levels = .ok (result, key')) : key'.field = key.field := by
  induction levels generalizing key with
  | nil =>
    have hpair := Except.ok.inj h
    rw [(Prod.mk.inj hpair).2]
  | cons level levels ih =>
    obtain ⟨w, key₁, -, hfield, ⟨inverse, -, -, rfl⟩ | ⟨-, -, -, rfl⟩ | ⟨-, h⟩⟩ :=
      invertAlong_cons_eq_ok h
    · exact hfield
    · exact hfield
    · exact (ih h).trans hfield

theorem holds_of_invertAlong {sequence : Array UInt32} {d : ℕ} (hd : 0 < d) (levels : List Level)
    {key key' : KeyEquation} (hkey : key.field = F) {inverse : HankelInverse}
    (h : key.invertAlong sequence d levels = .ok (some inverse, key')) :
    ∃ w, inverse.level.window F sequence (2 * d - 1) = .ok w ∧ inverse.dimension = d ∧
      inverse.Holds F (F.terms w) := by
  induction levels generalizing key with
  | nil =>
    have := (Prod.mk.inj (Except.ok.inj h)).1
    contradiction
  | cons level levels ih =>
    obtain ⟨w, key₁, hw, hfield, ⟨found, hfound, hresult, -⟩ | ⟨-, -, hnone, -⟩ | ⟨-, h⟩⟩ :=
      invertAlong_cons_eq_ok h
    · obtain rfl := Option.some.inj hresult
      rw [hkey] at hw
      obtain ⟨hdim, rfl, hholds⟩ :=
        attempt_spec hkey hd (Level.of_window hw).1 level inverse hfound
      exact ⟨w, hw, hdim, hholds⟩
    · contradiction
    · exact ih (hfield.trans hkey) h

theorem invertAlong_eq_ok {sequence : Array UInt32} (hr : F.AllReduced sequence) {d : ℕ}
    (hd : 0 < d) (hsize : 2 * d ≤ sequence.size) (levels : List Level) (key : KeyEquation)
    (hkey : key.field = F) :
    ∃ result key', key.invertAlong sequence d levels = .ok (result, key') := by
  induction levels generalizing key with
  | nil => exact ⟨none, key, rfl⟩
  | cons level levels ih =>
    obtain ⟨w, hw, -⟩ := level.window_spec hr (show 2 * d - 1 + 1 ≤ _ by omega)
    have hfield := (field_attempt key w d level).trans hkey
    rw [invertAlong, hkey, hw, ok_bind]
    generalize key.attempt w d level = attempted at hfield ⊢
    obtain ⟨attempt, key'⟩ := attempted
    cases attempt with
    | inverted inverse => exact ⟨some inverse, key', rfl⟩
    | zeroPivot => exact ih key' hfield
    | singular =>
      dsimp only
      split
      · exact ⟨none, key', rfl⟩
      · exact ih key' hfield

/-- No inversion meets a fault, and an inverse is one for all continuations of the sequence. -/
theorem invertAlong_spec {sequence : Array UInt32} (hr : F.AllReduced sequence) {d : ℕ}
    (hd : 0 < d) (hsize : 2 * d ≤ sequence.size) (levels : List Level) (key : KeyEquation)
    (hkey : key.field = F) :
    ∃ result key', key.invertAlong sequence d levels = .ok (result, key') ∧ key'.field = F ∧
      ∀ inverse, result = some inverse → inverse.dimension = d ∧
        ∀ s : ℕ → F.Element, (∀ i < 2 * d, F.terms sequence i = s i) →
          inverse.Holds F (act (inverse.level.factor F) s) := by
  obtain ⟨result, key', hrun⟩ := invertAlong_eq_ok hr hd hsize levels key hkey
  refine ⟨result, key', hrun, (field_invertAlong levels hrun).trans hkey, ?_⟩
  rintro inverse rfl
  obtain ⟨w, hw, hdim, hholds⟩ := holds_of_invertAlong hd levels hkey hrun
  refine ⟨hdim, ?_⟩
  intro s hs
  obtain ⟨w', hw', -, -, hterms⟩ :=
    inverse.level.window_spec hr (show 2 * d - 1 + 1 ≤ sequence.size by omega)
  obtain rfl := Except.ok.inj (hw'.symm.trans hw)
  apply hholds.congr
  intro i hi
  exact hterms s (fun i hi => hs i (by omega)) i (by omega)

theorem invertHankel_eq_some {sequence : Array UInt32} (hr : F.AllReduced sequence) {d : ℕ}
    (hd : 0 < d) (hsize : 2 * d ≤ sequence.size) {key key' : KeyEquation} (hkey : key.field = F)
    {inverse : HankelInverse} (h : key.invertHankel sequence d = .ok (some inverse, key')) :
    inverse.dimension = d ∧ ∀ s : ℕ → F.Element, (∀ i < 2 * d, F.terms sequence i = s i) →
      inverse.Holds F (act (inverse.level.factor F) s) := by
  obtain ⟨result, _, hok, -, hspec⟩ := invertAlong_spec hr hd hsize Level.direct.onward key hkey
  exact hspec inverse (Prod.mk.inj (Except.ok.inj (hok.symm.trans h))).1

end KeyEquation

/-! ## Solutions -/

theorem toPolynomial_mirror_mulLow {g c : Poly} (hg : g.field = F) (hc : c.field = F) {d : ℕ}
    {q : F.Element[X]}
    (hq : ∀ m, q.coeff m = if m < d then (g.toPolynomial F).coeff (d - 1 - m) else 0) :
    ((g.mulLow c d).mirror d).toPolynomial F =
      ∑ j ∈ Finset.range d, C ((c.toPolynomial F).coeff j) * divX^[j] q := by
  ext m
  rw [Poly.coeff_toPolynomial, Poly.coeff_mirror, finsetSum_coeff]
  simp only [coeff_C_mul, coeff_iterate_divX, hq]
  by_cases hm : m < d
  · rw [if_pos hm, ← Poly.coeff_toPolynomial (F := F), Poly.coeff_toPolynomial_mulLow hg hc,
      if_pos (by omega), mul_comm, coeff_mul, Finset.Nat.sum_antidiagonal_eq_sum_range_succ_mk]
    have hvanish : ∀ j ∈ Finset.range d, j ∉ Finset.range (d - 1 - m + 1) →
        (c.toPolynomial F).coeff j *
          (if m + j < d then (g.toPolynomial F).coeff (d - 1 - (m + j)) else 0) = 0 := by
      intro j _ hj
      rw [if_neg (by simp at hj; omega), mul_zero]
    rw [← Finset.sum_subset (Finset.range_subset_range.mpr (by omega)) hvanish]
    apply Finset.sum_congr rfl
    intro j hj
    have hj := Finset.mem_range.mp hj
    rw [if_pos (by omega), show d - 1 - (m + j) = d - 1 - m - j by omega]
  · rw [if_neg hm, value_zero]
    symm
    apply Finset.sum_eq_zero
    intro j _
    rw [if_neg (by omega), mul_zero]

namespace HankelInverse.Holds

variable {w : ℕ → F.Element} {h : HankelInverse} (hw : h.Holds F w)
include hw

theorem coeff_firstColumn (m : ℕ) : (h.firstColumn F).coeff m =
    if m < h.dimension then (h.z2.toPolynomial F).coeff (h.dimension - 1 - m) else 0 := by
  by_cases hm : m < h.dimension
  · rw [if_pos hm, firstColumn, coeff_reflect, revAt_le (by omega)]
  · rw [if_neg hm, (degree_lt_iff_coeff_zero _ _).mp hw.columns.degree_first m (by omega)]

theorem coeff_divX_lastColumn (m : ℕ) : (divX (h.lastColumn F)).coeff m =
    if m < h.dimension then
      ((h.z1.mirror (h.dimension + 1)).toPolynomial F).coeff (h.dimension - 1 - m) else 0 := by
  rw [coeff_divX]
  by_cases hm : m < h.dimension
  · rw [if_pos hm, Poly.coeff_toPolynomial_mirror, if_pos (by omega), lastColumn,
      show h.dimension + 1 - 1 - (h.dimension - 1 - m) = m + 1 by omega]
  · rw [if_neg hm, (degree_lt_iff_coeff_zero _ _).mp hw.columns.degree_last (m + 1) (by omega)]

theorem toPolynomial_mirror_z2 :
    (h.z2.mirror (h.dimension + 1)).toPolynomial F = X * h.firstColumn F := by
  ext m
  rw [Poly.coeff_toPolynomial_mirror]
  cases m with
  | zero =>
    rw [if_pos (by omega), coeff_X_mul_zero]
    exact (degree_lt_iff_coeff_zero _ _).mp hw.degree_z2 _ (by omega)
  | succ m =>
    rw [coeff_X_mul, hw.coeff_firstColumn,
      show h.dimension + 1 - 1 - (m + 1) = h.dimension - 1 - m by omega]
    exact if_congr (by omega) rfl rfl

/-- The four truncated products are a combination of the columns. -/
theorem solve_eq {rhs : Array UInt32} (hsize : h.dimension ≤ rhs.size) :
    ∃ a, h.solve rhs = .ok a ∧ a.field = F ∧
      a.toPolynomial F = (∑ j ∈ Finset.range h.dimension, C (F.terms rhs j) *
        hankelColumn (h.lastColumn F) (h.firstColumn F) j) * C (F.value h.pivotInverse) := by
  have hfield : h.field = F := hw.field_z1
  have hmirror : (h.z1.mirror (h.dimension + 1)).field = F := hw.field_z1
  have hmirror' : (h.z2.mirror (h.dimension + 1)).field = F := hw.field_z2
  set c := Poly.ofCoeffs F (rhs.extract 0 h.dimension) with hc
  have hcoeff : ∀ j ∈ Finset.range h.dimension, (c.toPolynomial F).coeff j = F.terms rhs j := by
    intro j hj
    have hj := Finset.mem_range.mp hj
    rw [hc, Poly.toPolynomial_ofCoeffs, coeff_polynomial, getD_extract (by omega), Nat.zero_add,
      terms]
  set a := ((h.z1.mirror (h.dimension + 1)).mulLow c h.dimension).mirror h.dimension with ha
  set b := (h.z2.mulLow c h.dimension).mirror h.dimension with hb
  have hfa : a.field = F := hw.field_z1
  have hfb : b.field = F := hw.field_z2
  have hA : a.toPolynomial F =
      ∑ j ∈ Finset.range h.dimension, C (F.terms rhs j) * divX^[j + 1] (h.lastColumn F) := by
    rw [ha, toPolynomial_mirror_mulLow hmirror rfl hw.coeff_divX_lastColumn]
    exact Finset.sum_congr rfl fun j hj => by rw [hcoeff j hj, Function.iterate_succ_apply]
  have hB : b.toPolynomial F =
      ∑ j ∈ Finset.range h.dimension, C (F.terms rhs j) * divX^[j] (h.firstColumn F) := by
    rw [hb, toPolynomial_mirror_mulLow hw.field_z2 rfl hw.coeff_firstColumn]
    exact Finset.sum_congr rfl fun j hj => by rw [hcoeff j hj]
  have hcolumns : (∑ j ∈ Finset.range h.dimension, C (F.terms rhs j) *
      hankelColumn (h.lastColumn F) (h.firstColumn F) j) =
      h.lastColumn F * b.toPolynomial F - X * h.firstColumn F * a.toPolynomial F := by
    rw [hA, hB, Finset.mul_sum, Finset.mul_sum, ← Finset.sum_sub_distrib]
    apply Finset.sum_congr rfl
    intro j _
    rw [hankelColumn]
    ring
  refine ⟨(h.z1.mulLow b h.dimension -
    (h.z2.mirror (h.dimension + 1)).mulLow a h.dimension).scale h.pivotInverse, ?_, hw.field_z1, ?_⟩
  · rw [solve, segment_eq_ok (Nat.zero_le _) hsize, ok_bind, hfield]
    rfl
  · have hlow : (h.z1.mulLow b h.dimension).field = F := hw.field_z1
    have hlow' : ((h.z2.mirror (h.dimension + 1)).mulLow a h.dimension).field = F := hw.field_z2
    have hdiff : (h.z1.mulLow b h.dimension -
        (h.z2.mirror (h.dimension + 1)).mulLow a h.dimension).field = F := hw.field_z1
    rw [Poly.toPolynomial_scale hdiff, Poly.toPolynomial_sub hlow hlow', hcolumns]
    congr 1
    ext i
    rw [coeff_sub, Poly.coeff_toPolynomial_mulLow hw.field_z1 hfb,
      Poly.coeff_toPolynomial_mulLow hmirror' hfa, hw.toPolynomial_mirror_z2]
    by_cases hi : i < h.dimension
    · rw [if_pos hi, if_pos hi, coeff_sub, lastColumn]
    · rw [if_neg hi, if_neg hi, sub_zero, ← hcolumns, (degree_lt_iff_coeff_zero _ _).mp
        (hw.columns.degree_sum_hankelColumn_lt _) i (by omega)]

theorem solve_spec {rhs : Array UInt32} (hsize : h.dimension ≤ rhs.size) :
    ∃ a, h.solve rhs = .ok a ∧ a.field = F ∧ (a.toPolynomial F).degree < h.dimension ∧
      ∀ i < h.dimension, act (a.toPolynomial F) w i = F.terms rhs i := by
  obtain ⟨a, hok, hfield, ha⟩ := hw.solve_eq hsize
  refine ⟨a, hok, hfield, ?_, ?_⟩
  · rw [degree_lt_iff_coeff_zero]
    intro i hi
    rw [ha, coeff_mul_C, (degree_lt_iff_coeff_zero _ _).mp
      (hw.columns.degree_sum_hankelColumn_lt _) i hi, zero_mul]
  · intro i hi
    rw [ha, mul_comm, act_C_mul_apply, hw.columns.act_sum_hankelColumn _ hi, ← mul_assoc, hw.pivot,
      one_mul]

omit hw in
theorem isCoprime_factor {s : ℕ → F.Element} {f P : F.Element[X]} (hf : h.Holds F (act f s))
    (hP : P.Monic) (hdeg : P.natDegree = h.dimension) (hs : act P s = 0) : IsCoprime f P := by
  have hpivot : (h.lastColumn F).coeff 0 ≠ 0 := right_ne_zero_of_mul_eq_one hf.pivot
  apply isCoprime_of_dvd
  · rintro ⟨-, hz⟩
    exact hP.ne_zero hz
  · rintro g hg _ ⟨u, hu⟩ ⟨Q, hQ⟩
    have hQne : Q ≠ 0 := by
      rintro rfl
      exact hP.ne_zero (by rw [hQ, mul_zero])
    have hgne : g ≠ 0 := by
      rintro rfl
      exact hP.ne_zero (by rw [hQ, zero_mul])
    -- the cofactor in the recurrence takes the window to zero
    have hact : act Q (act f s) = 0 := by
      rw [← act_mul, hu, show Q * (g * u) = u * (g * Q) by ring, ← hQ, act_mul, hs, act_zero_right]
    have hlt : Q.degree < h.dimension := by
      have hpos : 0 < g.natDegree :=
        natDegree_pos_iff_degree_pos.mpr (degree_pos_of_ne_zero_of_nonunit hgne hg)
      rw [← hdeg, hQ, natDegree_mul hgne hQne]
      exact lt_of_lt_of_le (degree_lt_succ_natDegree Q) (by exact_mod_cast (by omega))
    exact hQne (hf.columns.eq_zero_of_act_eq_zero hpivot hlt fun i _ => by rw [hact, Pi.zero_apply])

omit hw in
/-- The solution for a stream is the polynomial that takes the sequence to the stream, at every
level. -/
theorem solveStream_spec {s c : ℕ → F.Element} {P : F.Element[X]}
    (hf : h.Holds F (act (h.level.factor F) s)) (hP : P.Monic)
    (hdeg : P.natDegree = h.dimension) (hs : act P s = 0) (hc : act P c = 0)
    {stream : Array UInt32} (hr : F.AllReduced stream) (hsize : h.dimension + 1 ≤ stream.size)
    (hterms : ∀ i ≤ h.dimension, F.terms stream i = c i) :
    ∃ a, h.solveStream stream = .ok a ∧ a.field = F ∧
      (a.toPolynomial F).degree < h.dimension ∧ act (a.toPolynomial F) s = c := by
  have hfield : h.field = F := hf.field_z1
  obtain ⟨w, hw, hwsize, -, hwterms⟩ := h.level.window_spec hr hsize
  obtain ⟨a, hok, hafield, hadeg, hact⟩ := hf.solve_spec hwsize.ge
  refine ⟨a, ?_, hafield, hadeg, ?_⟩
  · rw [solveStream, hfield, hw, ok_bind, hok]
  · have heq : act (a.toPolynomial F) (act (h.level.factor F) s) = act (h.level.factor F) c := by
      apply eq_of_act_eq_zero hP.ne_zero
      · rw [act_comm, act_comm P, hs, act_zero_right, act_zero_right]
      · rw [act_comm, hc, act_zero_right]
      · intro i hi
        rw [hact i (by omega), hwterms c hterms i (by omega)]
    apply sub_eq_zero.mp
    apply eq_zero_of_isCoprime (isCoprime_factor hf hP hdeg hs)
    · rw [act_sub_right, act_comm, heq, sub_self]
    · rw [act_sub_right, act_comm, hs, hc, act_zero_right, sub_zero]

end HankelInverse.Holds

end ZeroDim
