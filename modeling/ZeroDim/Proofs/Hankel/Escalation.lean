import Mathlib
import ZeroDim.Proofs.Hankel.Exactness

/-! # The choice of a level

The key equation decides whether the Hankel matrix of a window is regular, on the window and on its
mirror image alike, and an inversion takes the first level whose matrix is regular with a pivot.
Only a singular direct window ends the search early.  What it returns are the last and the first
column of the inverse of the matrix at that level. -/

set_option autoImplicit false

namespace ZeroDim

open Polynomial PrimeField Matrix

variable {F : PrimeField} {d : ℕ}

theorem hankelFails_congr {w w' : ℕ → F.Element} (h : hankelMatrix d w = hankelMatrix d w') :
    HankelFails d w ↔ HankelFails d w' := by
  rw [HankelFails, HankelFails, hankelPivot, hankelPivot, h]

namespace HankelInverse

/-- The two polynomials of an inverse are the last column of a matrix and, mirrored, its first. -/
structure HasColumns (F : PrimeField) (h : HankelInverse) (hd : 0 < d)
    (inverse : Matrix (Fin d) (Fin d) F.Element) : Prop where
  field_z1 : h.z1.field = F
  field_z2 : h.z2.field = F
  length_z1 : h.z1.length ≤ d
  length_z2 : h.z2.length ≤ d
  last : ∀ i : Fin d, F.value (h.z1.coeff i) = inverse i ⟨d - 1, Nat.sub_lt hd Nat.one_pos⟩
  first : ∀ i : Fin d, F.value (h.z2.coeff (d - 1 - i)) = inverse i ⟨0, hd⟩

namespace Holds

variable {h : HankelInverse} {w : ℕ → F.Element} (hw : h.Holds F w)
include hw

theorem dimension_pos : 0 < h.dimension := by
  by_contra hzero
  apply hw.pivot_ne_zero
  exact (degree_lt_iff_coeff_zero _ _).mp hw.columns.degree_last 0 (Nat.le_of_not_lt hzero)

theorem not_hankelFails : ¬ HankelFails h.dimension w := by
  rintro (hdet | hpivot)
  · exact hw.det_hankelMatrix_ne_zero hdet
  · apply hw.pivot_ne_zero
    rw [← hpivot]
    exact coeff_zero_eq_hankelPivot hw.dimension_pos hw.det_hankelMatrix_ne_zero
      hw.columns.degree_last hw.columns.last

theorem hasColumns (hd : 0 < h.dimension) :
    h.HasColumns F hd (hankelMatrix h.dimension w)⁻¹ := by
  have hdet := hw.det_hankelMatrix_ne_zero
  refine ⟨hw.field_z1, hw.field_z2, ?_, ?_, ?_, ?_⟩
  · exact (Poly.length_le_iff hw.field_z1 _).mpr hw.columns.degree_last
  · exact (Poly.length_le_iff hw.field_z2 _).mpr hw.degree_z2
  · intro i
    rw [← Poly.coeff_toPolynomial]
    exact coeff_eq_inverse hdet hw.columns.degree_last _ hw.columns.last i
  · intro i
    rw [← Poly.coeff_toPolynomial, ← coeff_eq_inverse hdet hw.columns.degree_first _
      hw.columns.first i, hw.coeff_firstColumn, if_pos i.isLt]

end Holds

end HankelInverse

namespace KeyEquation

theorem fails_of_invertAlong {sequence : Array UInt32} (hd : 0 < d) (levels : List Level)
    {key key' : KeyEquation} (hkey : key.field = F) {inverse : HankelInverse}
    (h : key.invertAlong sequence d levels = .ok (some inverse, key')) :
    ∃ earlier later, levels = earlier ++ inverse.level :: later ∧ ∀ level ∈ earlier,
      ∃ w, level.window F sequence (2 * d - 1) = .ok w ∧ HankelFails d (F.terms w) := by
  induction levels generalizing key with
  | nil =>
    have := (Prod.mk.inj (Except.ok.inj h)).1
    contradiction
  | cons level levels ih =>
    obtain ⟨w, key₁, hw, hfield, ⟨found, hfound, hresult, -⟩ | ⟨-, -, hnone, -⟩ | ⟨hfailed, h⟩⟩ :=
      invertAlong_cons_eq_ok h
    · obtain rfl := Option.some.inj hresult
      rw [hkey] at hw
      obtain ⟨-, rfl, -⟩ := attempt_spec hkey hd (Level.of_window hw).1 level inverse hfound
      exact ⟨[], levels, rfl, fun _ hmem => absurd hmem List.not_mem_nil⟩
    · contradiction
    · rw [hkey] at hw
      have hexplains := attempt_explains hkey hd (Level.of_window hw).1 level
      have hfails : HankelFails d (F.terms w) := by
        rcases hfailed with hzero | hsingular
        · rw [hzero] at hexplains
          exact .inr hexplains.2
        · rw [hsingular] at hexplains
          exact .inl hexplains
      obtain ⟨earlier, later, rfl, hearlier⟩ := ih (hfield.trans hkey) h
      exact ⟨level :: earlier, later, rfl,
        List.forall_mem_cons.mpr ⟨⟨w, hw, hfails⟩, hearlier⟩⟩

/-- A generator is found exactly for the windows with a regular matrix, mirrored or not.  An
inversion fails exactly when the direct matrix is singular or no level has a regular matrix with a
pivot; otherwise it returns two columns of the inverse at the first level that has. -/
theorem invertHankel_decides (hd : 1 ≤ d) {sequence : Array UInt32} (hr : F.AllReduced sequence)
    (hsize : 2 * d ≤ sequence.size) {key : KeyEquation} (hkey : key.field = F) :
    (∀ w : Array UInt32, w.size = 2 * d - 1 → ∀ key₁ : KeyEquation, key₁.field = F →
      (((key₁.descend w.size (.ofCoeffs F w.reverse) d).generator? d).isSome ↔
        (hankelMatrix d (F.terms w)).det ≠ 0) ∧
      (((key₁.descend w.size (.ofCoeffs F w) d).generator? d).isSome ↔
        (hankelMatrix d (F.terms w)).det ≠ 0)) ∧
    ∃ window : Level → Array UInt32,
      (∀ level, level.window F sequence (2 * d - 1) = .ok (window level) ∧
        (window level).size = 2 * d - 1) ∧
      ∃ result key', key.invertHankel sequence d = .ok (result, key') ∧
        (result = none ↔ (hankelMatrix d (F.terms (window .direct))).det = 0 ∨
          ∀ level, HankelFails d (F.terms (window level))) ∧
        ∀ inverse, result = some inverse →
          ¬ HankelFails d (F.terms (window inverse.level)) ∧
          (∃ earlier later, Level.direct.onward = earlier ++ inverse.level :: later ∧
            ∀ level ∈ earlier, HankelFails d (F.terms (window level))) ∧
          inverse.dimension = d ∧
          inverse.HasColumns F hd (hankelMatrix d (F.terms (window inverse.level)))⁻¹ := by
  choose window hwindow using fun level : Level =>
    level.window_spec hr (show 2 * d - 1 + 1 ≤ sequence.size by omega)
  have hview : ∀ level : Level, hankelMatrix d (level.view (F.terms sequence)) =
      hankelMatrix d (F.terms (window level)) := by
    intro level
    apply hankelMatrix_congr
    intro i hi
    obtain ⟨-, -, -, hterms⟩ := hwindow level
    rw [← level.act_factor, hterms _ (fun _ _ => rfl) i hi]
  obtain ⟨result, key', hrun⟩ := invertAlong_eq_ok hr hd hsize Level.direct.onward key hkey
  refine ⟨?_, window, fun level => ⟨(hwindow level).1, (hwindow level).2.1⟩, result, key', hrun,
    ?_, ?_⟩
  · intro w hw key₁ hkey₁
    exact ⟨generator?_mirrored_isSome_iff hkey₁ hd hw, generator?_window_isSome_iff hkey₁ hd hw⟩
  · have hnone : result = none ↔
        ∃ key', key.invertAlong sequence d Level.direct.onward = .ok (none, key') := by
      rw [hrun]
      simp
    rw [hnone, invertAlong_eq_none_iff hr hd hsize (fun _ _ => rfl) _ key hkey,
      Level.unusable_onward_iff, ← hview .direct]
    exact or_congr_right (forall_congr' fun level => hankelFails_congr (hview level))
  · rintro inverse rfl
    obtain ⟨w, hw, rfl, hholds⟩ := holds_of_invertAlong hd _ hkey hrun
    obtain ⟨earlier, later, hlevels, hearlier⟩ := fails_of_invertAlong hd _ hkey hrun
    obtain rfl : window inverse.level = w := Except.ok.inj ((hwindow _).1.symm.trans hw)
    refine ⟨hholds.not_hankelFails, ⟨earlier, later, hlevels, ?_⟩, rfl, hholds.hasColumns hd⟩
    intro level hlevel
    obtain ⟨w, hw, hfails⟩ := hearlier level hlevel
    obtain rfl : window level = w := Except.ok.inj ((hwindow _).1.symm.trans hw)
    exact hfails

/-- Over the sequence `0, 1, 0, 0, 1, 1` the direct and the shifted level fail. -/
theorem invertHankel_decides_deflated :
    ∃ (F : PrimeField) (window : Level → Array UInt32) (inverse : HankelInverse)
      (key' : KeyEquation), F.modulus = 7 ∧
      (∀ level : Level, level.window F #[0, 1, 0, 0, 1, 1] 5 = .ok (window level)) ∧
      (KeyEquation.empty F).invertHankel #[0, 1, 0, 0, 1, 1] 3 = .ok (some inverse, key') ∧
      inverse.level = .deflated ∧
      HankelFails 3 (F.terms (window .direct)) ∧ HankelFails 3 (F.terms (window .shifted)) ∧
      ¬ HankelFails 3 (F.terms (window .deflated)) ∧
      inverse.HasColumns F (Nat.succ_pos 2) (hankelMatrix 3 (F.terms (window .deflated)))⁻¹ := by
  let F : PrimeField := ⟨7, by decide +kernel, by decide⟩
  have hinv : ((KeyEquation.empty F).invertHankel #[0, 1, 0, 0, 1, 1] 3).map Prod.fst =
      .ok (some ⟨3, .deflated, .ofCoeffs F #[6, 6, 6], .ofCoeffs F #[6, 0, 6], 6⟩) := by
    decide +kernel
  obtain ⟨-, window, hwindow, result, key', hrun, -, hfound⟩ := invertHankel_decides (d := 3)
    (by decide) (show F.AllReduced #[0, 1, 0, 0, 1, 1] by decide +kernel) (by decide)
    (rfl : (KeyEquation.empty F).field = F)
  rw [hrun] at hinv
  obtain rfl := Except.ok.inj hinv
  obtain ⟨hregular, ⟨earlier, later, hlevels, hearlier⟩, -, hcolumns⟩ := hfound _ rfl
  have hbefore : Level.direct ∈ earlier ∧ Level.shifted ∈ earlier := by
    rcases earlier with _ | ⟨first, _ | ⟨second, rest⟩⟩ <;> simp_all [Level.onward]
  exact ⟨F, window, _, key', rfl, fun level => (hwindow level).1, hrun, rfl,
    hearlier _ hbefore.1, hearlier _ hbefore.2, hregular, hcolumns⟩

end KeyEquation

end ZeroDim
