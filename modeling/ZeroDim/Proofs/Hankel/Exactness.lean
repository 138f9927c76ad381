import Mathlib
import ZeroDim.Proofs.Hankel.Regular

/-! # Exact solutions of Hankel systems

What an inversion returns is the inverse of the Hankel matrix of the window it names: the polynomial
that solves a system is its only solution.  A stream that a short polynomial makes out of the
sequence is therefore taken back to that polynomial, at every level and without a recurrence,
because windows and polynomials act on sequences in either order. -/

set_option autoImplicit false

namespace ZeroDim

open Polynomial PrimeField Matrix

variable {F : PrimeField}

namespace HankelInverse.Holds

variable {h : HankelInverse} {w : ℕ → F.Element} (hw : h.Holds F w)
include hw

theorem pivot_ne_zero : (h.lastColumn F).coeff 0 ≠ 0 := right_ne_zero_of_mul_eq_one hw.pivot

theorem det_hankelMatrix_ne_zero : (hankelMatrix h.dimension w).det ≠ 0 := by
  intro hdet
  obtain ⟨f, hne, hdeg, hzero⟩ := det_hankelMatrix_eq_zero_iff.mp hdet
  exact hne (hw.columns.eq_zero_of_act_eq_zero hw.pivot_ne_zero hdeg hzero)

theorem solve_unique {rhs : Array UInt32} (hsize : h.dimension ≤ rhs.size) :
    ∃ a, h.solve rhs = .ok a ∧ a.field = F ∧ a.length ≤ h.dimension ∧
      ∀ x : Fin h.dimension → F.Element,
        hankelMatrix h.dimension w *ᵥ x = (fun i : Fin h.dimension => F.terms rhs i) ↔
          x = fun j : Fin h.dimension => F.value (a.coeff j) := by
  obtain ⟨a, ha, hfield, hdeg, hact⟩ := hw.solve_spec hsize
  refine ⟨a, ha, hfield, (Poly.length_le_iff hfield _).mpr hdeg, ?_⟩
  have hcoeffs : (fun j : Fin h.dimension => F.value (a.coeff j)) =
      toFn h.dimension (a.toPolynomial F) := by
    funext j
    exact (Poly.coeff_toPolynomial a j).symm
  have hsolution : hankelMatrix h.dimension w *ᵥ toFn h.dimension (a.toPolynomial F) =
      fun i : Fin h.dimension => F.terms rhs i := by
    rw [hankelMatrix_mulVec hdeg]
    funext i
    exact hact i i.isLt
  have hinjective : Function.Injective (hankelMatrix h.dimension w).mulVec :=
    mulVec_injective_of_isUnit
      ((isUnit_iff_isUnit_det _).mpr (isUnit_iff_ne_zero.mpr hw.det_hankelMatrix_ne_zero))
  intro x
  rw [hcoeffs, ← hsolution]
  exact hinjective.eq_iff

/-- A stream of terms of `act a s` is taken back to `a`, whatever the window. -/
theorem solveStream_act {s : ℕ → F.Element} (hs : w = act (h.level.factor F) s) {a : Poly}
    (hfield : a.field = F) (hlen : a.length ≤ h.dimension) {stream : Array UInt32}
    (hr : F.AllReduced stream) (hsize : h.dimension + 1 ≤ stream.size)
    (hterms : ∀ i ≤ h.dimension, F.terms stream i = act (a.toPolynomial F) s i) :
    h.solveStream stream = .ok a := by
  have hF : h.field = F := hw.field_z1
  obtain ⟨u, hu, husize, -, huterms⟩ := h.level.window_spec hr hsize
  obtain ⟨b, hb, hbfield, hbdeg, hbact⟩ := hw.solve_spec husize.ge
  rw [solveStream, hF, hu, ok_bind, hb, Except.ok.injEq, ← Poly.toPolynomial_inj hbfield hfield]
  apply sub_eq_zero.mp
  apply hw.columns.eq_zero_of_act_eq_zero hw.pivot_ne_zero
  · exact lt_of_le_of_lt (degree_sub_le _ _)
      (max_lt hbdeg ((Poly.length_le_iff hfield _).mp hlen))
  · intro i hi
    -- the window of the stream is `a` acting on the window of the sequence
    rw [act_sub, Pi.sub_apply, hbact i hi, huterms _ hterms i hi, act_comm, ← hs, sub_self]

end HankelInverse.Holds

/-- A successful inversion solves every system of the Hankel matrix of its window, with no other
solution, and takes the stream of every polynomial with at most `d` coefficients back to that
polynomial. -/
theorem KeyEquation.invertHankel_exact {d : ℕ} (hd : 1 ≤ d) {sequence : Array UInt32}
    (hr : F.AllReduced sequence) (hsize : 2 * d ≤ sequence.size) {key key' : KeyEquation}
    (hkey : key.field = F) {inverse : HankelInverse}
    (h : key.invertHankel sequence d = .ok (some inverse, key')) :
    ∃ w, inverse.level.window F sequence (2 * d - 1) = .ok w ∧ w.size = 2 * d - 1 ∧
      (∀ rhs : Array UInt32, d ≤ rhs.size → ∃ a, inverse.solve rhs = .ok a ∧ a.field = F ∧
        a.length ≤ d ∧ ∀ x : Fin d → F.Element,
          (∀ i : Fin d, ∑ j : Fin d, F.terms w (i + j) * x j = F.terms rhs i) ↔
            x = fun j : Fin d => F.value (a.coeff j)) ∧
      ∀ a : Poly, a.field = F → a.length ≤ d → ∀ stream : Array UInt32, F.AllReduced stream →
        d + 1 ≤ stream.size →
        (∀ i ≤ d, F.terms stream i =
          ∑ j ∈ Finset.range d, F.value (a.coeff j) * F.terms sequence (i + j)) →
        inverse.solveStream stream = .ok a := by
  obtain ⟨rfl, hholds⟩ := invertHankel_eq_some hr hd hsize hkey h
  have hwindowed := hholds (F.terms sequence) fun _ _ => rfl
  obtain ⟨w, hw, hwsize, -, hwterms⟩ := inverse.level.window_spec hr
    (show 2 * inverse.dimension - 1 + 1 ≤ sequence.size by omega)
  have hdirect : inverse.Holds F (F.terms w) :=
    hwindowed.congr fun i hi => (hwterms _ (fun _ _ => rfl) i hi).symm
  refine ⟨w, hw, hwsize, ?_, ?_⟩
  · intro rhs hrhs
    obtain ⟨a, ha, hfield, hlen, hunique⟩ := hdirect.solve_unique hrhs
    refine ⟨a, ha, hfield, hlen, ?_⟩
    intro x
    rw [← hunique x, funext_iff]
    rfl
  · intro a hfield hlen stream hstream hstreamSize hterms
    apply hwindowed.solveStream_act rfl hfield hlen hstream hstreamSize
    intro i hi
    rw [hterms i hi, act_apply ((Poly.length_le_iff hfield _).mp hlen)]
    simp only [Poly.coeff_toPolynomial]

/-- The sequence `0, 1, 0, 0, 1, 1`, where the direct and the shifted level have no pivot, and the
stream of `x ^ 2 + 2`. -/
theorem KeyEquation.invertHankel_exact_deflated :
    ∃ (F : PrimeField) (inverse : HankelInverse) (key' : KeyEquation), F.modulus = 7 ∧
      (KeyEquation.empty F).invertHankel #[0, 1, 0, 0, 1, 1] 3 = .ok (some inverse, key') ∧
      inverse.level = .deflated ∧
      (∃ w, inverse.level.window F #[0, 1, 0, 0, 1, 1] 5 = .ok w ∧
        ∃ a, inverse.solve #[1, 2, 3] = .ok a ∧ ∀ x : Fin 3 → F.Element,
          (∀ i : Fin 3, ∑ j : Fin 3, F.terms w (i + j) * x j = F.terms #[1, 2, 3] i) ↔
            x = fun j : Fin 3 => F.value (a.coeff j)) ∧
      inverse.solveStream #[0, 2, 1, 1] = .ok (.ofCoeffs F #[2, 0, 1]) := by
  let F : PrimeField := ⟨7, by decide +kernel, by decide⟩
  have hinv : ((KeyEquation.empty F).invertHankel #[0, 1, 0, 0, 1, 1] 3).map Prod.fst =
      .ok (some ⟨3, .deflated, .ofCoeffs F #[6, 6, 6], .ofCoeffs F #[6, 0, 6], 6⟩) := by
    decide +kernel
  obtain ⟨⟨_, key'⟩, hrun, rfl⟩ := map_eq_ok.mp hinv
  obtain ⟨w, hw, -, hsolve, hstream⟩ := invertHankel_exact (F := F) (d := 3) (by decide)
    (by decide +kernel) (by decide) rfl hrun
  obtain ⟨a, ha, -, -, hunique⟩ := hsolve #[1, 2, 3] (by decide)
  exact ⟨F, _, key', rfl, hrun, rfl, ⟨w, hw, a, ha, hunique⟩,
    hstream (.ofCoeffs F #[2, 0, 1]) rfl (by decide +kernel) #[0, 2, 1, 1] (by decide +kernel)
      (by decide) (by decide +kernel)⟩

end ZeroDim
