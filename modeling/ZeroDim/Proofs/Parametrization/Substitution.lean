import Mathlib
import ZeroDim.Proofs.Solver.Totality

/-! # Back-substitution

The equations are solved in place, from the highest variable down.  An equation mentions only
variables above its own, which are final by then, so at the end all equations hold together.  For
the same reason every coordinate is what its equation gives for the final coordinates, and to
substitute once more changes nothing. -/

set_option autoImplicit false

namespace ZeroDim

open Polynomial PrimeField

variable {F : PrimeField}

namespace Parametrization

theorem withCoordinate_eq_self {p : Parametrization} {i : ℕ} {a : Poly}
    (h : p.coordinates[i]? = some a) : p.withCoordinate i a = .ok p := by
  obtain ⟨hi, rfl⟩ := Array.getElem?_eq_some_iff.mp h
  unfold withCoordinate
  rw [dif_pos hi]
  simp

theorem fillWith_eq_self {ι : Type} {index : ι → ℕ} {f : Parametrization → ι → Checked Poly}
    {p : Parametrization} (xs : List ι)
    (h : ∀ x ∈ xs, ∃ a, f p x = .ok a ∧ p.coordinates[index x]? = some a) :
    fillWith index f xs p = .ok p := by
  induction xs with
  | nil => rfl
  | cons x xs ih =>
    obtain ⟨a, ha, hcoord⟩ := h x List.mem_cons_self
    rw [fillWith, ha, ok_bind, withCoordinate_eq_self hcoord, ok_bind]
    exact ih fun y hy => h y (List.mem_cons_of_mem x hy)

/-- The coordinates, one for each variable but `t`, put into the equation `row` of `x_k`: left side
less right side. -/
noncomputable def equationError (F : PrimeField) (p : Parametrization) (row : Array UInt32)
    (k : ℕ) : F.Element[X] :=
  p.coordinatePolynomial F k + ∑ j ∈ Finset.Ioo k (p.variableCount - 1),
      C (F.terms row j) * p.coordinatePolynomial F j -
    (C (F.terms row (p.variableCount - 1)) * X + C (F.terms row p.variableCount))

variable {p p' : Parametrization} {layout : VariableLayout}

theorem equationError_eq (p : Parametrization) (row : Array UInt32) (k : ℕ) :
    p.equationError F row k = p.coordinatePolynomial F k -
      equationValue F row p.variableCount k (p.coordinatePolynomial F) := by
  rw [equationError, equationValue]
  ring

/-- A coordinate with the value of its equation is what the equation gives. -/
theorem solveEquation_eq_coordinate (hp : p.Over F)
    (hcount : p.variableCount = layout.variableCount) (hne : p.eliminant.toPolynomial F ≠ 0)
    {k r : ℕ} {row : Array UInt32} (hkr : (k, r) ∈ layout.linearVariables.zipIdx)
    (hsize : row.size = layout.variableCount + 1)
    (hcoord : p.coordinatePolynomial F k =
      equationValue F row layout.variableCount k (p.coordinatePolynomial F) %
        p.eliminant.toPolynomial F) :
    ∃ a, p.solveEquation row k = .ok a ∧ p.coordinates[k]? = some a := by
  obtain ⟨a, ha, hafield⟩ := solveEquation_eq_ok hp hne (hsize.trans (by rw [hcount])) k
  obtain ⟨b, hb, hbfield⟩ := hp.coordinate_eq_ok (hcount ▸ (layout.linearEquation hkr).1)
  have hget := entryAt_eq_ok_iff.mp hb
  have heq : a = b := by
    rw [← Poly.toPolynomial_inj hafield hbfield, (solveEquation_spec hp ha).2, hcount, ← hcoord,
      coordinatePolynomial_of_getElem? hget]
  exact ⟨a, ha, heq ▸ hget⟩

theorem substituteLinear_eq_self (hp : p.Over F) (hcount : p.variableCount = layout.variableCount)
    (hne : p.eliminant.toPolynomial F ≠ 0)
    (hlinear : ∀ k r, (k, r) ∈ layout.linearVariables.zipIdx → ∃ row, layout.equation r = .ok row ∧
      row.size = layout.variableCount + 1 ∧ p.coordinatePolynomial F k =
        equationValue F row layout.variableCount k (p.coordinatePolynomial F) %
          p.eliminant.toPolynomial F) : p.substituteLinear layout = .ok p := by
  have hzero := (Poly.isZero_eq_false_iff hp.field_eliminant).mpr hne
  rw [substituteLinear, hzero, if_neg Bool.false_ne_true, fillLinear_eq]
  apply fillWith_eq_self
  rintro ⟨k, r⟩ hkr
  rw [List.mem_reverse] at hkr
  obtain ⟨row, hrow, hsize, hcoord⟩ := hlinear k r hkr
  obtain ⟨a, ha, hget⟩ := solveEquation_eq_coordinate hp hcount hne hkr hsize hcoord
  refine ⟨a, ?_, hget⟩
  dsimp only
  rw [hrow, ok_bind, ha]

/-- Substitution into the linear equations succeeds, and the coordinates it leaves satisfy all
equations at once, modulo the eliminant and as remainders of it.  Nothing but the coordinates of the
linear variables changes, and to substitute again changes nothing. -/
theorem substituteLinear_solves (hp : p.Over F) (hcount : p.variableCount = layout.variableCount)
    (hne : p.eliminant.isZero = false) : ∃ p', p.substituteLinear layout = .ok p' ∧
      p'.SameFrame p ∧
      (∀ i ∉ layout.linearVariables, p'.coordinates[i]? = p.coordinates[i]?) ∧
      (∀ k r, (k, r) ∈ layout.linearVariables.zipIdx → ∃ row a, layout.equation r = .ok row ∧
        row.size = layout.variableCount + 1 ∧ row[k]? = some 1 ∧
        p'.coordinates[k]? = some a ∧ a.length < p'.eliminant.length ∧
        p'.eliminant.toPolynomial F ∣ p'.equationError F row k) ∧
      p'.substituteLinear layout = .ok p' := by
  have hne' := (Poly.isZero_eq_false_iff hp.field_eliminant).mp hne
  obtain ⟨p', hp'⟩ := substituteLinear_eq_ok hp hne' hcount
  obtain ⟨hframe, hover, hother, hlinear⟩ := substituteLinear_spec hp hcount hne' hp'
  have hcount' : p'.variableCount = layout.variableCount := hframe.variableCount_eq.trans hcount
  rw [← hframe.eliminant_eq] at hne'
  have hequations : ∀ k r, (k, r) ∈ layout.linearVariables.zipIdx → ∃ row,
      layout.equation r = .ok row ∧ row.size = layout.variableCount + 1 ∧
        p'.coordinatePolynomial F k =
          equationValue F row layout.variableCount k (p'.coordinatePolynomial F) %
            p'.eliminant.toPolynomial F := by
    intro k r hkr
    have hk : k ∈ layout.linearVariables :=
      List.mem_of_getElem? (List.mem_zipIdx_iff_getElem?.mp hkr)
    obtain ⟨r', row, hkr', hrow, hcoord⟩ := hlinear k hk
    obtain rfl := layout.equationIndex_unique hkr hkr'
    obtain ⟨-, row', hrow', hsize⟩ := layout.linearEquation hkr
    obtain rfl := Except.ok.inj (hrow.symm.trans hrow')
    exact ⟨row, hrow, hsize, hframe.eliminant_eq ▸ hcoord⟩
  refine ⟨p', hp', hframe, hother, ?_, substituteLinear_eq_self hover hcount' hne' hequations⟩
  intro k r hkr
  obtain ⟨row, hrow, hsize, hcoord⟩ := hequations k r hkr
  obtain ⟨a, ha, hafield⟩ := hover.coordinate_eq_ok (hcount' ▸ (layout.linearEquation hkr).1)
  have hget := entryAt_eq_ok_iff.mp ha
  refine ⟨row, a, hrow, hsize, layout.ownCoefficient hkr hrow, hget, ?_, ?_⟩
  · rw [Poly.length_lt_length_iff hafield hover.field_eliminant hne',
      ← coordinatePolynomial_of_getElem? hget, hcoord]
    exact degree_mod_lt _ hne'
  · rw [equationError_eq, hcount', ← dvd_neg, neg_sub]
    rw [hcoord]
    exact dvd_sub_mod _ _

/-- Two equations with a variable between them that is not linear, and with unreduced
coefficients. -/
theorem substituteLinear_solves_chain :
    ∃ (F : PrimeField) (layout : VariableLayout) (p p' : Parametrization), F.modulus = 7 ∧
      layout.linearVariables.zipIdx = [(0, 0), (2, 1)] ∧
      layout.parts.coefficients = #[1, 9, 3, 2, 5, 0, 0, 1, 6, 8] ∧
      p.Over F ∧ p.variableCount = layout.variableCount ∧ p.eliminant = .ofCoeffs F #[1, 0, 1] ∧
      p.coordinates = #[.zero F, .ofCoeffs F #[3, 1], .zero F] ∧
      p.substituteLinear layout = .ok p' ∧ p'.substituteLinear layout = .ok p' ∧
      ∃ row a, layout.equation 0 = .ok row ∧ p'.coordinates[0]? = some a ∧
        a.length < p'.eliminant.length ∧
        p'.eliminant.toPolynomial F ∣ p'.equationError F row 0 := by
  let F : PrimeField := ⟨7, by decide +kernel, by decide⟩
  let layout : VariableLayout := ⟨⟨4, 2, #[true, false, true], #[1, 9, 3, 2, 5, 0, 0, 1, 6, 8],
    #[none, none, none]⟩, by decide +kernel⟩
  let p : Parametrization := ⟨F, 4, .ofCoeffs F #[1, 0, 1], .one F,
    #[.zero F, .ofCoeffs F #[3, 1], .zero F], rfl⟩
  have hp : p.Over F := ⟨rfl, rfl, by decide +kernel⟩
  obtain ⟨p', hp', -, -, hequations, hagain⟩ :=
    substituteLinear_solves hp (show p.variableCount = layout.variableCount from rfl) (by decide +kernel)
  obtain ⟨row, a, hrow, -, -, ha, hshort, hdvd⟩ := hequations 0 0 (by decide +kernel)
  exact ⟨F, layout, p, p', rfl, by decide +kernel, rfl, hp, rfl, rfl, rfl, hp', hagain, row, a,
    hrow, ha, hshort, hdvd⟩

end Parametrization

end ZeroDim
