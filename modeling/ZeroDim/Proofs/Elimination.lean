import Mathlib
import ZeroDim.Elimination
import ZeroDim.Proofs.KeyEquation
import ZeroDim.Proofs.Poly.SquareFree
import ZeroDim.Proofs.Variables

/-! # Eliminants

An elimination of `2 n` power sums never fails.  Its eliminant is monic and square-free, whether it
is the minimal polynomial itself, a radical, or read off an equation, and shape position is the case
of an eliminant of degree `n`. -/

set_option autoImplicit false

namespace ZeroDim

open Polynomial PrimeField

variable {F : PrimeField} {n : ℕ}

namespace Elimination

theorem ofMinimal_cases (minimal : Poly) (n : ℕ) :
    (minimal.natDegree = n ∧ ofMinimal minimal n = ⟨minimal, minimal, true⟩) ∨
      ofMinimal minimal n = ⟨minimal.radical, minimal, false⟩ := by
  unfold ofMinimal
  split
  · rename_i hshape
    exact .inl ⟨hshape.1, rfl⟩
  · exact .inr rfl

theorem minimal_ofMinimal (minimal : Poly) (n : ℕ) : (ofMinimal minimal n).minimal = minimal := by
  rcases ofMinimal_cases minimal n with ⟨-, h⟩ | h <;> rw [h]

theorem eliminant_ofMinimal {minimal : Poly} (h : (ofMinimal minimal n).shapePosition = true) :
    (ofMinimal minimal n).eliminant = minimal := by
  rcases ofMinimal_cases minimal n with ⟨-, heq⟩ | heq
  · rw [heq]
  · rw [heq] at h
    contradiction

/-- What an elimination in a quotient of dimension `n` has, however it was found. -/
structure Sound (F : PrimeField) (n : ℕ) (e : Elimination) : Prop where
  field_eliminant : e.eliminant.field = F
  field_minimal : e.minimal.field = F
  monic : (e.eliminant.toPolynomial F).Monic
  squarefree : Squarefree (e.eliminant.toPolynomial F)
  natDegree_minimal_le : e.minimal.natDegree ≤ n
  shapePosition_iff : e.shapePosition = true ↔ e.degree = n

theorem squarefree_of_natDegree_radical {K : Type*} [Field K] [DecidableEq K] {P : K[X]}
    (hP : P.Monic) (hle : P.natDegree ≤ (UniqueFactorizationMonoid.radical P).natDegree) :
    Squarefree P := by
  have heq : P = UniqueFactorizationMonoid.radical P :=
    eq_of_monic_of_dvd_of_natDegree_le (monic_radical hP.ne_zero) hP
      UniqueFactorizationMonoid.radical_dvd_self hle
  rw [heq]
  exact UniqueFactorizationMonoid.squarefree_radical

theorem sound_ofMinimal {minimal : Poly} (hfield : minimal.field = F)
    (hm : (minimal.toPolynomial F).Monic) (hle : minimal.natDegree ≤ n) :
    (ofMinimal minimal n).Sound F n := by
  unfold ofMinimal
  split
  · rename_i hshape
    have hsquare := (Poly.isSquareFree_iff hfield hm.ne_zero).mp hshape.2
    exact ⟨hfield, hfield, hm, hsquare, hle, iff_of_true rfl hshape.1⟩
  · rename_i hshape
    obtain ⟨hradical, heq⟩ := Poly.toPolynomial_radical hfield hm.ne_zero
    refine ⟨hradical, hfield, ?_, ?_, hle, ?_⟩
    · rw [heq]
      exact monic_radical hm.ne_zero
    · rw [heq]
      exact UniqueFactorizationMonoid.squarefree_radical
    · refine iff_of_false Bool.false_ne_true ?_
      intro hdegree
      have hdegree : minimal.radical.natDegree = n := hdegree
      rw [← Poly.natDegree_toPolynomial hradical, heq] at hdegree
      rw [← Poly.natDegree_toPolynomial hfield] at hle hshape
      apply hshape
      constructor
      · have hdvd := natDegree_le_of_dvd
          (UniqueFactorizationMonoid.radical_dvd_self (a := minimal.toPolynomial F)) hm.ne_zero
        omega
      · rw [Poly.isSquareFree_iff hfield hm.ne_zero]
        exact squarefree_of_natDegree_radical hm (by omega)

/-- The eliminant is the radical of the minimal polynomial, in shape position too. -/
theorem toPolynomial_eliminant_ofMinimal {minimal : Poly} (hfield : minimal.field = F)
    (hm : (minimal.toPolynomial F).Monic) (n : ℕ) :
    (ofMinimal minimal n).eliminant.toPolynomial F =
      UniqueFactorizationMonoid.radical (minimal.toPolynomial F) := by
  unfold ofMinimal
  split
  · rename_i hshape
    have hsquare := (Poly.isSquareFree_iff hfield hm.ne_zero).mp hshape.2
    exact eq_of_monic_of_associated hm (monic_radical hm.ne_zero)
      (UniqueFactorizationMonoid.radical_associated hsquare.isRadical hm.ne_zero).symm
  · exact (Poly.toPolynomial_radical hfield hm.ne_zero).2

theorem eliminant_ofMinimal_dvd {minimal : Poly} (hfield : minimal.field = F)
    (hm : (minimal.toPolynomial F).Monic) (hle : minimal.natDegree ≤ n) :
    (ofMinimal minimal n).eliminant.toPolynomial F ∣ minimal.toPolynomial F ∧
      minimal.toPolynomial F ∣ (ofMinimal minimal n).eliminant.toPolynomial F ^ n := by
  rw [toPolynomial_eliminant_ofMinimal hfield hm n]
  rw [← Poly.natDegree_toPolynomial hfield] at hle
  exact ⟨UniqueFactorizationMonoid.radical_dvd_self, dvd_radical_pow hm.ne_zero hle⟩

theorem ofEquations_eq_ok (F : PrimeField) {layout : VariableLayout}
    (hlinear : layout.allLinear = true) :
    ∃ e, ofEquations F layout = .ok e ∧ e.Sound F 1 := by
  have hequations := layout.equations_of_allLinear hlinear
  have hpos : 0 < layout.variableCount := layout.variableCount_pos
  obtain ⟨row, hrow, hsize⟩ := layout.equation_eq_ok (r := layout.parts.equations - 1) (by omega)
  have hentry : layout.variableCount < row.size := by omega
  set c := row[layout.variableCount] with hc
  set a := Poly.ofCoeffs F #[c, 1] with ha
  have hfield : a.field = F := rfl
  have hpoly : a.toPolynomial F = X + C (F.value c) := by
    rw [ha, Poly.toPolynomial_ofCoeffs, polynomial]
    simp [Finset.sum_range_succ, add_comm]
  have hdegree : a.natDegree = 1 := by
    rw [← Poly.natDegree_toPolynomial hfield, hpoly, natDegree_X_add_C]
  refine ⟨⟨a, a, true⟩, ?_, hfield, hfield, ?_, ?_, hdegree.le, iff_of_true rfl hdegree⟩
  · rw [ofEquations, hrow, ok_bind, entryAt_eq_ok hentry]
    rfl
  · rw [hpoly]
    exact monic_X_add_C _
  · rw [hpoly]
    exact (irreducible_of_degree_eq_one (degree_X_add_C _)).squarefree

theorem minimalPolynomial_spec (F : PrimeField) {sequence : Array UInt32}
    (hsize : sequence.size = 2 * n) :
    ((KeyEquation.empty F).addPoints sequence).solve.minimalPolynomial.field = F ∧
      (((KeyEquation.empty F).addPoints sequence).solve.minimalPolynomial.toPolynomial F).Monic ∧
      ((KeyEquation.empty F).addPoints sequence).solve.minimalPolynomial.natDegree ≤ n := by
  set start := (KeyEquation.empty F).addPoints sequence with hstart
  have hfield : start.field = F := rfl
  have hpoints : start.points.size = sequence.size := KeyEquation.size_points_addPoints F sequence
  have hle := KeyEquation.natDegree_minimalPolynomial_le start hfield
  rw [Poly.natDegree_toPolynomial (KeyEquation.field_minimalPolynomial start hfield)] at hle
  exact ⟨KeyEquation.field_minimalPolynomial start hfield,
    KeyEquation.monic_minimalPolynomial start hfield, by omega⟩

theorem ofSequence_eq_ok {key : KeyEquation} (hkey : key.field = F) {sequence : Array UInt32}
    (hsize : sequence.size = 2 * n) {layout : VariableLayout}
    (hdimension : layout.checkDimension n = .ok ()) :
    ∃ e key', ofSequence key sequence n layout = .ok (e, key') ∧ e.Sound F n ∧ key'.field = F := by
  subst hkey
  rw [ofSequence]
  split
  · rename_i hlinear
    obtain ⟨e, he, hsound⟩ := ofEquations_eq_ok key.field hlinear
    rw [he, (layout.checkDimension_eq_ok hdimension).1 hlinear]
    exact ⟨e, key, rfl, hsound, rfl⟩
  · obtain ⟨hfield, hm, hle⟩ := minimalPolynomial_spec key.field hsize
    exact ⟨_, _, rfl, sound_ofMinimal hfield hm hle, KeyEquation.field_reduceBelow _ _⟩

/-- Whatever the power sums and whatever the state before, shape position is the case of full
degree. The minimal polynomial is then taken as it is, and otherwise its radical is, of smaller
degree. -/
theorem ofSequence_selects {key : KeyEquation} (hkey : key.field = F) {sequence : Array UInt32}
    (hsize : sequence.size = 2 * n) {layout : VariableLayout} (hlinear : layout.allLinear = false) :
    ∃ e key', ofSequence key sequence n layout = .ok (e, key') ∧
      e.minimal = ((KeyEquation.empty F).addPoints sequence).solve.minimalPolynomial ∧
      e.minimal.field = F ∧ (e.minimal.toPolynomial F).Monic ∧ e.minimal.natDegree ≤ n ∧
      e.eliminant.field = F ∧ (e.eliminant.toPolynomial F).Monic ∧
      Squarefree (e.eliminant.toPolynomial F) ∧
      e.eliminant.toPolynomial F ∣ e.minimal.toPolynomial F ∧
      e.minimal.toPolynomial F ∣ e.eliminant.toPolynomial F ^ n ∧
      (e.shapePosition = true ↔ e.degree = n) ∧
      (e.shapePosition = true → e.eliminant = e.minimal) ∧
      (e.shapePosition = false → e.degree < n) := by
  subst hkey
  obtain ⟨hfield, hm, hle⟩ := minimalPolynomial_spec key.field hsize
  set start := (KeyEquation.empty key.field).addPoints sequence
  set minimal := start.solve.minimalPolynomial
  have hrun : ofSequence key sequence n layout = .ok (ofMinimal minimal n, start.solve) := by
    rw [ofSequence, hlinear]
    rfl
  have hsound := sound_ofMinimal hfield hm hle
  obtain ⟨hdvd, hpow⟩ := eliminant_ofMinimal_dvd hfield hm hle
  have hsame := minimal_ofMinimal minimal n
  refine ⟨ofMinimal minimal n, start.solve, hrun, hsame, hsound.field_minimal, hsame.symm ▸ hm,
    hsound.natDegree_minimal_le, hsound.field_eliminant, hsound.monic, hsound.squarefree,
    hsame.symm ▸ hdvd, hsame.symm ▸ hpow, hsound.shapePosition_iff, ?_, ?_⟩
  · intro hshape
    rw [eliminant_ofMinimal hshape, hsame]
  · intro hshape
    have hdegree : (ofMinimal minimal n).degree ≤ n := by
      have h := natDegree_le_of_dvd hdvd hm.ne_zero
      rw [Poly.natDegree_toPolynomial hfield, Poly.natDegree_toPolynomial hsound.field_eliminant] at h
      exact h.trans hle
    have hne : (ofMinimal minimal n).degree ≠ n := fun h =>
      Bool.false_ne_true (hshape.symm.trans (hsound.shapePosition_iff.mpr h))
    exact Nat.lt_of_le_of_ne hdegree hne

/-- Over three elements, a minimal polynomial of full degree that is a cube. -/
theorem ofSequence_selects_cube :
    ∃ (F : PrimeField) (e : Elimination) (key' : KeyEquation), F.modulus = 3 ∧
      ofSequence (.empty F) #[0, 0, 1, 0, 0, 1] 3 (.generic 2) = .ok (e, key') ∧
      e.minimal = .ofCoeffs F #[2, 0, 0, 1] ∧ e.minimal.natDegree = 3 ∧
      e.shapePosition = false ∧ e.degree < 3 ∧
      e.eliminant.toPolynomial F ∣ e.minimal.toPolynomial F ∧
      e.minimal.toPolynomial F ∣ e.eliminant.toPolynomial F ^ 3 := by
  let F : PrimeField := ⟨3, by decide +kernel, by decide⟩
  obtain ⟨e, key', hrun, hminimal, -, -, -, -, -, -, hdvd, hpow, -, hsame, hless⟩ :=
    @ofSequence_selects F 3 (.empty F) rfl #[0, 0, 1, 0, 0, 1] (by decide) (.generic 2)
      (by decide +kernel)
  have hcube : e.minimal = .ofCoeffs F #[2, 0, 0, 1] := hminimal.trans (by decide +kernel)
  have hshape : e.shapePosition = false := by
    have h : (ofSequence (.empty F) #[0, 0, 1, 0, 0, 1] 3 (.generic 2)).map
        (fun r => r.1.shapePosition) = .ok false := by decide +kernel
    rw [hrun] at h
    exact Except.ok.inj h
  refine ⟨F, e, key', rfl, hrun, hcube, ?_, hshape, hless hshape, hdvd, hpow⟩
  rw [hcube]
  decide +kernel

end Elimination

end ZeroDim
