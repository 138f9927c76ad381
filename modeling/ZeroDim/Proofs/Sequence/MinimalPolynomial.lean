import Mathlib
import ZeroDim.Proofs.KeyEquation

/-! # The minimal polynomial of the points added

Points reach the key equation in any number of calls, with other runs of the recursion in between,
and a solution depends on nothing but the points.  If they have a recurrence of at most half their
number, the solution is the recurrence of least degree, and it divides all recurrences of at most
half the number.

The calls are taken as data, so that a history is a list; each call is looked at once, for the
points it leaves. -/

set_option autoImplicit false

namespace ZeroDim

open Polynomial PrimeField

/-- A monic polynomial that holds for `n` terms as a recurrence, wherever it reaches. -/
structure RecursOn {K : Type*} [Field K] (P : K[X]) (n : ℕ) (s : ℕ → K) : Prop where
  monic : P.Monic
  sum_eq_zero : ∀ i, i + P.natDegree < n →
    ∑ j ∈ Finset.range (P.natDegree + 1), P.coeff j * s (i + j) = 0

theorem RecursOn.act_eq_zero {K : Type*} [Field K] {P : K[X]} {n : ℕ} {s : ℕ → K}
    (h : RecursOn P n s) {i : ℕ} (hi : i + P.natDegree < n) : act P s i = 0 := by
  rw [act_apply (degree_lt_succ_natDegree P), h.sum_eq_zero i hi]

variable {F : PrimeField}

theorem recursOn_toPolynomial {a : Poly} (ha : a.field = F) {n : ℕ} {s : ℕ → F.Element}
    (hlead : F.value (a.coeff a.natDegree) = 1) (hsum : ∀ i < n - a.natDegree,
      ∑ j ∈ Finset.range (a.natDegree + 1), F.value (a.coeff j) * s (i + j) = 0) :
    RecursOn (a.toPolynomial F) n s := by
  constructor
  · rw [Monic, leadingCoeff, Poly.natDegree_toPolynomial ha, Poly.coeff_toPolynomial, hlead]
  · intro i hi
    rw [Poly.natDegree_toPolynomial ha] at hi ⊢
    simp only [Poly.coeff_toPolynomial]
    exact hsum i (by omega)

namespace KeyEquation

/-! ## Histories

A history starts at a reset; a new state is its own reset, and so is one just moved to a field. -/

/-- What may be asked of a state between two resets. -/
inductive Call where
  | addPoints (points : Array UInt32)
  | solve
  | start (high : Nat) (f : Poly)
  | reduceBelow (bound : Nat)

def perform (e : KeyEquation) : Call → KeyEquation
  | .addPoints points => e.addPoints points
  | .solve => e.solve
  | .start high f => e.start high f
  | .reduceBelow bound => e.reduceBelow bound

def performAll (e : KeyEquation) (calls : List Call) : KeyEquation := calls.foldl perform e

def Call.points : Call → Array UInt32
  | .addPoints points => points
  | _ => #[]

def added : List Call → Array UInt32
  | [] => #[]
  | call :: calls => call.points ++ added calls

theorem points_reduceBelow (e : KeyEquation) (bound : ℕ) :
    (e.reduceBelow bound).points = e.points := by
  fun_induction reduceBelow e bound with
  | case1 e _ ih => exact ih
  | case2 e _ => rfl

theorem perform_spec (e : KeyEquation) (call : Call) : (e.perform call).field = e.field ∧
    (e.perform call).points = e.points ++ call.points.map e.field.residue := by
  cases call with
  | addPoints points => exact ⟨rfl, rfl⟩
  | solve =>
    have hpoints : e.solve.points = e.points := points_reduceBelow _ _
    exact ⟨field_reduceBelow _ _, by simpa [perform, Call.points] using hpoints⟩
  | start high f => exact ⟨rfl, by simp [perform, start, Call.points]⟩
  | reduceBelow bound =>
    have hpoints := points_reduceBelow e bound
    exact ⟨field_reduceBelow _ _, by simpa [perform, Call.points] using hpoints⟩

theorem performAll_spec (calls : List Call) (e : KeyEquation) :
    (e.performAll calls).field = e.field ∧
      (e.performAll calls).points = e.points ++ (added calls).map e.field.residue := by
  induction calls generalizing e with
  | nil => simp [performAll, added]
  | cons call calls ih =>
    obtain ⟨hfield, hpoints⟩ := e.perform_spec call
    obtain ⟨hfield', hpoints'⟩ := ih (e.perform call)
    refine ⟨hfield'.trans hfield, ?_⟩
    rw [hfield, hpoints] at hpoints'
    simpa [performAll, added, Array.append_assoc] using hpoints'

/-! ## Solutions of the points -/

section Points
variable {s : Array UInt32} {e : KeyEquation} (he : e.field = F)
  (hpoints : e.points = s.map F.residue)
include hpoints

theorem size_points : e.points.size = s.size := by rw [hpoints, Array.size_map]

theorem terms_points : F.terms e.points = F.terms s := by
  rw [hpoints]
  exact funext (terms_map_residue F s)

include he

theorem two_mul_natDegree_minimalPolynomial_le :
    2 * (e.solve.minimalPolynomial.toPolynomial F).natDegree ≤ s.size := by
  have hle := natDegree_minimalPolynomial_le e he
  rw [size_points hpoints] at hle
  omega

/-- The solution divides every recurrence of at most half the length; if there is one, its own
remainder is shorter than itself. -/
theorem cofactor_dvd_of_recursOn {Q : F.Element[X]} (hQ : RecursOn Q s.size (F.terms s))
    (hdeg : 2 * Q.natDegree ≤ s.size) : e.solve.v1.toPolynomial F ∣ Q ∧
      e.solve.r1.length ≤ (e.solve.v1.toPolynomial F).natDegree := by
  have hsize := size_points hpoints
  obtain ⟨hdvd, hshort⟩ := solve_cofactor_dvd e he (hsize ▸ hdeg) fun i hi => by
    rw [terms_points hpoints]
    exact hQ.act_eq_zero (hsize ▸ hi)
  exact ⟨hdvd, hshort hQ.monic.ne_zero⟩

theorem minimalPolynomial_dvd_of_recursOn {Q : F.Element[X]}
    (hQ : RecursOn Q s.size (F.terms s)) (hdeg : 2 * Q.natDegree ≤ s.size) :
    e.solve.minimalPolynomial.toPolynomial F ∣ Q :=
  (associated_minimalPolynomial e he).dvd_iff_dvd_left.mpr
    (cofactor_dvd_of_recursOn he hpoints hQ hdeg).1

theorem recursOn_minimalPolynomial {P : F.Element[X]} (hP : RecursOn P s.size (F.terms s))
    (hdeg : 2 * P.natDegree ≤ s.size) :
    RecursOn (e.solve.minimalPolynomial.toPolynomial F) s.size (F.terms s) := by
  have hshort := (cofactor_dvd_of_recursOn he hpoints hP hdeg).2
  refine ⟨monic_minimalPolynomial e he, ?_⟩
  intro i hi
  rw [natDegree_minimalPolynomial_eq e he, ← size_points hpoints] at hi
  rw [← act_apply (degree_lt_succ_natDegree _), ← terms_points hpoints]
  exact act_minimalPolynomial e he (act_solve_cofactor e he hi (by omega))

theorem natDegree_minimalPolynomial_le_of_recursOn {Q : F.Element[X]}
    (hM : RecursOn (e.solve.minimalPolynomial.toPolynomial F) s.size (F.terms s))
    (hQ : RecursOn Q s.size (F.terms s)) :
    e.solve.minimalPolynomial.natDegree ≤ Q.natDegree ∧
      (Q.natDegree = e.solve.minimalPolynomial.natDegree →
        Q = e.solve.minimalPolynomial.toPolynomial F) := by
  have hhalf := two_mul_natDegree_minimalPolynomial_le he hpoints
  rw [← Poly.natDegree_toPolynomial (field_minimalPolynomial e he)]
  by_cases hlt : (e.solve.minimalPolynomial.toPolynomial F).natDegree < Q.natDegree
  · exact ⟨hlt.le, fun heq => absurd heq hlt.ne'⟩
  · have hdvd := minimalPolynomial_dvd_of_recursOn he hpoints hQ (by omega)
    exact ⟨natDegree_le_of_dvd hdvd hQ.monic.ne_zero, fun heq =>
      eq_of_monic_of_dvd_of_natDegree_le hM.monic hQ.monic hdvd heq.le⟩

theorem minimalPolynomial_eq_of_points {e' : KeyEquation} (he' : e'.field = F)
    (hpoints' : e'.points = s.map F.residue) {P : F.Element[X]}
    (hP : RecursOn P s.size (F.terms s)) (hdeg : 2 * P.natDegree ≤ s.size) :
    e.solve.minimalPolynomial = e'.solve.minimalPolynomial := by
  have hrec := recursOn_minimalPolynomial he hpoints hP hdeg
  have hrec' := recursOn_minimalPolynomial he' hpoints' hP hdeg
  rw [← Poly.toPolynomial_inj (field_minimalPolynomial e he) (field_minimalPolynomial e' he')]
  apply eq_of_monic_of_associated hrec.monic hrec'.monic
  apply associated_of_dvd_dvd
  · exact minimalPolynomial_dvd_of_recursOn he hpoints hrec'
      (two_mul_natDegree_minimalPolynomial_le he' hpoints')
  · exact minimalPolynomial_dvd_of_recursOn he' hpoints' hrec
      (two_mul_natDegree_minimalPolynomial_le he hpoints)

end Points

/-- A history leaves the points it adds, whatever else it asks for. -/
theorem spec_of_history {s : Array UInt32} {e : KeyEquation} (he : e.field = F)
    {calls : List Call} (hs : added calls = s) : (e.reset.performAll calls).field = F ∧
      (e.reset.performAll calls).points = s.map F.residue := by
  subst he hs
  obtain ⟨hfield, hpoints⟩ := performAll_spec calls e.reset
  exact ⟨hfield, hpoints.trans Array.empty_append⟩

/-- If the points have a recurrence of at most half their number, every history that adds them is
solved by one and the same polynomial: a recurrence that divides all recurrences of at most half
the number, and the only one of least degree. -/
theorem minimalPolynomial_of_history {s : Array UInt32} {P : F.Element[X]}
    (hP : RecursOn P s.size (F.terms s)) (hdeg : 2 * P.natDegree ≤ s.size) :
    ∃ M : Poly, M.field = F ∧ RecursOn (M.toPolynomial F) s.size (F.terms s) ∧
      (∀ Q : F.Element[X], RecursOn Q s.size (F.terms s) → 2 * Q.natDegree ≤ s.size →
        M.toPolynomial F ∣ Q) ∧
      (∀ Q : F.Element[X], RecursOn Q s.size (F.terms s) → M.natDegree ≤ Q.natDegree ∧
        (Q.natDegree = M.natDegree → Q = M.toPolynomial F)) ∧
      ∀ (e : KeyEquation) (calls : List Call), e.field = F → added calls = s →
        (e.reset.performAll calls).solve.minimalPolynomial = M := by
  obtain ⟨hfield, hpoints⟩ := spec_of_history (rfl : (empty F).field = F)
    (show added [.addPoints s] = s from Array.append_empty)
  have hM := recursOn_minimalPolynomial hfield hpoints hP hdeg
  refine ⟨_, field_minimalPolynomial _ hfield, hM, ?_, ?_, ?_⟩
  · intro Q hQ hQdeg
    exact minimalPolynomial_dvd_of_recursOn hfield hpoints hQ hQdeg
  · intro Q hQ
    exact natDegree_minimalPolynomial_le_of_recursOn hfield hpoints hM hQ
  · intro e calls he hs
    obtain ⟨hfield', hpoints'⟩ := spec_of_history he hs
    exact minimalPolynomial_eq_of_points hfield' hpoints' hfield hpoints hP hdeg

/-- Fibonacci numbers over seven elements, added in two calls with other runs between them. -/
theorem minimalPolynomial_of_history_fibonacci :
    ∃ F : PrimeField, F.modulus = 7 ∧
      RecursOn ((Poly.ofCoeffs F #[6, 6, 1]).toPolynomial F) 8 (F.terms #[1, 1, 2, 3, 5, 1, 6, 0]) ∧
      (((KeyEquation.empty F).reset.performAll [.addPoints #[1, 1, 2, 3], .solve,
        .start 5 (Poly.x F), .reduceBelow 1, .addPoints #[5, 1, 6, 0]]).solve.minimalPolynomial =
          .ofCoeffs F #[6, 6, 1]) ∧
      ∀ Q : F.Element[X], RecursOn Q 8 (F.terms #[1, 1, 2, 3, 5, 1, 6, 0]) →
        2 * Q.natDegree ≤ 8 → (Poly.ofCoeffs F #[6, 6, 1]).toPolynomial F ∣ Q := by
  let F : PrimeField := ⟨7, by decide +kernel, by decide⟩
  have hrec := recursOn_toPolynomial (n := 8) (s := F.terms #[1, 1, 2, 3, 5, 1, 6, 0])
    (Poly.field_ofCoeffs F #[6, 6, 1]) (by decide +kernel) (by decide +kernel)
  obtain ⟨M, -, -, hdvd, -, hhistory⟩ :=
    minimalPolynomial_of_history (s := #[1, 1, 2, 3, 5, 1, 6, 0]) hrec (by
      rw [Poly.natDegree_toPolynomial (Poly.field_ofCoeffs F _)]
      decide +kernel)
  obtain rfl : M = .ofCoeffs F #[6, 6, 1] := by
    rw [← hhistory (empty F) [.addPoints #[1, 1, 2, 3, 5, 1, 6, 0]] rfl (by decide)]
    decide +kernel
  exact ⟨F, rfl, hrec, hhistory (empty F) _ rfl (by decide), hdvd⟩

end KeyEquation

end ZeroDim
