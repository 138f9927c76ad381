import Mathlib
import ZeroDim.Proofs.Solver.Outcome

/-! # Shape position

In shape position the power sums have the characteristic polynomial as minimal recurrence, so that
the Krylov vectors span the quotient and a coordinate is the variable itself as a polynomial in `t`.
At a solution, an eigenvector with entry one at the basis element `1`, the eliminant vanishes at the
eigenvalue and the coordinates take the values of the variables. -/

set_option autoImplicit false

namespace ZeroDim

open Polynomial PrimeField Matrix

section Eigenvector
variable {K : Type*} [Field K] {n : ℕ} {A : Matrix (Fin n) (Fin n) K} {w : Fin n → K} {tau : K}

theorem aeval_mulVec_of_eigenvector (hw : A *ᵥ w = tau • w) (a : K[X]) :
    aeval A a *ᵥ w = a.eval tau • w := by
  have hpow : ∀ i, A ^ i *ᵥ w = tau ^ i • w := by
    intro i
    induction i with
    | zero => rw [pow_zero, one_mulVec, pow_zero, one_smul]
    | succ i ih => rw [pow_succ, ← mulVec_mulVec, hw, mulVec_smul, ih, smul_smul, ← pow_succ']
  rw [aeval_eq_sum_range, sum_mulVec, eval_eq_sum_range, Finset.sum_smul]
  apply Finset.sum_congr rfl
  intro i _
  rw [smul_mulVec, hpow, smul_smul]

/-- A basis element that is a polynomial in `t` takes the value of the polynomial at a solution. -/
theorem eval_eq_of_eigenvector (hw : A *ᵥ w = tau • w) (h₀ : unitVector K n 0 ⬝ᵥ w = 1) {a : K[X]}
    {u : Fin n → K} (hu : u = unitVector K n 0 ᵥ* aeval A a) : u ⬝ᵥ w = a.eval tau := by
  rw [hu, ← dotProduct_mulVec, aeval_mulVec_of_eigenvector hw, dotProduct_smul, h₀, smul_eq_mul,
    mul_one]

end Eigenvector

variable {F : PrimeField} {n : ℕ} {A : Matrix (Fin n) (Fin n) F.Element} {v : Fin n → F.Element}
  {tracked : List TrackedVariable} {P : F.Element[X]} {o : Outcome}

theorem Outcome.Describes.eliminant_eq_charpoly (h : o.Describes F A v tracked P)
    (hshape : o.verdict = .shapePosition) :
    o.parametrization.eliminant.toPolynomial F = A.charpoly := by
  obtain ⟨hdeg, helim, -⟩ := h.shape hshape
  rw [helim, eq_charpoly_of_natDegree h.minimal hdeg]

theorem Outcome.Describes.unitVector_eq (h : o.Describes F A v tracked P)
    (hshape : o.verdict = .shapePosition) {x : TrackedVariable} (hx : x ∈ tracked) :
    unitVector F.Element n x.basisIndex = unitVector F.Element n 0 ᵥ*
      aeval A (o.parametrization.coordinatePolynomial F x.index) := by
  obtain ⟨hdeg, -, htracked⟩ := h.shape hshape
  exact vecMul_aeval_of_act_krylov h.minimal hdeg (htracked x hx).2

/-- An outcome in shape position has the characteristic polynomial as eliminant, and every tracked
variable as a polynomial in `t`.  At a solution it gives the values of the variables. -/
theorem Session.solveFrom_shapePosition {s : Session} (hs : s.Reachable) {M : MultiplicationMatrix}
    {layout : VariableLayout} (hlinear : layout.allLinear = false) {probe : Array UInt32}
    {source : WordSource} {reply : Reply} (h : s.solveFrom M layout probe source = .ok reply)
    {outcome : Outcome} (hresult : reply.result = .ok outcome)
    (hshape : outcome.verdict = .shapePosition) :
    outcome.parametrization.eliminant.field = s.field ∧
    outcome.parametrization.eliminant.toPolynomial s.field = (M.toMatrix s.field).charpoly ∧
    (∀ x ∈ layout.tracked, ∃ a, outcome.parametrization.coordinate x.index = .ok a ∧
      a.field = s.field ∧
      unitVector s.field.Element M.dimension x.basisIndex =
        unitVector s.field.Element M.dimension 0 ᵥ*
          aeval (M.toMatrix s.field) (a.toPolynomial s.field)) ∧
    ∀ (tau : UInt32) (w : Fin M.dimension → s.field.Element),
      M.toMatrix s.field *ᵥ w = s.field.value tau • w →
      w ⟨0, M.dimension_pos⟩ = 1 →
      outcome.parametrization.eliminant.eval tau = 0 ∧
      ∃ point, outcome.parametrization.pointAt? tau = some point ∧
        ∀ x ∈ layout.tracked, ∃ k : Fin M.dimension, (k : ℕ) = x.basisIndex ∧
          point[x.index]? = some (s.field.word (w k)) := by
  obtain ⟨hsolves, hfits, P, hdescribes⟩ := hs.describes rfl hlinear h hresult
  have hover := hsolves.isOver
  have helim := hdescribes.eliminant_eq_charpoly hshape
  refine ⟨hover.field_eliminant, helim, ?_, ?_⟩
  · intro x hx
    obtain ⟨a, ha, hfield, hvalue⟩ := hsolves.exists_coordinate (layout.index_tracked_lt hx)
    refine ⟨a, entryAt_eq_ok_iff.mpr ha, hfield, ?_⟩
    rw [← hvalue]
    exact hdescribes.unitVector_eq hshape hx
  · intro tau w hw h₀
    rw [← unitVector_dotProduct M.dimension_pos w] at h₀
    constructor
    · have hzero := eval_eq_of_eigenvector (u := 0) hw h₀ (a := (M.toMatrix s.field).charpoly)
        (by rw [aeval_self_charpoly, vecMul_zero])
      rw [zero_dotProduct, ← helim, ← Poly.value_eval hover.field_eliminant] at hzero
      have hreduced := Poly.reduced_eval outcome.parametrization.eliminant tau
      rw [hover.field_eliminant] at hreduced
      exact (value_eq_zero_iff hreduced).mp hzero.symm
    · obtain ⟨point, hpoint, hentry⟩ :=
        Parametrization.pointAt?_spec hover hsolves.denominator_eq tau
      refine ⟨point, hpoint, ?_⟩
      intro x hx
      obtain ⟨a, ha, -, hvalue⟩ := hsolves.exists_coordinate (layout.index_tracked_lt hx)
      refine ⟨⟨x.basisIndex, hfits.basisIndex_lt x hx⟩, rfl, ?_⟩
      rw [hentry _ a ha, ← hvalue,
        ← eval_eq_of_eigenvector hw h₀ (hdescribes.unitVector_eq hshape hx), unitVector_dotProduct]

/-- Three points with `x_0 = t ^ 2`, and the values at the one with `t = 2`. -/
theorem Session.solveFrom_shapePosition_threePoints :
    ∃ (s : Session) (M : MultiplicationMatrix) (reply : Reply) (outcome : Outcome)
      (w : Fin M.dimension → s.field.Element) (k : Fin M.dimension),
      open? 7 {} = .ok s ∧ M.parts = ⟨3, #[6, 3, 6], #[0, 1], #[1, 2], #[2]⟩ ∧
      s.solveFrom M (.generic 2) #[1, 0, 3] (.ofSeed 42) = .ok reply ∧
      reply.result = .ok outcome ∧ outcome.verdict = .shapePosition ∧
      outcome.parametrization.eliminant.toPolynomial s.field = (M.toMatrix s.field).charpoly ∧
      (∃ a, outcome.parametrization.coordinate 0 = .ok a ∧ unitVector s.field.Element _ 2 =
        unitVector s.field.Element _ 0 ᵥ* aeval (M.toMatrix s.field) (a.toPolynomial s.field)) ∧
      M.toMatrix s.field *ᵥ w = s.field.value 2 • w ∧
      outcome.parametrization.eliminant.eval 2 = 0 ∧ (k : ℕ) = 2 ∧
      ∃ point, outcome.parametrization.pointAt? 2 = some point ∧
        point[0]? = some (s.field.word (w k)) := by
  let F : PrimeField := ⟨7, by decide +kernel, by decide⟩
  let M : MultiplicationMatrix := ⟨⟨3, #[6, 3, 6], #[0, 1], #[1, 2], #[2]⟩, by decide +kernel, 64⟩
  have hopen : open? 7 {} = .ok ⟨F, {}, .empty, .empty F, none⟩ := by decide +kernel
  have hrun : ((⟨F, {}, .empty, .empty F, none⟩ : Session).solveFrom M (.generic 2) #[1, 0, 3]
      (.ofSeed 42)).map Reply.result = .ok (.ok ⟨⟨F, 2, .ofCoeffs F #[1, 4, 1, 1], .one F,
        #[.ofCoeffs F #[0, 0, 1]], rfl⟩, .shapePosition⟩) := by decide +kernel
  obtain ⟨reply, hreply, hresult⟩ := map_eq_ok.mp hrun
  have hx : (⟨0, 1, 2, none⟩ : TrackedVariable) ∈ (VariableLayout.generic 2).tracked := by
    decide +kernel
  obtain ⟨-, helim, hcoord, hpoints⟩ :=
    solveFrom_shapePosition (.opened hopen) (by decide +kernel) hreply hresult rfl
  obtain ⟨a, ha, -, heq⟩ := hcoord _ hx
  have hw : M.toMatrix F *ᵥ F.vector 3 #[1, 2, 4] = F.value 2 • F.vector 3 #[1, 2, 4] := by
    funext i
    revert i
    decide +kernel
  obtain ⟨hroot, point, hpoint, hvalue⟩ := hpoints 2 (F.vector 3 #[1, 2, 4]) hw rfl
  obtain ⟨k, hk, hentry⟩ := hvalue _ hx
  exact ⟨_, M, reply, _, _, k, hopen, rfl, hreply, hresult, rfl, helim, ⟨a, ha, heq⟩, hw, hroot, hk,
    point, hpoint, hentry⟩

end ZeroDim
