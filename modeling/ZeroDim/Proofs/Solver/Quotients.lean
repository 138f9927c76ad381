import Mathlib
import ZeroDim.Proofs.Solver.Outcome

/-! # Outside of shape position

Without shape position the eliminant is the radical of the minimal recurrence of the power sums.
Its roots are among those of every polynomial that vanishes in the quotient, and a variable that is
a polynomial in `t` has the remainder of this polynomial as coordinate, for every probe and whatever
the check of the coordinates says. -/

set_option autoImplicit false

namespace ZeroDim

open Polynomial PrimeField Matrix

variable {F : PrimeField} {n : ℕ} {A : Matrix (Fin n) (Fin n) F.Element} {v : Fin n → F.Element}
  {tracked : List TrackedVariable} {P : F.Element[X]} {o : Outcome}

theorem Outcome.Describes.eliminant_dvd (h : o.Describes F A v tracked P) {g : F.Element[X]}
    (hg : unitVector F.Element n 0 ᵥ* aeval A g = 0) :
    o.parametrization.eliminant.toPolynomial F ∣ g := by
  have hdvd : P ∣ g := by
    apply h.minimal.dvd
    funext i
    rw [act_krylov, hg, krylov, zero_dotProduct, Pi.zero_apply]
  by_cases hverdict : o.verdict = .shapePosition
  · rw [(h.shape hverdict).2.1]
    exact hdvd
  · rw [(h.quotient hverdict).1]
    exact UniqueFactorizationMonoid.radical_dvd_self.trans hdvd

/-- A variable that is a polynomial in `t` has the remainder of this polynomial as coordinate. -/
theorem Outcome.Describes.coordinate_eq_mod (h : o.Describes F A v tracked P)
    {x : TrackedVariable} (hx : x ∈ tracked) {a : F.Element[X]}
    (ha : unitVector F.Element n x.basisIndex = unitVector F.Element n 0 ᵥ* aeval A a) :
    o.parametrization.coordinatePolynomial F x.index =
      a % o.parametrization.eliminant.toPolynomial F := by
  have hact : act a (krylov A (unitVector F.Element n 0) v) =
      krylov A (unitVector F.Element n x.basisIndex) v := by rw [act_krylov, ← ha]
  by_cases hverdict : o.verdict = .shapePosition
  · obtain ⟨-, helim, htracked⟩ := h.shape hverdict
    obtain ⟨hdeg, hcoord⟩ := htracked x hx
    have hPne := h.minimal.monic.ne_zero
    rw [helim, ← (mod_eq_self_iff hPne).mpr hdeg]
    apply mod_eq_of_dvd_sub
    apply h.minimal.dvd
    rw [act_sub, hcoord, hact, sub_self]
  · obtain ⟨helim, htracked⟩ := h.quotient hverdict
    rw [helim]
    exact htracked x hx a hact

/-- An outcome outside of shape position has the radical of the minimal recurrence of the power
sums as eliminant, which has no root that is not a value of `t`, and the remainder of every
polynomial in `t` that is equal to a tracked variable as its coordinate. -/
theorem Session.solveFrom_quotients {s : Session} (hs : s.Reachable) {M : MultiplicationMatrix}
    {layout : VariableLayout} (hlinear : layout.allLinear = false) {probe : Array UInt32}
    {source : WordSource} {reply : Reply} (h : s.solveFrom M layout probe source = .ok reply)
    {outcome : Outcome} (hresult : reply.result = .ok outcome)
    (hverdict : outcome.verdict ≠ .shapePosition) :
    outcome.parametrization.eliminant.field = s.field ∧
    (∃ P, IsMinimalRecurrence P (krylov (M.toMatrix s.field)
        (unitVector s.field.Element M.dimension 0) (s.field.vector M.dimension probe)) ∧
      outcome.parametrization.eliminant.toPolynomial s.field =
        UniqueFactorizationMonoid.radical P) ∧
    (outcome.parametrization.eliminant.toPolynomial s.field).Monic ∧
    (∀ g : s.field.Element[X],
      unitVector s.field.Element M.dimension 0 ᵥ* aeval (M.toMatrix s.field) g = 0 →
      outcome.parametrization.eliminant.toPolynomial s.field ∣ g) ∧
    ∀ x ∈ layout.tracked, ∀ a : s.field.Element[X],
      unitVector s.field.Element M.dimension x.basisIndex =
        unitVector s.field.Element M.dimension 0 ᵥ* aeval (M.toMatrix s.field) a →
      ∃ c, outcome.parametrization.coordinate x.index = .ok c ∧ c.field = s.field ∧
        c.toPolynomial s.field = a % outcome.parametrization.eliminant.toPolynomial s.field := by
  obtain ⟨hsolves, -, P, hdescribes⟩ := hs.describes rfl hlinear h hresult
  have helim := (hdescribes.quotient hverdict).1
  refine ⟨hsolves.isOver.field_eliminant, ⟨P, hdescribes.minimal, helim⟩, ?_, ?_, ?_⟩
  · rw [helim]
    exact monic_radical hdescribes.minimal.monic.ne_zero
  · intro g hg
    exact hdescribes.eliminant_dvd hg
  · intro x hx a ha
    obtain ⟨c, hc, hfield, hvalue⟩ := hsolves.exists_coordinate (layout.index_tracked_lt hx)
    refine ⟨c, entryAt_eq_ok_iff.mpr hc, hfield, ?_⟩
    rw [← hvalue]
    exact hdescribes.coordinate_eq_mod hx ha

/-- A double point at `t = 1`, where `x_0 = t ^ 2` is known modulo `(t - 1) * (t - 2)` only. -/
theorem Session.solveFrom_quotients_doublePoint :
    ∃ (s : Session) (M : MultiplicationMatrix) (reply : Reply) (outcome : Outcome) (c : Poly),
      open? 7 {} = .ok s ∧ M.parts = ⟨3, #[2, 2, 4], #[0, 1], #[1, 2], #[2]⟩ ∧
      s.solveFrom M (.generic 2) #[1, 0, 3] (.ofSeed 42) = .ok reply ∧
      reply.result = .ok outcome ∧ outcome.verdict ≠ .shapePosition ∧
      (∃ P, IsMinimalRecurrence P (krylov (M.toMatrix s.field)
          (unitVector s.field.Element M.dimension 0) (s.field.vector M.dimension #[1, 0, 3])) ∧
        outcome.parametrization.eliminant.toPolynomial s.field =
          UniqueFactorizationMonoid.radical P) ∧
      outcome.parametrization.eliminant.toPolynomial s.field ∣ (M.toMatrix s.field).charpoly ∧
      outcome.parametrization.coordinate 0 = .ok c ∧ c.toPolynomial s.field =
        X ^ 2 % outcome.parametrization.eliminant.toPolynomial s.field := by
  let F : PrimeField := ⟨7, by decide +kernel, by decide⟩
  let M : MultiplicationMatrix := ⟨⟨3, #[2, 2, 4], #[0, 1], #[1, 2], #[2]⟩, by decide +kernel, 64⟩
  have hopen : open? 7 {} = .ok ⟨F, {}, .empty, .empty F, none⟩ := by decide +kernel
  have hrun : ((⟨F, {}, .empty, .empty F, none⟩ : Session).solveFrom M (.generic 2) #[1, 0, 3]
      (.ofSeed 42)).map Reply.result = .ok (.ok ⟨⟨F, 2, .ofCoeffs F #[2, 4, 1], .one F,
        #[.ofCoeffs F #[5, 3]], rfl⟩, .verified⟩) := by decide +kernel
  obtain ⟨reply, hreply, hresult⟩ := map_eq_ok.mp hrun
  have hx : (⟨0, 1, 2, none⟩ : TrackedVariable) ∈ (VariableLayout.generic 2).tracked := by
    decide +kernel
  obtain ⟨-, hminimal, -, hroots, hcoord⟩ :=
    solveFrom_quotients (.opened hopen) (by decide +kernel) hreply hresult (by decide)
  obtain ⟨c, hc, -, hvalue⟩ := hcoord _ hx (X ^ 2) (by
    rw [map_pow, aeval_X]
    funext i
    revert i
    decide +kernel)
  refine ⟨_, M, reply, _, c, hopen, rfl, hreply, hresult, by decide, hminimal, ?_, hc, hvalue⟩
  apply hroots
  rw [aeval_self_charpoly, vecMul_zero]

end ZeroDim
