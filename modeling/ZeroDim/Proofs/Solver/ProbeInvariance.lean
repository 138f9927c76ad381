import Mathlib
import ZeroDim.Proofs.Solver.Quotients
import ZeroDim.Proofs.Solver.ShapePosition

/-! # Independence of the probe

Two runs on one system are compared through what shape position says about the first: its
coordinates are the variables as polynomials in `t`, so those of the second are their remainders,
for the tracked variables at once and for the linear ones from the highest down.  When all variables
are linear, the equations alone decide. -/

set_option autoImplicit false

namespace ZeroDim

open Polynomial PrimeField Matrix

variable {F : PrimeField} {layout : VariableLayout}

/-! ## Two solutions of the linear equations -/

namespace Parametrization.Solves

variable {p q : Parametrization} (hp : p.Solves F layout) (hq : q.Solves F layout)
include hp hq

theorem exists_equation {k : ℕ} (hk : k ∈ layout.linearVariables) : ∃ row,
    p.coordinatePolynomial F k = equationValue F row layout.variableCount k
      (p.coordinatePolynomial F) % p.eliminant.toPolynomial F ∧
    q.coordinatePolynomial F k = equationValue F row layout.variableCount k
      (q.coordinatePolynomial F) % q.eliminant.toPolynomial F := by
  obtain ⟨r, row, hr, hrow, hpk⟩ := hp.linear k hk
  obtain ⟨r', row', hr', hrow', hqk⟩ := hq.linear k hk
  obtain rfl := layout.equationIndex_unique hr hr'
  obtain rfl := Except.ok.inj (hrow.symm.trans hrow')
  exact ⟨row, hpk, hqk⟩

/-- Coordinates of the tracked variables that are remainders make all coordinates remainders. -/
theorem coordinate_eq_mod
    (hdvd : q.eliminant.toPolynomial F ∣ p.eliminant.toPolynomial F)
    (htracked : ∀ x ∈ layout.tracked, q.coordinatePolynomial F x.index =
      p.coordinatePolynomial F x.index % q.eliminant.toPolynomial F) {i : ℕ}
    (hi : i < layout.variableCount - 1) :
    q.coordinatePolynomial F i = p.coordinatePolynomial F i % q.eliminant.toPolynomial F := by
  -- the induction is on the number of variables above
  induction hm : layout.variableCount - i using Nat.strong_induction_on generalizing i with
  | _ m ih =>
    rcases layout.linear_or_tracked hi with hlinear | ⟨x, hx, rfl⟩
    · obtain ⟨row, hpi, hqi⟩ := hp.exists_equation hq hlinear
      have habove : q.eliminant.toPolynomial F ∣
          equationValue F row layout.variableCount i (q.coordinatePolynomial F) -
            equationValue F row layout.variableCount i (p.coordinatePolynomial F) := by
        apply dvd_equationValue_sub
        intro j hij hj
        rw [ih _ (by omega) hj rfl, ← dvd_neg, neg_sub]
        exact dvd_sub_mod _ _
      rw [hqi, hpi, mod_eq_of_dvd_sub habove]
      exact mod_eq_of_dvd_sub (hdvd.trans (dvd_sub_mod _ _))
    · exact htracked x hx

theorem ext (helim : q.eliminant.toPolynomial F = p.eliminant.toPolynomial F)
    (hcoord : ∀ i < layout.variableCount - 1,
      q.coordinatePolynomial F i = p.coordinatePolynomial F i) : q = p := by
  have helim' : q.eliminant = p.eliminant :=
    (Poly.toPolynomial_inj hq.isOver.field_eliminant hp.isOver.field_eliminant).mp helim
  have hcount : q.variableCount = p.variableCount :=
    hq.variableCount_eq.trans hp.variableCount_eq.symm
  have hcoordinates : q.coordinates = p.coordinates := by
    apply Array.ext_getElem?
    intro i
    by_cases hi : i < layout.variableCount - 1
    · obtain ⟨a, ha, hafield, havalue⟩ := hp.exists_coordinate hi
      obtain ⟨b, hb, hbfield, hbvalue⟩ := hq.exists_coordinate hi
      rw [ha, hb, Option.some.injEq, ← Poly.toPolynomial_inj hbfield hafield, ← hbvalue, ← havalue]
      exact hcoord i hi
    · have hpsize : p.coordinates.size ≤ i := by
        rw [p.size_coordinates, hp.variableCount_eq]
        omega
      have hqsize : q.coordinates.size ≤ i := by
        rw [q.size_coordinates, hq.variableCount_eq]
        omega
      rw [Array.getElem?_eq_none hpsize, Array.getElem?_eq_none hqsize]
  have hfield := hq.isOver.field_eq.trans hp.isOver.field_eq.symm
  have hdenominator := hq.denominator_eq.trans hp.denominator_eq.symm
  cases p
  cases q
  cases hfield
  cases hcount
  cases helim'
  cases hdenominator
  cases hcoordinates
  rfl

end Parametrization.Solves

/-! ## Layouts of linear variables -/

theorem Elimination.ofEquations_spec {e : Elimination}
    (h : Elimination.ofEquations F layout = .ok e) :
    e.shapePosition = true ∧ e.eliminant.field = F ∧ e.eliminant.toPolynomial F ≠ 0 := by
  obtain ⟨row, -, h⟩ := bind_eq_ok.mp h
  obtain ⟨c, -, h⟩ := bind_eq_ok.mp h
  obtain rfl := Except.ok.inj h
  refine ⟨rfl, rfl, ?_⟩
  intro hzero
  have hcoeff := congrArg (fun f : F.Element[X] => f.coeff 1) hzero
  rw [Poly.toPolynomial_ofCoeffs] at hcoeff
  simp [coeff_polynomial] at hcoeff

namespace Session

variable {α : Type} [LinearOperator α] {op : α} {s : Session} {probe : Array UInt32}
  {target : Option ℕ} {source : WordSource} {reply : Reply} {outcome : Outcome}

theorem solves_of_allLinear (hs : s.field = F) (hkey : s.key.field = F)
    (hlinear : layout.allLinear = true) (h : s.run op layout probe target source = .ok reply)
    (hresult : reply.result = .ok outcome) :
    outcome.parametrization.Solves F layout ∧ ∃ e, Elimination.ofEquations F layout = .ok e ∧
      outcome.parametrization.eliminant = e.eliminant := by
  obtain ⟨-, record, sequence, e, key, first, key', source', -, -, he, hcoordinates, hsubstitute,
    -⟩ := run_eq_ok_of_outcome h hresult
  rcases ofSequence_cases hkey he with ⟨-, he', -⟩ | ⟨hfalse, -, -⟩
  swap
  · rw [hlinear] at hfalse
    contradiction
  obtain ⟨hshape, hfield, hne⟩ := Elimination.ofEquations_spec he'
  have hnil := layout.tracked_eq_nil_of_allLinear hlinear
  have hfirst : first.parametrization = s.startOf layout e := by
    rcases coordinates_eq_ok hcoordinates with ⟨-, -, -, hok⟩ | ⟨-, -, hok⟩ |
      ⟨-, inverse, p, -, hfill, hok⟩ | ⟨hshape', -⟩
    · rw [Except.ok.inj hok]
      rfl
    · contradiction
    · rw [hnil] at hfill
      rw [Except.ok.inj hok]
      exact (Except.ok.inj hfill).symm
    · rw [hshape] at hshape'
      contradiction
  rw [hfirst] at hsubstitute
  obtain ⟨hsolves, helim, -⟩ := solves_of_substituteLinear hs (.refl _) (over_startOf hs hfield)
    hne hsubstitute
  exact ⟨hsolves, e, he', helim⟩

/-! ## Two runs -/

section Runs
variable {M : MultiplicationMatrix} {s' : Session} {probe' : Array UInt32} {target' : Option ℕ}
  {source' : WordSource} {reply' : Reply} {outcome' : Outcome} (hs : s.Reachable)
  (hs' : s'.Reachable) (hF : s.field = F) (hF' : s'.field = F)
  (h : s.run M layout probe target source = .ok reply) (hresult : reply.result = .ok outcome)
  (h' : s'.run M layout probe' target' source' = .ok reply')
  (hresult' : reply'.result = .ok outcome')
  (hshape : outcome.verdict = .shapePosition)
include hs hs' hF hF' h hresult h' hresult' hshape

/-- Every run finds the remainders of what a run in shape position finds. -/
theorem coordinate_eq_mod_of_shapePosition :
    outcome.parametrization.Solves F layout ∧ outcome'.parametrization.Solves F layout ∧
      outcome'.parametrization.eliminant.toPolynomial F ∣
        outcome.parametrization.eliminant.toPolynomial F ∧
      ∀ i < layout.variableCount - 1, outcome'.parametrization.coordinatePolynomial F i =
        outcome.parametrization.coordinatePolynomial F i %
          outcome'.parametrization.eliminant.toPolynomial F := by
  cases hlinear : layout.allLinear with
  | true =>
    obtain ⟨hsolves, e, he, helim⟩ :=
      solves_of_allLinear hF (hs.field_key.trans hF) hlinear h hresult
    obtain ⟨hsolves', e', he', helim'⟩ :=
      solves_of_allLinear hF' (hs'.field_key.trans hF') hlinear h' hresult'
    obtain rfl := Except.ok.inj (he.symm.trans he')
    have hdvd : outcome'.parametrization.eliminant.toPolynomial F ∣
        outcome.parametrization.eliminant.toPolynomial F := by rw [helim, helim']
    refine ⟨hsolves, hsolves', hdvd, fun i hi => hsolves.coordinate_eq_mod hsolves' hdvd ?_ hi⟩
    rw [layout.tracked_eq_nil_of_allLinear hlinear]
    intro x hx
    exact absurd hx List.not_mem_nil
  | false =>
    obtain ⟨hsolves, -, P, hdescribes⟩ := hs.describes hF hlinear h hresult
    obtain ⟨hsolves', -, P', hdescribes'⟩ := hs'.describes hF' hlinear h' hresult'
    have hdvd : outcome'.parametrization.eliminant.toPolynomial F ∣
        outcome.parametrization.eliminant.toPolynomial F := by
      rw [hdescribes.eliminant_eq_charpoly hshape]
      apply hdescribes'.eliminant_dvd
      rw [aeval_self_charpoly, vecMul_zero]
    refine ⟨hsolves, hsolves', hdvd, fun i hi => hsolves.coordinate_eq_mod hsolves' hdvd ?_ hi⟩
    intro x hx
    exact hdescribes'.coordinate_eq_mod hx (hdescribes.unitVector_eq hshape hx)

theorem eliminant_eq_of_shapePosition (hshape' : outcome'.verdict = .shapePosition) :
    outcome'.parametrization.eliminant.toPolynomial F =
      outcome.parametrization.eliminant.toPolynomial F := by
  cases hlinear : layout.allLinear with
  | true =>
    obtain ⟨-, e, he, helim⟩ := solves_of_allLinear hF (hs.field_key.trans hF) hlinear h hresult
    obtain ⟨-, e', he', helim'⟩ :=
      solves_of_allLinear hF' (hs'.field_key.trans hF') hlinear h' hresult'
    obtain rfl := Except.ok.inj (he.symm.trans he')
    rw [helim, helim']
  | false =>
    obtain ⟨-, -, P, hdescribes⟩ := hs.describes hF hlinear h hresult
    obtain ⟨-, -, P', hdescribes'⟩ := hs'.describes hF' hlinear h' hresult'
    rw [hdescribes.eliminant_eq_charpoly hshape, hdescribes'.eliminant_eq_charpoly hshape']

end Runs

/-- A reply to a call that solves the system, from a random or from a given probe. -/
inductive Replies (s : Session) (op : α) (layout : VariableLayout) : Reply → Prop
  | solve {source : WordSource} {reply : Reply} :
      s.solve op layout source = .ok reply → Replies s op layout reply
  | solveFrom {probe : Array UInt32} {source : WordSource} {reply : Reply} :
      s.solveFrom op layout probe source = .ok reply → Replies s op layout reply

theorem Replies.exists_run (h : s.Replies op layout reply) :
    ∃ probe source, s.run op layout probe none source = .ok reply := by
  cases h with
  | solve h => exact ⟨_, _, h⟩
  | solveFrom h => exact ⟨_, _, h⟩

/-- Of two replies on the same system, whatever the sessions, the probes and the random words, the
second has the remainders of the first when that is in shape position; when both are, they have the
same parametrization. -/
theorem Replies.remainder_of_shapePosition {s' : Session} (hs : s.Reachable) (hs' : s'.Reachable)
    (hfield : s'.field = s.field) {M : MultiplicationMatrix} {reply' : Reply}
    (h : s.Replies M layout reply) (h' : s'.Replies M layout reply') {outcome' : Outcome}
    (hresult : reply.result = .ok outcome) (hresult' : reply'.result = .ok outcome')
    (hshape : outcome.verdict = .shapePosition) :
    outcome'.parametrization.eliminant.toPolynomial s.field ∣
      outcome.parametrization.eliminant.toPolynomial s.field ∧
    (∀ i < layout.variableCount - 1, ∃ a b, outcome.parametrization.coordinate i = .ok a ∧
      outcome'.parametrization.coordinate i = .ok b ∧
      a.mod? outcome'.parametrization.eliminant = .ok b) ∧
    (outcome'.verdict = .shapePosition → outcome'.parametrization = outcome.parametrization) := by
  obtain ⟨probe, source, h⟩ := h.exists_run
  obtain ⟨probe', source', h'⟩ := h'.exists_run
  obtain ⟨hsolves, hsolves', hdvd, hmod⟩ :=
    coordinate_eq_mod_of_shapePosition hs hs' rfl hfield h hresult h' hresult' hshape
  refine ⟨hdvd, ?_, ?_⟩
  · intro i hi
    obtain ⟨a, ha, hafield, havalue⟩ := hsolves.exists_coordinate hi
    obtain ⟨b, hb, hbfield, hbvalue⟩ := hsolves'.exists_coordinate hi
    refine ⟨a, b, entryAt_eq_ok_iff.mpr ha, entryAt_eq_ok_iff.mpr hb, ?_⟩
    have helim' := hsolves'.isOver.field_eliminant
    rw [Poly.mod?_eq_ok a helim' hsolves'.eliminant_ne_zero, Except.ok.injEq,
      ← Poly.toPolynomial_inj ((Poly.field_mod _ _).trans hafield) hbfield,
      Poly.toPolynomial_mod hafield helim', ← havalue, ← hbvalue, hmod i hi]
  · intro hshape'
    have helim :=
      eliminant_eq_of_shapePosition hs hs' rfl hfield h hresult h' hresult' hshape hshape'
    obtain ⟨-, -, -, hself⟩ :=
      coordinate_eq_mod_of_shapePosition hs hs rfl rfl h hresult h hresult hshape
    refine hsolves.ext hsolves' helim ?_
    intro i hi
    rw [hmod i hi, helim, ← hself i hi]

/-- Three points with `x_1 = t ^ 2` and an equation for `x_0`, from a probe that sees all of them
and from one that sees `t = 1` only. -/
theorem Replies.remainder_of_shapePosition_onePoint :
    ∃ (s : Session) (M : MultiplicationMatrix) (layout : VariableLayout) (reply reply' : Reply)
      (outcome outcome' : Outcome), open? 7 {} = .ok s ∧
      M.parts = ⟨3, #[6, 3, 6], #[0, 1], #[1, 2], #[2]⟩ ∧
      layout.parts = ⟨3, 1, #[true, false], #[1, 2, 3, 4], #[none, none]⟩ ∧
      s.solveFrom M layout #[1, 0, 3] (.ofSeed 42) = .ok reply ∧
      s.solve M layout (.listed [613566757, 613566757, 613566757]) = .ok reply' ∧
      reply.result = .ok outcome ∧ reply'.result = .ok outcome' ∧
      outcome.verdict = .shapePosition ∧ outcome'.verdict ≠ .shapePosition ∧
      outcome'.parametrization.eliminant.toPolynomial s.field ∣
        outcome.parametrization.eliminant.toPolynomial s.field ∧
      ∃ a b, outcome.parametrization.coordinate 0 = .ok a ∧
        outcome'.parametrization.coordinate 0 = .ok b ∧
        a.mod? outcome'.parametrization.eliminant = .ok b := by
  let F : PrimeField := ⟨7, by decide +kernel, by decide⟩
  let M : MultiplicationMatrix := ⟨⟨3, #[6, 3, 6], #[0, 1], #[1, 2], #[2]⟩, by decide +kernel, 64⟩
  let layout : VariableLayout :=
    ⟨⟨3, 1, #[true, false], #[1, 2, 3, 4], #[none, none]⟩, by decide +kernel⟩
  have hopen : open? 7 {} = .ok ⟨F, {}, .empty, .empty F, none⟩ := by decide +kernel
  have hrun : ((⟨F, {}, .empty, .empty F, none⟩ : Session).solveFrom M layout #[1, 0, 3]
      (.ofSeed 42)).map Reply.result = .ok (.ok ⟨⟨F, 3, .ofCoeffs F #[1, 4, 1, 1], .one F,
        #[.ofCoeffs F #[4, 3, 5], .ofCoeffs F #[0, 0, 1]], rfl⟩, .shapePosition⟩) := by
    decide +kernel
  have hrun' : ((⟨F, {}, .empty, .empty F, none⟩ : Session).solve M layout
      (.listed [613566757, 613566757, 613566757])).map Reply.result = .ok (.ok ⟨⟨F, 3,
        .ofCoeffs F #[6, 1], .one F, #[.ofCoeffs F #[5], .ofCoeffs F #[1]], rfl⟩, .verified⟩) := by
    decide +kernel
  obtain ⟨reply, hreply, hresult⟩ := map_eq_ok.mp hrun
  obtain ⟨reply', hreply', hresult'⟩ := map_eq_ok.mp hrun'
  obtain ⟨hdvd, hcoord, -⟩ := remainder_of_shapePosition (.opened hopen) (.opened hopen) rfl
    (.solveFrom hreply) (.solve hreply') hresult hresult' rfl
  exact ⟨_, M, layout, reply, reply', _, _, hopen, rfl, rfl, hreply, hreply', hresult, hresult',
    rfl, by decide, hdvd, hcoord 0 (by decide)⟩

end Session

end ZeroDim
