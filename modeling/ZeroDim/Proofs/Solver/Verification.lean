import Mathlib
import ZeroDim.Proofs.Solver.LearnedDegree
import ZeroDim.Proofs.Solver.ProbeScaling

/-! # Checks and verdicts

A check reads the coordinates and never writes them.  Two runs from the same random words that
differ in whether they check, or in the squares they check with, have the same error or the same
parametrization: each one is compared with the run that does not check, and those two are runs from
proportional probes.

A check goes through the tracked variables by decreasing index and skips those without a square.  It
ends at the first that fails, and the index of that variable is what the verdict tells. -/

set_option autoImplicit false

namespace ZeroDim

open Polynomial PrimeField Matrix

/-! ## The scan of the coordinates -/

inductive PassesAll (check : TrackedVariable → WordSource → Checked (Bool × WordSource)) :
    List TrackedVariable → WordSource → WordSource → Prop
  | nil (source : WordSource) : PassesAll check [] source source
  | skip {x : TrackedVariable} {xs : List TrackedVariable} {source source' : WordSource} :
      x.squareIndex = none → PassesAll check xs source source' →
      PassesAll check (x :: xs) source source'
  | pass {x : TrackedVariable} {xs : List TrackedVariable} {source source₁ source' : WordSource} :
      x.squareIndex ≠ none → check x source = .ok (true, source₁) →
      PassesAll check xs source₁ source' → PassesAll check (x :: xs) source source'

/-- A check fails at a variable with a square, when all those listed before it have passed. -/
structure FailsFirstAt (check : TrackedVariable → WordSource → Checked (Bool × WordSource))
    (xs : List TrackedVariable) (source source' : WordSource) (x : TrackedVariable) : Prop where
  square : x.squareIndex ≠ none
  split : ∃ earlier later source₁, xs = earlier ++ x :: later ∧
    PassesAll check earlier source source₁ ∧ check x source₁ = .ok (false, source')

section Scan
variable {record : KrylovRecord} {minimal : Poly} {p p' : Parametrization}
  {tracked : List TrackedVariable} {source source' : WordSource} {verdict : Verdict}

theorem scanCoordinates_eq_verified_iff :
    scanCoordinates record minimal p tracked source = .ok (.verified, source') ↔
      PassesAll (checkCoordinate record minimal p) tracked source source' := by
  induction tracked generalizing source with
  | nil =>
    constructor
    · intro h
      obtain ⟨-, rfl⟩ := Prod.mk.inj (Except.ok.inj h)
      exact .nil source
    · rintro ⟨⟩
      rfl
  | cons x tracked ih =>
    rw [scanCoordinates_cons_eq_ok]
    constructor
    · rintro (⟨hx, h⟩ | ⟨hx, source₁, hcheck, h⟩ | ⟨-, -, hfailed⟩)
      · exact .skip hx (ih.mp h)
      · exact .pass hx hcheck (ih.mp h)
      · contradiction
    · intro h
      cases h with
      | skip hx h => exact .inl ⟨hx, ih.mpr h⟩
      | pass hx hcheck h => exact .inr (.inl ⟨hx, _, hcheck, ih.mpr h⟩)

theorem FailsFirstAt.mem {check : TrackedVariable → WordSource → Checked (Bool × WordSource)}
    {x : TrackedVariable} (h : FailsFirstAt check tracked source source' x) : x ∈ tracked := by
  obtain ⟨earlier, later, source₁, rfl, -⟩ := h.split
  exact List.mem_append_right _ List.mem_cons_self

theorem failsFirstAt_of_scanCoordinates
    (h : scanCoordinates record minimal p tracked source = .ok (verdict, source'))
    (hne : verdict ≠ .verified) :
    ∃ x, FailsFirstAt (checkCoordinate record minimal p) tracked source source' x ∧
      verdict = .failed (p.variableCount - 2 - x.index) (p.variableCount - 1) := by
  induction tracked generalizing source with
  | nil => exact absurd (Prod.mk.inj (Except.ok.inj h)).1.symm hne
  | cons x tracked ih =>
    rcases scanCoordinates_cons_eq_ok.mp h with ⟨hx, h⟩ | ⟨hx, source₁, hcheck, h⟩ |
      ⟨hx, hcheck, hverdict⟩
    · obtain ⟨y, ⟨hy, earlier, later, source₂, rfl, hpass, hfail⟩, hverdict⟩ := ih h
      exact ⟨y, ⟨hy, x :: earlier, later, source₂, rfl, .skip hx hpass, hfail⟩, hverdict⟩
    · obtain ⟨y, ⟨hy, earlier, later, source₂, rfl, hpass, hfail⟩, hverdict⟩ := ih h
      exact ⟨y, ⟨hy, x :: earlier, later, source₂, rfl, .pass hx hcheck hpass, hfail⟩, hverdict⟩
    · exact ⟨x, ⟨hx, [], tracked, source, rfl, .nil source, hcheck⟩, hverdict⟩

/-- A check depends on the eliminant and on the coordinates of its variables only. -/
theorem scanCoordinates_congr (hframe : p'.SameFrame p)
    (hcoord : ∀ x ∈ tracked, p'.coordinates[x.index]? = p.coordinates[x.index]?) :
    scanCoordinates record minimal p' tracked source =
      scanCoordinates record minimal p tracked source := by
  induction tracked generalizing source with
  | nil => rfl
  | cons x tracked ih =>
    have ih : ∀ source, scanCoordinates record minimal p' tracked source =
        scanCoordinates record minimal p tracked source := by
      intro source
      exact ih fun y hy => hcoord y (List.mem_cons_of_mem x hy)
    have hcheck : checkCoordinate record minimal p' x = checkCoordinate record minimal p x := by
      funext source
      rw [checkCoordinate, checkCoordinate, Parametrization.coordinate,
        Parametrization.coordinate, entryAt, entryAt, hcoord x List.mem_cons_self,
        hframe.eliminant_eq]
    by_cases hx : x.squareIndex = none
    · rw [scanCoordinates_cons_of_none hx, scanCoordinates_cons_of_none hx, ih]
    · rw [scanCoordinates_cons_of_ne_none hx, scanCoordinates_cons_of_ne_none hx, hcheck,
        hframe.variableCount_eq]
      simp only [ih]

end Scan

/-- The check of a coordinate of an outcome, with the record and the recurrence that the reply
leaves. -/
def Reply.check (reply : Reply) (outcome : Outcome) :
    TrackedVariable → WordSource → Checked (Bool × WordSource) :=
  checkCoordinate reply.session.record reply.session.key.minimalPolynomial outcome.parametrization

namespace Session

section Verdict
variable {α : Type} [LinearOperator α] {op : α} {s : Session} {layout : VariableLayout}
  {probe : Array UInt32} {target : Option ℕ} {source : WordSource} {reply : Reply}
  {outcome : Outcome}

theorem variableCount_of_run (h : s.run op layout probe target source = .ok reply)
    (hresult : reply.result = .ok outcome) :
    outcome.parametrization.variableCount = layout.variableCount := by
  obtain ⟨-, record, sequence, e, key, first, key', source', -, -, -, hcoordinates, hsubstitute,
    -⟩ := run_eq_ok_of_outcome h hresult
  exact (sameFrame_of_substituteLinear hcoordinates hsubstitute).variableCount_eq

/-- Outside of shape position, the verdict of a run that checks is that of a scan of its outcome. -/
theorem scanCoordinates_of_run (h : s.run op layout probe target source = .ok reply)
    (hresult : reply.result = .ok outcome) (hshape : outcome.verdict ≠ .shapePosition)
    (hverify : (s.config.verify && target.isNone) = true) :
    scanCoordinates reply.session.record reply.session.key.minimalPolynomial
        outcome.parametrization layout.tracked source = .ok (outcome.verdict, reply.source) := by
  obtain ⟨-, record, sequence, e, key, first, key', source', -, -, he, hcoordinates, hsubstitute,
    hverdict, -, hsession, hsource⟩ := run_eq_ok_of_outcome h hresult
  rw [hverify] at hcoordinates
  rw [hverdict] at hshape
  obtain ⟨hframe, hother⟩ := Parametrization.substituteLinear_frame hsubstitute
  rw [hsession, hsource, hverdict, scanCoordinates_congr hframe fun x hx =>
    hother _ (layout.index_tracked_notMem hx)]
  rcases coordinates_eq_ok hcoordinates with ⟨-, -, -, hok⟩ | ⟨-, -, hok⟩ | ⟨-, _, _, -, -, hok⟩ |
    ⟨hnot, hkey, hfill⟩
  · obtain rfl := Except.ok.inj hok
    contradiction
  · contradiction
  · obtain rfl := Except.ok.inj hok
    contradiction
  have hminimal : e.minimal = key.minimalPolynomial := by
    rcases ofSequence_cases rfl he with ⟨-, hequations, -⟩ | ⟨-, -, rfl⟩
    · simp [(Elimination.ofEquations_spec hequations).1] at hnot
    · exact Elimination.minimal_ofMinimal _ _
  rcases fillFromQuotients_cases hfill with ⟨hok, -⟩ | ⟨_, _, p, -, -, -, hcase⟩
  · contradiction
  rcases hcase with ⟨hfalse, -⟩ | ⟨-, verdict, hok, hscan⟩
  · contradiction
  · obtain rfl := Except.ok.inj hok
    rw [hkey, ← hminimal]
    exact hscan

/-- The verdict tells whether all variables with a square pass, and otherwise which one fails
first. -/
theorem verdict_of_run (h : s.run op layout probe target source = .ok reply)
    (hresult : reply.result = .ok outcome) (hshape : outcome.verdict ≠ .shapePosition)
    (hverify : (s.config.verify && target.isNone) = true) :
    (outcome.verdict = .verified ↔ ∃ rest, PassesAll (reply.check outcome) layout.tracked source
      rest) ∧
    (outcome.verdict ≠ .verified →
      ∃ x, FailsFirstAt (reply.check outcome) layout.tracked source reply.source x ∧
        x.index + 2 ≤ layout.variableCount ∧ outcome.verdict =
          .failed (layout.variableCount - 2 - x.index) (layout.variableCount - 1)) := by
  have hscan := scanCoordinates_of_run h hresult hshape hverify
  refine ⟨⟨?_, ?_⟩, ?_⟩
  · intro hverified
    rw [hverified] at hscan
    exact ⟨_, scanCoordinates_eq_verified_iff.mp hscan⟩
  · rintro ⟨rest, hpasses⟩
    have hverified := scanCoordinates_eq_verified_iff.mpr hpasses
    exact (Prod.mk.inj (Except.ok.inj (hscan.symm.trans hverified))).1
  · intro hne
    obtain ⟨x, hfails, hverdict⟩ := failsFirstAt_of_scanCoordinates hscan hne
    rw [variableCount_of_run h hresult] at hverdict
    have hindex := layout.index_tracked_lt hfails.mem
    exact ⟨x, hfails, by omega, hverdict⟩

theorem exists_index_of_failed (h : s.run op layout probe target source = .ok reply)
    (hresult : reply.result = .ok outcome) {verified total : ℕ}
    (hfailed : outcome.verdict = .failed verified total) :
    ∃ i, i + 2 ≤ layout.variableCount ∧ verified = layout.variableCount - 2 - i := by
  have hverify : (s.config.verify && target.isNone) = true := by
    obtain ⟨-, _, _, _, _, first, _, _, -, -, -, hcoordinates, -, hverdict, -⟩ :=
      run_eq_ok_of_outcome h hresult
    by_contra hfalse
    rw [Bool.eq_false_iff.mpr hfalse] at hcoordinates
    rcases verdict_of_coordinates hcoordinates with hfirst | hfirst <;>
      simp [hfirst, hfailed] at hverdict
  obtain ⟨x, -, hindex, hverdict⟩ :=
    (verdict_of_run h hresult (by simp [hfailed]) hverify).2 (by simp [hfailed])
  rw [hfailed] at hverdict
  exact ⟨x.index, hindex, (Verdict.failed.inj hverdict).1⟩

theorem status_of_run (h : s.run op layout probe target source = .ok reply)
    (hresult : reply.result = .ok outcome) :
    (outcome.status = layout.variableCount ↔ ∃ p, outcome.trusted = .ok p) ∧
      ((∀ p, outcome.trusted ≠ .ok p) →
        1 ≤ outcome.status ∧ outcome.status ≤ layout.variableCount - 1) := by
  have hcount := variableCount_of_run h hresult
  cases hverdict : outcome.verdict with
  | failed verified total =>
    obtain ⟨i, hi, rfl⟩ := exists_index_of_failed h hresult hverdict
    have hstatus : outcome.status = layout.variableCount - 2 - i + 1 := by
      simp [Outcome.status, hverdict]
    have htrusted : ∀ p, outcome.trusted ≠ .ok p := by
      simp [Outcome.trusted, hverdict]
    rw [hstatus]
    exact ⟨iff_of_false (by omega) (by simpa using htrusted), fun _ => by omega⟩
  | _ => simp [Outcome.status, Outcome.trusted, hverdict, hcount]

end Verdict

/-! ## Runs with and without a check -/

/-- The same error, or the same parametrization and shape position for both or for none. -/
inductive SameSolution : Except SolverError Outcome → Except SolverError Outcome → Prop
  | error (error : SolverError) : SameSolution (.error error) (.error error)
  | ok {outcome outcome' : Outcome} : outcome'.parametrization = outcome.parametrization →
      (outcome'.verdict = .shapePosition ↔ outcome.verdict = .shapePosition) →
      SameSolution (.ok outcome) (.ok outcome')

namespace SameSolution

theorem refl (result : Except SolverError Outcome) : SameSolution result result := by
  cases result with
  | error e => exact .error e
  | ok outcome => exact .ok rfl .rfl

variable {result result' result'' : Except SolverError Outcome}

theorem symm (h : SameSolution result result') : SameSolution result' result := by
  cases h with
  | error error => exact .error error
  | ok hp hshape => exact .ok hp.symm hshape.symm

theorem trans (h : SameSolution result result') (h' : SameSolution result' result'') :
    SameSolution result result'' := by
  cases h with
  | error error => exact h'
  | ok hp hshape =>
    cases h' with
    | ok hp' hshape' => exact .ok (hp'.trans hp) (hshape'.trans hshape)

theorem finished {layout layout' : VariableLayout} (hlayout : layout.SameButSquares layout')
    {first first' : Except SolverError Outcome} (h : SameSolution first first')
    (hfirst : Finished layout first result) (hfirst' : Finished layout' first' result') :
    SameSolution result result' := by
  cases h with
  | error error =>
    cases hfirst
    cases hfirst'
    exact .error error
  | ok hp hshape =>
    cases hfirst with
    | ok hq =>
      cases hfirst' with
      | ok hq' =>
        rw [Parametrization.substituteLinear_of_sameButSquares hlayout, hp] at hq'
        exact .ok (Except.ok.inj (hq'.symm.trans hq)) hshape

end SameSolution

theorem fillFromQuotients_unchecked {record : KrylovRecord} {minimal : Poly}
    {tracked : List TrackedVariable} {verify : Bool} {p : Parametrization}
    {source source' : WordSource} {result : Except SolverError Outcome}
    (h : fillFromQuotients record minimal tracked verify p source = .ok (result, source')) :
    ∃ result₀, fillFromQuotients record minimal tracked false p source = .ok (result₀, source) ∧
      SameSolution result₀ result := by
  rw [fillFromQuotients] at h ⊢
  dsimp only at h ⊢
  split at h
  · rename_i hzero
    obtain ⟨rfl, -⟩ := Prod.mk.inj (Except.ok.inj h)
    exact ⟨_, if_pos hzero, .error _⟩
  · rename_i hzero
    obtain ⟨sequence, hsequence, h⟩ := bind_eq_ok.mp h
    obtain ⟨inverse?, hinverse, h⟩ := bind_eq_ok.mp h
    rw [if_neg hzero, hsequence, ok_bind, hinverse, ok_bind]
    cases inverse? with
    | none =>
      obtain ⟨rfl, -⟩ := Prod.mk.inj (Except.ok.inj h)
      exact ⟨_, rfl, .error _⟩
    | some inverse =>
      obtain ⟨p', hp', h⟩ := bind_eq_ok.mp h
      dsimp only
      rw [hp', ok_bind]
      refine ⟨_, rfl, ?_⟩
      cases verify with
      | false =>
        obtain ⟨rfl, -⟩ := Prod.mk.inj (Except.ok.inj h)
        exact .refl _
      | true =>
        obtain ⟨⟨verdict, source₁⟩, hscan, h⟩ := bind_eq_ok.mp h
        obtain ⟨rfl, -⟩ := Prod.mk.inj (Except.ok.inj h)
        exact .ok rfl (iff_of_false (scanCoordinates_ne_shapePosition tracked hscan)
          fun heq => Verdict.noConfusion heq)

theorem coordinates_unchecked {s : Session} {layout : VariableLayout} {sequence : Array UInt32}
    {e : Elimination} {verify : Bool} {source source' : WordSource}
    {result : Except SolverError Outcome} {key : KeyEquation}
    (h : s.coordinates layout sequence e verify source = .ok (result, key, source')) :
    ∃ result₀ source₀, s.coordinates layout sequence e false source =
      .ok (result₀, key, source₀) ∧ SameSolution result₀ result := by
  cases hshape : e.shapePosition with
  | true =>
    refine ⟨result, source', ?_, .refl result⟩
    rw [coordinates, if_pos hshape] at h ⊢
    exact h
  | false =>
    rw [coordinates, if_neg (Bool.eq_false_iff.mp hshape)] at h ⊢
    obtain ⟨⟨result₁, source₁⟩, hfill, h⟩ := bind_eq_ok.mp h
    obtain ⟨rfl, hrest⟩ := Prod.mk.inj (Except.ok.inj h)
    obtain ⟨rfl, -⟩ := Prod.mk.inj hrest
    obtain ⟨result₀, hfill₀, hsame⟩ := fillFromQuotients_unchecked hfill
    refine ⟨result₀, source, ?_, hsame⟩
    dsimp only
    rw [hfill₀]
    rfl

section Run
variable {s s' : Session} {M : MultiplicationMatrix} {layout layout' : VariableLayout}
  {probe : Array UInt32} {source : WordSource} {reply reply' : Reply}

theorem run_sameSolution (hs : s.key.field = s.field) (hs' : s'.key.field = s'.field)
    (hfield : s'.field = s.field) (hlayout : layout.SameButSquares layout')
    (hdimension : layout.checkDimension M.dimension = .ok ())
    (hdimension' : layout'.checkDimension M.dimension = .ok ())
    (h : s.run M layout probe none source = .ok reply)
    (h' : s'.run M layout' probe none source = .ok reply') :
    SameSolution reply.result reply'.result := by
  have hsame : checkInput s'.field M layout' probe = checkInput s.field M layout probe := by
    rw [checkInput, checkInput, hfield]
    dsimp only [LinearOperator.dimension]
    rw [hdimension, hdimension']
  cases hcheck : checkInput s.field M layout probe with
  | error error =>
    rw [run, hcheck] at h
    rw [run, hsame, hcheck] at h'
    obtain rfl := Except.ok.inj h
    obtain rfl := Except.ok.inj h'
    exact .error error
  | ok =>
    have hprobe : s.field.vector M.dimension probe =
        (1 : s.field.Element) • s.field.vector M.dimension probe := (one_smul _ _).symm
    obtain ⟨t, t', sequence, sequence', e, result, result', key, key', hcoordinates, hcoordinates',
      hfinished, hfinished', hequal⟩ := stages_proportional hs hs' hfield one_ne_zero hprobe hlayout
        hcheck (hsame.trans hcheck) h h'
    obtain ⟨result₀, source₀, hunchecked, hresult⟩ := coordinates_unchecked hcoordinates
    obtain ⟨result₀', source₀', hunchecked', hresult'⟩ := coordinates_unchecked hcoordinates'
    obtain ⟨rfl, -⟩ := hequal false (fun hverify => by contradiction) _ _ _ _ _ _ hunchecked
      hunchecked'
    exact (hresult.symm.trans hresult').finished hlayout hfinished hfinished'

/-- A check never changes the answer.  Calls from the same random words that differ in the check and
its squares have the same error or the same parametrization.  Outside of shape position, a check
goes through the tracked variables by decreasing index, and its verdict tells whether all those with
a square pass, or the first that fails.  An outcome is trusted when its status is the number of
variables, and has a lower status, one at least, otherwise. -/
theorem Reachable.check_decides_verdict_only (hs : s.Reachable) (M : MultiplicationMatrix)
    (layout : VariableLayout) :
    (∀ (s' : Session) (layout' : VariableLayout) (source : WordSource), s'.Reachable →
      s'.field = s.field → layout.SameButSquares layout' →
      layout.checkDimension M.dimension = .ok () → layout'.checkDimension M.dimension = .ok () →
      ∃ reply reply', s.solve M layout source = .ok reply ∧
        s'.solve M layout' source = .ok reply' ∧ SameSolution reply.result reply'.result) ∧
    (layout.tracked.map TrackedVariable.index).Pairwise (· > ·) ∧
    (∀ (probe : Array UInt32) (source : WordSource) (reply : Reply) (outcome : Outcome),
      s.config.verify = true → s.run M layout probe none source = .ok reply →
      reply.result = .ok outcome → outcome.verdict ≠ .shapePosition →
      (outcome.verdict = .verified ↔
        ∃ rest, PassesAll (reply.check outcome) layout.tracked source rest) ∧
      (outcome.verdict ≠ .verified →
        ∃ x, FailsFirstAt (reply.check outcome) layout.tracked source reply.source x ∧
          x.index + 2 ≤ layout.variableCount ∧ outcome.verdict =
            .failed (layout.variableCount - 2 - x.index) (layout.variableCount - 1))) ∧
    ∀ (reply : Reply) (outcome : Outcome), s.Answers M layout reply → reply.result = .ok outcome →
      (outcome.status = layout.variableCount ↔ ∃ p, outcome.trusted = .ok p) ∧
      ((∀ p, outcome.trusted ≠ .ok p) →
        1 ≤ outcome.status ∧ outcome.status ≤ layout.variableCount - 1) := by
  refine ⟨?_, layout.pairwise_index_tracked, ?_, ?_⟩
  · intro s' layout' source hs' hfield hlayout hdimension hdimension'
    obtain ⟨reply, hreply⟩ := solve_total hs.field_key M layout source
    obtain ⟨reply', hreply'⟩ := solve_total hs'.field_key M layout' source
    refine ⟨reply, reply', hreply, hreply', ?_⟩
    have hprobe : s'.randomProbe M source = s.randomProbe M source := by
      rw [randomProbe, hfield, randomProbe]
    rw [solve, hprobe] at hreply'
    exact run_sameSolution hs.field_key hs'.field_key hfield hlayout hdimension hdimension' hreply
      hreply'
  · intro probe source reply outcome hverify hrun hresult hshape
    exact verdict_of_run hrun hresult hshape (by simp [hverify])
  · intro reply outcome hanswer hresult
    obtain ⟨s', probe, target, source, -, hrun⟩ := hanswer.exists_run hs hresult
    exact status_of_run hrun hresult

/-- A double point at `t = 1` with an equation for `x_1` and a wrong square for `x_0 = t ^ 2`.  With
the right square and no check the parametrization is the same; the check fails at `x_0`, below
`x_1`. -/
theorem Reachable.check_decides_verdict_only_doublePoint :
    ∃ (s s' : Session) (M : MultiplicationMatrix) (layout layout' : VariableLayout)
      (reply reply' : Reply) (outcome : Outcome),
      open? 7 {} = .ok s ∧ open? 7 { verify := false } = .ok s' ∧
      M.parts = ⟨3, #[2, 2, 4], #[0, 1], #[1, 2], #[2]⟩ ∧
      layout.parts = ⟨3, 1, #[false, true], #[0, 1, 2, 3], #[some 0, none]⟩ ∧
      layout'.parts = ⟨3, 1, #[false, true], #[0, 1, 2, 3], #[some 1, none]⟩ ∧
      s.solve M layout (.listed [613566757, 0, 1840700270, 1, 2, 3]) = .ok reply ∧
      s'.solve M layout' (.listed [613566757, 0, 1840700270, 1, 2, 3]) = .ok reply' ∧
      SameSolution reply.result reply'.result ∧ reply.result = .ok outcome ∧
      outcome.verdict = .failed 1 2 ∧
      (∃ x, FailsFirstAt (reply.check outcome) layout.tracked (.listed [1, 2, 3]) reply.source x ∧
        x.index = 0) ∧
      outcome.status ≠ 3 ∧ 1 ≤ outcome.status ∧ outcome.status ≤ 2 := by
  let F : PrimeField := ⟨7, by decide +kernel, by decide⟩
  let M : MultiplicationMatrix := ⟨⟨3, #[2, 2, 4], #[0, 1], #[1, 2], #[2]⟩, by decide +kernel, 64⟩
  let layout : VariableLayout :=
    ⟨⟨3, 1, #[false, true], #[0, 1, 2, 3], #[some 0, none]⟩, by decide +kernel⟩
  let layout' : VariableLayout :=
    ⟨⟨3, 1, #[false, true], #[0, 1, 2, 3], #[some 1, none]⟩, by decide +kernel⟩
  let s : Session := ⟨F, {}, .empty, .empty F, none⟩
  let s' : Session := ⟨F, { verify := false }, .empty, .empty F, none⟩
  have hopen : open? 7 {} = .ok s := by decide +kernel
  have hopen' : open? 7 { verify := false } = .ok s' := by decide +kernel
  have hdraw : s.randomProbe M (.listed [613566757, 0, 1840700270, 1, 2, 3]) =
      (#[1, 0, 3], .listed [1, 2, 3]) := by decide +kernel
  have hverdict : (s.solve M layout (.listed [613566757, 0, 1840700270, 1, 2, 3])).map
      (fun r => r.result.map Outcome.verdict) = .ok (.ok (.failed 1 2)) := by decide +kernel
  obtain ⟨hsame, -, hchecked, hstatus⟩ :=
    check_decides_verdict_only (.opened hopen) M layout
  obtain ⟨reply, reply', hreply, hreply', hsolution⟩ := hsame s' layout' _ (.opened hopen') rfl rfl
    (by decide +kernel) (by decide +kernel)
  obtain ⟨reply₁, hreply₁, hfailed⟩ := map_eq_ok.mp hverdict
  obtain rfl := Except.ok.inj (hreply.symm.trans hreply₁)
  cases hresult : reply.result with
  | error error => simp [hresult, Except.map] at hfailed
  | ok outcome =>
    have houtcome : outcome.verdict = .failed 1 2 := by simpa [hresult, Except.map] using hfailed
    have hrun : s.run M layout #[1, 0, 3] none (.listed [1, 2, 3]) = .ok reply := by
      rw [solve, hdraw] at hreply
      exact hreply
    obtain ⟨x, hfails, hindex, hx⟩ := (hchecked _ _ reply outcome rfl hrun hresult
      (by simp [houtcome])).2 (by simp [houtcome])
    obtain ⟨hiff, hlower⟩ := hstatus reply outcome (.solve hreply) hresult
    have htrusted : ∀ p, outcome.trusted ≠ .ok p := by simp [Outcome.trusted, houtcome]
    refine ⟨s, s', M, layout, layout', reply, reply', outcome, hopen, hopen', rfl, rfl, rfl, hreply,
      hreply', hresult ▸ hsolution, hresult, houtcome, ⟨x, hfails, ?_⟩, ?_, hlower htrusted⟩
    · have hcount : layout.variableCount = 3 := rfl
      rw [houtcome, hcount] at hx
      have hverified := (Verdict.failed.inj hx).1
      omega
    · intro hthree
      obtain ⟨p, hp⟩ := hiff.mp hthree
      exact htrusted p hp

end Run

end Session

end ZeroDim
