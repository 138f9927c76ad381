import Mathlib
import ZeroDim.Solver.Session
import ZeroDim.Proofs.Hankel.Solution
import ZeroDim.Proofs.Parametrization.Filling

/-! # The stages of a run

What a run without fault went through, one case for each way it can end.  All that is known about
outcomes is read off these cases, and so is the one thing that calls keep between them: the key
equation of a session is over the field of the session. -/

set_option autoImplicit false

namespace ZeroDim

open PrimeField

variable {F : PrimeField}

/-! ## Coordinates -/

theorem fillFromHankel_eq (record : KrylovRecord) (inverse : HankelInverse)
    (tracked : List TrackedVariable) (p : Parametrization) :
    fillFromHankel record inverse tracked p = Parametrization.fillWith TrackedVariable.index
      (fun p x => record.terms.column x.column (record.dimension + 1) >>= fun stream =>
        inverse.solveStream stream >>= fun a => a.mod? p.eliminant) tracked p := by
  induction tracked generalizing p with
  | nil => rfl
  | cons x tracked ih =>
    rw [fillFromHankel, Parametrization.fillWith]
    simp only [bind_assoc]
    congr 1
    funext stream
    congr 1
    funext a
    congr 1
    funext b
    congr 1
    funext p
    exact ih p

theorem fillFromNumerators_eq (record : KrylovRecord) (minimal inverse : Poly)
    (tracked : List TrackedVariable) (p : Parametrization) :
    fillFromNumerators record minimal inverse tracked p =
      Parametrization.fillWith TrackedVariable.index
        (fun p x => record.terms.column x.column minimal.natDegree >>= fun stream =>
          numeratorQuotient minimal p.eliminant stream inverse) tracked p := by
  induction tracked generalizing p with
  | nil => rfl
  | cons x tracked ih =>
    rw [fillFromNumerators, Parametrization.fillWith]
    simp only [bind_assoc]
    congr 1
    funext stream
    congr 1
    funext a
    congr 1
    funext p
    exact ih p

def checkCoordinate (record : KrylovRecord) (minimal : Poly) (p : Parametrization)
    (x : TrackedVariable) (source : WordSource) : Checked (Bool × WordSource) := do
  let l := minimal.natDegree
  let sequence ← record.terms.column 0 l
  let stream ← record.terms.column x.column l
  let square ← record.squares.column x.column l
  let expected ← p.coordinate x.index
  verifyQuotient minimal p.eliminant sequence stream square expected source

section Scan
variable {record : KrylovRecord} {minimal : Poly} {p : Parametrization} {x : TrackedVariable}
  {tracked : List TrackedVariable} {source source' : WordSource} {verdict : Verdict}

theorem scanCoordinates_cons_of_none (hx : x.squareIndex = none) :
    scanCoordinates record minimal p (x :: tracked) source =
      scanCoordinates record minimal p tracked source := by
  rw [scanCoordinates, hx]

theorem scanCoordinates_cons_of_ne_none (hx : x.squareIndex ≠ none) :
    scanCoordinates record minimal p (x :: tracked) source =
      checkCoordinate record minimal p x source >>= fun checked =>
        if checked.1 then scanCoordinates record minimal p tracked checked.2
        else .ok (.failed (p.variableCount - 2 - x.index) (p.variableCount - 1), checked.2) := by
  obtain ⟨square, hsquare⟩ := Option.ne_none_iff_exists'.mp hx
  rw [scanCoordinates, hsquare, checkCoordinate]
  simp only [bind_assoc]
  rfl

/-- One step of the check: a variable without a square is skipped, one that passes makes way for the
next, and one that fails ends it. -/
theorem scanCoordinates_cons_eq_ok :
    scanCoordinates record minimal p (x :: tracked) source = .ok (verdict, source') ↔
      (x.squareIndex = none ∧
        scanCoordinates record minimal p tracked source = .ok (verdict, source')) ∨
      (x.squareIndex ≠ none ∧ ∃ source₁,
        checkCoordinate record minimal p x source = .ok (true, source₁) ∧
        scanCoordinates record minimal p tracked source₁ = .ok (verdict, source')) ∨
      (x.squareIndex ≠ none ∧ checkCoordinate record minimal p x source = .ok (false, source') ∧
        verdict = .failed (p.variableCount - 2 - x.index) (p.variableCount - 1)) := by
  by_cases hx : x.squareIndex = none
  · simp [scanCoordinates_cons_of_none hx, hx]
  · rw [scanCoordinates_cons_of_ne_none hx, bind_eq_ok]
    constructor
    · rintro ⟨⟨passed, source₁⟩, hcheck, h⟩
      cases passed with
      | true => exact .inr (.inl ⟨hx, source₁, hcheck, h⟩)
      | false =>
        obtain ⟨rfl, rfl⟩ := Prod.mk.inj (Except.ok.inj h)
        exact .inr (.inr ⟨hx, hcheck, rfl⟩)
    · rintro (⟨hnone, -⟩ | ⟨-, source₁, hcheck, h⟩ | ⟨-, hcheck, rfl⟩)
      · exact absurd hnone hx
      · exact ⟨_, hcheck, h⟩
      · exact ⟨_, hcheck, rfl⟩

theorem scanCoordinates_ne_shapePosition (tracked : List TrackedVariable)
    (h : scanCoordinates record minimal p tracked source = .ok (verdict, source')) :
    verdict ≠ .shapePosition := by
  induction tracked generalizing source with
  | nil =>
    rw [← (Prod.mk.inj (Except.ok.inj h)).1]
    exact fun heq => Verdict.noConfusion heq
  | cons x tracked ih =>
    rcases scanCoordinates_cons_eq_ok.mp h with ⟨-, h⟩ | ⟨-, source₁, -, h⟩ | ⟨-, -, rfl⟩
    · exact ih h
    · exact ih h
    · exact fun heq => Verdict.noConfusion heq

end Scan

/-- Outside of shape position there is one error, and the check decides about the verdict only. -/
theorem fillFromQuotients_cases {record : KrylovRecord} {minimal : Poly}
    {tracked : List TrackedVariable} {verify : Bool} {p : Parametrization}
    {source source' : WordSource} {result : Except SolverError Outcome}
    (h : fillFromQuotients record minimal tracked verify p source = .ok (result, source')) :
    (result = .error .singularNumerator ∧ source' = source) ∨
    ∃ sequence inverse p', record.terms.column 0 minimal.natDegree = .ok sequence ∧
      numeratorInverse? minimal p.eliminant sequence = .ok (some inverse) ∧
      fillFromNumerators record minimal inverse tracked p = .ok p' ∧
      ((verify = false ∧ result = .ok ⟨p', .unchecked⟩ ∧ source' = source) ∨
        (verify = true ∧ ∃ verdict, result = .ok ⟨p', verdict⟩ ∧
          scanCoordinates record minimal p' tracked source = .ok (verdict, source'))) := by
  rw [fillFromQuotients] at h
  dsimp only at h
  split at h
  · obtain ⟨hresult, hsource⟩ := Prod.mk.inj (Except.ok.inj h)
    exact .inl ⟨hresult.symm, hsource.symm⟩
  · obtain ⟨sequence, hsequence, h⟩ := bind_eq_ok.mp h
    obtain ⟨inverse?, hinverse, h⟩ := bind_eq_ok.mp h
    cases inverse? with
    | none =>
      obtain ⟨hresult, hsource⟩ := Prod.mk.inj (Except.ok.inj h)
      exact .inl ⟨hresult.symm, hsource.symm⟩
    | some inverse =>
      obtain ⟨p', hp', h⟩ := bind_eq_ok.mp h
      refine .inr ⟨sequence, inverse, p', hsequence, hinverse, hp', ?_⟩
      cases verify with
      | false =>
        obtain ⟨hresult, hsource⟩ := Prod.mk.inj (Except.ok.inj h)
        exact .inl ⟨rfl, hresult.symm, hsource.symm⟩
      | true =>
        obtain ⟨⟨verdict, source₁⟩, hscan, h⟩ := bind_eq_ok.mp h
        obtain ⟨hresult, rfl⟩ := Prod.mk.inj (Except.ok.inj h)
        exact .inr ⟨rfl, verdict, hresult.symm, hscan⟩

theorem fillFromQuotients_eq_ok {record : KrylovRecord} {minimal : Poly}
    {tracked : List TrackedVariable} {verify : Bool} {p : Parametrization}
    {source source' : WordSource} {outcome : Outcome}
    (h : fillFromQuotients record minimal tracked verify p source = .ok (.ok outcome, source')) :
    outcome.verdict ≠ .shapePosition ∧ ∃ sequence inverse,
      record.terms.column 0 minimal.natDegree = .ok sequence ∧
      numeratorInverse? minimal p.eliminant sequence = .ok (some inverse) ∧
      fillFromNumerators record minimal inverse tracked p = .ok outcome.parametrization := by
  rcases fillFromQuotients_cases h with ⟨herror, -⟩ |
    ⟨sequence, inverse, p', hsequence, hinverse, hp', hcase⟩
  · contradiction
  · rcases hcase with ⟨-, hresult, -⟩ | ⟨-, verdict, hresult, hscan⟩
    · obtain rfl := Except.ok.inj hresult
      exact ⟨fun heq => Verdict.noConfusion heq, sequence, inverse, hsequence, hinverse, hp'⟩
    · obtain rfl := Except.ok.inj hresult
      exact ⟨scanCoordinates_ne_shapePosition tracked hscan, sequence, inverse, hsequence,
        hinverse, hp'⟩

namespace Session

def startOf (s : Session) (layout : VariableLayout) (e : Elimination) : Parametrization :=
  (Parametrization.blank s.field layout.variableCount).withEliminant e.eliminant

theorem coordinates_eq_ok {s : Session} {layout : VariableLayout} {sequence : Array UInt32}
    {e : Elimination} {verify : Bool} {source source' : WordSource}
    {result : Except SolverError Outcome} {key : KeyEquation}
    (h : s.coordinates layout sequence e verify source = .ok (result, key, source')) :
    (e.shapePosition = true ∧ layout.tracked = [] ∧ key = s.key ∧
      result = .ok ⟨s.startOf layout e, .shapePosition⟩) ∨
    (e.shapePosition = true ∧ s.key.invertHankel sequence s.record.dimension = .ok (none, key) ∧
      result = .error (.singularHankel s.record.dimension)) ∨
    (e.shapePosition = true ∧ ∃ inverse p,
      s.key.invertHankel sequence s.record.dimension = .ok (some inverse, key) ∧
      fillFromHankel s.record inverse layout.tracked (s.startOf layout e) = .ok p ∧
      result = .ok ⟨p, .shapePosition⟩) ∨
    (e.shapePosition = false ∧ key = s.key ∧
      fillFromQuotients s.record e.minimal layout.tracked verify (s.startOf layout e) source =
        .ok (result, source')) := by
  rw [coordinates] at h
  dsimp only at h
  split at h
  · rename_i hshape
    split at h
    · rename_i hempty
      obtain ⟨hresult, hrest⟩ := Prod.mk.inj (Except.ok.inj h)
      exact .inl ⟨hshape, List.isEmpty_iff.mp hempty, (Prod.mk.inj hrest).1.symm, hresult.symm⟩
    · obtain ⟨⟨inverse?, key₁⟩, hinvert, h⟩ := bind_eq_ok.mp h
      cases inverse? with
      | none =>
        obtain ⟨hresult, hrest⟩ := Prod.mk.inj (Except.ok.inj h)
        obtain rfl := (Prod.mk.inj hrest).1
        exact .inr (.inl ⟨hshape, hinvert, hresult.symm⟩)
      | some inverse =>
        obtain ⟨p, hp, h⟩ := bind_eq_ok.mp h
        obtain ⟨hresult, hrest⟩ := Prod.mk.inj (Except.ok.inj h)
        obtain rfl := (Prod.mk.inj hrest).1
        exact .inr (.inr (.inl ⟨hshape, inverse, p, hinvert, hp, hresult.symm⟩))
  · rename_i hshape
    obtain ⟨⟨result₁, source₁⟩, hfill, h⟩ := bind_eq_ok.mp h
    obtain ⟨hresult, hrest⟩ := Prod.mk.inj (Except.ok.inj h)
    obtain ⟨hkey, hsource⟩ := Prod.mk.inj hrest
    obtain rfl := hresult
    obtain rfl := hsource
    exact .inr (.inr (.inr ⟨Bool.eq_false_iff.mpr hshape, hkey.symm, hfill⟩))

theorem sameFrame_of_coordinates {s : Session} {layout : VariableLayout}
    {sequence : Array UInt32} {e : Elimination} {verify : Bool} {source source' : WordSource}
    {outcome : Outcome} {key : KeyEquation}
    (h : s.coordinates layout sequence e verify source = .ok (.ok outcome, key, source')) :
    outcome.parametrization.SameFrame (s.startOf layout e) := by
  rcases coordinates_eq_ok h with ⟨-, -, -, hok⟩ | ⟨-, -, hok⟩ |
    ⟨-, inverse, p, -, hfill, hok⟩ | ⟨-, -, hfill⟩
  · obtain rfl := Except.ok.inj hok
    exact .refl _
  · contradiction
  · obtain rfl := Except.ok.inj hok
    rw [fillFromHankel_eq] at hfill
    exact (Parametrization.fillWith_frame hfill).1
  · obtain ⟨-, sequence, inverse, -, -, hfill⟩ := fillFromQuotients_eq_ok hfill
    rw [fillFromNumerators_eq] at hfill
    exact (Parametrization.fillWith_frame hfill).1

theorem sameFrame_of_substituteLinear {s : Session} {layout : VariableLayout}
    {sequence : Array UInt32} {e : Elimination} {verify : Bool} {source source' : WordSource}
    {first : Outcome} {key : KeyEquation} {p : Parametrization}
    (h : s.coordinates layout sequence e verify source = .ok (.ok first, key, source'))
    (hp : first.parametrization.substituteLinear layout = .ok p) :
    p.SameFrame (s.startOf layout e) :=
  (Parametrization.substituteLinear_frame hp).1.trans (sameFrame_of_coordinates h)

section Run
variable {α : Type} [LinearOperator α] {op : α} {s : Session} {layout : VariableLayout}
  {probe : Array UInt32} {target : Option ℕ} {source : WordSource} {reply : Reply}

/-- The stages before the coordinates, and the three ways to go on from there: the eliminant misses
the degree that it has to have, or the coordinates fail, or the equations finish the run. -/
theorem runStages_eq_ok (h : s.runStages op layout probe target source = .ok reply) :
    ∃ record sequence e key,
      s.record.generate op s.field layout.tracked probe (s.config.verify && target.isNone) =
        .ok record ∧
      record.sequence = .ok sequence ∧
      Elimination.ofSequence s.key sequence (LinearOperator.dimension op) layout = .ok (e, key) ∧
      ((∃ d, target = some d ∧ e.degree ≠ d ∧
          reply = ⟨.error (.degreeMismatch d e.degree),
            { s with record := record, key := key }, source⟩) ∨
        (∀ d, target = some d → e.degree = d) ∧ ∃ result key' source',
          ({ s with record := record, key := key } : Session).coordinates layout sequence e
            (s.config.verify && target.isNone) source = .ok (result, key', source') ∧
          ((∃ error, result = .error error ∧
              reply = ⟨.error error, { s with record := record, key := key' }, source'⟩) ∨
            ∃ outcome p, result = .ok outcome ∧
              outcome.parametrization.substituteLinear layout = .ok p ∧
              reply = ⟨.ok { outcome with parametrization := p },
                { s with
                  record := record
                  key := key'
                  learnedDegree := if target.isNone then some e.degree else s.learnedDegree },
                source'⟩)) := by
  rw [runStages] at h
  dsimp only at h
  obtain ⟨record, hrecord, h⟩ := bind_eq_ok.mp h
  obtain ⟨sequence, hsequence, h⟩ := bind_eq_ok.mp h
  obtain ⟨⟨e, key⟩, helimination, h⟩ := bind_eq_ok.mp h
  refine ⟨record, sequence, e, key, hrecord, hsequence, helimination, ?_⟩
  dsimp only at h
  split at h
  · rename_i hmisses
    cases target with
    | none => contradiction
    | some d => exact .inl ⟨d, rfl, (bne_iff_ne.mp hmisses).symm, (Except.ok.inj h).symm⟩
  · rename_i hmeets
    refine .inr ⟨?_, ?_⟩
    · rintro d rfl
      by_contra hne
      exact hmeets (bne_iff_ne.mpr (Ne.symm hne))
    obtain ⟨⟨result, key', source'⟩, hcoordinates, h⟩ := bind_eq_ok.mp h
    refine ⟨result, key', source', hcoordinates, ?_⟩
    cases result with
    | error error => exact .inl ⟨error, rfl, (Except.ok.inj h).symm⟩
    | ok outcome =>
      obtain ⟨p, hp, h⟩ := bind_eq_ok.mp h
      exact .inr ⟨outcome, p, rfl, hp, (Except.ok.inj h).symm⟩

theorem checkInput_eq_ok (h : checkInput F op layout probe = .ok ()) :
    LinearOperator.checkField op F = .ok () ∧
      layout.checkDimension (LinearOperator.dimension op) = .ok () ∧
      probe.size = LinearOperator.dimension op := by
  rw [checkInput] at h
  cases hfield : LinearOperator.checkField op F with
  | error error =>
    rw [hfield] at h
    contradiction
  | ok =>
    rw [hfield] at h
    cases hdimension : layout.checkDimension (LinearOperator.dimension op) with
    | error error =>
      rw [hdimension] at h
      contradiction
    | ok =>
      rw [hdimension] at h
      refine ⟨rfl, rfl, ?_⟩
      by_contra hne
      have h : (if probe.size ≠ LinearOperator.dimension op then
        throw (.operator (.lengthMismatch .probe (LinearOperator.dimension op) probe.size))
        else pure PUnit.unit : Except SolverError PUnit) = .ok () := h
      rw [if_pos hne] at h
      contradiction

/-- A run either rejects its input and changes nothing, or goes through all stages. -/
theorem run_eq_ok (h : s.run op layout probe target source = .ok reply) :
    (∃ error, checkInput s.field op layout probe = .error error ∧
      reply = ⟨.error error, s, source⟩) ∨
    (checkInput s.field op layout probe = .ok () ∧
      s.runStages op layout probe target source = .ok reply) := by
  rw [run] at h
  split at h
  · rename_i error herror
    exact .inl ⟨error, herror, (Except.ok.inj h).symm⟩
  · rename_i hok
    exact .inr ⟨hok, h⟩

theorem replay_of_error {p : ℕ} {e : FieldError} (hp : ofModulus p = .error e) :
    s.replay op p layout source = .ok ⟨.error (.field e), s, source⟩ := by
  rw [replay, moveTo?, hp]

theorem replay_of_ok {p : ℕ} (hp : ofModulus p = .ok F) :
    s.replay op p layout source = (s.moveTo F).run op layout
      ((s.moveTo F).randomProbe op source).1 s.learnedDegree
      ((s.moveTo F).randomProbe op source).2 := by
  rw [replay, moveTo?, hp]
  rfl

theorem replay_eq_ok {p : ℕ} (h : s.replay op p layout source = .ok reply) :
    (∃ e, ofModulus p = .error e ∧ reply = ⟨.error (.field e), s, source⟩) ∨
    ∃ F, ofModulus p = .ok F ∧ (s.moveTo F).run op layout
      ((s.moveTo F).randomProbe op source).1 s.learnedDegree
      ((s.moveTo F).randomProbe op source).2 = .ok reply := by
  cases hp : ofModulus p with
  | error e =>
    rw [replay_of_error hp] at h
    exact .inl ⟨e, rfl, (Except.ok.inj h).symm⟩
  | ok F =>
    rw [replay_of_ok hp] at h
    exact .inr ⟨F, rfl, h⟩

/-! ## The field of a session -/

/-- An elimination reads off an equation, or it solves the key equation of the sequence anew. -/
theorem ofSequence_cases {key key' : KeyEquation} (hkey : key.field = F) {sequence : Array UInt32}
    {n : ℕ} {e : Elimination}
    (h : Elimination.ofSequence key sequence n layout = .ok (e, key')) :
    (layout.allLinear = true ∧ Elimination.ofEquations F layout = .ok e ∧ key' = key) ∨
    (layout.allLinear = false ∧ key' = ((KeyEquation.empty F).addPoints sequence).solve ∧
      e = .ofMinimal key'.minimalPolynomial n) := by
  subst hkey
  rw [Elimination.ofSequence] at h
  cases hlinear : layout.allLinear with
  | true =>
    rw [hlinear, if_pos rfl] at h
    obtain ⟨e₁, he₁, h⟩ := bind_eq_ok.mp h
    obtain ⟨rfl, rfl⟩ := Prod.mk.inj (Except.ok.inj h)
    exact .inl ⟨rfl, he₁, rfl⟩
  | false =>
    rw [hlinear, if_neg Bool.false_ne_true] at h
    obtain ⟨rfl, rfl⟩ := Prod.mk.inj (Except.ok.inj h)
    exact .inr ⟨rfl, rfl, rfl⟩

theorem field_ofSequence {key key' : KeyEquation} {sequence : Array UInt32} {n : ℕ}
    {e : Elimination} (h : Elimination.ofSequence key sequence n layout = .ok (e, key')) :
    key'.field = key.field := by
  rcases ofSequence_cases rfl h with ⟨-, -, rfl⟩ | ⟨-, rfl, -⟩
  · rfl
  · exact KeyEquation.field_reduceBelow _ _

theorem field_coordinates {sequence : Array UInt32} {e : Elimination} {verify : Bool}
    {source' : WordSource} {result : Except SolverError Outcome} {key : KeyEquation}
    (h : s.coordinates layout sequence e verify source = .ok (result, key, source')) :
    key.field = s.key.field := by
  rcases coordinates_eq_ok h with ⟨-, -, rfl, -⟩ | ⟨-, hinvert, -⟩ | ⟨-, _, _, hinvert, -⟩ |
    ⟨-, rfl, -⟩
  · rfl
  · exact KeyEquation.field_invertAlong _ hinvert
  · exact KeyEquation.field_invertAlong _ hinvert
  · rfl

theorem field_run (hs : s.key.field = s.field)
    (h : s.run op layout probe target source = .ok reply) :
    reply.session.key.field = reply.session.field := by
  rcases run_eq_ok h with ⟨error, -, rfl⟩ | ⟨-, h⟩
  · exact hs
  · obtain ⟨record, sequence, e, key, -, -, he, hcase⟩ := runStages_eq_ok h
    have hkey := (field_ofSequence he).trans hs
    rcases hcase with ⟨d, -, -, rfl⟩ | ⟨-, result, key', source', hcoordinates, hcase⟩
    · exact hkey
    · have hkey' := (field_coordinates hcoordinates).trans hkey
      rcases hcase with ⟨error, -, rfl⟩ | ⟨outcome, p, -, -, rfl⟩
      · exact hkey'
      · exact hkey'

end Run

/-- The sessions that calls lead to from a new one, whether they succeed or not. -/
inductive Reachable : Session → Prop
  | opened {p : ℕ} {config : Config} {s : Session} : open? p config = .ok s → Reachable s
  | moved {s : Session} (F : PrimeField) : Reachable s → Reachable (s.moveTo F)
  | solved {α : Type} [LinearOperator α] {op : α} {layout : VariableLayout} {source : WordSource}
      {s : Session} {reply : Reply} : Reachable s → s.solve op layout source = .ok reply →
      Reachable reply.session
  | solvedFrom {α : Type} [LinearOperator α] {op : α} {layout : VariableLayout}
      {probe : Array UInt32} {source : WordSource} {s : Session} {reply : Reply} : Reachable s →
      s.solveFrom op layout probe source = .ok reply → Reachable reply.session
  | replayed {α : Type} [LinearOperator α] {op : α} {p : ℕ} {layout : VariableLayout}
      {source : WordSource} {s : Session} {reply : Reply} : Reachable s →
      s.replay op p layout source = .ok reply → Reachable reply.session

theorem Reachable.field_key {s : Session} (h : Reachable s) : s.key.field = s.field := by
  induction h with
  | @opened p config s hopen =>
    unfold open? at hopen
    split at hopen
    · obtain rfl := Except.ok.inj hopen
      rfl
    · contradiction
  | moved F _ _ => rfl
  | solved _ hsolve ih => exact field_run ih hsolve
  | solvedFrom _ hsolve ih => exact field_run ih hsolve
  | replayed _ hreplay ih =>
    rcases replay_eq_ok hreplay with ⟨e, -, rfl⟩ | ⟨F, -, hrun⟩
    · exact ih
    · exact field_run rfl hrun

end Session

end ZeroDim
