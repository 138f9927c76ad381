import Mathlib
import ZeroDim.Proofs.Solver.Failures
import ZeroDim.Proofs.Solver.WellFormed

/-! # The learned degree

A session keeps one thing of its runs on purpose: the degree of the eliminant of the last run that
succeeded without a degree to meet.  Everything is read off one run.  A run either has an outcome,
whose eliminant is that of its elimination, or leaves the learned degree alone; and an elimination
that misses the degree ends the run before any coordinate is computed.  A history is a list of such
runs, with moves to other fields in between. -/

set_option autoImplicit false

namespace ZeroDim

open Polynomial PrimeField Matrix

namespace Session

/-- The result of a call, and the degree that its eliminant had to have, if any. -/
structure Answer where
  target : Option ℕ
  result : Except SolverError Outcome

/-- What a call teaches: the degree of the eliminant, when it succeeds with no degree to meet. -/
def Answer.learned : Answer → Option ℕ
  | ⟨none, .ok outcome⟩ => some outcome.parametrization.eliminant.natDegree
  | _ => none

@[simp] theorem Answer.learned_error (target : Option ℕ) (error : SolverError) :
    Answer.learned ⟨target, .error error⟩ = none := by cases target <;> rfl

@[simp] theorem Answer.learned_target (d : ℕ) (result : Except SolverError Outcome) :
    Answer.learned ⟨some d, result⟩ = none := rfl

theorem Answer.findSome?_learned_cons (answer : Answer) (answers : List Answer) :
    (answer :: answers).findSome? learned = answer.learned.or (answers.findSome? learned) := by
  rw [List.findSome?_cons]
  cases answer.learned <;> rfl

/-! ## One run -/

theorem fillFromQuotients_ne_degreeMismatch {record : KrylovRecord} {minimal : Poly}
    {tracked : List TrackedVariable} {verify : Bool} {p : Parametrization}
    {source source' : WordSource} {a b : ℕ} :
    fillFromQuotients record minimal tracked verify p source ≠
      .ok (.error (.degreeMismatch a b), source') := by
  intro h
  rcases fillFromQuotients_cases h with ⟨hresult, -⟩ | ⟨_, _, _, -, -, -, hcase⟩
  · simp at hresult
  · rcases hcase with ⟨-, hresult, -⟩ | ⟨-, _, hresult, -⟩ <;> simp at hresult

section Coordinates
variable {s : Session} {layout : VariableLayout} {sequence : Array UInt32} {e : Elimination}
  {source source' : WordSource} {key : KeyEquation}

theorem coordinates_ne_degreeMismatch {verify : Bool} {a b : ℕ} :
    s.coordinates layout sequence e verify source ≠
      .ok (.error (.degreeMismatch a b), key, source') := by
  intro h
  rcases coordinates_eq_ok h with ⟨-, -, -, hresult⟩ | ⟨-, -, hresult⟩ | ⟨-, _, _, -, -, hresult⟩ |
    ⟨-, -, hfill⟩
  · simp at hresult
  · simp at hresult
  · simp at hresult
  · exact fillFromQuotients_ne_degreeMismatch hfill

theorem verdict_of_coordinates {outcome : Outcome}
    (h : s.coordinates layout sequence e false source = .ok (.ok outcome, key, source')) :
    outcome.verdict = .shapePosition ∨ outcome.verdict = .unchecked := by
  rcases coordinates_eq_ok h with ⟨-, -, -, hresult⟩ | ⟨-, -, hresult⟩ | ⟨-, _, _, -, -, hresult⟩ |
    ⟨-, -, hfill⟩
  · obtain rfl := Except.ok.inj hresult
    exact .inl rfl
  · contradiction
  · obtain rfl := Except.ok.inj hresult
    exact .inl rfl
  · rcases fillFromQuotients_cases hfill with ⟨hresult, -⟩ | ⟨_, _, _, -, -, -, hcase⟩
    · contradiction
    · rcases hcase with ⟨-, hresult, -⟩ | ⟨hverify, -⟩
      · obtain rfl := Except.ok.inj hresult
        exact .inr rfl
      · contradiction

end Coordinates

section Run
variable {α : Type} [LinearOperator α] {op : α} {s : Session} {layout : VariableLayout}
  {probe : Array UInt32} {target : Option ℕ} {source : WordSource} {reply : Reply}

theorem checkInput_ne_degreeMismatch {F : PrimeField} {a b : ℕ} :
    checkInput F op layout probe ≠ .error (.degreeMismatch a b) := by
  intro h
  rw [checkInput] at h
  cases hfield : LinearOperator.checkField op F with
  | error error =>
    rw [hfield] at h
    simp [Except.mapError, bind, Except.bind] at h
  | ok =>
    cases hdimension : layout.checkDimension (LinearOperator.dimension op) with
    | error error =>
      rw [hfield, hdimension] at h
      simp [Except.mapError, bind, Except.bind] at h
    | ok =>
      rw [hfield, hdimension] at h
      by_cases hsize : probe.size = LinearOperator.dimension op
      · simp [Except.mapError, bind, Except.bind, hsize, pure, Except.pure] at h
      · simp [Except.mapError, bind, Except.bind, hsize, throw, throwThe, MonadExceptOf.throw] at h

def elimination (s : Session) (op : α) (layout : VariableLayout) (probe : Array UInt32)
    (withSquares : Bool) : Checked Elimination := do
  let record ← s.record.generate op s.field layout.tracked probe withSquares
  let sequence ← record.sequence
  let (e, _) ← Elimination.ofSequence s.key sequence (LinearOperator.dimension op) layout
  return e

theorem elimination_eq_ok {withSquares : Bool} {e : Elimination} :
    s.elimination op layout probe withSquares = .ok e ↔ ∃ record sequence key,
      s.record.generate op s.field layout.tracked probe withSquares = .ok record ∧
      record.sequence = .ok sequence ∧
      Elimination.ofSequence s.key sequence (LinearOperator.dimension op) layout =
        .ok (e, key) := by
  constructor
  · intro h
    obtain ⟨record, hrecord, h⟩ := bind_eq_ok.mp h
    obtain ⟨sequence, hsequence, h⟩ := bind_eq_ok.mp h
    obtain ⟨⟨e', key⟩, he, h⟩ := bind_eq_ok.mp h
    obtain rfl := Except.ok.inj h
    exact ⟨record, sequence, key, hrecord, hsequence, he⟩
  · rintro ⟨record, sequence, key, hrecord, hsequence, he⟩
    rw [elimination, hrecord, ok_bind, hsequence, ok_bind, he]
    rfl

theorem run_of_degree_ne {d : ℕ} {e : Elimination}
    (hcheck : checkInput s.field op layout probe = .ok ())
    (he : s.elimination op layout probe false = .ok e) (hne : e.degree ≠ d) :
    ∃ s', s.run op layout probe (some d) source =
      .ok ⟨.error (.degreeMismatch d e.degree), s', source⟩ := by
  obtain ⟨record, sequence, key, hrecord, hsequence, he⟩ := elimination_eq_ok.mp he
  refine ⟨{ s with record := record, key := key }, ?_⟩
  have hmisses : (some d).any (· != e.degree) = true := bne_iff_ne.mpr hne.symm
  rw [run, hcheck]
  dsimp only
  rw [runStages, Option.isNone_some, Bool.and_false, hrecord, ok_bind, hsequence, ok_bind, he,
    ok_bind]
  dsimp only
  rw [if_pos hmisses]
  rfl

theorem elimination_of_outcome {outcome : Outcome}
    (h : s.run op layout probe target source = .ok reply) (hresult : reply.result = .ok outcome) :
    ∃ e, s.elimination op layout probe (s.config.verify && target.isNone) = .ok e ∧
      outcome.parametrization.eliminant = e.eliminant ∧ (∀ d, target = some d → e.degree = d) ∧
      reply.session.learnedDegree = if target.isNone then some e.degree else s.learnedDegree := by
  obtain ⟨-, record, sequence, e, key, first, key', source', hrecord, hsequence, he, hcoordinates,
    hsubstitute, -, hmeets, hsession, -⟩ := run_eq_ok_of_outcome h hresult
  have hframe := sameFrame_of_substituteLinear hcoordinates hsubstitute
  refine ⟨e, elimination_eq_ok.mpr ⟨record, sequence, key, hrecord, hsequence, he⟩,
    hframe.eliminant_eq, hmeets, ?_⟩
  rw [hsession]

theorem learnedDegree_of_error {error : SolverError}
    (h : s.run op layout probe target source = .ok reply) (hresult : reply.result = .error error) :
    reply.session.learnedDegree = s.learnedDegree := by
  rcases run_eq_ok h with ⟨error', -, rfl⟩ | ⟨-, h⟩
  · rfl
  · obtain ⟨record, sequence, e, key, -, -, -, hcase⟩ := runStages_eq_ok h
    rcases hcase with ⟨d, -, -, rfl⟩ | ⟨-, result, key', source', -, hcase⟩
    · rfl
    · rcases hcase with ⟨error', -, rfl⟩ | ⟨first, p, -, -, rfl⟩
      · rfl
      · contradiction

theorem learnedDegree_run (h : s.run op layout probe target source = .ok reply) :
    reply.session.learnedDegree =
      (Answer.learned ⟨target, reply.result⟩).or s.learnedDegree := by
  cases hresult : reply.result with
  | error error => simpa using learnedDegree_of_error h hresult
  | ok outcome =>
    obtain ⟨e, -, helim, -, hlearned⟩ := elimination_of_outcome h hresult
    rw [hlearned]
    cases target with
    | none => simp [Answer.learned, helim, Elimination.degree]
    | some d => simp

theorem elimination_of_degreeMismatch {a b : ℕ}
    (h : s.run op layout probe target source = .ok reply)
    (hresult : reply.result = .error (.degreeMismatch a b)) :
    target = some a ∧ b ≠ a ∧ checkInput s.field op layout probe = .ok () ∧
      ∃ e, s.elimination op layout probe false = .ok e ∧ e.degree = b := by
  rcases run_eq_ok h with ⟨error, hcheck, rfl⟩ | ⟨hcheck, h⟩
  · obtain rfl := Except.error.inj hresult
    exact absurd hcheck checkInput_ne_degreeMismatch
  · obtain ⟨record, sequence, e, key, hrecord, hsequence, he, hcase⟩ := runStages_eq_ok h
    rcases hcase with ⟨d, rfl, hne, rfl⟩ | ⟨-, result, key', source', hcoordinates, hcase⟩
    · obtain ⟨rfl, rfl⟩ := SolverError.degreeMismatch.inj (Except.error.inj hresult)
      rw [Option.isNone_some, Bool.and_false] at hrecord
      exact ⟨rfl, hne, hcheck, e,
        elimination_eq_ok.mpr ⟨record, sequence, key, hrecord, hsequence, he⟩, rfl⟩
    · rcases hcase with ⟨error, rfl, rfl⟩ | ⟨first, p, -, -, rfl⟩
      · obtain rfl := Except.error.inj hresult
        exact absurd hcoordinates coordinates_ne_degreeMismatch
      · contradiction

end Run

/-! ## The degree of a system -/

/-- The degree of the eliminant of a matrix at a probe.  With equations for all variables the
system is a point; otherwise the roots are those of the minimal recurrence of the power sums. -/
inductive EliminantDegree {F : PrimeField} {n : ℕ} (A : Matrix (Fin n) (Fin n) F.Element)
    (v : Fin n → F.Element) (layout : VariableLayout) : ℕ → Prop
  | linear : layout.allLinear = true → EliminantDegree A v layout 1
  | recurrence {P : F.Element[X]} : layout.allLinear = false →
      IsMinimalRecurrence P (krylov A (unitVector F.Element n 0) v) →
      EliminantDegree A v layout (UniqueFactorizationMonoid.radical P).natDegree

/-- Every elimination on a checked input succeeds, with an eliminant of the degree of the system. -/
theorem elimination_spec {F : PrimeField} {s : Session} (hs : s.field = F) (hkey : s.key.field = F)
    {α : Type} [LinearOperator α] {op : α}
    {A : Matrix (Fin (LinearOperator.dimension op)) (Fin (LinearOperator.dimension op)) F.Element}
    (hop : LinearOperator.ActsAs op F A) (hpos : 0 < LinearOperator.dimension op)
    {layout : VariableLayout} {probe : Array UInt32}
    (hcheck : checkInput s.field op layout probe = .ok ()) (withSquares : Bool) :
    ∃ e, s.elimination op layout probe withSquares = .ok e ∧
      EliminantDegree A (F.vector _ probe) layout e.degree := by
  obtain ⟨record, sequence, e, key, hrecord, hfilled, hsequence, hsize, -, he, hsound, -⟩ :=
    elimination_total hs hkey hop hpos hcheck withSquares
  refine ⟨e, elimination_eq_ok.mpr ⟨record, sequence, key, hrecord, hsequence, he⟩, ?_⟩
  rcases ofSequence_cases hkey he with ⟨hlinear, hequations, -⟩ | ⟨hlinear, rfl, rfl⟩
  · obtain ⟨e', he', hsound⟩ := Elimination.ofEquations_eq_ok F hlinear
    obtain rfl := Except.ok.inj (hequations.symm.trans he')
    rw [hsound.shapePosition_iff.mp (Elimination.ofEquations_spec he').1]
    exact .linear hlinear
  · obtain ⟨-, -, hterms⟩ := hfilled.sequence_spec hsequence
    have hP := isMinimalRecurrence_powerSums hsize hterms
    have hfield : ((KeyEquation.empty F).addPoints sequence).solve.minimalPolynomial.field = F :=
      KeyEquation.field_minimalPolynomial _ rfl
    rw [Elimination.degree, ← Poly.natDegree_toPolynomial hsound.field_eliminant,
      Elimination.toPolynomial_eliminant_ofMinimal hfield hP.monic]
    exact .recurrence hlinear hP

/-! ## Replays -/

theorem size_randomProbe {α : Type} [LinearOperator α] (s : Session) (op : α)
    (source : WordSource) : (s.randomProbe op source).1.size = LinearOperator.dimension op := by
  simp [randomProbe, WordSource.length_many]

structure ReplaysAt (s : Session) (d : ℕ) : Prop where
  /-- The degree stays, and outcomes have it, without a check of their coordinates. -/
  outcome : ∀ (α : Type) [LinearOperator α] (op : α) (p : ℕ) (layout : VariableLayout)
    (source : WordSource) (reply : Reply), s.replay op p layout source = .ok reply →
    reply.session.learnedDegree = some d ∧ ∀ outcome, reply.result = .ok outcome →
      outcome.parametrization.eliminant.natDegree = d ∧
      (outcome.verdict = .shapePosition ∨ outcome.verdict = .unchecked)
  /-- An elimination of another degree is an error that tells both degrees, and nothing else is. -/
  mismatch : ∀ (α : Type) [LinearOperator α] (op : α) (p : ℕ) (layout : VariableLayout)
    (source : WordSource) (a b : ℕ),
    (∃ reply, s.replay op p layout source = .ok reply ∧
      reply.result = .error (.degreeMismatch a b)) ↔
    a = d ∧ b ≠ d ∧ ∃ F e, ofModulus p = .ok F ∧
      checkInput F op layout ((s.moveTo F).randomProbe op source).1 = .ok () ∧
      (s.moveTo F).elimination op layout ((s.moveTo F).randomProbe op source).1 false = .ok e ∧
      e.degree = b
  /-- For a matrix, the degree of the elimination is that of the system. -/
  matrix : ∀ (M : MultiplicationMatrix) (p : ℕ) (layout : VariableLayout) (source : WordSource)
    (F : PrimeField), ofModulus p = .ok F → M.checkField F = .ok () →
    layout.checkDimension M.dimension = .ok () → ∃ m reply,
      EliminantDegree (M.toMatrix F)
        (F.vector M.dimension ((s.moveTo F).randomProbe M source).1) layout m ∧
      s.replay M p layout source = .ok reply ∧
      ∀ a b, reply.result = .error (.degreeMismatch a b) ↔ a = d ∧ b = m ∧ m ≠ d

section Replay
variable {s : Session} {d : ℕ} (hd : s.learnedDegree = some d) {layout : VariableLayout} {p : ℕ}
  {source : WordSource}
include hd

theorem replay_of_learned {α : Type} [LinearOperator α] {op : α} {reply : Reply}
    (h : s.replay op p layout source = .ok reply) :
    reply.session.learnedDegree = some d ∧ ∀ outcome, reply.result = .ok outcome →
      outcome.parametrization.eliminant.natDegree = d ∧
      (outcome.verdict = .shapePosition ∨ outcome.verdict = .unchecked) := by
  rcases replay_eq_ok h with ⟨e, -, rfl⟩ | ⟨F, -, hrun⟩
  · exact ⟨hd, fun outcome hresult => by contradiction⟩
  · rw [hd] at hrun
    refine ⟨?_, ?_⟩
    · rw [learnedDegree_run hrun, Answer.learned_target]
      exact hd
    · intro outcome hresult
      obtain ⟨e, -, helim, hmeets, -⟩ := elimination_of_outcome hrun hresult
      obtain ⟨-, _, _, _, _, first, _, _, -, -, -, hcoordinates, -, hverdict, -⟩ :=
        run_eq_ok_of_outcome hrun hresult
      rw [Option.isNone_some, Bool.and_false] at hcoordinates
      rw [helim, hverdict]
      exact ⟨hmeets d rfl, verdict_of_coordinates hcoordinates⟩

theorem replay_degreeMismatch_iff {α : Type} [LinearOperator α] {op : α} {a b : ℕ} :
    (∃ reply, s.replay op p layout source = .ok reply ∧
      reply.result = .error (.degreeMismatch a b)) ↔
    a = d ∧ b ≠ d ∧ ∃ F e, ofModulus p = .ok F ∧
      checkInput F op layout ((s.moveTo F).randomProbe op source).1 = .ok () ∧
      (s.moveTo F).elimination op layout ((s.moveTo F).randomProbe op source).1 false = .ok e ∧
      e.degree = b := by
  constructor
  · rintro ⟨reply, h, hresult⟩
    rcases replay_eq_ok h with ⟨e, -, rfl⟩ | ⟨F, hp, hrun⟩
    · simp at hresult
    · rw [hd] at hrun
      obtain ⟨ha, hne, hcheck, e, he, hdegree⟩ := elimination_of_degreeMismatch hrun hresult
      obtain rfl := Option.some.inj ha
      exact ⟨rfl, hne, F, e, hp, hcheck, he, hdegree⟩
  · rintro ⟨rfl, hne, F, e, hp, hcheck, he, rfl⟩
    obtain ⟨s', hs'⟩ := run_of_degree_ne hcheck he hne
    rw [replay_of_ok hp, hd]
    exact ⟨_, hs', rfl⟩

theorem replay_matrix {M : MultiplicationMatrix} {F : PrimeField} (hp : ofModulus p = .ok F)
    (hfield : M.checkField F = .ok ()) (hdimension : layout.checkDimension M.dimension = .ok ()) :
    ∃ m reply, EliminantDegree (M.toMatrix F)
        (F.vector M.dimension ((s.moveTo F).randomProbe M source).1) layout m ∧
      s.replay M p layout source = .ok reply ∧
      ∀ a b, reply.result = .error (.degreeMismatch a b) ↔ a = d ∧ b = m ∧ m ≠ d := by
  have hcheck : checkInput F M layout ((s.moveTo F).randomProbe M source).1 = .ok () :=
    checkInput_of hfield hdimension (size_randomProbe _ M source)
  obtain ⟨e, he, hdegree⟩ := elimination_spec (s := s.moveTo F) rfl rfl (M.actsAs hfield)
    M.dimension_pos hcheck false
  obtain ⟨reply, hreply⟩ := replay_total s M p layout source
  refine ⟨e.degree, reply, hdegree, hreply, ?_⟩
  intro a b
  constructor
  · intro hresult
    obtain ⟨rfl, hne, F', e', hp', -, he', rfl⟩ :=
      (replay_degreeMismatch_iff hd).mp ⟨reply, hreply, hresult⟩
    obtain rfl := Except.ok.inj (hp.symm.trans hp')
    obtain rfl := Except.ok.inj (he.symm.trans he')
    exact ⟨rfl, rfl, hne⟩
  · rintro ⟨rfl, rfl, hne⟩
    obtain ⟨reply', hreply', hresult⟩ :=
      (replay_degreeMismatch_iff hd).mpr ⟨rfl, hne, F, e, hp, hcheck, he, rfl⟩
    obtain rfl := Except.ok.inj (hreply.symm.trans hreply')
    exact hresult

theorem replaysAt : s.ReplaysAt d where
  outcome _ _ _ _ _ _ _ := replay_of_learned hd
  mismatch _ _ _ _ _ _ _ _ := replay_degreeMismatch_iff hd
  matrix _ _ _ _ _ := replay_matrix hd

end Replay

/-! ## Histories -/

/-- A session that calls lead to, with the answers to the calls, the last one first. -/
inductive History : List Answer → Session → Prop
  | opened {p : ℕ} {config : Config} {s : Session} : open? p config = .ok s → History [] s
  | moved {answers : List Answer} {s : Session} (F : PrimeField) : History answers s →
      History answers (s.moveTo F)
  | solved {α : Type} [LinearOperator α] {op : α} {layout : VariableLayout} {source : WordSource}
      {answers : List Answer} {s : Session} {reply : Reply} : History answers s →
      s.solve op layout source = .ok reply →
      History (⟨none, reply.result⟩ :: answers) reply.session
  | solvedFrom {α : Type} [LinearOperator α] {op : α} {layout : VariableLayout}
      {probe : Array UInt32} {source : WordSource} {answers : List Answer} {s : Session}
      {reply : Reply} : History answers s → s.solveFrom op layout probe source = .ok reply →
      History (⟨none, reply.result⟩ :: answers) reply.session
  | replayed {α : Type} [LinearOperator α] {op : α} {p : ℕ} {layout : VariableLayout}
      {source : WordSource} {answers : List Answer} {s : Session} {reply : Reply} :
      History answers s → s.replay op p layout source = .ok reply →
      History (⟨s.learnedDegree, reply.result⟩ :: answers) reply.session

theorem learnedDegree_replay {α : Type} [LinearOperator α] {op : α} {s : Session} {p : ℕ}
    {layout : VariableLayout} {source : WordSource} {reply : Reply}
    (h : s.replay op p layout source = .ok reply) :
    reply.session.learnedDegree =
      (Answer.learned ⟨s.learnedDegree, reply.result⟩).or s.learnedDegree := by
  rcases replay_eq_ok h with ⟨e, -, rfl⟩ | ⟨F, -, hrun⟩
  · simp
  · exact learnedDegree_run (s := s.moveTo F) hrun

theorem learnedDegree_of_answers {α : Type} [LinearOperator α] {op : α} {s : Session}
    {layout : VariableLayout} {reply : Reply} (h : s.Answers op layout reply) {error : SolverError}
    (hresult : reply.result = .error error) :
    reply.session.learnedDegree = s.learnedDegree := by
  cases h with
  | solve h => exact learnedDegree_of_error h hresult
  | solveFrom h => exact learnedDegree_of_error h hresult
  | replay h => simpa [hresult] using learnedDegree_replay h

theorem History.learnedDegree_eq {answers : List Answer} {s : Session} (h : History answers s) :
    s.learnedDegree = answers.findSome? Answer.learned := by
  induction h with
  | @opened p config s hopen =>
    unfold open? at hopen
    split at hopen
    · obtain rfl := Except.ok.inj hopen
      rfl
    · contradiction
  | moved F _ ih => exact ih
  | solved _ hsolve ih => rw [learnedDegree_run hsolve, ih, Answer.findSome?_learned_cons]
  | solvedFrom _ hsolve ih => rw [learnedDegree_run hsolve, ih, Answer.findSome?_learned_cons]
  | replayed _ hreplay ih => rw [learnedDegree_replay hreplay, ih, Answer.findSome?_learned_cons]

/-- Whatever happens to a session, it has the degree of the last run that succeeded with no degree
to meet; moves and failing calls keep it, a rejected prime changes nothing at all, and with a
learned degree every replay keeps it and has to meet it. -/
theorem History.replay_protocol {answers : List Answer} {s : Session} (h : History answers s) :
    s.learnedDegree = answers.findSome? Answer.learned ∧
    (∀ F : PrimeField, (s.moveTo F).learnedDegree = s.learnedDegree) ∧
    (∀ (α : Type) [LinearOperator α] (op : α) (layout : VariableLayout) (reply : Reply)
      (error : SolverError), s.Answers op layout reply → reply.result = .error error →
      reply.session.learnedDegree = s.learnedDegree) ∧
    (∀ (α : Type) [LinearOperator α] (op : α) (p : ℕ) (layout : VariableLayout)
      (source : WordSource) (e : FieldError), ofModulus p = .error e →
      s.replay op p layout source = .ok ⟨.error (.field e), s, source⟩) ∧
    ∀ d, s.learnedDegree = some d → s.ReplaysAt d := by
  refine ⟨h.learnedDegree_eq, ?_, ?_, ?_, ?_⟩
  · intro F
    rfl
  · intro α _ op layout reply error hanswer hresult
    exact learnedDegree_of_answers hanswer hresult
  · intro α _ op p layout source e hp
    exact replay_of_error hp
  · intro d hd
    exact replaysAt hd

/-- A session that has learned degree three at one prime and was moved to another.  Back at the
first prime, the next probe sees one of the three points only; nine is not a prime. -/
theorem History.replay_protocol_onePoint :
    ∃ (s : Session) (M : MultiplicationMatrix) (F : PrimeField) (reply reply' : Reply),
      open? 7 {} = .ok s ∧ M.parts = ⟨3, #[6, 3, 6], #[0, 1], #[1, 2], #[2]⟩ ∧
      ofModulus 11 = .ok F ∧
      s.solveFrom M (.generic 2) #[1, 0, 3] (.ofSeed 42) = .ok reply ∧
      History [⟨none, reply.result⟩] (reply.session.moveTo F) ∧
      (reply.session.moveTo F).learnedDegree = some 3 ∧
      (reply.session.moveTo F).replay M 7 (.generic 2)
        (.listed [613566757, 613566757, 613566757]) = .ok reply' ∧
      reply'.result = .error (.degreeMismatch 3 1) ∧ reply'.session.learnedDegree = some 3 ∧
      (reply.session.moveTo F).replay M 9 (.generic 2) (.ofSeed 42) =
        .ok ⟨.error (.field (.notPrime 9)), reply.session.moveTo F, .ofSeed 42⟩ := by
  let F : PrimeField := ⟨7, by decide +kernel, by decide⟩
  let F' : PrimeField := ⟨11, by decide +kernel, by decide⟩
  let M : MultiplicationMatrix := ⟨⟨3, #[6, 3, 6], #[0, 1], #[1, 2], #[2]⟩, by decide +kernel, 64⟩
  have hopen : open? 7 {} = .ok ⟨F, {}, .empty, .empty F, none⟩ := by decide +kernel
  have hrun : ((⟨F, {}, .empty, .empty F, none⟩ : Session).solveFrom M (.generic 2) #[1, 0, 3]
      (.ofSeed 42)).map (fun r => r.result.toOption.map fun o =>
        o.parametrization.eliminant.natDegree) = .ok (some 3) := by decide +kernel
  have hreplay : ((⟨F, {}, .empty, .empty F, none⟩ : Session).solveFrom M (.generic 2) #[1, 0, 3]
      (.ofSeed 42) >>= fun r => (r.session.moveTo F').replay M 7 (.generic 2)
        (.listed [613566757, 613566757, 613566757])).map Reply.result =
          .ok (.error (.degreeMismatch 3 1)) := by decide +kernel
  obtain ⟨reply, hreply, hdegree⟩ := map_eq_ok.mp hrun
  obtain ⟨reply', hreply', hmismatch⟩ := map_eq_ok.mp hreplay
  rw [hreply, ok_bind] at hreply'
  have hhistory : History [⟨none, reply.result⟩] (reply.session.moveTo F') :=
    .moved F' (.solvedFrom (.opened hopen) hreply)
  obtain ⟨hlearned, -, -, hrejected, hmeets⟩ := replay_protocol hhistory
  have hthree : (reply.session.moveTo F').learnedDegree = some 3 := by
    rw [hlearned]
    cases hresult : reply.result with
    | error error => simp [hresult, Except.toOption] at hdegree
    | ok outcome => simpa [hresult, Except.toOption, Answer.learned] using hdegree
  refine ⟨_, M, F', reply, reply', hopen, rfl, by decide +kernel, hreply, hhistory, hthree, hreply',
    hmismatch, ?_, ?_⟩
  · exact ((hmeets 3 hthree).outcome _ M 7 _ _ reply' hreply').1
  · exact hrejected _ M 9 _ _ _ (by decide +kernel)

end Session

end ZeroDim
