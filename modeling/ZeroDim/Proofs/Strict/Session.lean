import Mathlib
import ZeroDim.Proofs.Solver.Totality
import ZeroDim.Proofs.Strict.Coordinates
import ZeroDim.Proofs.Strict.Sequence

/-! # Strict sessions

No call of a session is stopped.  A run whose input passes the checks is followed stage by stage:
each stage hands the next one what it needs, a record with reduced cells, an eliminant other than
zero, coordinates over the field of the session.  The calls of a session keep its key equation over
its field, and so the same holds for any number of calls from a new session on, and for a system
that is solved on its own. -/

set_option autoImplicit false

namespace ZeroDim

open PrimeField Matrix

variable {F : PrimeField} {n rows : ℕ} {A : Matrix (Fin n) (Fin n) F.Element}
  {v : Fin n → F.Element}

namespace Strict

/-! ## Eliminations -/

namespace Elimination

def ofMinimal (minimal : Poly) (dimension : ℕ) : Strict Elimination :=
  if minimal.natDegree = dimension then do
    if ← Poly.isSquareFree minimal then return ⟨minimal, minimal, true⟩
    else return ⟨← Poly.radical minimal, minimal, false⟩
  else do return ⟨← Poly.radical minimal, minimal, false⟩

def ofEquations (F : PrimeField) (layout : VariableLayout) : Strict Elimination := do
  let row ← lift (layout.equation (← subIndex layout.parts.equations 1))
  let eliminant := Poly.ofCoeffs F #[← lift (entryAt row layout.variableCount), 1]
  return ⟨eliminant, eliminant, true⟩

def ofSequence (key : KeyEquation) (sequence : Array UInt32) (dimension : ℕ)
    (layout : VariableLayout) : Strict (Elimination × KeyEquation) :=
  if layout.allLinear then do
    return (← ofEquations key.field layout, key)
  else do
    let key ← KeyEquation.solve (key.reset.addPoints sequence)
    return (← ofMinimal (← KeyEquation.minimalPolynomial key) dimension, key)

theorem ofMinimal_eq {minimal : Poly} (hfield : minimal.field = F)
    (hne : minimal.toPolynomial F ≠ 0) (dimension : ℕ) :
    ofMinimal minimal dimension = .ok (.ofMinimal minimal dimension) := by
  rw [ofMinimal, ZeroDim.Elimination.ofMinimal, Poly.isSquareFree_eq, Poly.radical_eq hfield hne]
  by_cases hdegree : minimal.natDegree = dimension
  · rw [if_pos hdegree, ok_bind]
    by_cases hsquare : minimal.isSquareFree = true
    · rw [if_pos hsquare, if_pos ⟨hdegree, hsquare⟩]
      rfl
    · rw [if_neg hsquare, if_neg fun h => hsquare h.2]
      rfl
  · rw [if_neg hdegree, if_neg fun h => hdegree h.1]
    rfl

theorem ofEquations_eq (F : PrimeField) {layout : VariableLayout}
    (hlinear : layout.allLinear = true) :
    ofEquations F layout = lift (ZeroDim.Elimination.ofEquations F layout) := by
  have hpos : 1 ≤ layout.parts.equations := by
    rw [layout.equations_of_allLinear hlinear]
    exact layout.variableCount_pos
  rw [ofEquations, subIndex, ensure_eq hpos, ok_bind]
  exact lift_bind fun row _ => lift_bind fun constant _ => rfl

theorem ofSequence_eq (key : KeyEquation) (sequence : Array UInt32) (dimension : ℕ)
    (layout : VariableLayout) : ofSequence key sequence dimension layout =
      lift (ZeroDim.Elimination.ofSequence key sequence dimension layout) := by
  rw [ofSequence, ZeroDim.Elimination.ofSequence]
  split
  · rename_i hlinear
    rw [ofEquations_eq key.field hlinear]
    exact lift_bind fun e _ => rfl
  · set start := key.reset.addPoints sequence
    have hfield : start.field = key.field := rfl
    have hmonic := ZeroDim.KeyEquation.monic_minimalPolynomial start hfield
    rw [KeyEquation.solve_eq, ok_bind, KeyEquation.minimalPolynomial_eq, ok_bind,
      ofMinimal_eq (ZeroDim.KeyEquation.field_minimalPolynomial start hfield) hmonic.ne_zero]
    rfl

end Elimination

/-! ## Runs -/

def residues (F : PrimeField) : ℕ → WordSource → Strict (List UInt32 × WordSource)
  | 0, source => .ok ([], source)
  | n + 1, source => do
    let (a, source) ← residue F source
    let (as, source) ← residues F n source
    return (a :: as, source)

theorem residues_eq (F : PrimeField) (n : ℕ) (source : WordSource) :
    residues F n source = .ok (source.many (·.residue F) n) := by
  induction n generalizing source with
  | zero => rfl
  | succ n ih =>
    rw [residues, residue_eq, ok_bind]
    dsimp only
    rw [ih, ok_bind]
    rfl

namespace Session

def open? (p : ℕ) (config : Config) : Strict (Except SolverError Session) := do
  match ← ofModulus p with
  | .ok F => return .ok ⟨F, config, .empty, .empty F, none⟩
  | .error e => return .error (.field e)

def moveTo? (s : Session) (p : ℕ) : Strict (Except SolverError Session) := do
  match ← ofModulus p with
  | .ok F => return .ok (s.moveTo F)
  | .error e => return .error (.field e)

def checkInput (F : PrimeField) (M : MultiplicationMatrix) (layout : VariableLayout)
    (probe : Array UInt32) : Strict (Except SolverError Unit) := do
  match ← MultiplicationMatrix.checkField M F with
  | .error e => return .error (.operator e)
  | .ok () =>
    match ← VariableLayout.checkDimension layout M.dimension with
    | .error e => return .error (.layout e)
    | .ok () =>
      if probe.size ≠ M.dimension then
        return .error (.operator (.lengthMismatch .probe M.dimension probe.size))
      else return .ok ()

def coordinates (s : Session) (layout : VariableLayout) (tracked : List TrackedVariable)
    (sequence : Array UInt32) (e : Elimination) (verify : Bool) (source : WordSource) :
    Strict (Except SolverError Outcome × KeyEquation × WordSource) := do
  let p := (ZeroDim.Parametrization.blank s.field layout.variableCount).withEliminant e.eliminant
  if e.shapePosition then
    if tracked.isEmpty then return (.ok ⟨p, .shapePosition⟩, s.key, source)
    else
      let n := s.record.dimension
      match ← KeyEquation.invertHankel s.key sequence n with
      | (none, key) => return (.error (.singularHankel n), key, source)
      | (some inverse, key) =>
        return (.ok ⟨← fillFromHankel s.record inverse tracked p, .shapePosition⟩, key, source)
  else
    let (result, source) ← fillFromQuotients s.record e.minimal tracked verify p source
    return (result, s.key, source)

def runStages (s : Session) (M : MultiplicationMatrix) (layout : VariableLayout)
    (probe : Array UInt32) (target : Option ℕ) (source : WordSource) : Strict Reply := do
  let tracked ← VariableLayout.tracked layout
  let verify := s.config.verify && target.isNone
  let record ← KrylovRecord.generate M s.field tracked probe verify s.record
  let sequence ← lift record.sequence
  let (e, key) ← Elimination.ofSequence s.key sequence M.dimension layout
  let s := { s with record := record, key := key }
  if target.any (· != e.degree) then
    return ⟨.error (.degreeMismatch (target.getD 0) e.degree), s, source⟩
  else
    let (result, key, source) ← coordinates s layout tracked sequence e verify source
    let s := { s with key := key }
    match result with
    | .error error => return ⟨.error error, s, source⟩
    | .ok outcome =>
      let p ← Parametrization.substituteLinear outcome.parametrization layout
      let learned := if target.isNone then some e.degree else s.learnedDegree
      return ⟨.ok { outcome with parametrization := p }, { s with learnedDegree := learned }, source⟩

def run (s : Session) (M : MultiplicationMatrix) (layout : VariableLayout) (probe : Array UInt32)
    (target : Option ℕ) (source : WordSource) : Strict Reply := do
  match ← checkInput s.field M layout probe with
  | .error e => return ⟨.error e, s, source⟩
  | .ok () => runStages s M layout probe target source

def randomProbe (s : Session) (M : MultiplicationMatrix) (source : WordSource) :
    Strict (Array UInt32 × WordSource) := do
  let (probe, source) ← residues s.field M.dimension source
  return (probe.toArray, source)

def solveFrom (s : Session) (M : MultiplicationMatrix) (layout : VariableLayout)
    (probe : Array UInt32) (source : WordSource) : Strict Reply :=
  run s M layout probe none source

def solve (s : Session) (M : MultiplicationMatrix) (layout : VariableLayout) (source : WordSource) :
    Strict Reply := do
  let (probe, source) ← randomProbe s M source
  run s M layout probe none source

def replay (s : Session) (M : MultiplicationMatrix) (p : ℕ) (layout : VariableLayout)
    (source : WordSource) : Strict Reply := do
  match ← moveTo? s p with
  | .error e => return ⟨.error e, s, source⟩
  | .ok s =>
    let (probe, source) ← randomProbe s M source
    run s M layout probe s.learnedDegree source

variable {s : Session} {layout : VariableLayout}

theorem open?_eq (p : ℕ) (config : Config) :
    open? p config = .ok (ZeroDim.Session.open? p config) := by
  rw [open?, ZeroDim.Session.open?, ofModulus_eq, ok_bind]
  cases PrimeField.ofModulus p with
  | ok F => rfl
  | error e => rfl

theorem moveTo?_eq (s : Session) (p : ℕ) : moveTo? s p = .ok (s.moveTo? p) := by
  rw [moveTo?, ZeroDim.Session.moveTo?, ofModulus_eq, ok_bind]
  cases PrimeField.ofModulus p with
  | ok F => rfl
  | error e => rfl

theorem checkInput_eq (F : PrimeField) (M : MultiplicationMatrix) (layout : VariableLayout)
    (probe : Array UInt32) :
    checkInput F M layout probe = .ok (ZeroDim.Session.checkInput F M layout probe) := by
  have hfield : LinearOperator.checkField M F = M.checkField F := rfl
  have hdimension : LinearOperator.dimension M = M.dimension := rfl
  rw [checkInput, ZeroDim.Session.checkInput, MultiplicationMatrix.checkField_eq, ok_bind, hfield,
    hdimension]
  cases M.checkField F with
  | error e => rfl
  | ok _ =>
    dsimp only
    rw [VariableLayout.checkDimension_eq, ok_bind]
    cases layout.checkDimension M.dimension with
    | error e => rfl
    | ok _ =>
      by_cases hprobe : probe.size ≠ M.dimension
      · rw [if_pos hprobe, if_pos hprobe]
        rfl
      · rw [if_neg hprobe, if_neg hprobe]
        rfl

theorem coordinates_eq (hs : s.field = F) (hkey : s.key.field = F)
    (hrecord : s.record.Filled F A v layout.tracked rows (2 * n)) (hpos : 0 < n)
    {sequence : Array UInt32} (hsize : sequence.size = 2 * n) (hred : F.AllReduced sequence)
    {e : Elimination} (he : e.Sound F n) (verify : Bool) (source : WordSource) :
    coordinates s layout layout.tracked sequence e verify source =
      lift (s.coordinates layout sequence e verify source) := by
  have hstart : (s.startOf layout e).Over F :=
    ZeroDim.Session.over_startOf hs he.field_eliminant
  rw [coordinates, ZeroDim.Session.coordinates]
  dsimp only
  split
  · split
    · rfl
    · rw [hrecord.dimension_eq]
      have hinvert : KeyEquation.invertHankel s.key sequence n =
          lift (s.key.invertHankel sequence n) :=
        KeyEquation.invertAlong_eq hred hpos Level.direct.onward hkey
      rw [hinvert]
      apply lift_bind
      rintro ⟨inverse?, key⟩ hinverse
      cases inverse? with
      | none => rfl
      | some inverse =>
        obtain ⟨-, hholds⟩ :=
          ZeroDim.KeyEquation.invertHankel_eq_some hred hpos hsize.ge hkey hinverse
        have hholds := hholds (F.terms sequence) fun _ _ => rfl
        have hfill := fillFromHankel_eq hstart hrecord.full_terms.reduced hholds.field_z1
          hholds.field_z2 layout.tracked
        dsimp only
        change (fillFromHankel s.record inverse layout.tracked (s.startOf layout e) >>= _) = _
        rw [hfill]
        exact lift_bind fun _ _ => rfl
  · have hfill : fillFromQuotients s.record e.minimal layout.tracked verify (s.startOf layout e)
        source = lift (ZeroDim.fillFromQuotients s.record e.minimal layout.tracked verify
          (s.startOf layout e) source) :=
      fillFromQuotients_eq hstart he.field_minimal layout.variableCount_pos
        layout.nodup_index_tracked (fun x hx => layout.index_tracked_lt hx) verify source
    change (fillFromQuotients s.record e.minimal layout.tracked verify (s.startOf layout e) source
      >>= _) = _
    rw [hfill]
    exact lift_bind fun _ _ => rfl

theorem runStages_eq (hs : s.key.field = s.field) {M : MultiplicationMatrix} {probe : Array UInt32}
    (hcheck : ZeroDim.Session.checkInput s.field M layout probe = .ok ()) (target : Option ℕ)
    (source : WordSource) : runStages s M layout probe target source =
      lift (s.runStages M layout probe target source) := by
  obtain ⟨hM, hdimension, -⟩ := ZeroDim.Session.checkInput_eq_ok hcheck
  have hfits := layout.fits_tracked hdimension
  obtain ⟨record, sequence, e, key, hrecord, hfilled, hsequence, hsize, hred, he, hsound, hkey⟩ :=
    ZeroDim.Session.elimination_total rfl hs (M.actsAs hM) M.dimension_pos hcheck
      (s.config.verify && target.isNone)
  obtain ⟨result, key', source', hcoordinates, hresult⟩ := ZeroDim.Session.coordinates_total
    (s := { s with record := record, key := key }) rfl hkey hfilled hfits M.dimension_pos hsize
    hred hsound (fun hverify => if_pos hverify) source
  have hstrict := coordinates_eq (s := { s with record := record, key := key }) rfl hkey hfilled
    M.dimension_pos hsize hred hsound (s.config.verify && target.isNone) source
  rw [hcoordinates] at hstrict
  have he' : Elimination.ofSequence s.key sequence M.dimension layout = .ok (e, key) := by
    rw [Elimination.ofSequence_eq]
    exact congrArg lift he
  rw [runStages, ZeroDim.Session.runStages, VariableLayout.tracked_eq, ok_bind]
  dsimp only
  rw [KrylovRecord.generate_eq hM, hrecord, lift_ok, ok_bind, ZeroDim.ok_bind, hsequence, lift_ok,
    ok_bind, ZeroDim.ok_bind, he', ok_bind, he, ZeroDim.ok_bind]
  dsimp only
  split
  · rfl
  · rw [hstrict, hcoordinates, lift_ok, ok_bind, ZeroDim.ok_bind]
    cases result with
    | error error => rfl
    | ok outcome =>
      obtain ⟨hframe, hover⟩ := hresult outcome rfl
      have hcount : 1 ≤ outcome.parametrization.variableCount := by
        rw [hframe.variableCount_eq]
        exact layout.variableCount_pos
      dsimp only
      rw [Parametrization.substituteLinear_eq hover hcount]
      exact lift_bind fun p _ => rfl

section Calls
variable (hs : s.key.field = s.field) (M : MultiplicationMatrix) (layout : VariableLayout)
include hs

theorem run_eq (probe : Array UInt32) (target : Option ℕ) (source : WordSource) :
    run s M layout probe target source = lift (s.run M layout probe target source) := by
  rw [run, ZeroDim.Session.run, checkInput_eq, ok_bind]
  cases hcheck : ZeroDim.Session.checkInput s.field M layout probe with
  | error e => rfl
  | ok _ => exact runStages_eq hs hcheck target source

omit hs in
theorem randomProbe_eq (source : WordSource) :
    randomProbe s M source = .ok (s.randomProbe M source) := by
  rw [randomProbe, residues_eq, ok_bind]
  rfl

theorem solve_eq (source : WordSource) :
    solve s M layout source = lift (s.solve M layout source) := by
  rw [solve, randomProbe_eq, ok_bind]
  exact run_eq hs M layout _ none _

omit hs in
theorem replay_eq (p : ℕ) (source : WordSource) :
    replay s M p layout source = lift (s.replay M p layout source) := by
  rw [replay, ZeroDim.Session.replay, moveTo?_eq, ok_bind]
  cases hmove : s.moveTo? p with
  | error e => rfl
  | ok s' =>
    dsimp only
    rw [randomProbe_eq, ok_bind]
    exact run_eq (ZeroDim.Session.field_moveTo? hmove) M layout _ s'.learnedDegree _

end Calls

end Session

end Strict

/-! ## Calls -/

namespace Session

inductive Call where
  | solve (M : MultiplicationMatrix) (layout : VariableLayout) (source : WordSource)
  | solveFrom (M : MultiplicationMatrix) (layout : VariableLayout) (probe : Array UInt32)
      (source : WordSource)
  | replay (M : MultiplicationMatrix) (p : ℕ) (layout : VariableLayout) (source : WordSource)
  | moveTo (F : PrimeField)

/-- The result of a call, none when only the field changes, and the session it leaves behind. -/
def perform (s : Session) : Call → Checked (Option (Except SolverError Outcome) × Session)
  | .solve M layout source => do
    let reply ← s.solve M layout source
    return (some reply.result, reply.session)
  | .solveFrom M layout probe source => do
    let reply ← s.solveFrom M layout probe source
    return (some reply.result, reply.session)
  | .replay M p layout source => do
    let reply ← s.replay M p layout source
    return (some reply.result, reply.session)
  | .moveTo F => .ok (none, s.moveTo F)

def performAll (s : Session) :
    List Call → Checked (List (Option (Except SolverError Outcome)) × Session)
  | [] => .ok ([], s)
  | call :: calls => do
    let (result, s) ← s.perform call
    let (results, s) ← s.performAll calls
    return (result :: results, s)

def history (p : ℕ) (config : Config) (calls : List Call) :
    Checked (Except SolverError (List (Option (Except SolverError Outcome)))) :=
  match open? p config with
  | .error e => .ok (.error e)
  | .ok s => do return .ok (← s.performAll calls).1

end Session

namespace Strict

namespace Session

def perform (s : Session) : ZeroDim.Session.Call →
    Strict (Option (Except SolverError Outcome) × Session)
  | .solve M layout source => do
    let reply ← solve s M layout source
    return (some reply.result, reply.session)
  | .solveFrom M layout probe source => do
    let reply ← solveFrom s M layout probe source
    return (some reply.result, reply.session)
  | .replay M p layout source => do
    let reply ← replay s M p layout source
    return (some reply.result, reply.session)
  | .moveTo F => .ok (none, s.moveTo F)

def performAll (s : Session) : List ZeroDim.Session.Call →
    Strict (List (Option (Except SolverError Outcome)) × Session)
  | [] => .ok ([], s)
  | call :: calls => do
    let (result, s) ← perform s call
    let (results, s) ← performAll s calls
    return (result :: results, s)

def history (p : ℕ) (config : Config) (calls : List ZeroDim.Session.Call) :
    Strict (Except SolverError (List (Option (Except SolverError Outcome)))) := do
  match ← open? p config with
  | .error e => return .error e
  | .ok s => return .ok (← performAll s calls).1

end Session

def solveSystem (M : MultiplicationMatrix) (p : ℕ) (layout : VariableLayout) (config : Config) :
    Strict (Except SolverError Outcome) := do
  match ← Session.open? p config with
  | .error e => return .error e
  | .ok s => return (← Session.solve s M layout (.ofSeed config.seed)).result

namespace Session

variable {s : Session}

theorem perform_eq_ok (hs : s.Reachable) (call : ZeroDim.Session.Call) :
    ∃ result s', s.perform call = .ok (result, s') ∧ perform s call = .ok (result, s') ∧
      s'.Reachable := by
  have hkey := hs.field_key
  cases call with
  | solve M layout source =>
    obtain ⟨reply, hreply⟩ := ZeroDim.Session.solve_total hkey M layout source
    refine ⟨some reply.result, reply.session, ?_, ?_, .solved hs hreply⟩
    · rw [ZeroDim.Session.perform, hreply]
      rfl
    · rw [perform, solve_eq hkey, hreply]
      rfl
  | solveFrom M layout probe source =>
    obtain ⟨reply, hreply⟩ := ZeroDim.Session.run_total hkey M layout probe none source
    have hreply : s.solveFrom M layout probe source = .ok reply := hreply
    refine ⟨some reply.result, reply.session, ?_, ?_, .solvedFrom hs hreply⟩
    · rw [ZeroDim.Session.perform, hreply]
      rfl
    · have hstrict : solveFrom s M layout probe source = lift (s.solveFrom M layout probe source) :=
        run_eq hkey M layout probe none source
      rw [perform, hstrict, hreply]
      rfl
  | replay M p layout source =>
    obtain ⟨reply, hreply⟩ := ZeroDim.Session.replay_total s M p layout source
    refine ⟨some reply.result, reply.session, ?_, ?_, .replayed hs hreply⟩
    · rw [ZeroDim.Session.perform, hreply]
      rfl
    · rw [perform, replay_eq, hreply]
      rfl
  | moveTo F => exact ⟨none, s.moveTo F, rfl, rfl, .moved F hs⟩

theorem performAll_eq_ok (calls : List ZeroDim.Session.Call) (hs : s.Reachable) :
    ∃ r, s.performAll calls = .ok r ∧ performAll s calls = .ok r := by
  induction calls generalizing s with
  | nil => exact ⟨([], s), rfl, rfl⟩
  | cons call calls ih =>
    obtain ⟨result, s', hcall, hstrict, hs'⟩ := perform_eq_ok hs call
    obtain ⟨⟨results, s''⟩, hcalls, hstrict'⟩ := ih hs'
    refine ⟨(result :: results, s''), ?_, ?_⟩
    · rw [ZeroDim.Session.performAll, hcall, ZeroDim.ok_bind]
      dsimp only
      rw [hcalls]
      rfl
    · rw [performAll, hstrict, ok_bind]
      dsimp only
      rw [hstrict']
      rfl

end Session

/-- Nothing stops strict arithmetic: any number of calls of a new session, with any matrices,
layouts, probes, primes and random words, and a system that is solved on its own, give the results
they give without it. -/
theorem no_trap :
    (∀ (p : ℕ) (config : Config) (calls : List ZeroDim.Session.Call), ∃ results,
      ZeroDim.Session.history p config calls = .ok results ∧
      Session.history p config calls = .ok results) ∧
    ∀ (M : MultiplicationMatrix) (p : ℕ) (layout : VariableLayout) (config : Config), ∃ result,
      ZeroDim.solveSystem M p layout config = .ok result ∧
      solveSystem M p layout config = .ok result := by
  constructor
  · intro p config calls
    rw [ZeroDim.Session.history, Session.history, Session.open?_eq, ok_bind]
    cases hopen : ZeroDim.Session.open? p config with
    | error e => exact ⟨.error e, rfl, rfl⟩
    | ok s =>
      obtain ⟨r, hcalls, hstrict⟩ := Session.performAll_eq_ok calls (.opened hopen)
      dsimp only
      rw [hcalls, hstrict]
      exact ⟨.ok r.1, rfl, rfl⟩
  · intro M p layout config
    rw [ZeroDim.solveSystem, solveSystem, Session.open?_eq, ok_bind]
    cases hopen : ZeroDim.Session.open? p config with
    | error e => exact ⟨.error e, rfl, rfl⟩
    | ok s =>
      have hkey := (ZeroDim.Session.Reachable.opened hopen).field_key
      obtain ⟨reply, hreply⟩ := ZeroDim.Session.solve_total hkey M layout (.ofSeed config.seed)
      dsimp only
      rw [Session.solve_eq hkey, hreply]
      exact ⟨reply.result, rfl, rfl⟩

end Strict

end ZeroDim
