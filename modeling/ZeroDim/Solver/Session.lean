import ZeroDim.Parametrization.Linear
import ZeroDim.Solver.Coordinates

/-! # Solving sessions

A session solves systems over a current field.  A run takes an operator, a layout and a probe
through the stages

1. the Krylov sequence of the probe,
2. the elimination of the power sums,
3. the coordinates of the tracked variables,
4. the coordinates of the linear variables.

A successful run leaves the degree of its eliminant behind.  A system can then be replayed at
another prime: the check of the coordinates is skipped, and an eliminant of another degree is an
error.

Every call answers with the session and the source of random words that it leaves behind, also
when it fails.
-/

set_option autoImplicit false

namespace ZeroDim

structure Config where
  seed : UInt64 := 42
  /-- Whether coordinates are checked outside of shape position. -/
  verify : Bool := true
deriving DecidableEq

structure Session where
  field : PrimeField
  config : Config
  record : KrylovRecord
  key : KeyEquation
  /-- The degree of the eliminant of the last successful run that had no degree to meet. -/
  learnedDegree : Option Nat
deriving DecidableEq

structure Reply where
  result : Except SolverError Outcome
  session : Session
  source : WordSource

namespace Session

def open? (p : Nat) (config : Config) : Except SolverError Session :=
  match PrimeField.ofModulus p with
  | .ok F => .ok ⟨F, config, .empty, .empty F, none⟩
  | .error e => .error (.field e)

def moveTo (s : Session) (F : PrimeField) : Session := { s with field := F, key := s.key.moveTo F }

def moveTo? (s : Session) (p : Nat) : Except SolverError Session :=
  match PrimeField.ofModulus p with
  | .ok F => .ok (s.moveTo F)
  | .error e => .error (.field e)

section Run
variable {α : Type} [LinearOperator α]

/-- What is wrong with the operator, the layout or the probe, in this order. -/
def checkInput (F : PrimeField) (op : α) (layout : VariableLayout) (probe : Array UInt32) :
    Except SolverError Unit := do
  let n := LinearOperator.dimension op
  (LinearOperator.checkField op F).mapError .operator
  (layout.checkDimension n).mapError .layout
  if probe.size ≠ n then throw (.operator (.lengthMismatch .probe n probe.size))

def coordinates (s : Session) (layout : VariableLayout) (sequence : Array UInt32)
    (e : Elimination) (verify : Bool) (source : WordSource) :
    Checked (Except SolverError Outcome × KeyEquation × WordSource) := do
  let p := (Parametrization.blank s.field layout.variableCount).withEliminant e.eliminant
  let tracked := layout.tracked
  if e.shapePosition then
    if tracked.isEmpty then return (.ok ⟨p, .shapePosition⟩, s.key, source)
    else
      let n := s.record.dimension
      match ← s.key.invertHankel sequence n with
      | (none, key) => return (.error (.singularHankel n), key, source)
      | (some inverse, key) =>
        return (.ok ⟨← fillFromHankel s.record inverse tracked p, .shapePosition⟩, key, source)
  else
    let (result, source) ← fillFromQuotients s.record e.minimal tracked verify p source
    return (result, s.key, source)

/-- All stages of a run whose input has been checked.  With a target, the eliminant has to have
that degree. -/
def runStages (s : Session) (op : α) (layout : VariableLayout) (probe : Array UInt32)
    (target : Option Nat) (source : WordSource) : Checked Reply := do
  let n := LinearOperator.dimension op
  let verify := s.config.verify && target.isNone
  let record ← s.record.generate op s.field layout.tracked probe verify
  let sequence ← record.sequence
  let (e, key) ← Elimination.ofSequence s.key sequence n layout
  let s := { s with record := record, key := key }
  if target.any (· != e.degree) then
    return ⟨.error (.degreeMismatch (target.getD 0) e.degree), s, source⟩
  else
    let (result, key, source) ← s.coordinates layout sequence e verify source
    let s := { s with key := key }
    match result with
    | .error error => return ⟨.error error, s, source⟩
    | .ok outcome =>
      let p ← outcome.parametrization.substituteLinear layout
      let learned := if target.isNone then some e.degree else s.learnedDegree
      return ⟨.ok { outcome with parametrization := p }, { s with learnedDegree := learned }, source⟩

def run (s : Session) (op : α) (layout : VariableLayout) (probe : Array UInt32)
    (target : Option Nat) (source : WordSource) : Checked Reply :=
  match checkInput s.field op layout probe with
  | .error e => .ok ⟨.error e, s, source⟩
  | .ok () => s.runStages op layout probe target source

def randomProbe (s : Session) (op : α) (source : WordSource) : Array UInt32 × WordSource :=
  let (probe, source) := source.many (·.residue s.field) (LinearOperator.dimension op)
  (probe.toArray, source)

def solveFrom (s : Session) (op : α) (layout : VariableLayout) (probe : Array UInt32)
    (source : WordSource) : Checked Reply :=
  s.run op layout probe none source

def solve (s : Session) (op : α) (layout : VariableLayout) (source : WordSource) :
    Checked Reply :=
  let (probe, source) := s.randomProbe op source
  s.run op layout probe none source

/-- Solves a system again at another prime.  A rejected prime leaves everything as it is.
Without a degree to compare with, this is an ordinary run. -/
def replay (s : Session) (op : α) (p : Nat) (layout : VariableLayout) (source : WordSource) :
    Checked Reply :=
  match s.moveTo? p with
  | .error e => .ok ⟨.error e, s, source⟩
  | .ok s =>
    let (probe, source) := s.randomProbe op source
    s.run op layout probe s.learnedDegree source

end Run

end Session

/-- Solves one system over the field of integers modulo `p`, with random words from the seed. -/
def solveSystem {α : Type} [LinearOperator α] (op : α) (p : Nat) (layout : VariableLayout)
    (config : Config) : Checked (Except SolverError Outcome) := do
  match Session.open? p config with
  | .error e => return .error e
  | .ok s => return (← s.solve op layout (.ofSeed config.seed)).result

end ZeroDim
