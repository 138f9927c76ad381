import ZeroDim.Operator.Basic

/-! # Multiplication matrices of quotient rings

Row `r` of the matrix of multiplication by the separating variable `t` holds the coordinates of
`t` times the `r`-th basis monomial.  Mostly this product is a basis monomial again and the row a
unit vector, which is stored as two indices: the coordinate it writes and the coordinate it
copies.  The other rows form a dense block.

A matrix is accepted when no defect is found: every coordinate is written by exactly one row.
`MatrixParts.defect` gives the first defect, in the order dimension, lengths, ranges, coordinates
written twice.  `MatrixParts.accept` does the same in machine words, where the size that the dense
block has to have may overflow.
-/

set_option autoImplicit false

namespace ZeroDim

/-- What arithmetic on sizes does when a word does not hold the result. -/
inductive Overflow where
  | stops
  | wraps
deriving DecidableEq, Repr

def Overflow.product (overflow : Overflow) (bits a b : Nat) : Checked Nat :=
  if a * b < 1 <<< bits then .ok (a * b)
  else
    match overflow with
    | .stops => .error .overflow
    | .wraps => .ok (a * b % (1 <<< bits))

structure MatrixParts where
  dimension : Nat
  /-- The dense rows, one after the other. -/
  dense : Array UInt32
  /-- The coordinates written by the unit rows. -/
  unitTargets : Array Nat
  /-- The coordinates copied by the unit rows. -/
  unitSources : Array Nat
  /-- The coordinates written by the dense rows. -/
  denseTargets : Array Nat
deriving DecidableEq

def lengthDefect (what : OperatorPart) (expected found : Nat) : Option OperatorError :=
  if expected = found then none else some (.lengthMismatch what expected found)

def rangeDefect (what : OperatorPart) (indices : Array Nat) (dimension : Nat) :
    Option OperatorError :=
  (indices.find? fun i => dimension ≤ i).map fun i => .indexOutOfRange what i dimension

/-- The first entry that occurred before, among the entries and those already seen. -/
def firstRepeated (seen : List Nat) : List Nat → Option Nat
  | [] => none
  | i :: rest => if i ∈ seen then some i else firstRepeated (i :: seen) rest

namespace MatrixParts

def denseRows (m : MatrixParts) : Nat := m.denseTargets.size

def denseRow (m : MatrixParts) (r : Nat) : Array UInt32 :=
  m.dense.extract (r * m.dimension) ((r + 1) * m.dimension)

/-- The coordinates written by all rows, unit rows first. -/
def targets (m : MatrixParts) : List Nat := m.unitTargets.toList ++ m.denseTargets.toList

def countDefect (m : MatrixParts) : Option OperatorError :=
  if m.dimension = 0 then some .empty
  else if m.dimension < m.denseRows then
    some (.lengthMismatch .denseTargets m.dimension m.denseRows)
  else none

/-- The first thing that is wrong with the vectors, when the dense block has to have the given
size. -/
def vectorDefect (m : MatrixParts) (denseSize : Nat) : Option OperatorError :=
  lengthDefect .denseBlock denseSize m.dense.size
    <|> lengthDefect .unitTargets (m.dimension - m.denseRows) m.unitTargets.size
    <|> lengthDefect .unitSources (m.dimension - m.denseRows) m.unitSources.size
    <|> rangeDefect .unitSources m.unitSources m.dimension
    <|> rangeDefect .unitTargets m.unitTargets m.dimension
    <|> rangeDefect .denseTargets m.denseTargets m.dimension
    <|> (firstRepeated [] m.targets).map .notAPartition

/-- The first thing that is wrong with the data. -/
def defect (m : MatrixParts) : Option OperatorError :=
  m.countDefect <|> m.vectorDefect (m.denseRows * m.dimension)

/-- The first thing that is wrong with the data in words of the given number of bits.  The size of
the dense block is computed between the counts and the vectors. -/
def wordDefect (overflow : Overflow) (bits : Nat) (m : MatrixParts) :
    Checked (Option OperatorError) :=
  match m.countDefect with
  | some e => .ok (some e)
  | none => (overflow.product bits m.denseRows m.dimension).map m.vectorDefect

/-- The data as they are, if nothing is wrong with them. -/
def accept (overflow : Overflow) (bits : Nat) (m : MatrixParts) :
    Checked (Except OperatorError MatrixParts) :=
  (m.wordDefect overflow bits).map fun
    | some e => .error e
    | none => .ok m

end MatrixParts

structure MultiplicationMatrix where
  parts : MatrixParts
  intact : parts.defect = none
  /-- From this number of dense rows on, all products are gathered before any is written. -/
  gatherFrom : Nat
deriving DecidableEq

/-- The `k` for which the row is the unit vector at `k`. -/
def unitPosition? (row : Array UInt32) : Option Nat :=
  match row.toList.zipIdx.filter fun (c, _) => c ≠ 0 with
  | [(c, k)] => if c = 1 then some k else none
  | _ => none

namespace MultiplicationMatrix

def defaultGatherFrom : Nat := 64

/-- A number of rows that no matrix reaches. -/
def neverGather : Nat := 1 <<< 64 - 1

def ofParts (m : MatrixParts) : Except OperatorError MultiplicationMatrix :=
  match h : m.defect with
  | some e => .error e
  | none => .ok ⟨m, h, defaultGatherFrom⟩

/-- The data of a list of full rows: unit vectors become unit rows. -/
def partsOfRows (rows : Array (Array UInt32)) : MatrixParts where
  dimension := rows.size
  dense := (rows.filter fun row => (unitPosition? row).isNone).flatten
  unitTargets := rows.zipIdx.filterMap fun (row, r) => (unitPosition? row).map fun _ => r
  unitSources := rows.filterMap unitPosition?
  denseTargets := rows.zipIdx.filterMap fun (row, r) =>
    if (unitPosition? row).isNone then some r else none

def ofRows (rows : Array (Array UInt32)) : Except OperatorError MultiplicationMatrix :=
  match rows.find? fun row => row.size ≠ rows.size with
  | some row => .error (.lengthMismatch .row rows.size row.size)
  | none => ofParts (partsOfRows rows)

def withGatherFrom (M : MultiplicationMatrix) (rows : Nat) : MultiplicationMatrix :=
  { M with gatherFrom := rows }

def dimension (M : MultiplicationMatrix) : Nat := M.parts.dimension

def zeroEntries (M : MultiplicationMatrix) : Nat := M.parts.dense.countP (· == 0)

/-- The share of entries other than zero in the dense block, and one for an empty block. -/
def density (M : MultiplicationMatrix) : Float :=
  let size := M.parts.dense.size
  if size = 0 then 1.0 else (size - M.zeroEntries).toFloat / size.toFloat

def unitValues (M : MultiplicationMatrix) (src : Array UInt32) : Checked (List UInt32) :=
  M.parts.unitSources.toList.mapM (entryAt src)

def denseValues (M : MultiplicationMatrix) (F : PrimeField) (src : Array UInt32) : Array UInt32 :=
  Array.ofFn fun r : Fin M.parts.denseRows => F.dot (M.parts.denseRow r) src

def writeDense (M : MultiplicationMatrix) (F : PrimeField) (src : Array UInt32) :
    Nat → List Nat → Array UInt32 → Checked (Array UInt32)
  | _, [], dst => .ok dst
  | r, i :: targets, dst => do
    writeDense M F src (r + 1) targets (← writeAt dst i (F.dot (M.parts.denseRow r) src))

/-- The product with `src`, written over `dst`.  Many dense rows are first gathered in the
scratch space. -/
def applyWithScratch (M : MultiplicationMatrix) (F : PrimeField) (src dst scratch : Array UInt32) :
    Checked (Array UInt32 × Array UInt32) := do
  let m := M.parts
  let dst ← scatter (m.unitTargets.toList.zip (← M.unitValues src)) dst
  if m.denseRows = 0 then
    return (dst, scratch)
  else if M.gatherFrom ≤ m.denseRows then
    let gathered := M.denseValues F src
    return (← scatter (m.denseTargets.toList.zip gathered.toList) dst, gathered)
  else
    return (← M.writeDense F src 0 m.denseTargets.toList dst, scratch)

/-- The first entry of the dense block that is not reduced. -/
def checkField (M : MultiplicationMatrix) (F : PrimeField) : Except OperatorError Unit :=
  match M.parts.dense.toList.zipIdx.find? fun (c, _) => F.modulus ≤ c with
  | some (c, i) => .error (.unreducedEntry (i / M.dimension) c F.modulus)
  | none => .ok ()

instance : LinearOperator MultiplicationMatrix where
  dimension := dimension
  apply M F src dst := do return (← M.applyWithScratch F src dst #[]).1
  applyWithScratch := applyWithScratch
  checkField := checkField

end MultiplicationMatrix

end ZeroDim
