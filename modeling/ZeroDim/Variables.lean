import ZeroDim.Fault

/-! # Variables and their places in the basis

The variables are `x_0, ..., x_{n-1}`, and the last one is the separating variable `t`.  The
basis of the quotient starts with `1` and `t`, followed by the other variables that are not
linear, highest first.  A linear variable is given by an equation

  `x_k = c_t t + c_0 - sum of c_j x_j over j > k`

stored as `n + 1` words: the coefficients of `x_0, ..., x_{n-2}` with `c_k = 1`, then `c_t`, then
`c_0`.  When every variable is linear, one more equation gives the single value of `t`.

For the check of a parametrization, the basis index of the square of a variable may be known.
-/

set_option autoImplicit false

namespace ZeroDim

inductive LayoutError where
  | noVariable
  | flagCount (expected linear squares : Nat)
  | coefficientCount (found expected : Nat)
  | equationCount (equations linear : Nat)
  | ownCoefficient (equation owner : Nat)
  | squareCount (expected found : Nat)
  | allLinear (dimension : Nat)
  | variableOutside (index place dimension : Nat)
  | squareOutside (index place dimension : Nat)
deriving DecidableEq, Repr

def LayoutError.message : LayoutError → String
  | .noVariable => "at least one variable is required"
  | .flagCount expected linear squares =>
    s!"linvars and squvars need {expected} entries, got {linear} and {squares}"
  | .coefficientCount found expected => s!"lineqs has {found} entries, expected {expected}"
  | .equationCount equations linear =>
    s!"{equations} linear equations for {linear} linear variables"
  | .ownCoefficient equation k => s!"equation {equation} does not have coefficient 1 on x_{k}"
  | .squareCount expected found => s!"squvars needs {expected} entries, got {found}"
  | .allLinear dimension =>
    s!"every variable is linear but the quotient has dimension {dimension}"
  | .variableOutside k place dimension =>
    s!"x_{k} sits at basis index {place} outside of [0, {dimension})"
  | .squareOutside k place dimension =>
    s!"x_{k}^2 sits at basis index {place} outside of [0, {dimension})"

structure LayoutParts where
  variableCount : Nat
  equations : Nat
  /-- Which of the variables other than `t` are linear. -/
  linear : Array Bool
  coefficients : Array UInt32
  /-- The basis indices of the squares of the variables other than `t`. -/
  squares : Array (Option Nat)
deriving DecidableEq

namespace LayoutParts

def equationWidth (l : LayoutParts) : Nat := l.variableCount + 1

def linearVariables (l : LayoutParts) : List Nat :=
  l.linear.toList.zipIdx.filterMap fun (flag, i) => if flag then some i else none

/-- Whether `t` has an equation too. -/
def allLinear (l : LayoutParts) : Bool := l.equations == l.variableCount

/-- The variables that own an equation, in the order of the equations. -/
def owners (l : LayoutParts) : List Nat :=
  if l.allLinear then l.linearVariables ++ [l.variableCount - 1] else l.linearVariables

def equationDefect (l : LayoutParts) : Option LayoutError :=
  let count := l.linearVariables.length
  if l.coefficients.size ≠ l.equations * l.equationWidth then
    some (.coefficientCount l.coefficients.size (l.equations * l.equationWidth))
  else if l.equations ≠ count ∧ ¬(l.allLinear = true ∧ count = l.variableCount - 1) then
    some (.equationCount l.equations count)
  else
    let unowned := l.owners.zipIdx.find? fun (k, r) =>
      l.coefficients.getD (r * l.equationWidth + k) 0 ≠ 1
    unowned.map fun (k, r) => .ownCoefficient r k

def defect (l : LayoutParts) : Option LayoutError :=
  if l.variableCount = 0 then some .noVariable
  else if l.linear.size ≠ l.variableCount - 1 ∨ l.squares.size ≠ l.variableCount - 1 then
    some (.flagCount (l.variableCount - 1) l.linear.size l.squares.size)
  else l.equationDefect

theorem defect_eq_none_iff (l : LayoutParts) : l.defect = none ↔ l.variableCount ≠ 0 ∧
    (l.linear.size = l.variableCount - 1 ∧ l.squares.size = l.variableCount - 1) ∧
      l.equationDefect = none := by
  unfold defect
  split
  · rename_i hzero
    simp [hzero]
  · rename_i hpos
    split
    · rename_i hsizes
      simp only [reduceCtorEq, false_iff, not_and]
      intro _ h
      omega
    · rename_i hsizes
      simp only [hpos, ne_eq, not_false_eq_true, true_and]
      exact (and_iff_right (by omega)).symm

end LayoutParts

structure VariableLayout where
  parts : LayoutParts
  intact : parts.defect = none
deriving DecidableEq

/-- A variable that is read off the vectors of a Krylov sequence. -/
structure TrackedVariable where
  index : Nat
  /-- The column of the sequence table that holds its stream; column zero is that of `1`. -/
  column : Nat
  basisIndex : Nat
  /-- The index of its square, when that is a basis monomial. -/
  squareIndex : Option Nat
deriving DecidableEq

namespace VariableLayout

def ofParts (l : LayoutParts) : Except LayoutError VariableLayout :=
  match h : l.defect with
  | some e => .error e
  | none => .ok ⟨l, h⟩

def genericParts (n : Nat) : LayoutParts where
  variableCount := n
  equations := 0
  linear := Array.replicate (n - 1) false
  coefficients := #[]
  squares := Array.replicate (n - 1) none

theorem linearVariables_genericParts (n : Nat) : (genericParts n).linearVariables = [] := by
  rw [LayoutParts.linearVariables, List.filterMap_eq_nil_iff]
  intro (flag, i) h
  have hmem : flag ∈ List.replicate (n - 1) false := by
    simpa [genericParts] using List.fst_mem_of_mem_zipIdx h
  simp [List.eq_of_mem_replicate hmem]

theorem defect_genericParts {n : Nat} (h : 0 < n) : (genericParts n).defect = none := by
  have hn : n ≠ 0 := by omega
  have hl := linearVariables_genericParts n
  have ha : (genericParts n).allLinear = false := by
    simp [LayoutParts.allLinear, genericParts, Ne.symm hn]
  simp [LayoutParts.defect, LayoutParts.equationDefect, LayoutParts.owners, hl, ha,
    LayoutParts.equationWidth]
  simp [genericParts, hn]

/-- At least one variable, none of them linear, without squares. -/
def generic (n : Nat) : VariableLayout :=
  ⟨genericParts (max n 1), defect_genericParts (Nat.lt_of_lt_of_le Nat.one_pos (Nat.le_max_right n 1))⟩

theorem variableCount_pos (l : VariableLayout) : 0 < l.parts.variableCount :=
  Nat.pos_of_ne_zero (l.parts.defect_eq_none_iff.mp l.intact).1

theorem equationDefect_eq_none (l : VariableLayout) : l.parts.equationDefect = none :=
  (l.parts.defect_eq_none_iff.mp l.intact).2.2

theorem size_linear (l : VariableLayout) : l.parts.linear.size = l.parts.variableCount - 1 :=
  (l.parts.defect_eq_none_iff.mp l.intact).2.1.1

def withSquares (l : VariableLayout) (squares : Array (Option Nat)) :
    Except LayoutError VariableLayout :=
  if h : squares.size = l.parts.variableCount - 1 then
    .ok ⟨{ l.parts with squares := squares }, by
      have h₀ : l.parts.variableCount ≠ 0 := Nat.pos_iff_ne_zero.mp l.variableCount_pos
      have h₁ : ({ l.parts with squares := squares } : LayoutParts).equationDefect = none :=
        l.equationDefect_eq_none
      simp [LayoutParts.defect, h₀, h, h₁, l.size_linear]⟩
  else .error (.squareCount (l.parts.variableCount - 1) squares.size)

def variableCount (l : VariableLayout) : Nat := l.parts.variableCount

def linearVariables (l : VariableLayout) : List Nat := l.parts.linearVariables

def allLinear (l : VariableLayout) : Bool := l.parts.allLinear

/-- The columns of a sequence table: one for `1` and one for each variable that is tracked. -/
def blockSize (l : VariableLayout) : Nat := 1 + l.parts.linear.countP (!·)

def equation (l : VariableLayout) (r : Nat) : Checked (Array UInt32) :=
  segment l.parts.coefficients (r * l.parts.equationWidth) ((r + 1) * l.parts.equationWidth)

def nonlinearVariables (l : VariableLayout) : List Nat :=
  (List.range (l.variableCount - 1)).reverse.filter fun i => !l.parts.linear.getD i false

/-- The variables other than `t` that are not linear, highest first, with their places. -/
def tracked (l : VariableLayout) : List TrackedVariable :=
  l.nonlinearVariables.zipIdx.map fun (k, j) =>
    { index := k, column := j + 1, basisIndex := j + 2, squareIndex := l.parts.squares.getD k none }

def placeDefect (dimension : Nat) (v : TrackedVariable) : Option LayoutError :=
  if dimension ≤ v.basisIndex then some (.variableOutside v.index v.basisIndex dimension)
  else
    match v.squareIndex with
    | some square =>
      if dimension ≤ square then some (.squareOutside v.index square dimension) else none
    | none => none

def checkDimension (l : VariableLayout) (dimension : Nat) : Except LayoutError Unit :=
  if l.allLinear = true ∧ dimension ≠ 1 then .error (.allLinear dimension)
  else
    match l.tracked.findSome? (placeDefect dimension) with
    | some e => .error e
    | none => .ok ()

end VariableLayout

end ZeroDim
