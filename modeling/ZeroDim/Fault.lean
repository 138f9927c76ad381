/-! # Faults

A fault is a broken precondition: a position outside a vector, a division by the zero
polynomial, a probe of the wrong length, a size that no word holds.  It is kept apart from the
errors that a solver reports about its input, and every operation that can meet one answers in
`Checked`, so that "no fault arises" is a statement about a value.
-/

set_option autoImplicit false

namespace ZeroDim

inductive Fault where
  /-- A polynomial was divided by zero. -/
  | zeroDivisor
  /-- The probe does not have the operator's dimension. -/
  | probeLength
  /-- A column of `length` entries was asked of a table of `rows` rows. -/
  | columnTooLong (length rows : Nat)
  /-- A vector was read or written outside of its positions. -/
  | outOfRange
  /-- A size does not fit into a word. -/
  | overflow
deriving DecidableEq, Repr

/-- The text of a fault; positions and sizes out of range have none. -/
def Fault.message : Fault → Option String
  | .zeroDivisor => some "division by zero polynomial"
  | .probeLength => some "probe vector has the wrong length"
  | .columnTooLong length rows => some s!"column of length {length} in {rows} rows"
  | .outOfRange | .overflow => none

/-- A value, or the fault that prevented it. -/
abbrev Checked := Except Fault

@[simp] theorem ok_bind {α β : Type} (a : α) (f : α → Checked β) :
    ((.ok a : Checked α) >>= f) = f a := rfl

theorem bind_eq_ok {α β : Type} {x : Checked α} {f : α → Checked β} {b : β} :
    (x >>= f) = .ok b ↔ ∃ a, x = .ok a ∧ f a = .ok b := by
  cases x with
  | ok a => simp
  | error fault =>
    constructor
    · intro h
      contradiction
    · rintro ⟨a, h, -⟩
      contradiction

theorem map_eq_ok {α β : Type} {x : Checked α} {f : α → β} {b : β} :
    x.map f = .ok b ↔ ∃ a, x = .ok a ∧ f a = b := by
  cases x <;> simp [Except.map]

section Vectors
variable {α : Type}

def entryAt (xs : Array α) (i : Nat) : Checked α :=
  match xs[i]? with
  | some x => .ok x
  | none => .error .outOfRange

def writeAt (xs : Array α) (i : Nat) (x : α) : Checked (Array α) :=
  if h : i < xs.size then .ok (xs.set i x h) else .error .outOfRange

def segment (xs : Array α) (lo hi : Nat) : Checked (Array α) :=
  if lo ≤ hi ∧ hi ≤ xs.size then .ok (xs.extract lo hi) else .error .outOfRange

theorem entryAt_eq_ok {xs : Array α} {i : Nat} (h : i < xs.size) : entryAt xs i = .ok xs[i] := by
  simp [entryAt, h]

theorem entryAt_eq_ok_iff {xs : Array α} {i : Nat} {x : α} :
    entryAt xs i = .ok x ↔ xs[i]? = some x := by
  unfold entryAt
  cases xs[i]? <;> simp

theorem writeAt_eq_ok {xs : Array α} {i : Nat} (x : α) (h : i < xs.size) :
    writeAt xs i x = .ok (xs.set i x h) := by
  simp [writeAt, h]

theorem segment_eq_ok {xs : Array α} {lo hi : Nat} (h₁ : lo ≤ hi) (h₂ : hi ≤ xs.size) :
    segment xs lo hi = .ok (xs.extract lo hi) := by
  simp [segment, h₁, h₂]

theorem segment_eq_ok_iff {xs ys : Array α} {lo hi : Nat} :
    segment xs lo hi = .ok ys ↔ (lo ≤ hi ∧ hi ≤ xs.size) ∧ xs.extract lo hi = ys := by
  unfold segment
  split <;> simp [*]

end Vectors

end ZeroDim
