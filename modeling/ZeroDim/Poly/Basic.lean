import ZeroDim.Field.Basic

/-! # Dense polynomials over a prime field

A polynomial holds its field and its coefficients, low degree first.  All coefficients are
reduced and the last one is not zero, so the zero polynomial is the empty array and two
polynomials are equal exactly when they have the same field and the same coefficients
(`Poly.ext_coeff`).  `Poly.ofCoeffs` is the only constructor in use: every operation computes
some coefficients and hands them over to be reduced and trimmed.

`Poly.coeff` is the view of a polynomial: the coefficient of every power, zero beyond the
length.  An operation on two polynomials takes the field of the first.
-/

set_option autoImplicit false

namespace ZeroDim

def trim (cs : Array UInt32) : Array UInt32 := cs.popWhile (· == 0)

theorem toList_trim (cs : Array UInt32) :
    (trim cs).toList = (cs.toList.reverse.dropWhile (· == 0)).reverse := by
  cases cs with
  | mk l => rw [trim, List.popWhile_toArray]

theorem size_trim_le (cs : Array UInt32) : (trim cs).size ≤ cs.size := by
  have h := (List.dropWhile_sublist (l := cs.toList.reverse) (· == 0)).length_le
  rw [← Array.length_toList, toList_trim]
  simpa using h

theorem mem_of_mem_trim {cs : Array UInt32} {c : UInt32} (h : c ∈ trim cs) : c ∈ cs := by
  rw [← Array.mem_toList_iff, toList_trim, List.mem_reverse] at h
  have := (List.dropWhile_sublist (l := cs.toList.reverse) (· == 0)).subset h
  simpa using this

theorem back?_trim_ne (cs : Array UInt32) : (trim cs).back? ≠ some 0 := by
  rw [← Array.getLast?_toList, toList_trim, List.getLast?_reverse]
  intro h
  have := List.head?_dropWhile_not (fun c : UInt32 => c == 0) cs.toList.reverse
  rw [h] at this
  simp at this

theorem getD_trim (cs : Array UInt32) (i : Nat) : (trim cs).getD i 0 = cs.getD i 0 := by
  suffices h : ∀ l : List UInt32,
      ((l.reverse.dropWhile (· == 0)).reverse)[i]?.getD 0 = l[i]?.getD 0 by
    have := h cs.toList
    rw [← toList_trim] at this
    simpa [Array.getD_eq_getD_getElem?] using this
  intro l
  have hsplit := List.takeWhile_append_dropWhile (p := fun c : UInt32 => c == 0) (l := l.reverse)
  have hl : l = (l.reverse.dropWhile (· == 0)).reverse ++
      (l.reverse.takeWhile (· == 0)).reverse := by
    rw [← List.reverse_append, hsplit, List.reverse_reverse]
  conv => rhs; rw [hl]
  rw [List.getElem?_append]
  split
  · rfl
  · rename_i hi
    rw [List.getElem?_eq_none (by simpa using hi)]
    cases hz : (l.reverse.takeWhile (· == 0)).reverse[i - (l.reverse.dropWhile (· == 0)).reverse.length]? with
    | none => rfl
    | some z =>
      have hmem := List.mem_of_getElem? hz
      rw [List.mem_reverse] at hmem
      have := List.all_takeWhile (p := fun c : UInt32 => c == 0) (l := l.reverse)
      have hz0 : z = 0 := by simpa using List.all_eq_true.mp this z hmem
      simp [hz0]

theorem size_le_of_getD_eq_zero {cs : Array UInt32} (hlast : cs.back? ≠ some 0) {n : Nat}
    (h : ∀ i, n ≤ i → cs.getD i 0 = 0) : cs.size ≤ n := by
  refine Nat.le_of_not_lt fun hn => hlast ?_
  have hlt : cs.size - 1 < cs.size := by omega
  have hz := h (cs.size - 1) (by omega)
  rw [Array.back?_eq_getElem?, Array.getElem?_eq_getElem hlt]
  simpa [Array.getD_eq_getD_getElem?, hlt] using hz

theorem eq_of_getD_eq {cs ds : Array UInt32} (hc : cs.back? ≠ some 0) (hd : ds.back? ≠ some 0)
    (h : ∀ i, cs.getD i 0 = ds.getD i 0) : cs = ds := by
  have hbeyond : ∀ {xs : Array UInt32} {i : Nat}, xs.size ≤ i → xs.getD i 0 = 0 := by
    intro xs i hi
    simp [Array.getD_eq_getD_getElem?, hi]
  have hsize : cs.size = ds.size := Nat.le_antisymm
    (size_le_of_getD_eq_zero hc fun i hi => (h i).trans (hbeyond hi))
    (size_le_of_getD_eq_zero hd fun i hi => (h i).symm.trans (hbeyond hi))
  apply Array.ext hsize
  intro i h₁ h₂
  simpa [Array.getD_eq_getD_getElem?, h₁, h₂] using h i

/-- A polynomial with reduced coefficients and a leading coefficient other than zero. -/
structure Poly where
  field : PrimeField
  coeffs : Array UInt32
  reduced : ∀ c ∈ coeffs, field.Reduced c
  trimmed : coeffs.back? ≠ some 0
deriving DecidableEq

namespace Poly

/-- The polynomial with the given coefficients, which are reduced and trimmed. -/
def ofCoeffs (F : PrimeField) (cs : Array UInt32) : Poly where
  field := F
  coeffs := trim (cs.map F.residue)
  reduced := by
    intro c hc
    obtain ⟨a, -, rfl⟩ := Array.mem_map.mp (mem_of_mem_trim hc)
    exact F.reduced_residue a
  trimmed := back?_trim_ne _

def tabulate (F : PrimeField) (n : Nat) (f : Nat → UInt32) : Poly :=
  ofCoeffs F (Array.ofFn fun i : Fin n => f i)

def ofSigned (F : PrimeField) (cs : Array Int64) : Poly := ofCoeffs F (cs.map F.ofSigned)

def zero (F : PrimeField) : Poly := ofCoeffs F #[]

def constant (F : PrimeField) (c : UInt32) : Poly := ofCoeffs F #[c]

def one (F : PrimeField) : Poly := constant F 1

def x (F : PrimeField) : Poly := ofCoeffs F #[0, 1]

def monomial (F : PrimeField) (c : UInt32) (n : Nat) : Poly :=
  ofCoeffs F (Array.replicate n 0 |>.push c)

/-- The number of coefficients: one more than the degree, and zero for zero. -/
def length (a : Poly) : Nat := a.coeffs.size

def degree? (a : Poly) : Option Nat := if a.length = 0 then none else some (a.length - 1)

/-- The degree, with zero for the zero polynomial. -/
def natDegree (a : Poly) : Nat := a.degree?.getD 0

def isZero (a : Poly) : Bool := a.coeffs.isEmpty

def isOne (a : Poly) : Bool := a.coeffs == #[1]

def leadingCoeff? (a : Poly) : Option UInt32 := a.coeffs.back?

def coeff (a : Poly) (i : Nat) : UInt32 := a.coeffs.getD i 0

/-- The polynomial with the coefficient of `x ^ i` replaced.  A zero beyond the end is there
already. -/
def setCoeff (a : Poly) (i : Nat) (c : UInt32) : Poly :=
  if a.length ≤ i ∧ a.field.residue c = 0 then a
  else tabulate a.field (max a.length (i + 1)) fun j => if j = i then c else a.coeff j

def moveTo (a : Poly) (F : PrimeField) : Poly := ofCoeffs F a.coeffs

def eval (a : Poly) (v : UInt32) : UInt32 :=
  a.coeffs.foldr (fun c acc => a.field.mulAdd c acc v) 0

@[simp] theorem field_ofCoeffs (F : PrimeField) (cs : Array UInt32) : (ofCoeffs F cs).field = F :=
  rfl

@[simp] theorem field_tabulate (F : PrimeField) (n : Nat) (f : Nat → UInt32) :
    (tabulate F n f).field = F := rfl

theorem coeff_ofCoeffs (F : PrimeField) (cs : Array UInt32) (i : Nat) :
    (ofCoeffs F cs).coeff i = F.residue (cs.getD i 0) := by
  have hz : F.residue 0 = 0 := PrimeField.residue_of_reduced F.reduced_zero
  rw [coeff, ofCoeffs, getD_trim]
  simp only [Array.getD_eq_getD_getElem?, Array.getElem?_map]
  cases cs[i]? <;> simp [hz]

theorem coeff_tabulate (F : PrimeField) (n : Nat) (f : Nat → UInt32) (i : Nat) :
    (tabulate F n f).coeff i = if i < n then F.residue (f i) else 0 := by
  have hz : F.residue 0 = 0 := PrimeField.residue_of_reduced F.reduced_zero
  rw [tabulate, coeff_ofCoeffs, Array.getD_eq_getD_getElem?, Array.getElem?_ofFn]
  split <;> simp [*]

theorem length_ofCoeffs_le (F : PrimeField) (cs : Array UInt32) :
    (ofCoeffs F cs).length ≤ cs.size := by
  have := size_trim_le (cs.map F.residue)
  simpa [length, ofCoeffs] using this

theorem length_tabulate_le (F : PrimeField) (n : Nat) (f : Nat → UInt32) :
    (tabulate F n f).length ≤ n := by
  simpa [tabulate] using length_ofCoeffs_le F (Array.ofFn fun i : Fin n => f i)

theorem coeff_eq_zero_of_length_le {a : Poly} {i : Nat} (h : a.length ≤ i) : a.coeff i = 0 := by
  have : a.coeffs[i]? = none := Array.getElem?_eq_none h
  simp [coeff, Array.getD_eq_getD_getElem?, this]

theorem reduced_coeff (a : Poly) (i : Nat) : a.field.Reduced (a.coeff i) := by
  rw [coeff, Array.getD_eq_getD_getElem?]
  cases h : a.coeffs[i]? with
  | none => exact a.field.reduced_zero
  | some c => exact a.reduced c (Array.mem_of_getElem? h)

theorem length_eq_zero_iff {a : Poly} : a.length = 0 ↔ a.isZero = true := by
  simp [length, isZero]

theorem coeff_length_sub_one_ne {a : Poly} (h : 0 < a.length) : a.coeff (a.length - 1) ≠ 0 := by
  intro hc
  have hlt : a.coeffs.size - 1 < a.coeffs.size := Nat.sub_lt h Nat.one_pos
  apply a.trimmed
  rw [Array.back?_eq_getElem?, Array.getElem?_eq_getElem hlt]
  simpa [coeff, length, Array.getD_eq_getD_getElem?, hlt] using hc

theorem ext_coeff {a b : Poly} (hF : a.field = b.field) (h : ∀ i, a.coeff i = b.coeff i) :
    a = b := by
  have hcs : a.coeffs = b.coeffs := eq_of_getD_eq a.trimmed b.trimmed h
  cases a
  cases b
  simp only at hF hcs
  subst hF
  subst hcs
  rfl

end Poly

end ZeroDim
