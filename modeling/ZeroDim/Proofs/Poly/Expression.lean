import Mathlib
import ZeroDim.Proofs.Poly.Stored

/-! # Expressions over a prime field

An expression is a way to come to a polynomial over one field, from words, by the public operations.
It has three readings: the polynomial that the library computes, the vector of coefficients that the
operations on vectors leave behind, and the polynomial of the ring that the operations stand for.

The three agree for every expression.  The vector is always reduced and never ends in zero, so that
equal vectors and equal polynomials are the same thing. -/

set_option autoImplicit false

namespace ZeroDim

open Polynomial PrimeField

/-- A polynomial over a field built by the public operations.  Only a change of field leads from
another field to this one.  Constants and the indeterminate are given by their words. -/
inductive Expression : PrimeField → Type where
  | ofWords {F : PrimeField} (cs : Array UInt32) : Expression F
  | ofSigned {F : PrimeField} (cs : Array Int64) : Expression F
  | monomial {F : PrimeField} (c : UInt32) (n : ℕ) : Expression F
  | setCoeff {F : PrimeField} (e : Expression F) (i : ℕ) (c : UInt32) : Expression F
  | reset {F : PrimeField} (e : Expression F) : Expression F
  | moveTo {G : PrimeField} (F : PrimeField) (e : Expression G) : Expression F
  | add {F : PrimeField} (e e' : Expression F) : Expression F
  | sub {F : PrimeField} (e e' : Expression F) : Expression F
  | neg {F : PrimeField} (e : Expression F) : Expression F
  | scale {F : PrimeField} (e : Expression F) (c : UInt32) : Expression F
  | mul {F : PrimeField} (e e' : Expression F) : Expression F
  | mulLow {F : PrimeField} (e e' : Expression F) (n : ℕ) : Expression F
  | truncate {F : PrimeField} (e : Expression F) (n : ℕ) : Expression F
  | shiftUp {F : PrimeField} (e : Expression F) (n : ℕ) : Expression F
  | shiftDown {F : PrimeField} (e : Expression F) (n : ℕ) : Expression F
  | mirror {F : PrimeField} (e : Expression F) (n : ℕ) : Expression F
  | derivative {F : PrimeField} (e : Expression F) : Expression F
  | monic {F : PrimeField} (e : Expression F) : Expression F
  | pow {F : PrimeField} (e : Expression F) (n : ℕ) : Expression F
  | frobeniusRoot {F : PrimeField} (e : Expression F) : Expression F

namespace Expression

def value : {F : PrimeField} → Expression F → Poly
  | F, ofWords cs => .ofCoeffs F cs
  | F, ofSigned cs => .ofSigned F cs
  | F, monomial c n => .monomial F c n
  | _, setCoeff e i c => e.value.setCoeff i c
  | F, reset _ => .zero F
  | _, moveTo F e => e.value.moveTo F
  | _, add e e' => e.value + e'.value
  | _, sub e e' => e.value - e'.value
  | _, neg e => -e.value
  | _, scale e c => e.value.scale c
  | _, mul e e' => e.value * e'.value
  | _, mulLow e e' n => e.value.mulLow e'.value n
  | _, truncate e n => e.value.truncate n
  | _, shiftUp e n => e.value.shiftUp n
  | _, shiftDown e n => e.value.shiftDown n
  | _, mirror e n => e.value.mirror n
  | _, derivative e => e.value.derivative
  | _, monic e => e.value.monic
  | _, pow e n => e.value ^ n
  | _, frobeniusRoot e => e.value.frobeniusRoot

/-- The coefficients that the operations on vectors leave behind. -/
def stored : {F : PrimeField} → Expression F → Array UInt32
  | F, ofWords cs => Stored.normalize F cs
  | F, ofSigned cs => Stored.normalize F (cs.map F.ofSigned)
  | F, monomial c n => Stored.normalize F ((Array.replicate n 0).push c)
  | F, setCoeff e i c => Stored.setCoeff F e.stored i c
  | _, reset _ => #[]
  | _, moveTo F e => Stored.normalize F e.stored
  | F, add e e' => Stored.add F e.stored e'.stored
  | F, sub e e' => Stored.sub F e.stored e'.stored
  | F, neg e => Stored.neg F e.stored
  | F, scale e c => Stored.scale F e.stored c
  | F, mul e e' => Stored.mul F e.stored e'.stored
  | F, mulLow e e' n => Stored.mulLow F e.stored e'.stored n
  | F, truncate e n => Stored.truncate F e.stored n
  | _, shiftUp e n => Stored.shiftUp e.stored n
  | _, shiftDown e n => Stored.shiftDown e.stored n
  | F, mirror e n => Stored.mirror F e.stored n
  | F, derivative e => Stored.derivative F e.stored
  | F, monic e => Stored.monic F e.stored
  | F, pow e n => Stored.pow F e.stored n
  | F, frobeniusRoot e => Stored.frobeniusRoot F e.stored

noncomputable def meaning : {F : PrimeField} → Expression F → F.Element[X]
  | F, ofWords cs => ∑ i ∈ Finset.range cs.size, C (F.value (cs.getD i 0)) * X ^ i
  | F, ofSigned cs => ∑ i ∈ Finset.range cs.size, C ((cs.getD i 0).toInt : F.Element) * X ^ i
  | F, monomial c n => C (F.value c) * X ^ n
  | F, setCoeff e i c => e.meaning.update i (F.value c)
  | _, reset _ => 0
  | _, moveTo F e => F.transport e.meaning
  | _, add e e' => e.meaning + e'.meaning
  | _, sub e e' => e.meaning - e'.meaning
  | _, neg e => -e.meaning
  | F, scale e c => e.meaning * C (F.value c)
  | _, mul e e' => e.meaning * e'.meaning
  | _, mulLow e e' n => e.meaning * e'.meaning % X ^ n
  | _, truncate e n => e.meaning % X ^ n
  | _, shiftUp e n => e.meaning * X ^ n
  | _, shiftDown e n => e.meaning / X ^ n
  | _, mirror e n => reflect (n - 1) (e.meaning % X ^ n)
  | _, derivative e => Polynomial.derivative e.meaning
  | _, monic e => e.meaning * C e.meaning.leadingCoeff⁻¹
  | _, pow e n => e.meaning ^ n
  | F, frobeniusRoot e => contract F.modulus.toNat e.meaning

variable {F : PrimeField}

theorem field_value (e : Expression F) : e.value.field = F := by
  induction e with
  | ofWords cs => rfl
  | ofSigned cs => rfl
  | monomial c n => rfl
  | setCoeff e i c ih => exact (Poly.field_setCoeff _ i c).trans ih
  | reset e ih => rfl
  | moveTo F e ih => rfl
  | add e e' ih ih' => exact ih
  | sub e e' ih ih' => exact ih
  | neg e ih => exact ih
  | scale e c ih => exact ih
  | mul e e' ih ih' => exact ih
  | mulLow e e' n ih ih' => exact ih
  | truncate e n ih => exact ih
  | shiftUp e n ih => exact (Poly.field_shiftUp _ n).trans ih
  | shiftDown e n ih => exact ih
  | mirror e n ih => exact ih
  | derivative e ih => exact ih
  | monic e ih => exact (Poly.field_monic _).trans ih
  | pow e n ih => exact (Poly.toPolynomial_pow ih n).1
  | frobeniusRoot e ih => exact ih

/-- The vectors hold the coefficients of the polynomials, so what is not trimmed is trim. -/
theorem coeffs_value (e : Expression F) : e.value.coeffs = e.stored := by
  induction e with
  | ofWords cs => rfl
  | ofSigned cs => rfl
  | monomial c n => rfl
  | setCoeff e i c ih => rw [value, stored, Stored.coeffs_setCoeff, field_value, ih]
  | @reset F e ih => exact Stored.normalize_empty F
  | moveTo F e ih => exact congrArg (Stored.normalize F) ih
  | add e e' ih ih' =>
    rw [stored, ← ih, ← ih']
    exact congrArg (Stored.add · e.value.coeffs e'.value.coeffs) e.field_value
  | sub e e' ih ih' =>
    rw [stored, ← ih, ← ih']
    exact congrArg (Stored.sub · e.value.coeffs e'.value.coeffs) e.field_value
  | neg e ih => rw [value, stored, Stored.coeffs_neg, field_value, ih]
  | scale e c ih => rw [value, stored, Stored.coeffs_scale, field_value, ih]
  | mul e e' ih ih' => rw [value, stored, Stored.coeffs_mul, field_value, ih, ih']
  | mulLow e e' n ih ih' => rw [value, stored, Stored.coeffs_mulLow, field_value, ih, ih']
  | truncate e n ih =>
    rw [stored, ← ih]
    exact congrArg (Stored.truncate · e.value.coeffs n) e.field_value
  | shiftUp e n ih => rw [value, stored, Stored.coeffs_shiftUp, ih]
  | shiftDown e n ih => rw [value, stored, Stored.coeffs_shiftDown, ih]
  | mirror e n ih => rw [value, stored, Stored.coeffs_mirror, field_value, ih]
  | derivative e ih => rw [value, stored, Stored.coeffs_derivative, field_value, ih]
  | monic e ih => rw [value, stored, Stored.coeffs_monic, field_value, ih]
  | pow e n ih => rw [value, stored, Stored.coeffs_pow, field_value, ih]
  | frobeniusRoot e ih => rw [value, stored, Stored.coeffs_frobeniusRoot, field_value, ih]

theorem toPolynomial_value (e : Expression F) : e.value.toPolynomial F = e.meaning := by
  induction e with
  | ofWords cs => exact Poly.toPolynomial_ofCoeffs _ cs
  | ofSigned cs => exact Poly.toPolynomial_ofSigned _ cs
  | monomial c n => exact Poly.toPolynomial_monomial _ c n
  | setCoeff e i c ih => rw [value, meaning, Poly.toPolynomial_setCoeff e.field_value, ih]
  | @reset F e ih => exact Poly.toPolynomial_zero F
  | moveTo F e ih => rw [value, meaning, Poly.toPolynomial_moveTo e.field_value, ih]
  | add e e' ih ih' =>
    rw [value, meaning, Poly.toPolynomial_add e.field_value e'.field_value, ih, ih']
  | sub e e' ih ih' =>
    rw [value, meaning, Poly.toPolynomial_sub e.field_value e'.field_value, ih, ih']
  | neg e ih => rw [value, meaning, Poly.toPolynomial_neg e.field_value, ih]
  | scale e c ih => rw [value, meaning, Poly.toPolynomial_scale e.field_value, ih]
  | mul e e' ih ih' =>
    rw [value, meaning, Poly.toPolynomial_mul e.field_value e'.field_value, ih, ih']
  | mulLow e e' n ih ih' =>
    rw [value, meaning, Poly.toPolynomial_mulLow e.field_value e'.field_value, ih, ih']
  | truncate e n ih => rw [value, meaning, Poly.toPolynomial_truncate, ih]
  | shiftUp e n ih => rw [value, meaning, Poly.toPolynomial_shiftUp e.field_value, ih]
  | shiftDown e n ih => rw [value, meaning, Poly.toPolynomial_shiftDown, ih]
  | mirror e n ih => rw [value, meaning, Poly.toPolynomial_mirror, ih]
  | derivative e ih => rw [value, meaning, Poly.toPolynomial_derivative e.field_value, ih]
  | monic e ih => rw [value, meaning, Poly.toPolynomial_monic e.field_value, ih]
  | pow e n ih => rw [value, meaning, (Poly.toPolynomial_pow e.field_value n).2, ih]
  | frobeniusRoot e ih => rw [value, meaning, Poly.toPolynomial_frobeniusRoot e.field_value, ih]

theorem stored_eq_iff (e e' : Expression F) : e.stored = e'.stored ↔ e.meaning = e'.meaning := by
  rw [← e.toPolynomial_value, ← e'.toPolynomial_value, ← e.coeffs_value, ← e'.coeffs_value,
    Poly.toPolynomial_inj e.field_value e'.field_value]
  constructor
  · intro h
    apply Poly.ext_coeff (e.field_value.trans e'.field_value.symm)
    intro i
    rw [Poly.coeff, Poly.coeff, h]
  · intro h
    rw [h]

theorem value_getD_stored (e : Expression F) (i : ℕ) :
    F.value (e.stored.getD i 0) = e.meaning.coeff i := by
  rw [← e.coeffs_value, ← e.toPolynomial_value, Poly.coeff_toPolynomial, Poly.coeff]

theorem getD_stored_mirror (e : Expression F) (n i : ℕ) :
    (e.mirror n).stored.getD i 0 = if i < n then e.stored.getD (n - 1 - i) 0 else 0 := by
  rw [← coeffs_value, ← e.coeffs_value]
  exact Poly.coeff_mirror e.value n i

/-- The coefficients that any operations over a field leave behind are reduced and do not end in
zero, hence equal exactly for equal polynomials.  They are those of the library's polynomial, and of
the polynomial that the same operations give in the ring.  Evaluation is the homomorphism at the
point, mirroring turns the first coefficients round, and the root takes a `p`-th power back. -/
theorem stored_faithful (e : Expression F) :
    F.AllReduced e.stored ∧ e.stored.back? ≠ some 0 ∧ (e.stored = #[] ↔ e.meaning = 0) ∧
      (∀ e' : Expression F, e.stored = e'.stored ↔ e.meaning = e'.meaning) ∧
      e.value.field = F ∧ e.value.coeffs = e.stored ∧
      (∀ i, F.value (e.stored.getD i 0) = e.meaning.coeff i) ∧
      (∀ v, F.Reduced (e.value.eval v) ∧
        F.value (e.value.eval v) = evalRingHom (F.value v) e.meaning) ∧
      (∀ n i, i < n → (e.mirror n).stored.getD (n - 1 - i) 0 = e.stored.getD i 0) ∧
      (∀ n i, n ≤ i → (e.mirror n).stored.getD i 0 = 0) ∧
      (e.pow F.modulus.toNat).frobeniusRoot.stored = e.stored := by
  have hfield := e.field_value
  refine ⟨?_, ?_, e.stored_eq_iff e.reset, e.stored_eq_iff, hfield, e.coeffs_value,
    e.value_getD_stored, fun v => ⟨?_, ?_⟩, ?_, ?_, ?_⟩
  · have hreduced : ∀ c ∈ e.value.coeffs, e.value.field.Reduced c := e.value.reduced
    rwa [hfield, e.coeffs_value] at hreduced
  · rw [← e.coeffs_value]
    exact e.value.trimmed
  · have hreduced := e.value.reduced_eval v
    rwa [hfield] at hreduced
  · rw [Poly.value_eval hfield, e.toPolynomial_value, coe_evalRingHom]
  · intro n i hi
    rw [getD_stored_mirror, if_pos (by omega), show n - 1 - (n - 1 - i) = i by omega]
  · intro n i hi
    rw [getD_stored_mirror, if_neg (by omega)]
  · rw [stored_eq_iff, meaning, meaning, contract_pow_modulus]

/-- A change of field brings up a zero at the end, and one inside. -/
example : ((ofWords #[3, 14, 50, 7] : Expression ⟨101, by decide +kernel, by decide⟩).moveTo
    ⟨7, by decide +kernel, by decide⟩).stored = #[3, 0, 1] := by decide +kernel

end Expression

end ZeroDim
