import ZeroDim.Field.Lemmas
import ZeroDim.Poly.Ring

/-! # Coefficients of the results of polynomial operations

One equation through `Poly.coeff` for each operation that works coefficient by coefficient.
-/

set_option autoImplicit false

namespace ZeroDim

open PrimeField

namespace Poly

@[simp] theorem field_add (a b : Poly) : (a + b).field = a.field := rfl

@[simp] theorem field_sub (a b : Poly) : (a - b).field = a.field := rfl

@[simp] theorem field_neg (a : Poly) : (-a).field = a.field := rfl

@[simp] theorem field_mul (a b : Poly) : (a * b).field = a.field := rfl

@[simp] theorem field_scale (a : Poly) (c : UInt32) : (a.scale c).field = a.field := rfl

@[simp] theorem field_mulLow (a b : Poly) (n : Nat) : (a.mulLow b n).field = a.field := rfl

@[simp] theorem field_truncate (a : Poly) (n : Nat) : (a.truncate n).field = a.field := rfl

@[simp] theorem field_shiftDown (a : Poly) (n : Nat) : (a.shiftDown n).field = a.field := rfl

@[simp] theorem field_mirror (a : Poly) (n : Nat) : (a.mirror n).field = a.field := rfl

@[simp] theorem field_derivative (a : Poly) : a.derivative.field = a.field := rfl

@[simp] theorem field_frobeniusRoot (a : Poly) : a.frobeniusRoot.field = a.field := rfl

@[simp] theorem field_moveTo (a : Poly) (F : PrimeField) : (a.moveTo F).field = F := rfl

@[simp] theorem field_shiftUp (a : Poly) (n : Nat) : (a.shiftUp n).field = a.field := by
  unfold shiftUp
  split <;> rfl

@[simp] theorem field_monic (a : Poly) : a.monic.field = a.field := by
  unfold monic
  split <;> rfl

theorem coeff_tabulate_of_reduced {F : PrimeField} {n : Nat} {f : Nat → UInt32}
    (hf : ∀ i, F.Reduced (f i)) (hz : ∀ i, n ≤ i → f i = 0) (i : Nat) :
    (tabulate F n f).coeff i = f i := by
  rw [coeff_tabulate]
  by_cases h : i < n
  · rw [if_pos h, residue_of_reduced (hf i)]
  · rw [if_neg h, hz i (by omega)]

theorem coeff_add {a b : Poly} (h : a.field = b.field) (i : Nat) :
    (a + b).coeff i = a.field.add (a.coeff i) (b.coeff i) := by
  refine coeff_tabulate_of_reduced (fun j => ?_) (fun j hj => ?_) i
  · exact reduced_add (a.reduced_coeff j) (h ▸ b.reduced_coeff j)
  · rw [coeff_eq_zero_of_length_le (by omega), coeff_eq_zero_of_length_le (by omega)]
    apply UInt32.toNat_inj.mp
    rw [toNat_add a.field.reduced_zero a.field.reduced_zero]
    exact Nat.zero_mod _

theorem coeff_sub {a b : Poly} (h : a.field = b.field) (i : Nat) :
    (a - b).coeff i = a.field.sub (a.coeff i) (b.coeff i) := by
  refine coeff_tabulate_of_reduced (fun j => ?_) (fun j hj => ?_) i
  · exact reduced_sub (a.reduced_coeff j) (h ▸ b.reduced_coeff j)
  · rw [coeff_eq_zero_of_length_le (by omega), coeff_eq_zero_of_length_le (by omega)]
    rfl

theorem coeff_neg (a : Poly) (i : Nat) : (-a).coeff i = a.field.neg (a.coeff i) := by
  have hz : a.field.neg 0 = 0 := rfl
  have hr := reduced_neg (a.reduced_coeff i)
  show (ofCoeffs a.field (a.coeffs.map a.field.neg)).coeff i = _
  rw [coeff_ofCoeffs]
  simp only [coeff, Array.getD_eq_getD_getElem?, Array.getElem?_map] at hr ⊢
  cases h : a.coeffs[i]? with
  | none => simp [residue_of_reduced a.field.reduced_zero, hz]
  | some c =>
    rw [h] at hr
    exact residue_of_reduced hr

theorem coeff_scale (a : Poly) (c : UInt32) (i : Nat) :
    (a.scale c).coeff i = a.field.mul (a.coeff i) c := by
  have hz : a.field.mul 0 c = 0 := by
    apply UInt32.toNat_inj.mp
    rw [toNat_mul]
    simp
  rw [scale, coeff_ofCoeffs]
  simp only [coeff, Array.getD_eq_getD_getElem?, Array.getElem?_map]
  cases a.coeffs[i]? with
  | none => simp [residue_of_reduced a.field.reduced_zero, hz]
  | some d => exact residue_of_reduced (a.field.reduced_mul d c)

theorem coeff_truncate (a : Poly) (n i : Nat) :
    (a.truncate n).coeff i = if i < n then a.coeff i else 0 := by
  have hr := residue_of_reduced (a.reduced_coeff i)
  have hz := residue_of_reduced a.field.reduced_zero
  rw [truncate, coeff_ofCoeffs]
  simp only [coeff, Array.getD_eq_getD_getElem?, Array.take_eq_extract, Array.getElem?_extract,
    Nat.sub_zero, Nat.zero_add] at hr ⊢
  by_cases h : i < n
  · rw [if_pos h]
    by_cases hs : i < a.coeffs.size
    · rw [if_pos (by omega)]
      exact hr
    · rw [if_neg (by omega), Array.getElem?_eq_none (by omega)]
      exact hz
  · rw [if_neg h, if_neg (by omega)]
    exact hz

theorem coeff_shiftDown (a : Poly) (n i : Nat) : (a.shiftDown n).coeff i = a.coeff (n + i) := by
  have hr := residue_of_reduced (a.reduced_coeff (n + i))
  have hz := residue_of_reduced a.field.reduced_zero
  rw [shiftDown, coeff_ofCoeffs]
  simp only [coeff, length, Array.getD_eq_getD_getElem?, Array.getElem?_extract] at hr ⊢
  by_cases h : n + i < a.coeffs.size
  · rw [if_pos (by omega)]
    exact hr
  · rw [if_neg (by omega), Array.getElem?_eq_none (by omega)]
    exact hz

theorem coeff_mirror (a : Poly) (n i : Nat) :
    (a.mirror n).coeff i = if i < n then a.coeff (n - 1 - i) else 0 := by
  rw [mirror, coeff_tabulate]
  by_cases h : i < n
  · rw [if_pos h, if_pos h, residue_of_reduced (a.reduced_coeff _)]
  · rw [if_neg h, if_neg h]

theorem coeff_zero (F : PrimeField) (i : Nat) : (zero F).coeff i = 0 := by
  rw [zero, coeff_ofCoeffs]
  exact residue_of_reduced F.reduced_zero

theorem coeff_moveTo (a : Poly) (F : PrimeField) (i : Nat) :
    (a.moveTo F).coeff i = F.residue (a.coeff i) := coeff_ofCoeffs F a.coeffs i

end Poly

end ZeroDim
