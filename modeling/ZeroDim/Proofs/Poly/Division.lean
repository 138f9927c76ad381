import Mathlib
import ZeroDim.Poly.Bezout
import ZeroDim.Proofs.Poly.Product

/-! # Division, common divisors and modular inverses

Long division keeps the dividend equal to quotient times divisor plus working remainder while the
degree of the remainder falls, so quotient and remainder are those of the polynomial ring.  The
common divisors of Euclid's last remainder are those of the operands, the extended recursion
keeps its combinations, and a modular inverse is found exactly for coprime operands. -/

set_option autoImplicit false

namespace ZeroDim

open Polynomial PrimeField

variable {F : PrimeField}

theorem dvd_sub_mod {K : Type*} [Field K] (a b : K[X]) : b ∣ a - a % b :=
  ⟨a / b, by rw [EuclideanDomain.mod_eq_sub_mul_div, sub_sub_cancel]⟩

theorem mod_eq_mod_iff_dvd_sub {K : Type*} [Field K] {a b m : K[X]} :
    a % m = b % m ↔ m ∣ a - b := by
  refine ⟨fun h => ?_, mod_eq_of_dvd_sub⟩
  have hsub := dvd_sub (dvd_sub_mod a m) (dvd_sub_mod b m)
  rwa [h, sub_sub_sub_cancel_right] at hsub

/-! ## Long division -/

section LongDivision
variable {b : Array UInt32}

theorem size_cancel (position : Nat) (q : UInt32) (r : Array UInt32) :
    (cancel F b position q r).size = r.size := by
  rw [cancel, Array.size_mapIdx]

theorem getD_cancel {position : Nat} {r : Array UInt32} (q : UInt32)
    (h : position + b.size ≤ r.size) (i : Nat) :
    (cancel F b position q r).getD i 0 =
      if position ≤ i ∧ i < position + b.size then
        F.sub (r.getD i 0) (F.mul q (b.getD (i - position) 0))
      else r.getD i 0 := by
  have hr : r.getD i 0 = r[i]?.getD 0 := Array.getD_eq_getD_getElem? ..
  rw [cancel, Array.getD_eq_getD_getElem?, Array.getElem?_mapIdx, hr]
  by_cases hi : i < r.size
  · rw [Array.getElem?_eq_getElem hi, Option.map_some, Option.getD_some, Option.getD_some]
  · have hnone : r[i]? = none := Array.getElem?_eq_none (by omega)
    rw [hnone, if_neg (by omega), Option.map_none]

theorem allReduced_cancel {r : Array UInt32} (hr : F.AllReduced r) (position : Nat) (q : UInt32) :
    F.AllReduced (cancel F b position q r) := by
  intro c hc
  obtain ⟨i, hi⟩ := Array.mem_iff_getElem?.mp hc
  rw [cancel, Array.getElem?_mapIdx, Option.map_eq_some_iff] at hi
  obtain ⟨x, hx, rfl⟩ := hi
  have hx' := hr x (Array.mem_of_getElem? hx)
  split
  · exact reduced_sub hx' (F.reduced_mul _ _)
  · exact hx'

theorem polynomial_cancel {position : Nat} {r : Array UInt32} (hr : F.AllReduced r) (q : UInt32)
    (h : position + b.size ≤ r.size) :
    F.polynomial (cancel F b position q r) =
      F.polynomial r - C (F.value q) * X ^ position * F.polynomial b := by
  ext i
  rw [mul_assoc, coeff_sub, coeff_C_mul, mul_comm (X ^ position), coeff_mul_X_pow',
    coeff_polynomial, coeff_polynomial, coeff_polynomial, getD_cancel q h]
  by_cases hlo : position ≤ i
  · rw [if_pos hlo]
    by_cases hhi : i < position + b.size
    · rw [if_pos ⟨hlo, hhi⟩, value_sub (hr.getD i) (F.reduced_mul _ _), value_mul]
    · rw [if_neg (by omega), getD_eq_zero_of_size_le (show b.size ≤ i - position by omega),
        value_zero, mul_zero, sub_zero]
  · rw [if_neg (by omega), if_neg hlo, mul_zero, sub_zero]

theorem polynomial_push (cs : Array UInt32) (c : UInt32) :
    F.polynomial (cs.push c) = F.polynomial cs + C (F.value c) * X ^ cs.size := by
  ext i
  rw [coeff_add, coeff_C_mul_X_pow, coeff_polynomial, coeff_polynomial]
  simp only [Array.getD_eq_getD_getElem?, Array.getElem?_push]
  by_cases hi : i = cs.size
  · rw [if_pos hi, if_pos hi, Array.getElem?_eq_none (by omega), Option.getD_none, value_zero,
      zero_add, Option.getD_some]
  · rw [if_neg hi, if_neg hi, add_zero]

theorem size_longDivision (leadInv : UInt32) (n : Nat) : ∀ r : Array UInt32,
    (longDivision F b leadInv n r).1.size = n := by
  induction n with
  | zero =>
    intro r
    rfl
  | succ n ih =>
    intro r
    simp only [longDivision, Array.size_push, ih]

theorem degree_cancel_lt {n : Nat} {r : Array UInt32} {leadInv : UInt32}
    (hr : F.AllReduced r) (hb : 0 < b.size)
    (hlead : F.value leadInv * F.value (b.getD (b.size - 1) 0) = 1)
    (hsize : n + b.size ≤ r.size) (hdeg : (F.polynomial r).degree < (n + b.size : Nat)) :
    (F.polynomial (cancel F b n (F.mul (r.getD (n + b.size - 1) 0) leadInv) r)).degree <
      (n + b.size - 1 : Nat) := by
  rw [degree_lt_iff_coeff_zero] at hdeg ⊢
  intro i hi
  rw [coeff_polynomial, getD_cancel _ hsize]
  by_cases htop : i = n + b.size - 1
  · rw [if_pos (by omega), value_sub (hr.getD i) (F.reduced_mul _ _), value_mul, value_mul, htop,
      show n + b.size - 1 - n = b.size - 1 by omega, mul_assoc, hlead, mul_one, sub_self]
  · rw [if_neg (by omega), ← coeff_polynomial, hdeg i (by omega)]

/-- The dividend is quotient times divisor plus remainder, and the remainder is short. -/
theorem longDivision_spec {leadInv : UInt32} (hb : 0 < b.size)
    (hlead : F.value leadInv * F.value (b.getD (b.size - 1) 0) = 1) (n : Nat) :
    ∀ r : Array UInt32, F.AllReduced r → n + b.size ≤ r.size + 1 →
      (F.polynomial r).degree < (n + b.size - 1 : Nat) →
      F.polynomial r = F.polynomial (longDivision F b leadInv n r).1 * F.polynomial b +
          F.polynomial (longDivision F b leadInv n r).2 ∧
        (F.polynomial (longDivision F b leadInv n r).2).degree < (b.size - 1 : Nat) := by
  induction n with
  | zero =>
    intro r _ _ hdeg
    rw [Nat.zero_add] at hdeg
    refine ⟨?_, hdeg⟩
    have hz : F.polynomial #[] = 0 := polynomial_eq_zero_of_isEmpty rfl
    change F.polynomial r = F.polynomial #[] * F.polynomial b + F.polynomial r
    rw [hz, zero_mul, zero_add]
  | succ n ih =>
    intro r hr hsize hdeg
    have hn : n + 1 + b.size - 1 = n + b.size := by omega
    rw [hn] at hdeg
    have hnext := degree_cancel_lt hr hb hlead (by omega) hdeg
    have hcancel := polynomial_cancel (b := b) hr (F.mul (r.getD (n + b.size - 1) 0) leadInv)
      (show n + b.size ≤ r.size by omega)
    obtain ⟨heq, hrem⟩ := ih _ (allReduced_cancel hr n (F.mul (r.getD (n + b.size - 1) 0) leadInv))
      (by rw [size_cancel]; omega) hnext
    refine ⟨?_, hrem⟩
    simp only [longDivision]
    rw [polynomial_push, size_longDivision]
    rw [hcancel] at heq
    linear_combination heq

end LongDivision

namespace Poly

variable {a b : Poly}

@[simp] theorem field_div (a b : Poly) : (a / b).field = a.field := by
  change (divMod a b).1.field = a.field
  unfold divMod
  split
  · rfl
  · split <;> rfl

@[simp] theorem field_mod (a b : Poly) : (a % b).field = a.field := by
  change (divMod a b).2.field = a.field
  unfold divMod
  split
  · rfl
  · split <;> rfl

theorem value_leadInverse {c : UInt32} (h : F.value c ≠ 0) :
    F.value (leadInverse F c) = (F.value c)⁻¹ := by
  rw [leadInverse, inv?_eq_some_word h, Option.getD_some, value_word]

/-- The inverse of the leading coefficient makes every step exact. -/
theorem longDivision_coeffs (ha : a.field = F) (hb : b.field = F) (hne : b.toPolynomial F ≠ 0)
    (hle : b.length ≤ a.length) :
    a.toPolynomial F =
        F.polynomial (longDivision F b.coeffs (leadInverse F (b.coeff (b.length - 1)))
            (a.length - b.length + 1) a.coeffs).1 * b.toPolynomial F +
          F.polynomial (longDivision F b.coeffs (leadInverse F (b.coeff (b.length - 1)))
            (a.length - b.length + 1) a.coeffs).2 ∧
      (F.polynomial (longDivision F b.coeffs (leadInverse F (b.coeff (b.length - 1)))
        (a.length - b.length + 1) a.coeffs).2).degree < (b.length - 1 : Nat) := by
  subst ha
  obtain ⟨-, hval⟩ := leadingCoeff?_eq hb hne
  have hpos : 0 < b.coeffs.size := by
    have := length_eq_natDegree_add_one hb hne
    rw [length] at this
    omega
  have hsizes : a.length - b.length + 1 + b.coeffs.size = a.coeffs.size + 1 := by
    simp only [length] at hle ⊢
    omega
  have hunit : a.field.value (b.coeff (b.length - 1)) ≠ 0 := by
    rw [hval]
    exact leadingCoeff_ne_zero.mpr hne
  have hinv : a.field.value (leadInverse a.field (b.coeff (b.length - 1))) *
      a.field.value (b.coeffs.getD (b.coeffs.size - 1) 0) = 1 := by
    rw [value_leadInverse hunit]
    exact inv_mul_cancel₀ hunit
  exact longDivision_spec hpos hinv (a.length - b.length + 1) a.coeffs a.reduced
    (by omega) (by rw [hsizes, Nat.add_sub_cancel]; exact degree_polynomial_lt a.coeffs)

theorem divMod_spec (ha : a.field = F) (hb : b.field = F) (hne : b.toPolynomial F ≠ 0) :
    a.toPolynomial F = (a / b).toPolynomial F * b.toPolynomial F + (a % b).toPolynomial F ∧
      ((a % b).toPolynomial F).degree < (b.toPolynomial F).degree := by
  subst ha
  obtain ⟨hlead, -⟩ := leadingCoeff?_eq hb hne
  change _ = (divMod a b).1.toPolynomial a.field * _ + (divMod a b).2.toPolynomial a.field ∧
    ((divMod a b).2.toPolynomial a.field).degree < _
  rw [divMod, hlead]
  dsimp only
  by_cases hlt : a.length < b.length
  · rw [if_pos hlt]
    refine ⟨?_, (length_lt_length_iff rfl hb hne).mp hlt⟩
    rw [toPolynomial_zero, zero_mul, zero_add]
  · obtain ⟨heq, hdeg⟩ := longDivision_coeffs (a := a) rfl hb hne (by omega)
    rw [if_neg hlt]
    simp only [toPolynomial_ofCoeffs]
    rw [polynomial_take (n := b.length - 1) hdeg]
    refine ⟨heq, lt_of_lt_of_le hdeg ?_⟩
    rw [degree_eq_natDegree hne]
    have := length_eq_natDegree_add_one hb hne
    exact_mod_cast (show b.length - 1 ≤ (b.toPolynomial a.field).natDegree by omega)

theorem divMod_of_zero (hb : b.field = F) (hz : b.toPolynomial F = 0) :
    divMod a b = (zero a.field, a) := by
  rw [divMod, leadingCoeff?_eq_none hb hz]

@[simp] theorem toPolynomial_mod (ha : a.field = F) (hb : b.field = F) :
    (a % b).toPolynomial F = a.toPolynomial F % b.toPolynomial F := by
  by_cases hz : b.toPolynomial F = 0
  · change (divMod a b).2.toPolynomial F = _
    rw [divMod_of_zero hb hz, hz, EuclideanDomain.mod_zero]
  · obtain ⟨heq, hdeg⟩ := divMod_spec ha hb hz
    rw [← mod_eq_self_iff hz] at hdeg
    rw [← hdeg]
    apply mod_eq_of_dvd_sub
    exact ⟨-(a / b).toPolynomial F, by linear_combination -heq⟩

theorem isZero_mod_iff (ha : a.field = F) (hb : b.field = F) :
    (a % b).isZero = true ↔ b.toPolynomial F ∣ a.toPolynomial F := by
  rw [isZero_iff ((field_mod a b).trans ha), toPolynomial_mod ha hb, EuclideanDomain.mod_eq_zero]

@[simp] theorem toPolynomial_div (ha : a.field = F) (hb : b.field = F) :
    (a / b).toPolynomial F = a.toPolynomial F / b.toPolynomial F := by
  by_cases hz : b.toPolynomial F = 0
  · change (divMod a b).1.toPolynomial F = _
    rw [divMod_of_zero hb hz, hz, EuclideanDomain.div_zero]
    subst ha
    exact toPolynomial_zero _
  · obtain ⟨heq, -⟩ := divMod_spec ha hb hz
    have hdiv := EuclideanDomain.div_add_mod (a.toPolynomial F) (b.toPolynomial F)
    rw [toPolynomial_mod ha hb] at heq
    apply mul_left_cancel₀ hz
    linear_combination -heq - hdiv

theorem mod?_eq_ok (a : Poly) (hb : b.field = F) (hne : b.toPolynomial F ≠ 0) :
    a.mod? b = .ok (a % b) := by
  rw [mod?, (isZero_eq_false_iff hb).mpr hne]
  rfl

theorem mod?_eq_ok_iff {a b r : Poly} : a.mod? b = .ok r ↔ b.isZero = false ∧ a % b = r := by
  unfold mod?
  cases b.isZero <;> simp

/-! ## Greatest common divisors -/

theorem field_lastRemainder (a b : Poly) (ha : a.field = F) (hb : b.field = F) :
    (lastRemainder a b).field = F := by
  fun_induction lastRemainder a b with
  | case1 a b _ => exact ha
  | case2 a b _ ih => exact ih hb ((field_mod a b).trans ha)

theorem dvd_lastRemainder_iff (a b : Poly) (ha : a.field = F) (hb : b.field = F)
    (d : F.Element[X]) :
    d ∣ (lastRemainder a b).toPolynomial F ↔ d ∣ a.toPolynomial F ∧ d ∣ b.toPolynomial F := by
  fun_induction lastRemainder a b with
  | case1 a b hz =>
    rw [(isZero_iff hb).mp hz]
    simp
  | case2 a b hz ih =>
    rw [ih hb ((field_mod a b).trans ha), toPolynomial_mod ha hb]
    constructor
    · rintro ⟨hdb, hdm⟩
      exact ⟨(EuclideanDomain.dvd_mod_iff hdb).mp hdm, hdb⟩
    · rintro ⟨hda, hdb⟩
      exact ⟨hdb, (EuclideanDomain.dvd_mod_iff hdb).mpr hda⟩

theorem associated_toPolynomial_monic (ha : a.field = F) :
    Associated (a.monic.toPolynomial F) (a.toPolynomial F) := by
  by_cases hz : a.toPolynomial F = 0
  · rw [toPolynomial_monic ha, hz, zero_mul]
  · rw [toPolynomial_monic ha]
    have hunit : IsUnit (C (a.toPolynomial F).leadingCoeff⁻¹) :=
      isUnit_C.mpr (isUnit_iff_ne_zero.mpr (inv_ne_zero (leadingCoeff_ne_zero.mpr hz)))
    exact associated_mul_unit_left _ _ hunit

theorem monic_toPolynomial_monic (ha : a.field = F) (hne : a.toPolynomial F ≠ 0) :
    (a.monic.toPolynomial F).Monic := by
  rw [toPolynomial_monic ha]
  exact monic_mul_leadingCoeff_inv hne

@[simp] theorem field_gcd (ha : a.field = F) (hb : b.field = F) : (gcd a b).field = F := by
  rw [gcd, field_monic, field_lastRemainder a b ha hb]

theorem dvd_gcd_iff (ha : a.field = F) (hb : b.field = F) (d : F.Element[X]) :
    d ∣ (gcd a b).toPolynomial F ↔ d ∣ a.toPolynomial F ∧ d ∣ b.toPolynomial F := by
  rw [gcd, (associated_toPolynomial_monic (field_lastRemainder a b ha hb)).dvd_iff_dvd_right,
    dvd_lastRemainder_iff a b ha hb]

theorem gcd_dvd (ha : a.field = F) (hb : b.field = F) :
    (gcd a b).toPolynomial F ∣ a.toPolynomial F ∧ (gcd a b).toPolynomial F ∣ b.toPolynomial F :=
  (dvd_gcd_iff ha hb _).mp dvd_rfl

theorem monic_gcd (ha : a.field = F) (hb : b.field = F)
    (hne : a.toPolynomial F ≠ 0 ∨ b.toPolynomial F ≠ 0) : ((gcd a b).toPolynomial F).Monic := by
  apply monic_toPolynomial_monic (field_lastRemainder a b ha hb)
  intro hz
  have h := (dvd_lastRemainder_iff a b ha hb (lastRemainder a b |>.toPolynomial F)).mp dvd_rfl
  rw [hz] at h
  rcases hne with hne | hne
  · exact hne (zero_dvd_iff.mp h.1)
  · exact hne (zero_dvd_iff.mp h.2)

/-! ## Combinations and modular inverses -/

structure Combination.Holds (F : PrimeField) (f g : F.Element[X]) (c : Combination) : Prop where
  field_value : c.value.field = F
  field_left : c.left.field = F
  field_right : c.right.field = F
  value_eq : c.value.toPolynomial F =
    c.left.toPolynomial F * f + c.right.toPolynomial F * g

theorem Combination.Holds.next {f g : F.Element[X]} {u v : Combination} (hu : u.Holds F f g)
    (hv : v.Holds F f g) :
    Combination.Holds F f g ⟨u.value % v.value, u.left - u.value / v.value * v.left,
      u.right - u.value / v.value * v.right⟩ := by
  have hq : (u.value / v.value).field = F := (field_div _ _).trans hu.field_value
  refine ⟨(field_mod _ _).trans hu.field_value, hu.field_left, hu.field_right, ?_⟩
  have hdiv := EuclideanDomain.div_add_mod (u.value.toPolynomial F) (v.value.toPolynomial F)
  simp only
  rw [toPolynomial_mod hu.field_value hv.field_value,
    toPolynomial_sub hu.field_left ((field_mul _ _).trans hq),
    toPolynomial_sub hu.field_right ((field_mul _ _).trans hq),
    toPolynomial_mul hq hv.field_left, toPolynomial_mul hq hv.field_right,
    toPolynomial_div hu.field_value hv.field_value]
  linear_combination hdiv + hu.value_eq -
    (u.value.toPolynomial F / v.value.toPolynomial F) * hv.value_eq

theorem lastCombination_holds {f g : F.Element[X]} (u v : Combination) (hu : u.Holds F f g)
    (hv : v.Holds F f g) : (lastCombination u v).Holds F f g := by
  fun_induction lastCombination u v with
  | case1 u v _ => exact hu
  | case2 u v _ q ih => exact ih hv (hu.next hv)

theorem value_lastCombination (u v : Combination) :
    (lastCombination u v).value = lastRemainder u.value v.value := by
  fun_induction lastCombination u v with
  | case1 u v hz => rw [lastRemainder, if_pos hz]
  | case2 u v hz q ih => rw [ih, lastRemainder.eq_def u.value, if_neg hz]

theorem Combination.Holds.scale {f g : F.Element[X]} {c : Combination} (hc : c.Holds F f g)
    (u : UInt32) : Combination.Holds F f g ⟨c.value.scale u, c.left.scale u, c.right.scale u⟩ := by
  refine ⟨hc.field_value, hc.field_left, hc.field_right, ?_⟩
  simp only
  rw [toPolynomial_scale hc.field_value, toPolynomial_scale hc.field_left,
    toPolynomial_scale hc.field_right, hc.value_eq]
  ring

theorem lastCombination_start (ha : a.field = F) (hb : b.field = F) :
    (lastCombination ⟨a, one F, zero F⟩ ⟨b, zero F, one F⟩).Holds F (a.toPolynomial F)
        (b.toPolynomial F) ∧
      (lastCombination ⟨a, one F, zero F⟩ ⟨b, zero F, one F⟩).value = lastRemainder a b :=
  ⟨lastCombination_holds _ _ ⟨ha, rfl, rfl, by simp⟩ ⟨hb, rfl, rfl, by simp⟩,
    value_lastCombination _ _⟩

theorem extendedGcd_holds (ha : a.field = F) (hb : b.field = F) :
    (extendedGcd a b).Holds F (a.toPolynomial F) (b.toPolynomial F) ∧
      (extendedGcd a b).value = gcd a b := by
  subst ha
  obtain ⟨hlast, hval⟩ := lastCombination_start rfl hb
  rw [extendedGcd, gcd, ← hval]
  set c := lastCombination ⟨a, one a.field, zero a.field⟩ ⟨b, zero a.field, one a.field⟩
  by_cases hz : c.value.toPolynomial a.field = 0
  · have hnone := leadingCoeff?_eq_none hlast.field_value hz
    have hdvd := (dvd_lastRemainder_iff a b rfl hb (c.value.toPolynomial a.field)).mp (by rw [← hval])
    rw [hz] at hdvd
    simp only [hnone]
    refine ⟨⟨hlast.field_value, rfl, rfl, ?_⟩, ?_⟩
    · simp only
      rw [hz, zero_dvd_iff.mp hdvd.1, zero_dvd_iff.mp hdvd.2, mul_zero, mul_zero, add_zero]
    · rw [monic, hnone, Option.bind_none]
  · obtain ⟨hlead, hlc⟩ := leadingCoeff?_eq hlast.field_value hz
    have hunit : a.field.value (c.value.coeff (c.value.length - 1)) ≠ 0 := by
      rw [hlc]
      exact leadingCoeff_ne_zero.mpr hz
    simp only [hlead]
    refine ⟨hlast.scale _, ?_⟩
    rw [← toPolynomial_inj (F := a.field) ((field_scale _ _).trans hlast.field_value)
      ((field_monic _).trans hlast.field_value), toPolynomial_scale hlast.field_value,
      toPolynomial_monic hlast.field_value, value_leadInverse hunit, hlc]

theorem gcd_mod_eq_one_iff {m : Poly} (ha : a.field = F) (hm : m.field = F)
    (hne : m.toPolynomial F ≠ 0) :
    (gcd m (a % m)).isOne = true ↔ IsCoprime (a.toPolynomial F) (m.toPolynomial F) := by
  have hr : (a % m).field = F := (field_mod a m).trans ha
  have hmonic := monic_gcd hm hr (.inl hne)
  have hdvd : ∀ d : F.Element[X], d ∣ (gcd m (a % m)).toPolynomial F ↔
      d ∣ a.toPolynomial F ∧ d ∣ m.toPolynomial F := by
    intro d
    rw [dvd_gcd_iff hm hr, toPolynomial_mod ha hm]
    constructor
    · rintro ⟨h₁, h₂⟩
      exact ⟨(EuclideanDomain.dvd_mod_iff h₁).mp h₂, h₁⟩
    · rintro ⟨h₁, h₂⟩
      exact ⟨h₂, (EuclideanDomain.dvd_mod_iff h₂).mpr h₁⟩
  rw [isOne_iff (field_gcd hm hr)]
  constructor
  · intro h
    apply isCoprime_of_dvd
    · rintro ⟨-, hz⟩
      exact hne hz
    · intro d hd _ hda hdm
      have hunit := (hdvd d).mpr ⟨hda, hdm⟩
      rw [h] at hunit
      exact hd (isUnit_of_dvd_one hunit)
  · intro h
    obtain ⟨h₁, h₂⟩ := (hdvd _).mp dvd_rfl
    exact hmonic.eq_one_of_isUnit (h.isUnit_of_dvd' h₁ h₂)

theorem field_of_inverseMod? {m i : Poly} (ha : a.field = m.field)
    (h : a.inverseMod? m = .ok (some i)) : i.field = m.field := by
  obtain ⟨reduced, hreduced, h⟩ := bind_eq_ok.mp h
  obtain ⟨hm, rfl⟩ := mod?_eq_ok_iff.mp hreduced
  obtain ⟨hholds, -⟩ := extendedGcd_holds (F := m.field) rfl ((field_mod a m).trans ha)
  have h := Except.ok.inj h
  split at h
  · obtain rfl := Option.some.inj h
    exact (field_mod _ _).trans hholds.field_right
  · contradiction

theorem inverseMod?_of_isCoprime {m : Poly} (ha : a.field = F) (hm : m.field = F)
    (hne : m.toPolynomial F ≠ 0) (hco : IsCoprime (a.toPolynomial F) (m.toPolynomial F)) :
    ∃ i : Poly, a.inverseMod? m = .ok (some i) ∧ i.field = F ∧ i.length < m.length ∧
      m.toPolynomial F ∣ a.toPolynomial F * i.toPolynomial F - 1 := by
  have hr : (a % m).field = F := (field_mod a m).trans ha
  obtain ⟨hholds, hval⟩ := extendedGcd_holds hm hr
  have hone := (gcd_mod_eq_one_iff ha hm hne).mpr hco
  refine ⟨(extendedGcd m (a % m)).right % m, ?_, (field_mod _ _).trans hholds.field_right,
    length_mod_lt _ ((isZero_eq_false_iff hm).mpr hne), ?_⟩
  · rw [inverseMod?, mod?_eq_ok a hm hne]
    change Except.ok (if (extendedGcd m (a % m)).value.isOne = true then _ else _) = _
    rw [hval, if_pos hone]
  · have heq := hholds.value_eq
    rw [hval, (isOne_iff (field_gcd hm hr)).mp hone, toPolynomial_mod ha hm] at heq
    rw [toPolynomial_mod hholds.field_right hm]
    have h₁ := EuclideanDomain.div_add_mod (a.toPolynomial F) (m.toPolynomial F)
    have h₂ := EuclideanDomain.div_add_mod ((extendedGcd m (a % m)).right.toPolynomial F)
      (m.toPolynomial F)
    set A := a.toPolynomial F
    set M := m.toPolynomial F
    set R := (extendedGcd m (a % m)).right.toPolynomial F
    set L := (extendedGcd m (a % m)).left.toPolynomial F
    exact ⟨R * (A / M) - A * (R / M) - L, by linear_combination A * h₂ - R * h₁ - heq⟩

theorem inverseMod?_of_not_isCoprime {m : Poly} (ha : a.field = F) (hm : m.field = F)
    (hne : m.toPolynomial F ≠ 0) (hco : ¬IsCoprime (a.toPolynomial F) (m.toPolynomial F)) :
    a.inverseMod? m = .ok none := by
  have hr : (a % m).field = F := (field_mod a m).trans ha
  obtain ⟨-, hval⟩ := extendedGcd_holds hm hr
  rw [inverseMod?, mod?_eq_ok a hm hne]
  change Except.ok (if (extendedGcd m (a % m)).value.isOne = true then _ else _) = _
  rw [hval, if_neg fun h => hco ((gcd_mod_eq_one_iff ha hm hne).mp h)]

end Poly

end ZeroDim
