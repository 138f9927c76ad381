import Mathlib
import ZeroDim.Proofs.Strict.Euclid

/-! # Bezout's identity and modular inverses

Nothing stops the extended recursion on two polynomials over one field, zero and constants
included.  Its value is the monic greatest common divisor, which is also that of the plain
recursion, and its cofactors write the value as a combination of the operands.

A modular inverse is returned exactly when no polynomial of positive degree divides both operands.
It is then the only polynomial shorter than the modulus that inverts, which for a constant modulus
is zero. -/

set_option autoImplicit false

namespace ZeroDim.Poly

open Polynomial PrimeField

variable {F : PrimeField} {a b : Poly}

theorem eq_zero_of_isZero (ha : a.field = F) (h : a.isZero = true) : a = zero F := by
  rw [← toPolynomial_inj ha rfl, (isZero_iff ha).mp h, toPolynomial_zero]

/-! ## Greatest common divisors -/

/-- Two zeros leave the recursion at once, and there is no leading coefficient to divide by. -/
theorem extendedGcd_of_isZero (ha : a.field = F) (hza : a.isZero = true) (hzb : b.isZero = true) :
    extendedGcd a b = ⟨zero F, one F, zero F⟩ := by
  have hnone : (zero F).leadingCoeff? = none :=
    leadingCoeff?_eq_none rfl (toPolynomial_zero F)
  rw [eq_zero_of_isZero ha hza, extendedGcd, lastCombination, if_pos hzb]
  simp only [hnone, field_zero]

theorem combination_extendedGcd (ha : a.field = F) (hb : b.field = F) :
    (extendedGcd a b).left * a + (extendedGcd a b).right * b = (extendedGcd a b).value := by
  obtain ⟨hholds, -⟩ := extendedGcd_holds ha hb
  have hleft : ((extendedGcd a b).left * a).field = F := hholds.field_left
  have hright : ((extendedGcd a b).right * b).field = F := hholds.field_right
  have hsum : ((extendedGcd a b).left * a + (extendedGcd a b).right * b).field = F := hleft
  rw [← toPolynomial_inj hsum hholds.field_value, toPolynomial_add hleft hright,
    toPolynomial_mul hholds.field_left ha, toPolynomial_mul hholds.field_right hb,
    hholds.value_eq]

/-- The extended recursion ends without a fault, with the monic greatest common divisor of the
operands and cofactors that combine the operands to it. -/
theorem extendedGcd_isGreatest (ha : a.field = F) (hb : b.field = F) :
    ∃ g s t : Poly, Strict.Poly.extendedGcd a b = .ok ⟨g, s, t⟩ ∧ extendedGcd a b = ⟨g, s, t⟩ ∧
      g.field = F ∧ s.field = F ∧ t.field = F ∧ s * a + t * b = g ∧
      g.toPolynomial F ∣ a.toPolynomial F ∧ g.toPolynomial F ∣ b.toPolynomial F ∧
      (∀ d : F.Element[X], d ∣ a.toPolynomial F → d ∣ b.toPolynomial F → d ∣ g.toPolynomial F) ∧
      (a.isZero = false ∨ b.isZero = false → (g.toPolynomial F).Monic) ∧
      (a.isZero = true → b.isZero = true → g = zero F ∧ s = one F ∧ t = zero F) ∧
      Strict.Poly.gcd a b = .ok g ∧ gcd a b = g := by
  obtain ⟨hholds, hvalue⟩ := extendedGcd_holds ha hb
  obtain ⟨hdvdA, hdvdB⟩ := gcd_dvd ha hb
  refine ⟨(extendedGcd a b).value, (extendedGcd a b).left, (extendedGcd a b).right,
    Strict.Poly.extendedGcd_eq (ha.trans hb.symm), rfl, hholds.field_value, hholds.field_left,
    hholds.field_right, combination_extendedGcd ha hb, ?_⟩
  rw [hvalue]
  refine ⟨hdvdA, hdvdB, fun d hda hdb => (dvd_gcd_iff ha hb d).mpr ⟨hda, hdb⟩, ?_, ?_,
    Strict.Poly.gcd_eq a b, rfl⟩
  · rw [isZero_eq_false_iff ha, isZero_eq_false_iff hb]
    exact monic_gcd ha hb
  · intro hza hzb
    rw [← hvalue, extendedGcd_of_isZero ha hza hzb]
    exact ⟨rfl, rfl, rfl⟩

/-- Over seven elements, `x - 1` and `x^2 - 1` with the shorter operand first, and two zeros. -/
theorem extendedGcd_isGreatest_seven :
    ∃ (F : PrimeField) (a b : Poly), F.modulus = 7 ∧ a = ofCoeffs F #[6, 1] ∧
      b = ofCoeffs F #[6, 0, 1] ∧ extendedGcd a b = ⟨a, one F, zero F⟩ ∧
      a.toPolynomial F ∣ b.toPolynomial F ∧ (a.toPolynomial F).Monic ∧ gcd a b = a ∧
      extendedGcd (zero F) (zero F) = ⟨zero F, one F, zero F⟩ := by
  let F : PrimeField := ⟨7, by decide +kernel, by decide⟩
  let a := ofCoeffs F #[6, 1]
  let b := ofCoeffs F #[6, 0, 1]
  have hrun : extendedGcd a b = ⟨a, one F, zero F⟩ := by decide +kernel
  obtain ⟨g, s, t, -, heq, -, -, -, -, -, hdvd, -, hmonic, -, -, hgcd⟩ :=
    extendedGcd_isGreatest (F := F) (a := a) (b := b) rfl rfl
  obtain ⟨g₀, s₀, t₀, -, heq₀, -, -, -, -, -, -, -, -, hzero, -⟩ :=
    extendedGcd_isGreatest (F := F) (a := zero F) (b := zero F) rfl rfl
  obtain ⟨rfl, rfl, rfl⟩ := hzero (by decide +kernel) (by decide +kernel)
  rw [hrun, Combination.mk.injEq] at heq
  obtain ⟨rfl, -, -⟩ := heq
  exact ⟨F, a, b, rfl, rfl, rfl, hrun, hdvd, hmonic (.inl (by decide +kernel)), hgcd, heq₀⟩

/-! ## Modular inverses -/

theorem isCoprime_iff_natDegree {K : Type*} [Field K] {f m : K[X]} (hm : m ≠ 0) :
    IsCoprime f m ↔ ∀ d, d ∣ f → d ∣ m → d.natDegree = 0 := by
  constructor
  · intro h d hdf hdm
    exact natDegree_eq_zero_of_isUnit (h.isUnit_of_dvd' hdf hdm)
  · intro h
    apply isCoprime_of_dvd
    · rintro ⟨-, hz⟩
      exact hm hz
    · intro d hd hne hdf hdm
      exact hd (isUnit_iff_degree_eq_zero.mpr
        ((degree_eq_iff_natDegree_eq hne).mpr (h d hdf hdm)))

section Modulus
variable {m : Poly} (ha : a.field = F) (hm : m.field = F)
include hm

theorem eq_of_inverts {i j : Poly} (hi : i.field = F) (hj : j.field = F)
    (hilen : i.length < m.length) (hjlen : j.length < m.length)
    (hidvd : m.toPolynomial F ∣ a.toPolynomial F * i.toPolynomial F - 1)
    (hjdvd : m.toPolynomial F ∣ a.toPolynomial F * j.toPolynomial F - 1) : i = j := by
  have hne : m.toPolynomial F ≠ 0 := by
    rw [ne_eq, ← length_eq_zero_iff_toPolynomial hm]
    omega
  rw [← toPolynomial_inj hi hj,
    ← (mod_eq_self_iff hne).mpr ((length_lt_length_iff hi hm hne).mp hilen),
    ← (mod_eq_self_iff hne).mpr ((length_lt_length_iff hj hm hne).mp hjlen)]
  apply mod_eq_of_dvd_sub
  have hsum := dvd_sub (hidvd.mul_left (j.toPolynomial F)) (hjdvd.mul_left (i.toPolynomial F))
  convert hsum using 1
  ring

include ha

/-- An inverse is found exactly when there is no common divisor of positive degree, and it is the
only one that is shorter than the modulus. -/
theorem inverseMod?_decides (hne : m.isZero = false) :
    ∃ answer : Option Poly, Strict.Poly.inverseMod? a m = .ok answer ∧
      a.inverseMod? m = .ok answer ∧
      (answer.isSome = true ↔ ∀ d : F.Element[X], d ∣ a.toPolynomial F → d ∣ m.toPolynomial F →
        d.natDegree = 0) ∧
      (∀ i : Poly, answer = some i ↔ i.field = F ∧ i.length < m.length ∧
        m.toPolynomial F ∣ a.toPolynomial F * i.toPolynomial F - 1) ∧
      (m.length = 1 → answer = some (zero F)) := by
  have hstrict := Strict.Poly.inverseMod?_eq (ha.trans hm.symm)
  rw [isZero_eq_false_iff hm] at hne
  rw [← isCoprime_iff_natDegree hne]
  by_cases hco : IsCoprime (a.toPolynomial F) (m.toPolynomial F)
  · obtain ⟨i, hrun, hi, hlen, hdvd⟩ := inverseMod?_of_isCoprime ha hm hne hco
    refine ⟨some i, by rw [hstrict, hrun, Strict.lift_ok], hrun, by simpa using hco, ?_, ?_⟩
    · intro j
      rw [Option.some.injEq]
      constructor
      · rintro rfl
        exact ⟨hi, hlen, hdvd⟩
      · rintro ⟨hj, hjlen, hjdvd⟩
        exact eq_of_inverts hm hi hj hlen hjlen hdvd hjdvd
    · intro hone
      rw [eq_zero_of_isZero hi (length_eq_zero_iff.mp (by omega))]
  · have hrun := inverseMod?_of_not_isCoprime ha hm hne hco
    refine ⟨none, by rw [hstrict, hrun, Strict.lift_ok], hrun, by simpa using hco, ?_, ?_⟩
    · intro i
      simp only [reduceCtorEq, false_iff]
      rintro ⟨-, -, c, hc⟩
      exact hco ⟨i.toPolynomial F, -c, by linear_combination hc⟩
    · intro hone
      have hdeg := length_eq_natDegree_add_one hm hne
      refine absurd ((isCoprime_iff_natDegree hne).mpr fun d _ hd => ?_) hco
      have := natDegree_le_of_dvd hd hne
      omega

end Modulus

/-- Over seven elements: `x` has an inverse modulo `x^2 + 1`, `x - 1` has none modulo `x^2 - 1`. -/
theorem inverseMod?_decides_seven :
    ∃ (F : PrimeField) (m m' : Poly), F.modulus = 7 ∧ m = ofCoeffs F #[1, 0, 1] ∧
      m' = ofCoeffs F #[6, 0, 1] ∧ m.isZero = false ∧
      (x F).inverseMod? m = .ok (some (ofCoeffs F #[0, 6])) ∧
      (∀ i : Poly, i.field = F → i.length < m.length →
        m.toPolynomial F ∣ (x F).toPolynomial F * i.toPolynomial F - 1 → i = ofCoeffs F #[0, 6]) ∧
      m'.isZero = false ∧ (ofCoeffs F #[6, 1]).inverseMod? m' = .ok none ∧
      ¬∀ d : F.Element[X], d ∣ (ofCoeffs F #[6, 1]).toPolynomial F → d ∣ m'.toPolynomial F →
        d.natDegree = 0 := by
  let F : PrimeField := ⟨7, by decide +kernel, by decide⟩
  let m := ofCoeffs F #[1, 0, 1]
  let m' := ofCoeffs F #[6, 0, 1]
  have hne : m.isZero = false := by decide +kernel
  have hne' : m'.isZero = false := by decide +kernel
  have hrun : (x F).inverseMod? m = .ok (some (ofCoeffs F #[0, 6])) := by decide +kernel
  have hrun' : (ofCoeffs F #[6, 1]).inverseMod? m' = .ok none := by decide +kernel
  obtain ⟨answer, -, heq, -, hunique, -⟩ :=
    inverseMod?_decides (F := F) (a := x F) (m := m) rfl rfl hne
  obtain ⟨answer', -, heq', hdecides, -⟩ :=
    inverseMod?_decides (F := F) (a := ofCoeffs F #[6, 1]) (m := m') rfl rfl hne'
  obtain rfl := Except.ok.inj (hrun.symm.trans heq)
  obtain rfl := Except.ok.inj (hrun'.symm.trans heq')
  refine ⟨F, m, m', rfl, rfl, rfl, hne, hrun, fun i hi hlen hdvd => ?_, hne', hrun', ?_⟩
  · exact (Option.some.inj ((hunique i).mpr ⟨hi, hlen, hdvd⟩)).symm
  · exact fun h => Bool.false_ne_true (hdecides.mpr h)

end ZeroDim.Poly
