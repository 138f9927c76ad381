import Mathlib
import ZeroDim.Proofs.Field.Residues

/-! # Inverses by Euclid's recursion

The recursion carries two remainders and the cofactor of each.  The cofactors have opposite
signs, so that they add up in magnitude from step to step, and the products of each remainder
with the other cofactor add up to the modulus.  No cofactor exceeds the modulus for this reason,
and 64 bits hold every intermediate product. -/

set_option autoImplicit false

namespace ZeroDim.PrimeField

/-- Two rows of Euclid's recursion on `p` and `a`: every remainder is its cofactor times `a`
modulo `p`, and the cofactors are bounded by `p`. -/
structure EuclidRows (p a : Nat) (t t' : Int64) (r r' : UInt32) : Prop where
  first : (p : Int) ∣ t.toInt * a - r.toNat
  second : (p : Int) ∣ t'.toInt * a - r'.toNat
  opposite : t.toInt * t'.toInt ≤ 0
  balance : (r.toNat : Int) * |t'.toInt| + r'.toNat * |t.toInt| = p

theorem abs_sub_mul_of_opposite {x y q : Int} (hq : 0 ≤ q) (h : x * y ≤ 0) :
    |x - q * y| = |x| + q * |y| := by
  rcases le_total 0 y with hy | hy
  · have hx : x ≤ 0 ∨ y = 0 := by
      rcases hy.lt_or_eq with hlt | heq
      · exact Or.inl (by nlinarith)
      · exact Or.inr heq.symm
    rcases hx with hx | rfl
    · rw [abs_of_nonneg hy, abs_of_nonpos hx, abs_of_nonpos (by nlinarith)]
      ring
    · simp
  · have hx : 0 ≤ x ∨ y = 0 := by
      rcases hy.lt_or_eq with hlt | heq
      · exact Or.inl (by nlinarith)
      · exact Or.inr heq
    rcases hx with hx | rfl
    · rw [abs_of_nonpos hy, abs_of_nonneg hx, abs_of_nonneg (by nlinarith)]
      ring
    · simp

theorem toInt_quotient (q : UInt32) : q.toUInt64.toInt64.toInt = (q.toNat : Int) := by
  have hq : q.toNat < 2 ^ 32 := q.toNat_lt
  have h : q.toUInt64.toInt64 = Int64.ofNat q.toNat := by
    apply Int64.toBitVec_inj.mp
    apply BitVec.eq_of_toNat_eq
    simp
  rw [h, Int64.toInt_ofNat_of_lt (by omega)]

theorem toInt_sub_mul {t t' : Int64} (q : UInt32)
    (hprod : |(q.toNat : Int) * t'.toInt| < 2 ^ 62) (ht : |t.toInt| < 2 ^ 62) :
    (t - q.toUInt64.toInt64 * t').toInt = t.toInt - q.toNat * t'.toInt := by
  rw [abs_lt] at hprod ht
  have hmul : (q.toUInt64.toInt64 * t').toInt = q.toNat * t'.toInt := by
    rw [Int64.toInt_mul, toInt_quotient]
    exact Int.bmod_eq_of_le (by omega) (by omega)
  rw [Int64.toInt_sub, hmul]
  exact Int.bmod_eq_of_le (by omega) (by omega)

theorem EuclidRows.cofactor_le {p a : Nat} {t t' : Int64} {r r' : UInt32}
    (h : EuclidRows p a t t' r r') (hr : r' ≠ 0) : |t.toInt| ≤ p := by
  have hpos : (1 : Int) ≤ r'.toNat := by
    have : r'.toNat ≠ 0 := fun h' => hr (UInt32.toNat_inj.mp h')
    omega
  have hb := h.balance
  have h₁ : 0 ≤ (r.toNat : Int) * |t'.toInt| := by positivity
  have h₂ : 1 * |t.toInt| ≤ r'.toNat * |t.toInt| :=
    mul_le_mul_of_nonneg_right hpos (abs_nonneg _)
  linarith

theorem EuclidRows.quotient_mul_le {p a : Nat} {t t' : Int64} {r r' : UInt32}
    (h : EuclidRows p a t t' r r') :
    ((r.toNat / r'.toNat : Nat) : Int) * |t'.toInt| ≤ p := by
  have hb := h.balance
  have hq : ((r.toNat / r'.toNat : Nat) : Int) ≤ r.toNat := by
    exact_mod_cast Nat.div_le_self _ _
  have h₁ : ((r.toNat / r'.toNat : Nat) : Int) * |t'.toInt| ≤ r.toNat * |t'.toInt| :=
    mul_le_mul_of_nonneg_right hq (abs_nonneg _)
  have h₂ : 0 ≤ (r'.toNat : Int) * |t.toInt| := by positivity
  linarith

theorem EuclidRows.step {p a : Nat} {t t' : Int64} {r r' : UInt32} (hp : p < 2 ^ 32)
    (h : EuclidRows p a t t' r r') (hr : r' ≠ 0) :
    EuclidRows p a t' (t - (r / r').toUInt64.toInt64 * t') r' (r % r') := by
  have hq : (r / r').toNat = r.toNat / r'.toNat := UInt32.toNat_div r r'
  have hcof : (t - (r / r').toUInt64.toInt64 * t').toInt =
      t.toInt - (r / r').toNat * t'.toInt := by
    apply toInt_sub_mul
    · have := h.quotient_mul_le
      rw [abs_mul, hq, Nat.abs_cast]
      omega
    · have := h.cofactor_le hr
      omega
  have hrem : ((r % r').toNat : Int) = r.toNat - (r / r').toNat * r'.toNat := by
    have := Nat.div_add_mod r.toNat r'.toNat
    rw [UInt32.toNat_mod, hq]
    push_cast
    rw [Int.emod_def]
    ring
  refine ⟨h.second, ?_, ?_, ?_⟩
  · rw [hcof, hrem]
    have := dvd_sub h.first (h.second.mul_left ((r / r').toNat : Int))
    rw [show (t.toInt - (r / r').toNat * t'.toInt) * a - (r.toNat - (r / r').toNat * r'.toNat) =
      t.toInt * a - r.toNat - (r / r').toNat * (t'.toInt * a - r'.toNat) by ring]
    exact this
  · rw [hcof]
    have h₁ := h.opposite
    have h₂ : 0 ≤ ((r / r').toNat : Int) * (t'.toInt * t'.toInt) :=
      mul_nonneg (by positivity) (mul_self_nonneg _)
    linarith
  · rw [hcof, hrem, abs_sub_mul_of_opposite (by positivity) h.opposite, ← h.balance]
    ring

theorem euclid_spec {p a : Nat} (hp : p < 2 ^ 32) (t t' : Int64) (r r' : UInt32)
    (h : EuclidRows p a t t' r r') :
    (euclid t t' r r').2.toNat = Nat.gcd r.toNat r'.toNat ∧
      (p : Int) ∣ (euclid t t' r r').1.toInt * a - (euclid t t' r r').2.toNat := by
  fun_induction euclid t t' r r' with
  | case1 t t' r => exact ⟨by simp, h.first⟩
  | case2 t t' r r' hr ih =>
    obtain ⟨hgcd, hdvd⟩ := ih (h.step hp hr)
    refine ⟨?_, hdvd⟩
    rw [hgcd, UInt32.toNat_mod, Nat.gcd_comm, ← Nat.gcd_rec, Nat.gcd_comm]

theorem value_ofSigned (F : PrimeField) (v : Int64) :
    F.value (F.ofSigned v) = (v.toInt : F.Element) := by
  have hpos : (0 : Int) < F.modulus.toNat := by exact_mod_cast F.modulus_pos
  have h₀ := Int.emod_nonneg v.toInt hpos.ne'
  have h₁ := Int.emod_lt_of_pos v.toInt hpos
  have h₂ : F.modulus.toNat < 2 ^ 32 := F.modulus.toNat_lt
  have hnat : (F.ofSigned v).toNat = (v.toInt % F.modulus.toNat).toNat := by
    rw [ofSigned, UInt32.toNat_ofNat']
    exact Nat.mod_eq_of_lt (by omega)
  have hcast : (((v.toInt % F.modulus.toNat).toNat : Int) : F.Element) = v.toInt := by
    rw [Int.toNat_of_nonneg h₀, ZMod.intCast_mod]
  rw [value, hnat]
  exact_mod_cast hcast

theorem reduced_ofSigned (F : PrimeField) (v : Int64) : F.Reduced (F.ofSigned v) := by
  have hpos : (0 : Int) < F.modulus.toNat := by exact_mod_cast F.modulus_pos
  have h₀ := Int.emod_nonneg v.toInt hpos.ne'
  have h₁ := Int.emod_lt_of_pos v.toInt hpos
  have h₂ : F.modulus.toNat < 2 ^ 32 := F.modulus.toNat_lt
  rw [reduced_iff, ofSigned, UInt32.toNat_ofNat', Nat.mod_eq_of_lt (by omega)]
  omega

variable {F : PrimeField} {a : UInt32}

theorem euclidRows_initial (F : PrimeField) (a : UInt32) :
    EuclidRows F.modulus.toNat a.toNat 0 1 F.modulus a := by
  refine ⟨?_, ?_, ?_, ?_⟩ <;> simp

theorem value_eq_zero_iff_dvd : F.value a = 0 ↔ F.modulus.toNat ∣ a.toNat :=
  ZMod.natCast_eq_zero_iff _ _

theorem inv?_eq (F : PrimeField) (a : UInt32) :
    F.inv? a = if F.value a = 0 then none else some (F.word (F.value a)⁻¹) := by
  obtain ⟨hgcd, hdvd⟩ :=
    euclid_spec F.modulus.toNat_lt 0 1 F.modulus a (euclidRows_initial F a)
  by_cases ha : F.value a = 0
  · rw [if_pos ha, inv?]
    rw [value_eq_zero_iff_dvd] at ha
    split
    · rfl
    · rw [Nat.gcd_eq_left ha] at hgcd
      have hlt : 1 < (euclid 0 1 F.modulus a).2 := by
        rw [UInt32.lt_iff_toNat_lt, hgcd]
        exact F.modulus_prime.one_lt
      simp only [if_pos hlt]
  · have hne : a ≠ 0 := by
      rintro rfl
      exact ha value_zero
    rw [if_neg ha, inv?, if_neg hne]
    rw [value_eq_zero_iff_dvd, ← F.modulus_prime.coprime_iff_not_dvd] at ha
    rw [ha.gcd_eq_one] at hgcd
    have hle : ¬1 < (euclid 0 1 F.modulus a).2 := by
      rw [UInt32.lt_iff_toNat_lt, hgcd]
      exact lt_irrefl 1
    simp only [if_neg hle, Option.some.injEq]
    apply eq_of_value_eq (F.reduced_ofSigned _) (reduced_word _)
    rw [value_word, value_ofSigned]
    refine eq_inv_of_mul_eq_one_left ?_
    rw [hgcd, ← ZMod.intCast_zmod_eq_zero_iff_dvd] at hdvd
    push_cast at hdvd
    exact sub_eq_zero.mp hdvd

theorem inv?_eq_some_word (h : F.value a ≠ 0) : F.inv? a = some (F.word (F.value a)⁻¹) := by
  rw [inv?_eq, if_neg h]

end ZeroDim.PrimeField
