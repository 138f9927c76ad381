import ZeroDim.Field.Basic

/-! # Field operations as arithmetic modulo the modulus

What each operation does to the numbers that its words stand for.  Sums, differences and
negatives ask for reduced operands and stay below `2 ^ 32` on the way; products do not ask for
anything, because 64 bits hold every product of two words with a third word added.
-/

set_option autoImplicit false

namespace ZeroDim.PrimeField

variable {F : PrimeField} {a b : UInt32}

theorem two_mul_modulus_lt (F : PrimeField) : 2 * F.modulus.toNat < 4294967296 := by
  have h := F.bounded
  have hb : 2 * modulusBound < 4294967296 := by decide
  omega

theorem toNat_residue (F : PrimeField) (a : UInt32) :
    (F.residue a).toNat = a.toNat % F.modulus.toNat := UInt32.toNat_mod a F.modulus

theorem toNat_add (ha : F.Reduced a) (hb : F.Reduced b) :
    (F.add a b).toNat = (a.toNat + b.toNat) % F.modulus.toNat := by
  rw [reduced_iff] at ha hb
  have hp := F.two_mul_modulus_lt
  have hs : (a + b).toNat = a.toNat + b.toNat := by
    rw [UInt32.toNat_add]
    exact Nat.mod_eq_of_lt (by omega)
  by_cases h : F.modulus ≤ a + b
  · have hle := UInt32.le_iff_toNat_le.mp h
    rw [hs] at hle
    simp only [add, if_pos h]
    rw [UInt32.toNat_sub_of_le _ _ h, hs, Nat.mod_eq_sub_mod hle, Nat.mod_eq_of_lt (by omega)]
  · have hlt : a.toNat + b.toNat < F.modulus.toNat := by
      rw [← hs]
      exact Nat.lt_of_not_le fun hle => h (UInt32.le_iff_toNat_le.mpr hle)
    simp only [add, if_neg h]
    rw [hs, Nat.mod_eq_of_lt hlt]

theorem reduced_add (ha : F.Reduced a) (hb : F.Reduced b) : F.Reduced (F.add a b) := by
  rw [reduced_iff, toNat_add ha hb]
  exact Nat.mod_lt _ F.modulus_pos

theorem toNat_sub (ha : F.Reduced a) (hb : F.Reduced b) :
    (F.sub a b).toNat = (a.toNat + (F.modulus.toNat - b.toNat)) % F.modulus.toNat := by
  rw [reduced_iff] at ha hb
  have hp := F.two_mul_modulus_lt
  by_cases h : b ≤ a
  · have hle := UInt32.le_iff_toNat_le.mp h
    simp only [sub, if_pos h]
    rw [UInt32.toNat_sub_of_le _ _ h, show a.toNat + (F.modulus.toNat - b.toNat) =
      (a.toNat - b.toNat) + F.modulus.toNat by omega, Nat.add_mod_right,
      Nat.mod_eq_of_lt (by omega)]
  · have hlt : a.toNat < b.toNat :=
      Nat.lt_of_not_le fun hle => h (UInt32.le_iff_toNat_le.mpr hle)
    have hb' : b ≤ F.modulus := UInt32.le_iff_toNat_le.mpr (Nat.le_of_lt hb)
    simp only [sub, if_neg h]
    rw [UInt32.toNat_add, UInt32.toNat_sub_of_le _ _ hb', Nat.mod_eq_of_lt (by omega),
      Nat.mod_eq_of_lt (by omega)]

theorem reduced_sub (ha : F.Reduced a) (hb : F.Reduced b) : F.Reduced (F.sub a b) := by
  rw [reduced_iff, toNat_sub ha hb]
  exact Nat.mod_lt _ F.modulus_pos

theorem toNat_neg (ha : F.Reduced a) :
    (F.neg a).toNat = (F.modulus.toNat - a.toNat) % F.modulus.toNat := by
  rw [reduced_iff] at ha
  by_cases h : a = 0
  · simp [neg, h]
  · have hpos : a.toNat ≠ 0 := fun h' => h (UInt32.toNat_inj.mp h')
    have hle : a ≤ F.modulus := UInt32.le_iff_toNat_le.mpr (Nat.le_of_lt ha)
    simp only [neg, if_neg h]
    rw [UInt32.toNat_sub_of_le _ _ hle, Nat.mod_eq_of_lt (by omega)]

theorem reduced_neg (ha : F.Reduced a) : F.Reduced (F.neg a) := by
  rw [reduced_iff, toNat_neg ha]
  exact Nat.mod_lt _ F.modulus_pos

theorem toNat_wide_mulAdd (c a b : UInt32) :
    (c.toUInt64 + a.toUInt64 * b.toUInt64).toNat = c.toNat + a.toNat * b.toNat := by
  have ha : a.toNat ≤ 2 ^ 32 - 1 := Nat.le_pred_of_lt a.toNat_lt
  have hb : b.toNat ≤ 2 ^ 32 - 1 := Nat.le_pred_of_lt b.toNat_lt
  have hc : c.toNat ≤ 2 ^ 32 - 1 := Nat.le_pred_of_lt c.toNat_lt
  have hab : a.toNat * b.toNat ≤ (2 ^ 32 - 1) * (2 ^ 32 - 1) := Nat.mul_le_mul ha hb
  rw [UInt64.toNat_add, UInt64.toNat_mul, UInt32.toNat_toUInt64, UInt32.toNat_toUInt64,
    UInt32.toNat_toUInt64, Nat.mod_eq_of_lt (a := a.toNat * b.toNat) (by omega),
    Nat.mod_eq_of_lt (by omega)]

theorem toNat_wide_mul (a b : UInt32) :
    (a.toUInt64 * b.toUInt64).toNat = a.toNat * b.toNat := by
  simpa using toNat_wide_mulAdd 0 a b

theorem toNat_mulAdd (F : PrimeField) (c a b : UInt32) :
    (F.mulAdd c a b).toNat = (c.toNat + a.toNat * b.toNat) % F.modulus.toNat := by
  rw [mulAdd, toNat_reduce, toNat_wide_mulAdd]

theorem toNat_mul (F : PrimeField) (a b : UInt32) :
    (F.mul a b).toNat = a.toNat * b.toNat % F.modulus.toNat := by
  rw [mul, toNat_reduce, toNat_wide_mul]

theorem reduced_mul (F : PrimeField) (a b : UInt32) : F.Reduced (F.mul a b) :=
  F.reduced_reduce _

theorem reduced_mulAdd (F : PrimeField) (c a b : UInt32) : F.Reduced (F.mulAdd c a b) :=
  F.reduced_reduce _

theorem reduced_dot (F : PrimeField) (a b : Array UInt32) : F.Reduced (F.dot a b) :=
  F.reduced_reduce _

end ZeroDim.PrimeField
