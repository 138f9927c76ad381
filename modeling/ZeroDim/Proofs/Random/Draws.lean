import Mathlib
import ZeroDim.Field.Lemmas
import ZeroDim.Random.Words

/-! # Draws

A draw below `r` is below `r`, from every source, and every number below `r` is drawn from some
word. So the draws of a residue other than zero are exactly the residues other than zero. -/

set_option autoImplicit false

namespace ZeroDim

open PrimeField

namespace WordSource

variable {r : UInt32}

theorem toNat_high (w r : UInt32) :
    ((w.toUInt64 * r.toUInt64) >>> 32).toUInt32.toNat = w.toNat * r.toNat / 2 ^ 32 := by
  have hle : w.toNat * r.toNat / 2 ^ 32 ≤ r.toNat := by
    rw [Nat.div_le_iff_le_mul (by decide)]
    have := Nat.mul_le_mul_right r.toNat w.toNat_lt.le
    omega
  have hr := r.toNat_lt
  rw [UInt64.toNat_toUInt32, UInt64.toNat_shiftRight, toNat_wide_mul, Nat.shiftRight_eq_div_pow]
  exact Nat.mod_eq_of_lt (by simpa using lt_of_le_of_lt hle hr)

theorem searchBelow_lt (hr : 0 < r.toNat) (n : ℕ) (source : WordSource) :
    (searchBelow r n source).1.toNat < r.toNat := by
  induction n generalizing source with
  | zero => exact hr
  | succ n ih =>
    simp only [searchBelow]
    split
    · rw [toNat_high]
      apply Nat.div_lt_of_lt_mul
      exact Nat.mul_lt_mul_of_pos_right source.next.1.toNat_lt hr
    · exact ih source.next.2

/-- The bound on low halves leaves at least `r` of them. -/
theorem toNat_le_acceptanceBound (hr : 0 < r.toNat) :
    r.toNat ≤ (acceptanceBound r).toNat + 1 := by
  have hlog : r.log2.toNat = Nat.log2 r.toNat := rfl
  have hlt : r.toNat < 2 ^ (Nat.log2 r.toNat + 1) := Nat.lt_log2_self
  have hlog_lt : Nat.log2 r.toNat < 32 := (Nat.log2_lt hr.ne').mpr r.toNat_lt
  have hle : r.log2 ≤ 31 := UInt32.le_iff_toNat_le.mpr (by rw [hlog]; exact Nat.le_of_lt_succ hlog_lt)
  have hamount : (31 - r.log2).toNat = 31 - Nat.log2 r.toNat := UInt32.toNat_sub_of_le _ _ hle
  have hfits : r.toNat * 2 ^ (31 - Nat.log2 r.toNat) < 2 ^ 32 := by
    calc r.toNat * 2 ^ (31 - Nat.log2 r.toNat)
        < 2 ^ (Nat.log2 r.toNat + 1) * 2 ^ (31 - Nat.log2 r.toNat) :=
          Nat.mul_lt_mul_of_pos_right hlt (Nat.two_pow_pos _)
      _ = 2 ^ 32 := by rw [← pow_add]; congr 1; omega
  have hshift : (r <<< (31 - r.log2)).toNat = r.toNat * 2 ^ (31 - Nat.log2 r.toNat) := by
    rw [UInt32.toNat_shiftLeft, hamount, Nat.mod_eq_of_lt (by omega : 31 - Nat.log2 r.toNat < 32),
      Nat.shiftLeft_eq, Nat.mod_eq_of_lt hfits]
  have hgrow : r.toNat ≤ r.toNat * 2 ^ (31 - Nat.log2 r.toNat) :=
    Nat.le_mul_of_pos_right _ (Nat.two_pow_pos _)
  have hone : (1 : UInt32) ≤ r <<< (31 - r.log2) := by
    rw [UInt32.le_iff_toNat_le, hshift]
    exact hr.trans_le hgrow
  rw [acceptanceBound, UInt32.toNat_sub_of_le _ _ hone, hshift]
  change r.toNat ≤ r.toNat * 2 ^ (31 - Nat.log2 r.toNat) - 1 + 1
  omega

theorem exists_word {a : ℕ} (ha : a < r.toNat) :
    ∃ w : UInt32, w.toNat * r.toNat / 2 ^ 32 = a ∧ w.toNat * r.toNat % 2 ^ 32 < r.toNat := by
  have hr := r.toNat_lt
  set n := a * 2 ^ 32 + (r.toNat - 1) with hn
  have hdiv := Nat.div_add_mod n r.toNat
  have hmod := Nat.mod_lt n (Nat.zero_lt_of_lt ha)
  have hlt : n / r.toNat < 2 ^ 32 := by
    apply Nat.div_lt_of_lt_mul
    have := Nat.mul_le_mul_right (2 ^ 32) (Nat.le_sub_one_of_lt ha)
    rw [Nat.sub_mul] at this
    omega
  refine ⟨UInt32.ofNat (n / r.toNat), ?_⟩
  have hw : (UInt32.ofNat (n / r.toNat)).toNat = n / r.toNat := by
    simpa using Nat.mod_eq_of_lt hlt
  have hproduct : n / r.toNat * r.toNat = a * 2 ^ 32 + (r.toNat - 1 - n % r.toNat) := by
    rw [Nat.mul_comm]
    omega
  rw [hw, hproduct]
  omega

theorem exists_below_eq {a : UInt32} (ha : a.toNat < r.toNat) :
    ∃ source rest, below r source = (a, rest) := by
  obtain ⟨w, hhigh, hlow⟩ := exists_word ha
  refine ⟨.listed [w], .listed [], ?_⟩
  have haccepted : (w.toUInt64 * r.toUInt64).toUInt32 ≤ acceptanceBound r := by
    rw [UInt32.le_iff_toNat_le, UInt64.toNat_toUInt32, toNat_wide_mul]
    have := toNat_le_acceptanceBound (Nat.zero_lt_of_lt ha)
    omega
  have hvalue : ((w.toUInt64 * r.toUInt64) >>> 32).toUInt32 = a := by
    rw [← UInt32.toNat_inj, toNat_high, hhigh]
  change (if (w.toUInt64 * r.toUInt64).toUInt32 ≤ acceptanceBound r then
    (((w.toUInt64 * r.toUInt64) >>> 32).toUInt32, listed []) else searchBelow r 1 (.listed [])) = _
  rw [if_pos haccepted, hvalue]

variable (F : PrimeField)

theorem toNat_modulus_sub_one : (F.modulus - 1).toNat = F.modulus.toNat - 1 :=
  UInt32.toNat_sub_of_le _ _ (UInt32.le_iff_toNat_le.mpr F.modulus_pos)

theorem nonzeroResidue_spec (source : WordSource) :
    (source.nonzeroResidue F).1 ≠ 0 ∧ F.Reduced (source.nonzeroResidue F).1 := by
  have htwo := F.two_le_modulus
  have hlt := F.modulus.toNat_lt
  have hdraw : (source.below (F.modulus - 1)).1.toNat < (F.modulus - 1).toNat :=
    searchBelow_lt (by rw [toNat_modulus_sub_one]; omega) _ source
  rw [toNat_modulus_sub_one] at hdraw
  have hvalue : (source.nonzeroResidue F).1.toNat =
      1 + (source.below (F.modulus - 1)).1.toNat := by
    change (1 + (source.below (F.modulus - 1)).1).toNat = _
    rw [UInt32.toNat_add]
    exact Nat.mod_eq_of_lt (by simp; omega)
  rw [reduced_iff, ne_eq, ← UInt32.toNat_inj, hvalue]
  change 1 + _ ≠ 0 ∧ _
  omega

theorem exists_nonzeroResidue_eq {a : UInt32} (hne : a ≠ 0) (ha : F.Reduced a) :
    ∃ source rest, nonzeroResidue F source = (a, rest) := by
  rw [reduced_iff] at ha
  have hpos : 0 < a.toNat := Nat.pos_of_ne_zero fun h => hne (UInt32.toNat_inj.mp h)
  have hpred : (a - 1).toNat = a.toNat - 1 :=
    UInt32.toNat_sub_of_le _ _ (UInt32.le_iff_toNat_le.mpr hpos)
  obtain ⟨source, rest, h⟩ := exists_below_eq (r := F.modulus - 1) (a := a - 1)
    (by rw [hpred, toNat_modulus_sub_one]; omega)
  refine ⟨source, rest, ?_⟩
  rw [nonzeroResidue, h]
  exact Prod.ext (by simp) rfl

end WordSource

end ZeroDim
