import Mathlib
import ZeroDim.Proofs.Field.Residues

/-! # Sums of products with delayed reduction

Up to eight products of reduced words are added to a residue before the accumulator is reduced.
The bound on the modulus is just small enough for this: the accumulator never leaves 64 bits, so
it stays congruent to the sum of all products, and a scalar product is that sum modulo the
modulus. -/

set_option autoImplicit false

namespace ZeroDim.PrimeField

variable {F : PrimeField}

theorem add_product_lt (c a b : UInt32) : c.toNat + a.toNat * b.toNat < 2 ^ 64 := by
  rw [← toNat_wide_mulAdd]
  exact UInt64.toNat_lt _

theorem toNat_add_wide_mul {acc : UInt64} {a b : UInt32}
    (h : acc.toNat + a.toNat * b.toNat < 2 ^ 64) :
    (acc + a.toUInt64 * b.toUInt64).toNat = acc.toNat + a.toNat * b.toNat := by
  rw [UInt64.toNat_add, toNat_wide_mul, Nat.mod_eq_of_lt h]

/-- What the accumulator may hold before product `i`. -/
def accumulatorBound (F : PrimeField) (i : Nat) : Nat :=
  (F.modulus.toNat - 1) + i % productsPerReduction * ((F.modulus.toNat - 1) * (F.modulus.toNat - 1))

theorem accumulatorBound_add_product_lt (F : PrimeField) (i : Nat) :
    F.accumulatorBound i + (F.modulus.toNat - 1) * (F.modulus.toNat - 1) < 2 ^ 64 := by
  have hp : F.modulus.toNat - 1 ≤ modulusBound - 2 := by
    have := F.bounded
    omega
  have hi : i % productsPerReduction ≤ 7 := Nat.lt_succ_iff.mp (Nat.mod_lt i (by decide))
  have hsq : (F.modulus.toNat - 1) * (F.modulus.toNat - 1) ≤
      (modulusBound - 2) * (modulusBound - 2) := Nat.mul_le_mul hp hp
  calc F.accumulatorBound i + (F.modulus.toNat - 1) * (F.modulus.toNat - 1)
      ≤ (modulusBound - 2) + 7 * ((modulusBound - 2) * (modulusBound - 2)) +
          (modulusBound - 2) * (modulusBound - 2) :=
        Nat.add_le_add (Nat.add_le_add hp (Nat.mul_le_mul hi hsq)) hsq
    _ < 2 ^ 64 := by decide

theorem toNat_product_le {a b : UInt32} (ha : F.Reduced a) (hb : F.Reduced b) :
    a.toNat * b.toNat ≤ (F.modulus.toNat - 1) * (F.modulus.toNat - 1) := by
  rw [reduced_iff] at ha hb
  exact Nat.mul_le_mul (by omega) (by omega)

/-- The product is added in 64 bits without wrap-around, and after every eighth the sum is
reduced. -/
theorem toNat_accumulate {i : Nat} {acc : UInt64} {a b : UInt32} (ha : F.Reduced a)
    (hb : F.Reduced b) (hacc : acc.toNat ≤ F.accumulatorBound i) :
    (F.accumulate i acc a b).toNat =
      if i % productsPerReduction = productsPerReduction - 1 then
        (acc.toNat + a.toNat * b.toNat) % F.modulus.toNat
      else acc.toNat + a.toNat * b.toNat := by
  have hprod := toNat_product_le ha hb
  have hlt := F.accumulatorBound_add_product_lt i
  have hsum : (acc + a.toUInt64 * b.toUInt64).toNat = acc.toNat + a.toNat * b.toNat :=
    toNat_add_wide_mul (by omega)
  simp only [accumulate]
  split
  · rw [UInt64.toNat_mod, UInt32.toNat_toUInt64, hsum]
  · exact hsum

theorem add_one_mod_productsPerReduction {i : Nat}
    (hi : ¬i % productsPerReduction = productsPerReduction - 1) :
    (i + 1) % productsPerReduction = i % productsPerReduction + 1 := by
  unfold productsPerReduction at hi ⊢
  omega

theorem accumulate_spec {i : Nat} {acc : UInt64} {a b : UInt32} (ha : F.Reduced a)
    (hb : F.Reduced b) (hacc : acc.toNat ≤ F.accumulatorBound i) :
    ((F.accumulate i acc a b).toNat : F.Element) = acc.toNat + F.value a * F.value b ∧
      (F.accumulate i acc a b).toNat ≤ F.accumulatorBound (i + 1) := by
  have hprod := toNat_product_le ha hb
  rw [toNat_accumulate ha hb hacc]
  split
  · constructor
    · rw [ZMod.natCast_mod]
      push_cast
      rfl
    · have h₁ := Nat.mod_lt (acc.toNat + a.toNat * b.toNat) F.modulus_pos
      unfold accumulatorBound
      omega
  · rename_i hi
    constructor
    · push_cast
      rfl
    · have hnext := add_one_mod_productsPerReduction hi
      unfold accumulatorBound at hacc ⊢
      rw [hnext, Nat.add_mul, Nat.one_mul]
      omega

theorem fold_accumulate_spec {f g : Nat → UInt32} (hf : ∀ i, F.Reduced (f i))
    (hg : ∀ i, F.Reduced (g i)) (n : Nat) :
    ((n.fold (fun i _ acc => F.accumulate i acc (f i) (g i)) 0).toNat : F.Element) =
        ∑ i ∈ Finset.range n, F.value (f i) * F.value (g i) ∧
      (n.fold (fun i _ acc => F.accumulate i acc (f i) (g i)) 0).toNat ≤ F.accumulatorBound n := by
  induction n with
  | zero => simp
  | succ n ih =>
    obtain ⟨hsum, hbound⟩ := ih
    obtain ⟨hstep, hnext⟩ := accumulate_spec (hf n) (hg n) hbound
    rw [Nat.fold_succ, Finset.sum_range_succ, hstep, hsum]
    exact ⟨rfl, hnext⟩

theorem fold_accumulate_add_product_lt {f g : Nat → UInt32} (hf : ∀ i, F.Reduced (f i))
    (hg : ∀ i, F.Reduced (g i)) (n : Nat) :
    (n.fold (fun i _ acc => F.accumulate i acc (f i) (g i)) 0).toNat + (f n).toNat * (g n).toNat <
      2 ^ 64 :=
  lt_of_le_of_lt
    (Nat.add_le_add (fold_accumulate_spec hf hg n).2 (toNat_product_le (hf n) (hg n)))
    (F.accumulatorBound_add_product_lt n)

/-- Before product `n` the accumulator is a residue and the products since the last reduction, of
which there are at most seven. -/
theorem fold_accumulate_eq {f g : Nat → UInt32} (hf : ∀ i, F.Reduced (f i))
    (hg : ∀ i, F.Reduced (g i)) (n : Nat) :
    ∃ r < F.modulus.toNat, (n.fold (fun i _ acc => F.accumulate i acc (f i) (g i)) 0).toNat =
      r + ∑ i ∈ Finset.Ico (n - n % productsPerReduction) n, (f i).toNat * (g i).toNat := by
  induction n with
  | zero => exact ⟨0, F.modulus_pos, by simp⟩
  | succ n ih =>
    obtain ⟨r, hr, hacc⟩ := ih
    rw [Nat.fold_succ, toNat_accumulate (hf n) (hg n) (fold_accumulate_spec hf hg n).2]
    split
    · rename_i hn
      have hnext : (n + 1) % productsPerReduction = 0 := by
        unfold productsPerReduction at hn ⊢
        omega
      simp only [hnext, Nat.sub_zero, Finset.Ico_self, Finset.sum_empty, add_zero]
      exact ⟨_, Nat.mod_lt _ F.modulus_pos, rfl⟩
    · rename_i hn
      refine ⟨r, hr, ?_⟩
      rw [add_one_mod_productsPerReduction hn, Nat.add_sub_add_right,
        Finset.sum_Ico_succ_top (Nat.sub_le _ _), hacc, add_assoc]

theorem value_reduce_fold_accumulate {f g : Nat → UInt32} (hf : ∀ i, F.Reduced (f i))
    (hg : ∀ i, F.Reduced (g i)) (n : Nat) :
    F.value (F.reduce (n.fold (fun i _ acc => F.accumulate i acc (f i) (g i)) 0)) =
      ∑ i ∈ Finset.range n, F.value (f i) * F.value (g i) := by
  rw [value_reduce, (fold_accumulate_spec hf hg n).1]

theorem value_dot {a b : Array UInt32} (ha : F.AllReduced a) (hb : F.AllReduced b) :
    F.value (F.dot a b) =
      ∑ i ∈ Finset.range (min a.size b.size), F.value (a.getD i 0) * F.value (b.getD i 0) :=
  value_reduce_fold_accumulate (fun i => ha.getD i) (fun i => hb.getD i) _

theorem toNat_dot {a b : Array UInt32} (ha : F.AllReduced a) (hb : F.AllReduced b) :
    (F.dot a b).toNat = (∑ i ∈ Finset.range (min a.size b.size),
      (a.getD i 0).toNat * (b.getD i 0).toNat) % F.modulus.toNat := by
  apply toNat_eq_mod (F.reduced_dot a b)
  rw [value_dot ha hb]
  push_cast
  rfl

end ZeroDim.PrimeField
