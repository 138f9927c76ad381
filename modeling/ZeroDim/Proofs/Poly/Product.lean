import Mathlib
import ZeroDim.Proofs.Field.DelayedReduction
import ZeroDim.Proofs.Poly.Denotation

/-! # Products of polynomials

Both ways to the product of two vectors of reduced words, by convolution and by splitting, give
the product of the polynomials that the vectors stand for.  The product of two `Poly`s is the
product in the polynomial ring, and `Poly.mulLow` holds its low coefficients. -/

set_option autoImplicit false

namespace ZeroDim

open Polynomial PrimeField

variable {F : PrimeField} {a b : Array UInt32}

theorem getD_ofFn {α : Type} {n : Nat} (f : Nat → α) (i : Nat) {d : α} :
    (Array.ofFn fun k : Fin n => f k).getD i d = if i < n then f i else d := by
  rw [Array.getD_eq_getD_getElem?, Array.getElem?_ofFn]
  split <;> simp

theorem coeff_polynomial_take (F : PrimeField) (cs : Array UInt32) (n i : Nat) :
    (F.polynomial (cs.take n)).coeff i = if i < n then F.value (cs.getD i 0) else 0 := by
  rw [coeff_polynomial, Array.take_eq_extract, Array.getD_eq_getD_getElem?,
    Array.getElem?_extract]
  by_cases hi : i < n
  · rw [if_pos hi]
    by_cases hs : i < cs.size
    · rw [if_pos (by omega), Nat.zero_add, Array.getD_eq_getD_getElem?]
    · rw [if_neg (by omega), getD_eq_zero_of_size_le (by omega), Option.getD_none]
  · rw [if_neg hi, if_neg (by omega), Option.getD_none, value_zero]

theorem polynomial_take {n : Nat} (h : (F.polynomial a).degree < n) :
    F.polynomial (a.take n) = F.polynomial a := by
  ext i
  rw [coeff_polynomial_take]
  split
  · rw [coeff_polynomial]
  · rename_i hi
    rw [(degree_lt_iff_coeff_zero _ _).mp h i (by omega)]

/-! ## Convolution -/

theorem value_convolutionEntry (ha : F.AllReduced a) (hb : F.AllReduced b) (k : Nat) :
    F.value (convolutionEntry F a b k) = (F.polynomial a * F.polynomial b).coeff k := by
  have hg : ∀ i, F.Reduced (if i ≤ k then b.getD (k - i) 0 else 0) := by
    intro i
    split
    · exact hb.getD _
    · exact F.reduced_zero
  rw [convolutionEntry, value_reduce_fold_accumulate (fun i => ha.getD i) hg, coeff_mul,
    Finset.Nat.sum_antidiagonal_eq_sum_range_succ_mk]
  simp only [coeff_polynomial]
  -- both sums run over the `i` with `i < a.size` and `i ≤ k`; elsewhere a factor vanishes
  calc ∑ i ∈ Finset.range a.size,
        F.value (a.getD i 0) * F.value (if i ≤ k then b.getD (k - i) 0 else 0)
      = ∑ i ∈ Finset.range (max a.size (k + 1)),
          F.value (a.getD i 0) * F.value (if i ≤ k then b.getD (k - i) 0 else 0) := by
        apply Finset.sum_subset (Finset.range_subset_range.mpr (le_max_left _ _))
        intro i _ hi
        rw [getD_eq_zero_of_size_le (by simpa using hi), value_zero, zero_mul]
    _ = ∑ i ∈ Finset.range (k + 1),
          F.value (a.getD i 0) * F.value (if i ≤ k then b.getD (k - i) 0 else 0) := by
        symm
        apply Finset.sum_subset (Finset.range_subset_range.mpr (le_max_right _ _))
        intro i _ hi
        rw [if_neg (by simpa using hi), value_zero, mul_zero]
    _ = ∑ i ∈ Finset.range (k + 1), F.value (a.getD i 0) * F.value (b.getD (k - i) 0) := by
        apply Finset.sum_congr rfl
        intro i hi
        rw [if_pos (by simpa [Nat.lt_succ_iff] using hi)]

theorem degree_mul_lt {f g : F.Element[X]} {n m : Nat} (hf : f.degree < n) (hg : g.degree < m) :
    (f * g).degree < (n + m - 1 : Nat) := by
  rw [degree_lt_iff_coeff_zero] at hf hg ⊢
  intro k hk
  rw [coeff_mul]
  apply Finset.sum_eq_zero
  rintro ⟨i, j⟩ hij
  rw [Finset.HasAntidiagonal.mem_antidiagonal] at hij
  simp only at hij ⊢
  by_cases hi : n ≤ i
  · rw [hf i hi, zero_mul]
  · rw [hg j (by omega), mul_zero]

theorem polynomial_eq_zero_of_isEmpty (h : a.isEmpty = true) : F.polynomial a = 0 := by
  rw [Array.isEmpty_iff] at h
  subst h
  rfl

theorem polynomial_convolution (ha : F.AllReduced a) (hb : F.AllReduced b) :
    F.polynomial (convolution F a b) = F.polynomial a * F.polynomial b := by
  unfold convolution
  split
  · rename_i h
    rw [Bool.or_eq_true] at h
    rcases h with h | h
    · rw [polynomial_eq_zero_of_isEmpty h, zero_mul]
      rfl
    · rw [polynomial_eq_zero_of_isEmpty h, mul_zero]
      rfl
  · ext k
    rw [coeff_polynomial, getD_ofFn (convolutionEntry F a b)]
    split
    · exact value_convolutionEntry ha hb k
    · rename_i hk
      have hdeg := degree_mul_lt (degree_polynomial_lt (F := F) a) (degree_polynomial_lt (F := F) b)
      rw [value_zero, (degree_lt_iff_coeff_zero _ _).mp hdeg k (by omega)]

theorem allReduced_convolution (F : PrimeField) (a b : Array UInt32) :
    F.AllReduced (convolution F a b) := by
  unfold convolution
  split
  · intro c hc
    simp at hc
  · exact allReduced_ofFn fun k => F.reduced_reduce _

theorem size_convolution (F : PrimeField) (a b : Array UInt32) :
    (convolution F a b).size = if a.isEmpty || b.isEmpty then 0 else a.size + b.size - 1 := by
  unfold convolution
  split
  · rfl
  · exact Array.size_ofFn

/-! ## Splitting -/

theorem getD_padded (a : Array UInt32) (start n i : Nat) :
    (padded a start n).getD i 0 = if i < n then a.getD (start + i) 0 else 0 :=
  getD_ofFn (fun i => a.getD (start + i) 0) i

theorem allReduced_padded (ha : F.AllReduced a) (start n : Nat) :
    F.AllReduced (padded a start n) := allReduced_ofFn fun _ => ha.getD _

theorem degree_padded_lt (a : Array UInt32) (start n : Nat) :
    (F.polynomial (padded a start n)).degree < n := by
  have h := degree_polynomial_lt (F := F) (padded a start n)
  rwa [padded, Array.size_ofFn] at h

theorem polynomial_eq_low_add_high {half : Nat} (h : a.size ≤ 2 * half) :
    F.polynomial a = F.polynomial (padded a 0 half) +
      F.polynomial (padded a half half) * X ^ half := by
  ext i
  rw [coeff_add, coeff_mul_X_pow', coeff_polynomial, coeff_polynomial, coeff_polynomial,
    getD_padded, getD_padded]
  by_cases hi : i < half
  · rw [if_pos hi, if_neg (by omega), Nat.zero_add, add_zero]
  · rw [if_neg hi, if_pos (by omega), value_zero, zero_add]
    split
    · rw [Nat.add_sub_cancel' (by omega)]
    · rw [getD_eq_zero_of_size_le (by omega)]

theorem getD_sumEntries {n : Nat} (f g : Nat → UInt32) (i : Nat) :
    (sumEntries F (Array.ofFn fun k : Fin n => f k) (Array.ofFn fun k : Fin n => g k)).getD i 0 =
      if i < n then F.add (f i) (g i) else 0 := by
  rw [sumEntries, Array.getD_eq_getD_getElem?, Array.getElem?_zipWith, Array.getElem?_ofFn,
    Array.getElem?_ofFn]
  by_cases hi : i < n
  · simp only [dif_pos hi, if_pos hi, Option.getD_some]
  · simp only [dif_neg hi, if_neg hi, Option.getD_none]

theorem polynomial_sumEntries_padded (ha : F.AllReduced a) (half : Nat) :
    F.polynomial (sumEntries F (padded a 0 half) (padded a half half)) =
      F.polynomial (padded a 0 half) + F.polynomial (padded a half half) := by
  ext i
  rw [coeff_add, coeff_polynomial, coeff_polynomial, coeff_polynomial, getD_padded, getD_padded,
    padded, padded, getD_sumEntries (fun i => a.getD (0 + i) 0) (fun i => a.getD (half + i) 0)]
  split
  · exact value_add (ha.getD _) (ha.getD _)
  · rw [value_zero, add_zero]

theorem allReduced_sumEntries (ha : F.AllReduced a) (hb : F.AllReduced b) :
    F.AllReduced (sumEntries F a b) := by
  intro c hc
  obtain ⟨i, hi⟩ := Array.mem_iff_getElem?.mp hc
  rw [sumEntries, Array.getElem?_zipWith] at hi
  cases hx : a[i]? with
  | none => simp [hx] at hi
  | some x =>
    cases hy : b[i]? with
    | none => simp [hx, hy] at hi
    | some y =>
      rw [hx, hy] at hi
      simp only [Option.some.injEq] at hi
      rw [← hi]
      exact reduced_add (ha x (Array.mem_of_getElem? hx)) (hb y (Array.mem_of_getElem? hy))

section Recombine
variable {low high mixed : Array UInt32}

theorem allReduced_recombine (hl : F.AllReduced low) (hh : F.AllReduced high)
    (hm : F.AllReduced mixed) (half : Nat) : F.AllReduced (recombine F half low high mixed) := by
  have hmid : ∀ i, F.Reduced (F.sub (F.sub (mixed.getD i 0) (low.getD i 0)) (high.getD i 0)) :=
    fun i => reduced_sub (reduced_sub (hm.getD i) (hl.getD i)) (hh.getD i)
  apply allReduced_ofFn
  intro k
  dsimp only
  split <;> split
  · exact reduced_add (reduced_add (hl.getD _) (hmid _)) (hh.getD _)
  · exact reduced_add (hl.getD _) (hh.getD _)
  · exact reduced_add (hl.getD _) (hmid _)
  · exact hl.getD _

/-- The three products are put together at the powers `1`, `x ^ half` and `x ^ (2 * half)`. -/
theorem polynomial_recombine {half : Nat} (hl : F.AllReduced low) (hh : F.AllReduced high)
    (hm : F.AllReduced mixed) (dl : (F.polynomial low).degree < (2 * half - 1 : Nat))
    (dh : (F.polynomial high).degree < (2 * half - 1 : Nat))
    (dm : (F.polynomial mixed).degree < (2 * half - 1 : Nat)) :
    F.polynomial (recombine F half low high mixed) = F.polynomial low +
      (F.polynomial mixed - F.polynomial low - F.polynomial high) * X ^ half +
      F.polynomial high * X ^ (2 * half) := by
  have hmid : ∀ i, F.Reduced (F.sub (F.sub (mixed.getD i 0) (low.getD i 0)) (high.getD i 0)) :=
    fun i => reduced_sub (reduced_sub (hm.getD i) (hl.getD i)) (hh.getD i)
  have vmid : ∀ i, F.value (F.sub (F.sub (mixed.getD i 0) (low.getD i 0)) (high.getD i 0)) =
      F.value (mixed.getD i 0) - F.value (low.getD i 0) - F.value (high.getD i 0) := fun i => by
    rw [value_sub (reduced_sub (hm.getD i) (hl.getD i)) (hh.getD i),
      value_sub (hm.getD i) (hl.getD i)]
  rw [degree_lt_iff_coeff_zero] at dl dh dm
  ext k
  rw [coeff_add, coeff_add, coeff_mul_X_pow', coeff_mul_X_pow', coeff_polynomial, recombine,
    getD_ofFn (fun k =>
      let middle (i : Nat) : UInt32 :=
        F.sub (F.sub (mixed.getD i 0) (low.getD i 0)) (high.getD i 0)
      let s := if half ≤ k then F.add (low.getD k 0) (middle (k - half)) else low.getD k 0
      if 2 * half ≤ k then F.add s (high.getD (k - 2 * half) 0) else s)]
  simp only [coeff_sub]
  by_cases hk : k < 4 * half - 1
  · rw [if_pos hk]
    simp only [coeff_polynomial]
    by_cases h₁ : half ≤ k <;> by_cases h₂ : 2 * half ≤ k <;> simp only [h₁, h₂, if_true, if_false]
    · rw [value_add (reduced_add (hl.getD _) (hmid _)) (hh.getD _),
        value_add (hl.getD _) (hmid _), vmid]
    · rw [value_add (hl.getD _) (hmid _), vmid, add_zero]
    · omega
    · rw [add_zero, add_zero]
  · rw [if_neg hk, value_zero, if_pos (by omega), if_pos (by omega), dl k (by omega),
      dl (k - half) (by omega), dh (k - half) (by omega), dm (k - half) (by omega),
      dh (k - 2 * half) (by omega)]
    ring

end Recombine

theorem degree_polynomial_mul_lt {half : Nat} {f g : F.Element[X]} (hf : f.degree < half)
    (hg : g.degree < half) : (f * g).degree < (2 * half - 1 : Nat) := by
  rw [two_mul]
  exact degree_mul_lt hf hg

theorem splitProduct_spec (level : Nat) : ∀ a b : Array UInt32, F.AllReduced a → F.AllReduced b →
    a.size ≤ 2 ^ level → b.size ≤ 2 ^ level →
    F.polynomial (splitProduct F level a b) = F.polynomial a * F.polynomial b ∧
      F.AllReduced (splitProduct F level a b) := by
  induction level with
  | zero =>
    intro a b ha hb _ _
    exact ⟨polynomial_convolution ha hb, allReduced_convolution F a b⟩
  | succ level ih =>
    intro a b ha hb hsa hsb
    rw [splitProduct]
    simp only [Nat.one_shiftLeft]
    split
    · exact ⟨polynomial_convolution ha hb, allReduced_convolution F a b⟩
    · rw [pow_succ, mul_comm] at hsa hsb
      have size_padded : ∀ (c : Array UInt32) (start : Nat),
          (padded c start (2 ^ level)).size ≤ 2 ^ level := by
        intro c start
        rw [padded, Array.size_ofFn]
      have size_sum : ∀ c : Array UInt32,
          (sumEntries F (padded c 0 (2 ^ level)) (padded c (2 ^ level) (2 ^ level))).size ≤
            2 ^ level := by
        intro c
        simp [sumEntries, padded]
      have degree_sum : ∀ c : Array UInt32, F.AllReduced c →
          (F.polynomial (padded c 0 (2 ^ level)) +
            F.polynomial (padded c (2 ^ level) (2 ^ level))).degree < (2 ^ level : Nat) := by
        intro c hc
        exact lt_of_le_of_lt (degree_add_le _ _)
          (max_lt (degree_padded_lt c _ _) (degree_padded_lt c _ _))
      obtain ⟨low, rlow⟩ := ih _ _ (allReduced_padded ha 0 (2 ^ level))
        (allReduced_padded hb 0 (2 ^ level)) (size_padded a 0) (size_padded b 0)
      obtain ⟨high, rhigh⟩ := ih _ _ (allReduced_padded ha (2 ^ level) (2 ^ level))
        (allReduced_padded hb (2 ^ level) (2 ^ level)) (size_padded a _) (size_padded b _)
      obtain ⟨mixed, rmixed⟩ := ih _ _
        (allReduced_sumEntries (allReduced_padded ha 0 (2 ^ level))
          (allReduced_padded ha (2 ^ level) (2 ^ level)))
        (allReduced_sumEntries (allReduced_padded hb 0 (2 ^ level))
          (allReduced_padded hb (2 ^ level) (2 ^ level))) (size_sum a) (size_sum b)
      rw [polynomial_sumEntries_padded ha, polynomial_sumEntries_padded hb] at mixed
      refine ⟨?_, allReduced_recombine rlow rhigh rmixed _⟩
      rw [polynomial_recombine rlow rhigh rmixed, low, high, mixed,
        polynomial_eq_low_add_high hsa, polynomial_eq_low_add_high hsb, two_mul, pow_add]
      · ring
      · rw [low]
        exact degree_polynomial_mul_lt (degree_padded_lt a _ _) (degree_padded_lt b _ _)
      · rw [high]
        exact degree_polynomial_mul_lt (degree_padded_lt a _ _) (degree_padded_lt b _ _)
      · rw [mixed]
        exact degree_polynomial_mul_lt (degree_sum a ha) (degree_sum b hb)

theorem splitProduct_of_lt {level : ℕ} (hlevel : 2 ^ level < splittingLength)
    (a b : Array UInt32) : splitProduct F level a b = convolution F a b := by
  cases level with
  | zero => rfl
  | succ level => rw [splitProduct, Nat.one_shiftLeft, if_pos hlevel]

/-- From the splitting length on, the length does not depend on the factors. -/
theorem size_splitProduct {level : ℕ} (hlevel : splittingLength ≤ 2 ^ level)
    (a b : Array UInt32) : (splitProduct F level a b).size = 2 * 2 ^ level - 1 := by
  cases level with
  | zero =>
    unfold splittingLength at hlevel
    omega
  | succ level =>
    rw [splitProduct, Nat.one_shiftLeft, if_neg (by omega), recombine, Array.size_ofFn,
      Nat.one_shiftLeft, pow_succ]
    omega

theorem le_two_pow_levelFor (n : Nat) : n ≤ 2 ^ levelFor n := by
  have h : n - 1 < 2 ^ ((n - 1).log2 + 1) := Nat.lt_log2_self
  rw [levelFor]
  omega

theorem splitProduct_levelFor (ha : F.AllReduced a) (hb : F.AllReduced b) :
    F.polynomial (splitProduct F (levelFor (max a.size b.size)) a b) =
        F.polynomial a * F.polynomial b ∧
      F.AllReduced (splitProduct F (levelFor (max a.size b.size)) a b) := by
  have hmax := le_two_pow_levelFor (max a.size b.size)
  exact splitProduct_spec _ a b ha hb ((le_max_left _ _).trans hmax) ((le_max_right _ _).trans hmax)

theorem polynomial_product (ha : F.AllReduced a) (hb : F.AllReduced b) :
    F.polynomial (product F a b) = F.polynomial a * F.polynomial b := by
  unfold product
  split
  · exact polynomial_convolution ha hb
  · have heq := (splitProduct_levelFor ha hb).1
    rw [polynomial_take, heq]
    rw [heq]
    exact degree_mul_lt (degree_polynomial_lt a) (degree_polynomial_lt b)

theorem allReduced_product (ha : F.AllReduced a) (hb : F.AllReduced b) :
    F.AllReduced (product F a b) := by
  unfold product
  split
  · exact allReduced_convolution F a b
  · rw [Array.take_eq_extract]
    exact AllReduced.extract (splitProduct_levelFor ha hb).2 _ _

namespace Poly

variable {f g : Poly}

theorem toPolynomial_mul (hf : f.field = F) (hg : g.field = F) :
    (f * g).toPolynomial F = f.toPolynomial F * g.toPolynomial F := by
  subst hf
  change (ofCoeffs f.field (product f.field f.coeffs g.coeffs)).toPolynomial f.field = _
  rw [toPolynomial_ofCoeffs, polynomial_product f.reduced (hg ▸ g.reduced)]
  rfl

theorem toPolynomial_pow (hf : f.field = F) (n : Nat) :
    (f ^ n).field = F ∧ (f ^ n).toPolynomial F = f.toPolynomial F ^ n := by
  change (pow f n).field = F ∧ (pow f n).toPolynomial F = _
  fun_induction pow f n with
  | case1 => exact ⟨hf, by rw [hf, toPolynomial_one, pow_zero]⟩
  | case2 n hn half square heven ih =>
    obtain ⟨hfield, heq⟩ := ih
    refine ⟨hfield, ?_⟩
    rw [toPolynomial_mul hfield hfield, heq, ← pow_add]
    congr 1
    omega
  | case3 n hn half square hodd ih =>
    obtain ⟨hfield, heq⟩ := ih
    refine ⟨hfield, ?_⟩
    rw [toPolynomial_mul (f := half * half) hfield hf, toPolynomial_mul hfield hfield, heq,
      ← pow_add, ← pow_succ]
    congr 1
    omega

theorem coeff_toPolynomial_mulLow (hf : f.field = F) (hg : g.field = F) (n i : Nat) :
    ((f.mulLow g n).toPolynomial F).coeff i =
      if i < n then (f.toPolynomial F * g.toPolynomial F).coeff i else 0 := by
  subst hf
  have hft : f.field.AllReduced (f.coeffs.take n) := by
    rw [Array.take_eq_extract]
    exact AllReduced.extract f.reduced _ _
  have hgt : f.field.AllReduced (g.coeffs.take n) := by
    rw [Array.take_eq_extract, ← hg]
    exact AllReduced.extract g.reduced _ _
  rw [mulLow, toPolynomial_ofCoeffs, coeff_polynomial_take]
  split
  · rename_i hi
    rw [← coeff_polynomial, polynomial_product hft hgt, coeff_mul, coeff_mul]
    apply Finset.sum_congr rfl
    rintro ⟨j, k⟩ hjk
    rw [Finset.HasAntidiagonal.mem_antidiagonal] at hjk
    simp only at hjk ⊢
    rw [coeff_polynomial_take, coeff_polynomial_take, if_pos (by omega), if_pos (by omega),
      coeff_toPolynomial, coeff_toPolynomial, coeff, coeff]
  · rfl

end Poly

end ZeroDim
