import Mathlib
import ZeroDim.Proofs.Strict.Poly

/-! # Convolution by rows and products by splitting

A convolution is computed row by row: every entry of the first factor times all of the second is
added to a vector of 64-bit accumulators, which are reduced after every eighth row.  Row after row
the accumulators are those of the single entries, so that eight products and a residue are all they
ever hold.

Splitting gives the same vector as convolution, entry by entry the sums of products modulo the
modulus, and the entries that are cut off at its end are zero. -/

set_option autoImplicit false

namespace ZeroDim

open Polynomial PrimeField Finset.HasAntidiagonal

def rowFactor (b : Array UInt32) (k i : ℕ) : UInt32 := if i ≤ k then b.getD (k - i) 0 else 0

def accumulator (F : PrimeField) (a b : Array UInt32) (k n : ℕ) : UInt64 :=
  n.fold (fun i _ acc => F.accumulate i acc (a.getD i 0) (rowFactor b k i)) 0

variable {F : PrimeField} {a b : Array UInt32}

theorem convolutionEntry_eq (F : PrimeField) (a b : Array UInt32) (k : ℕ) :
    convolutionEntry F a b k = F.reduce (accumulator F a b k a.size) := rfl

theorem accumulator_succ (F : PrimeField) (a b : Array UInt32) (k n : ℕ) :
    accumulator F a b k (n + 1) =
      F.accumulate n (accumulator F a b k n) (a.getD n 0) (rowFactor b k n) := Nat.fold_succ ..

theorem reduced_rowFactor (hb : F.AllReduced b) (k i : ℕ) : F.Reduced (rowFactor b k i) := by
  unfold rowFactor
  split
  · exact hb.getD _
  · exact F.reduced_zero

/-- An accumulator is a residue and the products since the last reduction, and there is room for
one more product. -/
theorem accumulator_eq (ha : F.AllReduced a) (hb : F.AllReduced b) (k n : ℕ) :
    ∃ r < F.modulus.toNat, (accumulator F a b k n).toNat =
        r + ∑ i ∈ Finset.Ico (n - n % productsPerReduction) n,
          (a.getD i 0).toNat * (rowFactor b k i).toNat ∧
      (accumulator F a b k n).toNat + (a.getD n 0).toNat * (rowFactor b k n).toNat < 2 ^ 64 := by
  obtain ⟨r, hr, hsum⟩ := fold_accumulate_eq (fun i => ha.getD i) (reduced_rowFactor hb k) n
  have hroom :=
    fold_accumulate_add_product_lt (fun i => ha.getD i) (reduced_rowFactor hb k) n
  exact ⟨r, hr, hsum, hroom⟩

/-! ## Rows -/

namespace Strict

/-- The accumulators from position `i` on with `x` times the entries of `b` added, for an `x` other
than zero. -/
def addRow (b : Array UInt32) (i : ℕ) (x : UInt32) (acc : Array UInt64) :
    Strict (Array UInt64) :=
  if x = 0 then .ok acc
  else do
    let _ ← ensure (.fault .outOfRange) (i ≤ acc.size) ()
    collect acc.size fun k =>
      if i ≤ k ∧ k < i + b.size then do
        add64 (acc.getD k 0) (← mul64 x.toUInt64 (b.getD (k - i) 0).toUInt64)
      else .ok (acc.getD k 0)

section Rows
variable (F : PrimeField) (a b : Array UInt32)

def convolutionRow (i : ℕ) (acc : Array UInt64) : Strict (Array UInt64) := do
  let acc ← addRow b i (a.getD i 0) acc
  return if i % productsPerReduction = productsPerReduction - 1 then
      acc.map (· % F.modulus.toUInt64)
    else acc

def convolutionByRows : Strict (Array UInt32) :=
  if a.isEmpty || b.isEmpty then .ok #[]
  else do
    let size ← subIndex (a.size + b.size) 1
    let acc ← foldBelow (convolutionRow F a b) (Array.replicate size 0) a.size
    return acc.map F.reduce

end Rows

theorem addRow_eq {size i : ℕ} {x : UInt32} {f : ℕ → UInt64} (hi : i ≤ size)
    (hroom : ∀ k, (f k).toNat + x.toNat * (rowFactor b k i).toNat < 2 ^ 64) :
    addRow b i x (Array.ofFn fun k : Fin size => f k) =
      .ok (Array.ofFn fun k : Fin size => f k + x.toUInt64 * (rowFactor b k i).toUInt64) := by
  rw [addRow]
  split
  · rename_i hzero
    simp [hzero]
  · rw [Array.size_ofFn, ensure_eq hi, ok_bind]
    apply collect_eq (g := fun k => f k + x.toUInt64 * (rowFactor b k i).toUInt64)
    intro k hk
    rw [getD_ofFn f k, if_pos hk]
    by_cases hrow : i ≤ k ∧ k < i + b.size
    · have hfactor : rowFactor b k i = b.getD (k - i) 0 := if_pos hrow.1
      have hfits := hroom k
      rw [hfactor] at hfits
      rw [if_pos hrow, mul64_words, ok_bind, hfactor, add64_product hfits]
    · have hfactor : rowFactor b k i = 0 := by
        unfold rowFactor
        split
        · exact getD_eq_zero_of_size_le (by omega)
        · rfl
      rw [if_neg hrow, hfactor]
      simp

theorem convolutionRow_eq (ha : F.AllReduced a) (hb : F.AllReduced b) {size i : ℕ}
    (hi : i ≤ size) :
    convolutionRow F a b i (Array.ofFn fun k : Fin size => accumulator F a b k i) =
      .ok (Array.ofFn fun k : Fin size => accumulator F a b k (i + 1)) := by
  have hroom : ∀ k, (accumulator F a b k i).toNat + (a.getD i 0).toNat * (rowFactor b k i).toNat <
      2 ^ 64 := by
    intro k
    obtain ⟨-, -, -, hfits⟩ := accumulator_eq ha hb k i
    exact hfits
  rw [convolutionRow, addRow_eq (f := fun k => accumulator F a b k i) hi hroom, ok_bind]
  simp only [accumulator_succ, PrimeField.accumulate]
  split
  · rw [Array.map_ofFn]
    rfl
  · rfl

theorem foldBelow_convolutionRow (ha : F.AllReduced a) (hb : F.AllReduced b) {size n : ℕ}
    (hn : n ≤ size) :
    foldBelow (convolutionRow F a b) (Array.replicate size 0) n =
      .ok (Array.ofFn fun k : Fin size => accumulator F a b k n) := by
  induction n with
  | zero =>
    rw [foldBelow]
    apply congrArg Except.ok
    apply Array.ext <;> simp [accumulator]
  | succ n ih => rw [foldBelow, ih (by omega), ok_bind, convolutionRow_eq ha hb (by omega)]

theorem convolutionByRows_eq (ha : F.AllReduced a) (hb : F.AllReduced b) :
    convolutionByRows F a b = .ok (ZeroDim.convolution F a b) := by
  rw [convolutionByRows, ZeroDim.convolution]
  split
  · rfl
  · rename_i hne
    have hpos : 1 ≤ b.size := by
      rw [Bool.or_eq_true, Array.isEmpty_iff_size_eq_zero, Array.isEmpty_iff_size_eq_zero] at hne
      omega
    rw [subIndex, ensure_eq (by omega), ok_bind, foldBelow_convolutionRow ha hb (by omega), ok_bind,
      Array.map_ofFn]
    rfl

end Strict

/-! ## Splitting -/

theorem size_product (F : PrimeField) (a b : Array UInt32) :
    (product F a b).size = if a.isEmpty || b.isEmpty then 0 else a.size + b.size - 1 := by
  unfold product
  split
  · exact size_convolution F a b
  · rename_i hlong
    have hmax := le_two_pow_levelFor (max a.size b.size)
    have ha := (le_max_left _ _).trans hmax
    have hb := (le_max_right _ _).trans hmax
    rw [Array.take_eq_extract, Array.size_extract, size_splitProduct (by omega), if_neg]
    · omega
    · rw [Bool.or_eq_true, Array.isEmpty_iff_size_eq_zero, Array.isEmpty_iff_size_eq_zero]
      unfold splittingLength at hlong
      omega

/-- The vector that the product is taken from has only zeros in the part that is left. -/
theorem splitProduct_getD_eq_zero (ha : F.AllReduced a) (hb : F.AllReduced b) {k : ℕ}
    (hk : a.size + b.size - 1 ≤ k) :
    (splitProduct F (levelFor (max a.size b.size)) a b).getD k 0 = 0 := by
  obtain ⟨heq, hred⟩ := splitProduct_levelFor ha hb
  have hdeg := degree_mul_lt (degree_polynomial_lt (F := F) a) (degree_polynomial_lt (F := F) b)
  rw [← value_eq_zero_iff (hred.getD k), ← coeff_polynomial, heq]
  exact (degree_lt_iff_coeff_zero _ _).mp hdeg k hk

theorem toNat_getD_product (ha : F.AllReduced a) (hb : F.AllReduced b) (k : ℕ) :
    ((product F a b).getD k 0).toNat =
      (∑ ij ∈ antidiagonal k, (a.getD ij.1 0).toNat * (b.getD ij.2 0).toNat) %
        F.modulus.toNat := by
  have hvalue : F.value ((product F a b).getD k 0) =
      ∑ ij ∈ antidiagonal k, F.value (a.getD ij.1 0) * F.value (b.getD ij.2 0) := by
    rw [← coeff_polynomial, polynomial_product ha hb, coeff_mul]
    simp only [coeff_polynomial]
  apply toNat_eq_mod ((allReduced_product ha hb).getD k)
  push_cast
  exact hvalue

/-- Splitting, convolution by entries and convolution by rows give one vector, whose entries are
the sums of products modulo the modulus.  Nothing is read or written out of range, no word
overflows, and only zeros are cut off. -/
theorem product_eq_convolution (ha : F.AllReduced a) (hb : F.AllReduced b) :
    product F a b = convolution F a b ∧
      (product F a b).size = (if a.isEmpty || b.isEmpty then 0 else a.size + b.size - 1) ∧
      (∀ k, ((product F a b).getD k 0).toNat =
        (∑ ij ∈ antidiagonal k, (a.getD ij.1 0).toNat * (b.getD ij.2 0).toNat) %
          F.modulus.toNat) ∧
      (∀ k, a.size + b.size - 1 ≤ k →
        (splitProduct F (levelFor (max a.size b.size)) a b).getD k 0 = 0) ∧
      Strict.product F a b = .ok (product F a b) ∧
      Strict.convolutionByRows F a b = .ok (convolution F a b) ∧
      ∀ k, convolutionEntry F a b k = F.reduce (accumulator F a b k a.size) ∧
        ∀ n, ∃ r < F.modulus.toNat, (accumulator F a b k n).toNat =
            r + ∑ i ∈ Finset.Ico (n - n % productsPerReduction) n,
              (a.getD i 0).toNat * (rowFactor b k i).toNat ∧
          (accumulator F a b k n).toNat + (a.getD n 0).toNat * (rowFactor b k n).toNat < 2 ^ 64 := by
  refine ⟨?_, size_product F a b, toNat_getD_product ha hb,
    fun k => splitProduct_getD_eq_zero ha hb, Strict.product_eq ha hb,
    Strict.convolutionByRows_eq ha hb,
    fun k => ⟨convolutionEntry_eq F a b k, accumulator_eq ha hb k⟩⟩
  apply eq_of_terms_eq (allReduced_product ha hb) (allReduced_convolution F a b)
  · rw [size_product, size_convolution]
  · intro k _
    rw [terms, terms, ← coeff_polynomial, ← coeff_polynomial, polynomial_product ha hb,
      polynomial_convolution ha hb]

/-- Factors of 40 and 33 entries over seven elements are filled up to 64 entries and split twice;
72 of the 127 entries are kept. -/
theorem product_eq_convolution_filledUp :
    ∃ (F : PrimeField) (a b : Array UInt32), F.modulus = 7 ∧ a = Array.replicate 40 6 ∧
      b = Array.replicate 33 6 ∧ F.AllReduced a ∧ F.AllReduced b ∧
      product F a b = convolution F a b ∧ (product F a b).size = 72 ∧
      ((product F a b).getD 32 0).toNat = 33 * 36 % 7 ∧
      (splitProduct F 6 a b).getD 72 0 = 0 ∧ Strict.product F a b = .ok (product F a b) ∧
      Strict.convolutionByRows F a b = .ok (convolution F a b) ∧
      (accumulator F a b 32 32).toNat + 36 < 2 ^ 64 := by
  let F : PrimeField := ⟨7, by decide +kernel, by decide⟩
  let a : Array UInt32 := Array.replicate 40 6
  let b : Array UInt32 := Array.replicate 33 6
  have ha : F.AllReduced a := by decide +kernel
  have hb : F.AllReduced b := by decide +kernel
  obtain ⟨heq, hsize, hentry, hzero, hstrict, hrows, haccumulator⟩ := product_eq_convolution ha hb
  obtain ⟨-, -, -, hroom⟩ := (haccumulator 32).2 32
  have hlevel : levelFor (max a.size b.size) = 6 := by decide +kernel
  rw [hlevel] at hzero
  exact ⟨F, a, b, rfl, rfl, rfl, ha, hb, heq, hsize.trans (by decide +kernel),
    (hentry 32).trans (by decide +kernel), hzero 72 (by decide +kernel), hstrict, hrows, hroom⟩

end ZeroDim
