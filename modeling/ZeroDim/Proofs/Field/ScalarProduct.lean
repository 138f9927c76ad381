import Mathlib
import ZeroDim.Proofs.Strict.Words

/-! # Scalar products in blocks

Two vectors are cut into blocks of eight entries, each on its own, and the blocks are paired.  The
entries that meet are those that meet without blocks, also where one of the vectors ends within a
block.

The modulus is just small enough for a residue and the products of one block to fit into 64 bits.
One reduction after each block therefore keeps the accumulator exact, and the answer is the sum of
all products modulo the modulus. -/

set_option autoImplicit false

namespace ZeroDim

section Blocks
variable {α β : Type}

/-- Blocks of as many entries as there are products between two reductions.  The last one may be
shorter. -/
def blocks : List α → List (List α)
  | [] => []
  | x :: xs => (x :: xs).take productsPerReduction :: blocks ((x :: xs).drop productsPerReduction)
termination_by xs => xs.length
decreasing_by
  rw [List.length_drop, List.length_cons]
  exact Nat.sub_lt (Nat.succ_pos _) (by decide)

theorem length_le_of_mem_blocks {xs block : List α} (h : block ∈ blocks xs) :
    block.length ≤ productsPerReduction := by
  fun_induction blocks xs with
  | case1 => contradiction
  | case2 x xs ih =>
    rcases List.mem_cons.mp h with rfl | hrest
    · exact List.length_take_le _ _
    · exact ih hrest

theorem flatten_blocks (xs : List α) : (blocks xs).flatten = xs := by
  fun_induction blocks xs with
  | case1 => rfl
  | case2 x xs ih => rw [List.flatten_cons, ih, List.take_append_drop]

theorem zip_blocks (xs : List α) (ys : List β) :
    List.zipWith List.zip (blocks xs) (blocks ys) = blocks (xs.zip ys) := by
  fun_induction blocks xs generalizing ys with
  | case1 => rw [List.zipWith_nil_left, List.zip_nil_left, blocks]
  | case2 x xs ih =>
    cases ys with
    | nil => rw [blocks, List.zipWith_nil_right, List.zip_nil_right, blocks]
    | cons y ys =>
      rw [blocks, List.zipWith_cons_cons, ih, List.zip_cons_cons, blocks, ← List.zip_cons_cons]
      simp only [List.zip, List.take_zipWith, List.drop_zipWith]

end Blocks

def sumOfProducts (pairs : List (UInt32 × UInt32)) : ℕ :=
  (pairs.map fun pair => pair.1.toNat * pair.2.toNat).sum

theorem sumOfProducts_cons (x y : UInt32) (pairs : List (UInt32 × UInt32)) :
    sumOfProducts ((x, y) :: pairs) = x.toNat * y.toNat + sumOfProducts pairs := rfl

theorem sumOfProducts_append (pairs pairs' : List (UInt32 × UInt32)) :
    sumOfProducts (pairs ++ pairs') = sumOfProducts pairs + sumOfProducts pairs' := by
  rw [sumOfProducts, List.map_append, List.sum_append, sumOfProducts, sumOfProducts]

theorem sumOfProducts_zip (xs ys : List UInt32) :
    sumOfProducts (xs.zip ys) = ∑ i ∈ Finset.range (min xs.length ys.length),
      (xs.getD i 0).toNat * (ys.getD i 0).toNat := by
  induction xs generalizing ys with
  | nil => simp [sumOfProducts]
  | cons x xs ih =>
    cases ys with
    | nil => simp [sumOfProducts]
    | cons y ys =>
      rw [List.zip_cons_cons, sumOfProducts_cons, ih, List.length_cons, List.length_cons,
        Nat.add_min_add_right, Finset.sum_range_succ', add_comm]
      rfl

/-! ## Blocks of products -/

namespace Strict

variable {F : PrimeField}

def addProducts (acc : UInt64) : List (UInt32 × UInt32) → Strict UInt64
  | [] => .ok acc
  | (x, y) :: pairs => do addProducts (← add64 acc (← mul64 x.toUInt64 y.toUInt64)) pairs

/-- The accumulator is reduced after each block. -/
def addBlocks (F : PrimeField) (acc : UInt64) : List (List (UInt32 × UInt32)) → Strict UInt64
  | [] => .ok acc
  | block :: rest => do
    let acc ← addProducts acc block
    addBlocks F (acc % F.modulus.toUInt64) rest

def dotByBlocks (F : PrimeField) (a b : Array UInt32) : Strict UInt32 := do
  return F.reduce (← addBlocks F 0 (List.zipWith List.zip (blocks a.toList) (blocks b.toList)))

/-- Products are added exactly while there is room for the largest ones. -/
theorem addProducts_eq {acc : UInt64} {pairs : List (UInt32 × UInt32)}
    (hpairs : ∀ pair ∈ pairs, F.Reduced pair.1 ∧ F.Reduced pair.2)
    (hroom : acc.toNat + pairs.length * ((F.modulus.toNat - 1) * (F.modulus.toNat - 1)) < 2 ^ 64) :
    ∃ next, addProducts acc pairs = .ok next ∧ next.toNat = acc.toNat + sumOfProducts pairs := by
  induction pairs generalizing acc with
  | nil => exact ⟨acc, rfl, rfl⟩
  | cons pair pairs ih =>
    obtain ⟨x, y⟩ := pair
    obtain ⟨hx, hy⟩ : F.Reduced x ∧ F.Reduced y := hpairs (x, y) List.mem_cons_self
    have hproduct := PrimeField.toNat_product_le hx hy
    rw [List.length_cons, Nat.succ_mul] at hroom
    have hfits : acc.toNat + x.toNat * y.toNat < 2 ^ 64 := by omega
    have hadd := PrimeField.toNat_add_wide_mul hfits
    obtain ⟨next, hok, hnext⟩ := @ih (acc + x.toUInt64 * y.toUInt64)
      (fun pair hpair => hpairs pair (List.mem_cons_of_mem _ hpair)) (by omega)
    refine ⟨next, ?_, ?_⟩
    · rw [addProducts, mul64_words, ok_bind, add64_product hfits, ok_bind, hok]
    · rw [hnext, hadd, sumOfProducts_cons, add_assoc]

/-- Between two blocks the accumulator is the residue of the sum so far. -/
theorem addBlocks_eq {acc : UInt64} {pieces : List (List (UInt32 × UInt32))}
    (hpieces : ∀ block ∈ pieces, block.length ≤ productsPerReduction ∧
      ∀ pair ∈ block, F.Reduced pair.1 ∧ F.Reduced pair.2)
    (hacc : acc.toNat < F.modulus.toNat) :
    ∃ last, addBlocks F acc pieces = .ok last ∧
      last.toNat = (acc.toNat + sumOfProducts pieces.flatten) % F.modulus.toNat := by
  induction pieces generalizing acc with
  | nil => exact ⟨acc, rfl, (Nat.mod_eq_of_lt hacc).symm⟩
  | cons block rest ih =>
    obtain ⟨hlength, hpairs⟩ := hpieces block List.mem_cons_self
    have hroom : acc.toNat + block.length * ((F.modulus.toNat - 1) * (F.modulus.toNat - 1)) <
        2 ^ 64 := by
      have hfull := F.accumulatorBound_add_product_lt 7
      have hproducts := Nat.mul_le_mul_right
        ((F.modulus.toNat - 1) * (F.modulus.toNat - 1)) hlength
      simp only [PrimeField.accumulatorBound, productsPerReduction] at hfull hproducts
      omega
    obtain ⟨next, hok, hnext⟩ := addProducts_eq hpairs hroom
    have hmod : (next % F.modulus.toUInt64).toNat = next.toNat % F.modulus.toNat := by
      rw [UInt64.toNat_mod, UInt32.toNat_toUInt64]
    obtain ⟨last, hrest, hlast⟩ := @ih (next % F.modulus.toUInt64)
      (fun block hblock => hpieces block (List.mem_cons_of_mem _ hblock))
      (hmod ▸ Nat.mod_lt _ F.modulus_pos)
    refine ⟨last, ?_, ?_⟩
    · rw [addBlocks, hok, ok_bind, hrest]
    · rw [hlast, hmod, hnext, Nat.mod_add_mod, List.flatten_cons, sumOfProducts_append, add_assoc]

theorem dotByBlocks_eq {a b : Array UInt32} (ha : F.AllReduced a) (hb : F.AllReduced b) :
    dotByBlocks F a b = .ok (F.dot a b) := by
  have hpairs : ∀ block ∈ blocks (a.toList.zip b.toList), block.length ≤ productsPerReduction ∧
      ∀ pair ∈ block, F.Reduced pair.1 ∧ F.Reduced pair.2 := by
    intro block hblock
    refine ⟨length_le_of_mem_blocks hblock, ?_⟩
    rintro ⟨x, y⟩ hpair
    have hzip : (x, y) ∈ a.toList.zip b.toList := by
      rw [← flatten_blocks (a.toList.zip b.toList)]
      exact List.mem_flatten_of_mem hblock hpair
    obtain ⟨hx, hy⟩ := List.of_mem_zip hzip
    exact ⟨ha x (Array.mem_toList_iff.mp hx), hb y (Array.mem_toList_iff.mp hy)⟩
  have hstart : (0 : UInt64).toNat < F.modulus.toNat := F.modulus_pos
  obtain ⟨last, hok, hlast⟩ := addBlocks_eq hpairs hstart
  have hsum : sumOfProducts (a.toList.zip b.toList) = ∑ i ∈ Finset.range (min a.size b.size),
      (a.getD i 0).toNat * (b.getD i 0).toNat := by
    simp [sumOfProducts_zip]
  rw [dotByBlocks, zip_blocks, hok, ok_bind]
  apply congrArg Except.ok
  apply UInt32.toNat_inj.mp
  rw [F.toNat_reduce, hlast, flatten_blocks, hsum, UInt64.toNat_zero, Nat.zero_add, Nat.mod_mod,
    PrimeField.toNat_dot ha hb]

end Strict

namespace PrimeField

/-- The scalar product is the sum of the products of the common initial part modulo the modulus.
The accumulator has room for every product that is added to it, and block by block nothing
overflows either and the answer is the same. -/
theorem dot_exact {F : PrimeField} {a b : Array UInt32} (ha : F.AllReduced a)
    (hb : F.AllReduced b) :
    (F.dot a b).toNat = (∑ i ∈ Finset.range (min a.size b.size),
      (a.getD i 0).toNat * (b.getD i 0).toNat) % F.modulus.toNat ∧
    (∀ n, (n.fold (fun i _ acc => F.accumulate i acc (a.getD i 0) (b.getD i 0)) 0).toNat +
      (a.getD n 0).toNat * (b.getD n 0).toNat < 2 ^ 64) ∧
    Strict.dotByBlocks F a b = .ok (F.dot a b) :=
  ⟨toNat_dot ha hb, fold_accumulate_add_product_lt (fun i => ha.getD i) (fun i => hb.getD i),
    Strict.dotByBlocks_eq ha hb⟩

/-- The third block has eight entries in one vector and five in the other. -/
theorem dot_exact_unevenBlocks : ∃ (F : PrimeField) (a b : Array UInt32), F.modulus = 65521 ∧
    a = Array.replicate 37 65520 ∧ b = Array.replicate 21 65520 ∧ F.AllReduced a ∧ F.AllReduced b ∧
    (F.dot a b).toNat = 21 ∧
    (∀ n, (n.fold (fun i _ acc => F.accumulate i acc (a.getD i 0) (b.getD i 0)) 0).toNat +
      (a.getD n 0).toNat * (b.getD n 0).toNat < 2 ^ 64) ∧
    Strict.dotByBlocks F a b = .ok 21 := by
  let F : PrimeField := ⟨65521, by decide +kernel, by decide⟩
  let a : Array UInt32 := Array.replicate 37 65520
  let b : Array UInt32 := Array.replicate 21 65520
  have ha : F.AllReduced a := by decide +kernel
  have hb : F.AllReduced b := by decide +kernel
  obtain ⟨hsum, hroom, hblocks⟩ := dot_exact ha hb
  have hvalue : (F.dot a b).toNat = 21 := hsum.trans (by decide +kernel)
  exact ⟨F, a, b, rfl, rfl, rfl, ha, hb, hvalue, hroom,
    hblocks.trans (congrArg Except.ok (UInt32.toNat_inj.mp hvalue))⟩

end PrimeField

end ZeroDim
