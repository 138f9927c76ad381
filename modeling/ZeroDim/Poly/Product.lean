import ZeroDim.Field.Basic

/-! # Products of coefficient vectors

Two ways to the same product of two vectors of words: by definition, as a convolution, and by
splitting both factors in the middle, which needs three half-size products instead of four.
Neither trims its answer: factors of `n` and `m` entries have a product of `n + m - 1`, and an
empty factor has an empty product.
-/

set_option autoImplicit false

namespace ZeroDim

/-- From this length of both factors on, products are split. -/
def splittingLength : Nat := 32

section Product
variable (F : PrimeField) (a b : Array UInt32)

/-- Entry `k` of a product: the sum of `a[i] * b[k - i]`, reduced after every eighth `i`. -/
def convolutionEntry (k : Nat) : UInt32 :=
  F.reduce (a.size.fold
    (fun i _ acc => F.accumulate i acc (a.getD i 0) (if i ≤ k then b.getD (k - i) 0 else 0)) 0)

def convolution : Array UInt32 :=
  if a.isEmpty || b.isEmpty then #[]
  else Array.ofFn fun k : Fin (a.size + b.size - 1) => convolutionEntry F a b k

def padded (start n : Nat) : Array UInt32 := Array.ofFn fun i : Fin n => a.getD (start + i) 0

def sumEntries : Array UInt32 := a.zipWith F.add b

/-- The product of `low + x ^ half * high` of two factors, put together from the products of the
low parts, of the high parts, and of the sums of both parts. -/
def recombine (half : Nat) (low high mixed : Array UInt32) : Array UInt32 :=
  Array.ofFn fun k : Fin (4 * half - 1) =>
    let middle (i : Nat) : UInt32 :=
      F.sub (F.sub (mixed.getD i 0) (low.getD i 0)) (high.getD i 0)
    let s := if half ≤ k then F.add (low.getD k 0) (middle (k - half)) else low.getD k 0
    if 2 * half ≤ k then F.add s (high.getD (k - 2 * half) 0) else s

/-- The product of two factors of up to `2 ^ level` entries, both filled up to that size. -/
def splitProduct : Nat → Array UInt32 → Array UInt32 → Array UInt32
  | 0, a, b => convolution F a b
  | level + 1, a, b =>
    if 1 <<< (level + 1) < splittingLength then convolution F a b
    else
      let half := 1 <<< level
      let a₀ := padded a 0 half
      let a₁ := padded a half half
      let b₀ := padded b 0 half
      let b₁ := padded b half half
      recombine F half (splitProduct level a₀ b₀) (splitProduct level a₁ b₁)
        (splitProduct level (sumEntries F a₀ a₁) (sumEntries F b₀ b₁))

def levelFor (n : Nat) : Nat := (n - 1).log2 + 1

def product : Array UInt32 :=
  if a.size < splittingLength ∨ b.size < splittingLength then convolution F a b
  else (splitProduct F (levelFor (max a.size b.size)) a b).take (a.size + b.size - 1)

end Product

end ZeroDim
