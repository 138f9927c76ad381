import ZeroDim.Field.Prime

/-! # Word-size prime fields

The field is chosen while the program runs, so residues are plain 32-bit words and every
operation is a function of the field.  A word below the modulus is *reduced*.  Addition,
subtraction and negation are exact on reduced words and keep them reduced; products are formed
in 64 bits and reduced, whatever the operands.

The bound on the modulus is what makes delayed reduction safe: eight products of reduced words
and one residue fit into 64 bits.
-/

set_option autoImplicit false

namespace ZeroDim

def modulusBound : Nat := 1518500213

/-- Products added up in a 64-bit word before it is reduced. -/
def productsPerReduction : Nat := 8

structure PrimeField where
  modulus : UInt32
  prime : isPrime modulus.toNat = true
  bounded : modulus.toNat < modulusBound
deriving DecidableEq

inductive FieldError where
  | tooLarge (modulus : Nat)
  | notPrime (modulus : Nat)
deriving DecidableEq, Repr

def FieldError.message : FieldError → String
  | .tooLarge modulus => s!"prime {modulus} is too large, primes must be below {modulusBound}"
  | .notPrime modulus => s!"modulus {modulus} is not prime"

namespace PrimeField

/-- The field of integers modulo `p`.  A modulus that is too large is not tested for primality. -/
def ofModulus (p : Nat) : Except FieldError PrimeField :=
  if hb : p < modulusBound then
    if hp : isPrime p = true then
      have hw : (UInt32.ofNat p).toNat = p := by
        have : p < 2 ^ 32 := Nat.lt_trans hb (by decide)
        simpa using Nat.mod_eq_of_lt this
      .ok ⟨UInt32.ofNat p, by rw [hw]; exact hp, by rw [hw]; exact hb⟩
    else .error (.notPrime p)
  else .error (.tooLarge p)

theorem two_le_modulus (F : PrimeField) : 2 ≤ F.modulus.toNat :=
  two_le_of_isPrime F.prime

theorem modulus_pos (F : PrimeField) : 0 < F.modulus.toNat :=
  Nat.lt_of_lt_of_le (by decide) F.two_le_modulus

def Reduced (F : PrimeField) (a : UInt32) : Prop := a < F.modulus

instance (F : PrimeField) (a : UInt32) : Decidable (F.Reduced a) :=
  inferInstanceAs (Decidable (a < F.modulus))

def reduce (F : PrimeField) (v : UInt64) : UInt32 := (v % F.modulus.toUInt64).toUInt32

def residue (F : PrimeField) (a : UInt32) : UInt32 := a % F.modulus

def ofNat (F : PrimeField) (n : Nat) : UInt32 := UInt32.ofNat (n % F.modulus.toNat)

def ofSigned (F : PrimeField) (v : Int64) : UInt32 :=
  UInt32.ofNat (v.toInt % (F.modulus.toNat : Int)).toNat

def add (F : PrimeField) (a b : UInt32) : UInt32 :=
  let s := a + b
  if F.modulus ≤ s then s - F.modulus else s

def sub (F : PrimeField) (a b : UInt32) : UInt32 :=
  if b ≤ a then a - b else a + (F.modulus - b)

def neg (F : PrimeField) (a : UInt32) : UInt32 :=
  if a = 0 then 0 else F.modulus - a

def mul (F : PrimeField) (a b : UInt32) : UInt32 :=
  F.reduce (a.toUInt64 * b.toUInt64)

def mulAdd (F : PrimeField) (acc a b : UInt32) : UInt32 :=
  F.reduce (acc.toUInt64 + a.toUInt64 * b.toUInt64)

def pow (F : PrimeField) (a : UInt32) (n : Nat) : UInt32 :=
  if n = 0 then 1 % F.modulus
  else
    let half := F.pow a (n / 2)
    let square := F.mul half half
    if n % 2 = 0 then square else F.mul square a
termination_by n

/-- Euclid's recursion on two remainders, carrying the cofactor of each.  The answer is the
last non-zero remainder with its cofactor. -/
def euclid (t t' : Int64) (r r' : UInt32) : Int64 × UInt32 :=
  if r' = 0 then (t, r)
  else euclid t' (t - (r / r').toUInt64.toInt64 * t') r' (r % r')
termination_by r'.toNat
decreasing_by
  rename_i h
  rw [UInt32.toNat_mod]
  exact Nat.mod_lt _ (Nat.pos_of_ne_zero fun h' => h (UInt32.toNat_inj.mp h'))

def inv? (F : PrimeField) (a : UInt32) : Option UInt32 :=
  if a = 0 then none
  else
    let (t, r) := euclid 0 1 F.modulus a
    if 1 < r then none else some (F.ofSigned t)

def div? (F : PrimeField) (a b : UInt32) : Option UInt32 :=
  (F.inv? b).map fun c => F.mul a c

/-- One more product on the accumulator, which is reduced after every eighth. -/
def accumulate (F : PrimeField) (i : Nat) (acc : UInt64) (a b : UInt32) : UInt64 :=
  let acc := acc + a.toUInt64 * b.toUInt64
  if i % productsPerReduction = productsPerReduction - 1 then acc % F.modulus.toUInt64 else acc

/-- The scalar product of the common initial part of two vectors. -/
def dot (F : PrimeField) (a b : Array UInt32) : UInt32 :=
  F.reduce ((min a.size b.size).fold
    (fun i _ acc => F.accumulate i acc (a.getD i 0) (b.getD i 0)) 0)

def text (F : PrimeField) : String := F.modulus.toNat.repr

def name (F : PrimeField) : String := s!"GF({F.text})"

theorem reduced_iff {F : PrimeField} {a : UInt32} :
    F.Reduced a ↔ a.toNat < F.modulus.toNat := UInt32.lt_iff_toNat_lt

theorem reduced_residue (F : PrimeField) (a : UInt32) : F.Reduced (F.residue a) := by
  rw [reduced_iff, residue, UInt32.toNat_mod]
  exact Nat.mod_lt _ F.modulus_pos

theorem reduced_zero (F : PrimeField) : F.Reduced 0 := by
  rw [reduced_iff]
  exact F.modulus_pos

theorem residue_of_reduced {F : PrimeField} {a : UInt32} (h : F.Reduced a) : F.residue a = a := by
  apply UInt32.toNat_inj.mp
  rw [residue, UInt32.toNat_mod, Nat.mod_eq_of_lt (reduced_iff.mp h)]

theorem toNat_reduce (F : PrimeField) (v : UInt64) :
    (F.reduce v).toNat = v.toNat % F.modulus.toNat := by
  have h₁ : v.toNat % F.modulus.toNat < F.modulus.toNat := Nat.mod_lt _ F.modulus_pos
  have h₂ : F.modulus.toNat < 2 ^ 32 := F.modulus.toNat_lt
  rw [reduce, UInt64.toNat_toUInt32, UInt64.toNat_mod, UInt32.toNat_toUInt64]
  exact Nat.mod_eq_of_lt (Nat.lt_trans h₁ h₂)

theorem reduced_reduce (F : PrimeField) (v : UInt64) : F.Reduced (F.reduce v) := by
  rw [reduced_iff, toNat_reduce]
  exact Nat.mod_lt _ F.modulus_pos

end PrimeField

end ZeroDim
