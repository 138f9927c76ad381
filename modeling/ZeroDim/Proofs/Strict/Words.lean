import Mathlib
import ZeroDim.Fault
import ZeroDim.Random.Words
import ZeroDim.Proofs.Field.DelayedReduction
import ZeroDim.Proofs.Field.Inverse

/-! # Strict arithmetic

Words wrap around without notice, and a sum of words that are not reduced is wrong without notice.
A strict operation stops instead.  It holds the exact result against the range of its type, looks at
the operands of a field addition or subtraction, and asks for positions that exist.

The strict form of a function does the same steps with strict operations.  One statement for each
says when nothing stops it: it then gives what the function gives.  Field products need no
condition, sums and differences need reduced operands, sums of products as well, and inverses never
leave 64 bits. -/

set_option autoImplicit false

namespace ZeroDim

open PrimeField

inductive Trap where
  | fault (fault : Fault)
  /-- An operand of a field addition or subtraction is not reduced. -/
  | unreduced
  /-- The exact result is outside of the range of its type. -/
  | overflow
  /-- A position is divided by zero. -/
  | zeroDivisor
  /-- There is no number to draw. -/
  | emptyRange
deriving DecidableEq

abbrev Strict := Except Trap

namespace Strict

section Computations
variable {α β : Type}

def lift (x : Checked α) : Strict α := x.mapError .fault

/-- The value, if the condition holds. -/
def ensure (trap : Trap) (condition : Prop) [Decidable condition] (a : α) : Strict α :=
  if condition then .ok a else .error trap

@[simp] theorem ok_bind (a : α) (f : α → Strict β) : ((.ok a : Strict α) >>= f) = f a := rfl

@[simp] theorem lift_ok (a : α) : lift (.ok a : Checked α) = .ok a := rfl

theorem ensure_eq {trap : Trap} {condition : Prop} [Decidable condition] (h : condition) (a : α) :
    ensure trap condition a = .ok a := if_pos h

theorem lift_bind {x : Checked α} {f : α → Checked β} {g : α → Strict β}
    (h : ∀ a, x = .ok a → g a = lift (f a)) : (lift x >>= g) = lift (x >>= f) := by
  cases x with
  | ok a => exact h a rfl
  | error fault => rfl

theorem lift_entryAt {xs : Array α} {i : ℕ} (h : i < xs.size) (d : α) :
    lift (entryAt xs i) = .ok (xs.getD i d) := by
  have hget : xs[i] = xs.getD i d := by simp [h]
  rw [entryAt_eq_ok h, lift_ok, hget]

theorem mapM_eq {xs : List α} {f : α → Strict β} {g : α → β} (h : ∀ x ∈ xs, f x = .ok (g x)) :
    xs.mapM f = .ok (xs.map g) := by
  induction xs with
  | nil => rfl
  | cons x xs ih =>
    rw [List.mapM_cons, h x List.mem_cons_self, ok_bind,
      ih fun y hy => h y (List.mem_cons_of_mem x hy)]
    rfl

def collect (n : ℕ) (f : ℕ → Strict α) : Strict (Array α) := do
  return (← (List.range n).mapM f).toArray

theorem collect_eq {n : ℕ} {f : ℕ → Strict α} {g : ℕ → α} (h : ∀ i < n, f i = .ok (g i)) :
    collect n f = .ok (Array.ofFn fun i : Fin n => g i) := by
  rw [collect, mapM_eq fun i hi => h i (List.mem_range.mp hi), ok_bind]
  apply congrArg Except.ok
  apply Array.ext_getElem?
  intro i
  rw [Array.getElem?_ofFn, List.getElem?_toArray, List.getElem?_map]
  by_cases hi : i < n
  · rw [List.getElem?_range hi, dif_pos hi]
    rfl
  · rw [List.getElem?_eq_none (by simpa using hi), dif_neg hi]
    rfl

def foldBelow (f : ℕ → α → Strict α) (init : α) : ℕ → Strict α
  | 0 => .ok init
  | n + 1 => foldBelow f init n >>= f n

end Computations

/-! ## Words -/

def add32 (a b : UInt32) : Strict UInt32 := ensure .overflow (a.toNat + b.toNat < 2 ^ 32) (a + b)

def sub32 (a b : UInt32) : Strict UInt32 := ensure .overflow (b ≤ a) (a - b)

def add64 (a b : UInt64) : Strict UInt64 := ensure .overflow (a.toNat + b.toNat < 2 ^ 64) (a + b)

def mul64 (a b : UInt64) : Strict UInt64 := ensure .overflow (a.toNat * b.toNat < 2 ^ 64) (a * b)

def FitsSigned (x : ℤ) : Prop := -2 ^ 63 ≤ x ∧ x < 2 ^ 63

instance (x : ℤ) : Decidable (FitsSigned x) :=
  inferInstanceAs (Decidable (-2 ^ 63 ≤ x ∧ x < 2 ^ 63))

def subSigned (a b : Int64) : Strict Int64 :=
  ensure .overflow (FitsSigned (a.toInt - b.toInt)) (a - b)

def mulSigned (a b : Int64) : Strict Int64 :=
  ensure .overflow (FitsSigned (a.toInt * b.toInt)) (a * b)

def subIndex (m n : ℕ) : Strict ℕ := ensure .overflow (n ≤ m) (m - n)

def divIndex (m n : ℕ) : Strict ℕ := ensure .zeroDivisor (0 < n) (m / n)

theorem mul64_words (a b : UInt32) :
    mul64 a.toUInt64 b.toUInt64 = .ok (a.toUInt64 * b.toUInt64) := by
  have hlt := add_product_lt 0 a b
  apply ensure_eq
  rw [UInt32.toNat_toUInt64, UInt32.toNat_toUInt64]
  omega

theorem add64_product {acc : UInt64} {a b : UInt32}
    (h : acc.toNat + a.toNat * b.toNat < 2 ^ 64) :
    add64 acc (a.toUInt64 * b.toUInt64) = .ok (acc + a.toUInt64 * b.toUInt64) := by
  apply ensure_eq
  rw [toNat_wide_mul]
  exact h

/-! ## Field operations -/

section Field
variable (F : PrimeField)

def add (a b : UInt32) : Strict UInt32 := do
  let a ← ensure .unreduced (F.Reduced a) a
  let b ← ensure .unreduced (F.Reduced b) b
  let s ← add32 a b
  if F.modulus ≤ s then sub32 s F.modulus else .ok s

def sub (a b : UInt32) : Strict UInt32 := do
  let a ← ensure .unreduced (F.Reduced a) a
  let b ← ensure .unreduced (F.Reduced b) b
  if b ≤ a then sub32 a b else sub32 F.modulus b >>= add32 a

def mul (a b : UInt32) : Strict UInt32 := do
  return F.reduce (← mul64 a.toUInt64 b.toUInt64)

def mulAdd (c a b : UInt32) : Strict UInt32 := do
  return F.reduce (← add64 c.toUInt64 (← mul64 a.toUInt64 b.toUInt64))

def accumulate (i : ℕ) (acc : UInt64) (a b : UInt32) : Strict UInt64 := do
  let acc ← add64 acc (← mul64 a.toUInt64 b.toUInt64)
  return if i % productsPerReduction = productsPerReduction - 1 then acc % F.modulus.toUInt64
    else acc

def sumProducts (n : ℕ) (f g : ℕ → UInt32) : Strict UInt32 := do
  return F.reduce (← foldBelow (fun i acc => accumulate F i acc (f i) (g i)) 0 n)

def dot (a b : Array UInt32) : Strict UInt32 :=
  sumProducts F (min a.size b.size) (fun i => a.getD i 0) fun i => b.getD i 0

variable {F} {a b : UInt32}

theorem add_eq (ha : F.Reduced a) (hb : F.Reduced b) : add F a b = .ok (F.add a b) := by
  have hp := F.two_mul_modulus_lt
  have ha' := reduced_iff.mp ha
  have hb' := reduced_iff.mp hb
  rw [add, ensure_eq ha, ok_bind, ensure_eq hb, ok_bind, add32, ensure_eq (by omega), ok_bind,
    PrimeField.add]
  split
  · rename_i hle
    exact ensure_eq hle _
  · rfl

theorem sub_eq (ha : F.Reduced a) (hb : F.Reduced b) : sub F a b = .ok (F.sub a b) := by
  have hp := F.two_mul_modulus_lt
  have ha' := reduced_iff.mp ha
  have hb' := reduced_iff.mp hb
  have hle : b ≤ F.modulus := UInt32.le_iff_toNat_le.mpr hb'.le
  rw [sub, ensure_eq ha, ok_bind, ensure_eq hb, ok_bind, PrimeField.sub]
  split
  · rename_i h
    exact ensure_eq h _
  · rw [sub32, ensure_eq hle, ok_bind]
    apply ensure_eq
    rw [UInt32.toNat_sub_of_le _ _ hle]
    omega

example : sub ⟨7, by decide +kernel, by decide⟩ 3 9 = .error .unreduced := rfl

theorem mul_eq (F : PrimeField) (a b : UInt32) : mul F a b = .ok (F.mul a b) := by
  rw [mul, mul64_words, ok_bind]
  rfl

theorem mulAdd_eq (F : PrimeField) (c a b : UInt32) : mulAdd F c a b = .ok (F.mulAdd c a b) := by
  have hfits := add_product_lt c a b
  rw [← UInt32.toNat_toUInt64] at hfits
  rw [mulAdd, mul64_words, ok_bind, add64_product hfits, ok_bind]
  rfl

theorem accumulate_eq {i : ℕ} {acc : UInt64} (ha : F.Reduced a) (hb : F.Reduced b)
    (hacc : acc.toNat ≤ F.accumulatorBound i) :
    accumulate F i acc a b = .ok (F.accumulate i acc a b) := by
  have hprod := toNat_product_le ha hb
  have hlt := F.accumulatorBound_add_product_lt i
  rw [accumulate, mul64_words, ok_bind, add64_product (by omega), ok_bind]
  rfl

/-- The bound on the accumulator is what carries the sum through. -/
theorem sumProducts_eq {f g : ℕ → UInt32} (hf : ∀ i, F.Reduced (f i)) (hg : ∀ i, F.Reduced (g i))
    (n : ℕ) : sumProducts F n f g =
      .ok (F.reduce (n.fold (fun i _ acc => F.accumulate i acc (f i) (g i)) 0)) := by
  have hfold : foldBelow (fun i acc => accumulate F i acc (f i) (g i)) 0 n =
      .ok (n.fold (fun i _ acc => F.accumulate i acc (f i) (g i)) 0) := by
    induction n with
    | zero => rfl
    | succ n ih =>
      rw [foldBelow, ih, ok_bind, Nat.fold_succ]
      exact accumulate_eq (hf n) (hg n) (fold_accumulate_spec hf hg n).2
  rw [sumProducts, hfold, ok_bind]
  rfl

theorem dot_eq {a b : Array UInt32} (ha : F.AllReduced a) (hb : F.AllReduced b) :
    dot F a b = .ok (F.dot a b) :=
  sumProducts_eq (fun i => ha.getD i) (fun i => hb.getD i) _

end Field

/-! ## Inverses -/

/-- Both the next cofactor and the next remainder are formed in 64 bits with a sign. -/
def euclid (t t' : Int64) (r r' : UInt32) : Strict (Int64 × UInt32) :=
  if r' = 0 then .ok (t, r)
  else do
    let q := (r / r').toUInt64.toInt64
    let _ ← subSigned r.toUInt64.toInt64 (← mulSigned q r'.toUInt64.toInt64)
    let next ← subSigned t (← mulSigned q t')
    euclid t' next r' (r % r')
termination_by r'.toNat
decreasing_by
  rename_i h
  rw [UInt32.toNat_mod]
  exact Nat.mod_lt _ (Nat.pos_of_ne_zero fun h' => h (UInt32.toNat_inj.mp h'))

def inv? (F : PrimeField) (a : UInt32) : Strict (Option UInt32) :=
  if a = 0 then .ok none
  else do
    let (t, r) ← euclid 0 1 F.modulus a
    return if 1 < r then none else some (F.ofSigned t)

theorem mulSigned_eq {q : UInt32} {t : Int64} (h : |(q.toNat : ℤ) * t.toInt| < 2 ^ 62) :
    mulSigned q.toUInt64.toInt64 t = .ok (q.toUInt64.toInt64 * t) ∧
      (q.toUInt64.toInt64 * t).toInt = q.toNat * t.toInt := by
  have h' := abs_lt.mp h
  constructor
  · apply ensure_eq
    rw [toInt_quotient]
    constructor <;> omega
  · rw [Int64.toInt_mul, toInt_quotient]
    exact Int.bmod_eq_of_le (by omega) (by omega)

theorem subSigned_eq {t u : Int64} (ht : |t.toInt| < 2 ^ 62) (hu : |u.toInt| < 2 ^ 62) :
    subSigned t u = .ok (t - u) := by
  rw [abs_lt] at ht hu
  apply ensure_eq
  constructor <;> omega

theorem nextRow_eq {p a : ℕ} {t t' : Int64} {r r' : UInt32} (hp : p < 2 ^ 32)
    (h : EuclidRows p a t t' r r') (hr : r' ≠ 0) :
    mulSigned (r / r').toUInt64.toInt64 t' = .ok ((r / r').toUInt64.toInt64 * t') ∧
      subSigned t ((r / r').toUInt64.toInt64 * t') = .ok (t - (r / r').toUInt64.toInt64 * t') ∧
      mulSigned (r / r').toUInt64.toInt64 r'.toUInt64.toInt64 =
        .ok ((r / r').toUInt64.toInt64 * r'.toUInt64.toInt64) ∧
      subSigned r.toUInt64.toInt64 ((r / r').toUInt64.toInt64 * r'.toUInt64.toInt64) =
        .ok (r.toUInt64.toInt64 - (r / r').toUInt64.toInt64 * r'.toUInt64.toInt64) := by
  have hq : (r / r').toNat = r.toNat / r'.toNat := UInt32.toNat_div r r'
  have hcofactor := h.quotient_mul_le
  have hfirst := h.cofactor_le hr
  have hdiv := Nat.div_mul_le_self r.toNat r'.toNat
  have hword := r.toNat_lt
  obtain ⟨hmul, hvalue⟩ := mulSigned_eq (q := r / r') (t := t') (by
    rw [abs_mul, hq, Nat.abs_cast]
    omega)
  obtain ⟨hmul', hvalue'⟩ := mulSigned_eq (q := r / r') (t := r'.toUInt64.toInt64) (by
    rw [toInt_quotient, hq, ← Nat.cast_mul, Nat.abs_cast]
    omega)
  refine ⟨hmul, ?_, hmul', ?_⟩
  · apply subSigned_eq (by omega)
    rw [hvalue, abs_mul, hq, Nat.abs_cast]
    omega
  · apply subSigned_eq
    · rw [toInt_quotient, Nat.abs_cast]
      omega
    · rw [hvalue', toInt_quotient, hq, ← Nat.cast_mul, Nat.abs_cast]
      omega

theorem euclid_eq {p a : ℕ} (hp : p < 2 ^ 32) (t t' : Int64) (r r' : UInt32)
    (h : EuclidRows p a t t' r r') : euclid t t' r r' = .ok (PrimeField.euclid t t' r r') := by
  fun_induction PrimeField.euclid t t' r r' with
  | case1 t t' r => rw [euclid, if_pos rfl]
  | case2 t t' r r' hr ih =>
    obtain ⟨hmul, hnext, hmul', hrest⟩ := nextRow_eq hp h hr
    rw [euclid, if_neg hr]
    dsimp only
    rw [hmul', ok_bind, hrest, ok_bind, hmul, ok_bind, hnext, ok_bind, ih (h.step hp hr)]

theorem inv?_eq (F : PrimeField) (a : UInt32) : inv? F a = .ok (F.inv? a) := by
  rw [inv?, PrimeField.inv?]
  split
  · rfl
  · rw [euclid_eq F.modulus.toNat_lt 0 1 F.modulus a (euclidRows_initial F a)]
    rfl

/-! ## Moduli and random residues -/

def hasDivisorFrom (n d : ℕ) : Strict Bool := do
  let _ ← ensure .overflow (d * d < 2 ^ 64) ()
  if d * d ≤ n then
    if n % d = 0 then return true
    else do
      let _ ← ensure .overflow (d + 2 < 2 ^ 64) ()
      hasDivisorFrom n (d + 2)
  else return false
termination_by n + 1 - d
decreasing_by
  rename_i h _
  have := Nat.le_mul_self d
  omega

def isPrime (n : ℕ) : Strict Bool :=
  if n < 2 then .ok false
  else if n % 2 = 0 then .ok (n == 2)
  else do return !(← hasDivisorFrom n 3)

def ofModulus (p : ℕ) : Strict (Except FieldError PrimeField) := do
  if p < modulusBound then
    let _ ← isPrime p
  return PrimeField.ofModulus p

def residue (F : PrimeField) (source : WordSource) : Strict (UInt32 × WordSource) :=
  ensure .emptyRange (0 < F.modulus) (source.residue F)

def nonzeroResidue (F : PrimeField) (source : WordSource) : Strict (UInt32 × WordSource) :=
  ensure .emptyRange (1 < F.modulus) (source.nonzeroResidue F)

theorem hasDivisorFrom_eq {n d : ℕ} (hn : n < 2 ^ 62) (hd : d < 2 ^ 31 + 2) :
    hasDivisorFrom n d = .ok (ZeroDim.hasDivisorFrom n d) := by
  fun_induction ZeroDim.hasDivisorFrom n d with
  | case1 d hle ih =>
    have hsquare : d * d < 2 ^ 64 := by omega
    have hnext : d < 2 ^ 31 := by
      by_contra hge
      have := Nat.mul_le_mul (Nat.le_of_not_lt hge) (Nat.le_of_not_lt hge)
      omega
    rw [hasDivisorFrom, ensure_eq hsquare, ok_bind, if_pos hle]
    by_cases hdvd : n % d = 0
    · rw [if_pos hdvd, hdvd]
      rfl
    · rw [if_neg hdvd, ensure_eq (by omega), ok_bind, ih (by omega)]
      simp [hdvd]
  | case2 d hlt =>
    have hsquare : d * d < 2 ^ 64 := by
      have hd' : d ≤ 2 ^ 31 + 1 := by omega
      have := Nat.mul_le_mul hd' hd'
      omega
    rw [hasDivisorFrom, ensure_eq hsquare, ok_bind, if_neg hlt]
    rfl

theorem isPrime_eq {n : ℕ} (hn : n < 2 ^ 62) : isPrime n = .ok (ZeroDim.isPrime n) := by
  rw [isPrime, ZeroDim.isPrime]
  split
  · rfl
  · split
    · rfl
    · rw [hasDivisorFrom_eq hn (by omega)]
      rfl

theorem ofModulus_eq (p : ℕ) : ofModulus p = .ok (PrimeField.ofModulus p) := by
  rw [ofModulus]
  split
  · rename_i hp
    have hbound : modulusBound < 2 ^ 62 := by decide
    rw [isPrime_eq (by omega)]
    rfl
  · rfl

theorem residue_eq (F : PrimeField) (source : WordSource) :
    residue F source = .ok (source.residue F) := by
  apply ensure_eq
  rw [UInt32.lt_iff_toNat_lt]
  exact F.modulus_pos

theorem nonzeroResidue_eq (F : PrimeField) (source : WordSource) :
    nonzeroResidue F source = .ok (source.nonzeroResidue F) := by
  apply ensure_eq
  rw [UInt32.lt_iff_toNat_lt]
  exact F.two_le_modulus

end Strict

end ZeroDim
