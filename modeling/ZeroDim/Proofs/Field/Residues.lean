import Mathlib
import ZeroDim.Field.Lemmas

/-! # Words as elements of a finite field

Trial division decides primality, so the integers modulo the modulus of a `PrimeField` are a
field.  `PrimeField.value` reads a word as an element of it, and `PrimeField.word` gives the
reduced word of an element.  On reduced words the two are inverse to each other, and every
operation on words is the operation of the field on their values. -/

set_option autoImplicit false

namespace ZeroDim

theorem hasDivisorFrom_iff (n d : Nat) :
    hasDivisorFrom n d = true ↔ ∃ k, (d + 2 * k) * (d + 2 * k) ≤ n ∧ (d + 2 * k) ∣ n := by
  fun_induction hasDivisorFrom n d with
  | case1 d h ih =>
    rw [Bool.or_eq_true, beq_iff_eq, ih]
    constructor
    · rintro (hd | ⟨k, hk, hdvd⟩)
      · exact ⟨0, h, Nat.dvd_of_mod_eq_zero hd⟩
      · exact ⟨k + 1, by rw [show d + 2 * (k + 1) = d + 2 + 2 * k by ring]; exact ⟨hk, hdvd⟩⟩
    · rintro ⟨k, hk, hdvd⟩
      cases k with
      | zero => exact Or.inl (Nat.mod_eq_zero_of_dvd hdvd)
      | succ k =>
        rw [show d + 2 * (k + 1) = d + 2 + 2 * k by ring] at hk hdvd
        exact Or.inr ⟨k, hk, hdvd⟩
  | case2 d h =>
    constructor
    · intro hf
      contradiction
    · rintro ⟨k, hk, -⟩
      have : d * d ≤ (d + 2 * k) * (d + 2 * k) := Nat.mul_le_mul (by omega) (by omega)
      omega

theorem prime_of_isPrime {n : Nat} (h : isPrime n = true) : n.Prime := by
  have htwo : 2 ≤ n := two_le_of_isPrime h
  unfold isPrime at h
  rw [if_neg (by omega)] at h
  split at h
  · rw [beq_iff_eq] at h
    rw [h]
    exact Nat.prime_two
  · rename_i hodd
    rw [Bool.not_eq_true', Bool.eq_false_iff, ne_eq, hasDivisorFrom_iff] at h
    by_contra hn
    have hmin := Nat.minFac_prime (show n ≠ 1 by omega)
    have hdvd := Nat.minFac_dvd n
    have hsq : n.minFac * n.minFac ≤ n := by
      simpa [pow_two] using Nat.minFac_sq_le_self (by omega) hn
    rcases hmin.eq_two_or_odd with h2 | h2
    · rw [h2] at hdvd
      omega
    · have h3 : 3 ≤ n.minFac := by
        have := hmin.two_le
        omega
      have hk : 3 + 2 * ((n.minFac - 3) / 2) = n.minFac := by omega
      exact h ⟨(n.minFac - 3) / 2, by rw [hk]; exact ⟨hsq, hdvd⟩⟩

namespace PrimeField

theorem modulus_prime (F : PrimeField) : F.modulus.toNat.Prime := prime_of_isPrime F.prime

instance (F : PrimeField) : Fact F.modulus.toNat.Prime := ⟨F.modulus_prime⟩

instance (F : PrimeField) : NeZero F.modulus.toNat := ⟨F.modulus_prime.ne_zero⟩

abbrev Element (F : PrimeField) : Type := ZMod F.modulus.toNat

def value (F : PrimeField) (a : UInt32) : F.Element := (a.toNat : ZMod F.modulus.toNat)

def word (F : PrimeField) (x : F.Element) : UInt32 := UInt32.ofNat x.val

variable {F : PrimeField} {a b : UInt32}

theorem toNat_word (x : F.Element) : (F.word x).toNat = x.val := by
  have hlt : x.val < 2 ^ 32 := (ZMod.val_lt x).trans F.modulus.toNat_lt
  simpa [word] using Nat.mod_eq_of_lt hlt

theorem reduced_word (x : F.Element) : F.Reduced (F.word x) := by
  rw [reduced_iff, toNat_word]
  exact ZMod.val_lt x

@[simp] theorem value_word (x : F.Element) : F.value (F.word x) = x := by
  rw [value, toNat_word, ZMod.natCast_val, ZMod.cast_id', id]

theorem word_value (ha : F.Reduced a) : F.word (F.value a) = a := by
  apply UInt32.toNat_inj.mp
  rw [toNat_word, value, ZMod.val_natCast, Nat.mod_eq_of_lt (reduced_iff.mp ha)]

theorem eq_of_value_eq (ha : F.Reduced a) (hb : F.Reduced b) (h : F.value a = F.value b) :
    a = b := by
  rw [← word_value ha, h, word_value hb]

theorem toNat_eq_mod {n : Nat} (ha : F.Reduced a) (h : F.value a = (n : F.Element)) :
    a.toNat = n % F.modulus.toNat := by
  rw [← Nat.mod_eq_of_lt (reduced_iff.mp ha), ← ZMod.natCast_eq_natCast_iff']
  exact h

@[simp] theorem value_zero : F.value 0 = 0 := by
  simp [value]

@[simp] theorem value_one : F.value 1 = 1 := by
  simp [value]

theorem reduced_one : F.Reduced 1 := by
  rw [reduced_iff]
  exact F.modulus_prime.one_lt

theorem value_eq_zero_iff (ha : F.Reduced a) : F.value a = 0 ↔ a = 0 := by
  constructor
  · intro h
    exact eq_of_value_eq ha F.reduced_zero (by rw [h, value_zero])
  · rintro rfl
    exact value_zero

@[simp] theorem value_residue : F.value (F.residue a) = F.value a := by
  rw [value, toNat_residue, ZMod.natCast_mod, value]

@[simp] theorem value_reduce (v : UInt64) : F.value (F.reduce v) = (v.toNat : F.Element) := by
  rw [value, toNat_reduce, ZMod.natCast_mod]

@[simp] theorem value_ofNat (n : Nat) : F.value (F.ofNat n) = (n : F.Element) := by
  have hlt : n % F.modulus.toNat < 2 ^ 32 :=
    (Nat.mod_lt n F.modulus_pos).trans F.modulus.toNat_lt
  rw [value, ofNat, UInt32.toNat_ofNat', Nat.mod_eq_of_lt hlt, ZMod.natCast_mod]

theorem value_add (ha : F.Reduced a) (hb : F.Reduced b) :
    F.value (F.add a b) = F.value a + F.value b := by
  rw [value, toNat_add ha hb, ZMod.natCast_mod, Nat.cast_add, value, value]

theorem value_sub (ha : F.Reduced a) (hb : F.Reduced b) :
    F.value (F.sub a b) = F.value a - F.value b := by
  rw [value, toNat_sub ha hb, ZMod.natCast_mod, Nat.cast_add,
    Nat.cast_sub (reduced_iff.mp hb).le, ZMod.natCast_self, value, value]
  ring

theorem value_neg (ha : F.Reduced a) : F.value (F.neg a) = -F.value a := by
  rw [value, toNat_neg ha, ZMod.natCast_mod, Nat.cast_sub (reduced_iff.mp ha).le,
    ZMod.natCast_self, value, zero_sub]

@[simp] theorem value_mul : F.value (F.mul a b) = F.value a * F.value b := by
  rw [value, toNat_mul, ZMod.natCast_mod, Nat.cast_mul, value, value]

@[simp] theorem value_mulAdd (c : UInt32) :
    F.value (F.mulAdd c a b) = F.value c + F.value a * F.value b := by
  rw [value, toNat_mulAdd, ZMod.natCast_mod, Nat.cast_add, Nat.cast_mul, value, value, value]

def AllReduced (F : PrimeField) (cs : Array UInt32) : Prop := ∀ c ∈ cs, F.Reduced c

instance (F : PrimeField) (cs : Array UInt32) : Decidable (F.AllReduced cs) :=
  decidable_of_iff (cs.all (F.Reduced ·) = true) (by
    rw [Array.all_eq_true_iff_forall_mem]
    simp only [decide_eq_true_eq, AllReduced])

theorem AllReduced.getD {cs : Array UInt32} (h : F.AllReduced cs) (i : Nat) :
    F.Reduced (cs.getD i 0) := by
  rw [Array.getD_eq_getD_getElem?]
  cases hi : cs[i]? with
  | none => exact F.reduced_zero
  | some c => exact h c (Array.mem_of_getElem? hi)

theorem allReduced_of_getD {cs : Array UInt32} (h : ∀ i, F.Reduced (cs.getD i 0)) :
    F.AllReduced cs := by
  intro c hc
  obtain ⟨i, hi, rfl⟩ := Array.mem_iff_getElem.mp hc
  simpa [hi] using h i

theorem allReduced_ofFn {n : Nat} {f : Fin n → UInt32} (h : ∀ i, F.Reduced (f i)) :
    F.AllReduced (Array.ofFn f) := by
  intro c hc
  obtain ⟨i, rfl⟩ := Array.mem_ofFn.mp hc
  exact h i

theorem AllReduced.extract {cs : Array UInt32} (h : F.AllReduced cs) (lo hi : Nat) :
    F.AllReduced (cs.extract lo hi) := by
  intro c hc
  obtain ⟨i, hi⟩ := Array.mem_iff_getElem?.mp hc
  rw [Array.getElem?_extract] at hi
  split at hi
  · exact h c (Array.mem_of_getElem? hi)
  · contradiction

end PrimeField

end ZeroDim
