import Mathlib
import ZeroDim.Proofs.Strict.Words

/-! # Invertible residues

The modulus is prime, so a word has an inverse exactly if the modulus does not divide it, whether
the word is reduced or not, and the inverse is the one reduced word whose product with it leaves
the remainder one.

The loop that looks for it is followed on signed 64-bit words as well, round by round.  A round
takes the rows of Euclid's recursion to the next ones without leaving 64 bits.  A number loses a
binary digit when its remainder by a smaller one takes its place, so there are no more rounds than
digits, apart from the first one, which may only exchange the two numbers. -/

set_option autoImplicit false

namespace ZeroDim

/-! ## Rounds of Euclid's loop -/

namespace Strict

open PrimeField

structure EuclidRegisters where
  t : Int64
  t' : Int64
  r : Int64
  r' : Int64

def EuclidRegisters.ofWords (t t' : Int64) (r r' : UInt32) : EuclidRegisters :=
  ⟨t, t', r.toUInt64.toInt64, r'.toUInt64.toInt64⟩

/-- The quotient of signed words is cut off towards zero.  Only the least of them divided by `-1`
overflows. -/
def divSigned (a b : Int64) : Strict Int64 := do
  let _ ← ensure .zeroDivisor (b ≠ 0) ()
  ensure .overflow (FitsSigned (a.toInt.tdiv b.toInt)) (a / b)

def euclidRound (s : EuclidRegisters) : Strict EuclidRegisters := do
  let q ← divSigned s.r s.r'
  let next ← subSigned s.t (← mulSigned q s.t')
  let rest ← subSigned s.r (← mulSigned q s.r')
  return ⟨s.t', next, s.r', rest⟩

/-- The loop comes from the first registers to the last in the given number of rounds. -/
inductive EuclidLoop : EuclidRegisters → ℕ → EuclidRegisters → Prop
  | finished {s : EuclidRegisters} : s.r' = 0 → EuclidLoop s 0 s
  | round {s s' last : EuclidRegisters} {rounds : ℕ} : s.r' ≠ 0 → euclidRound s = .ok s' →
      EuclidLoop s' rounds last → EuclidLoop s (rounds + 1) last

variable {r r' : UInt32}

theorem signed_eq_zero_iff (r : UInt32) : r.toUInt64.toInt64 = 0 ↔ r = 0 := by
  rw [← Int64.toInt_inj, toInt_quotient, ← UInt32.toNat_inj]
  exact Int.natCast_eq_zero

theorem divSigned_words (hr : r' ≠ 0) :
    divSigned r.toUInt64.toInt64 r'.toUInt64.toInt64 = .ok (r / r').toUInt64.toInt64 := by
  have hvalue : r.toUInt64.toInt64.toInt.tdiv r'.toUInt64.toInt64.toInt =
      ((r / r').toNat : ℤ) := by
    rw [toInt_quotient, toInt_quotient, ← Int.ofNat_tdiv, UInt32.toNat_div]
  have hword := (r / r').toNat_lt
  have hfits : FitsSigned ((r / r').toNat : ℤ) := ⟨by omega, by omega⟩
  have hdiv : r.toUInt64.toInt64 / r'.toUInt64.toInt64 = (r / r').toUInt64.toInt64 := by
    rw [← Int64.toInt_inj, Int64.toInt_div, hvalue, toInt_quotient]
    exact Int.bmod_eq_of_le (by omega) (by omega)
  rw [divSigned, ensure_eq ((signed_eq_zero_iff r').not.mpr hr), ok_bind, hvalue,
    ensure_eq hfits, hdiv]

theorem signed_mod (r r' : UInt32) :
    r.toUInt64.toInt64 - (r / r').toUInt64.toInt64 * r'.toUInt64.toInt64 =
      (r % r').toUInt64.toInt64 := by
  have hq : (r / r').toNat = r.toNat / r'.toNat := UInt32.toNat_div r r'
  have hmul := Nat.div_mul_le_self r.toNat r'.toNat
  have hword := r.toNat_lt
  rw [← Int64.toInt_inj, toInt_sub_mul, toInt_quotient, toInt_quotient, toInt_quotient,
    UInt32.toNat_mod, hq]
  · push_cast
    rw [Int.emod_def, mul_comm]
  · rw [toInt_quotient, hq, ← Nat.cast_mul, Nat.abs_cast]
    omega
  · rw [toInt_quotient, Nat.abs_cast]
    omega

/-- A round does to the registers what a step of the recursion does to the rows. -/
theorem euclidRound_eq {p a : ℕ} {t t' : Int64} (hp : p < 2 ^ 32) (h : EuclidRows p a t t' r r')
    (hr : r' ≠ 0) : euclidRound (.ofWords t t' r r') =
      .ok (.ofWords t' (t - (r / r').toUInt64.toInt64 * t') r' (r % r')) := by
  obtain ⟨hmul, hnext, hmul', hrest⟩ := nextRow_eq hp h hr
  rw [euclidRound]
  dsimp only [EuclidRegisters.ofWords]
  rw [divSigned_words hr, ok_bind, hmul, ok_bind, hnext, ok_bind, hmul', ok_bind, hrest, ok_bind,
    signed_mod]
  rfl

theorem size_mod_lt {m n : ℕ} (hn : n ≠ 0) (hle : n ≤ m) : (m % n).size < m.size := by
  have hlt := Nat.mod_lt m (Nat.pos_of_ne_zero hn)
  have hdouble : 2 * (m % n) < m := by
    have := Nat.mod_add_div m n
    have := Nat.le_mul_of_pos_right n (Nat.div_pos hle (Nat.pos_of_ne_zero hn))
    omega
  have hpos : m.size ≠ 0 := by
    rw [Ne, Nat.size_eq_zero]
    omega
  have hm := Nat.lt_size_self m
  rw [← Nat.le_sub_one_iff_lt (Nat.pos_of_ne_zero hpos), Nat.size_le]
  rw [← Nat.sub_one_add_one hpos, pow_succ] at hm
  omega

theorem exists_euclidLoop {p a : ℕ} (hp : p < 2 ^ 32) (t t' : Int64) (r r' : UInt32)
    (h : EuclidRows p a t t' r r') :
    ∃ rounds ≤ r.toNat.size + r'.toNat.size + (if r' ≤ r then 0 else 1), ∃ u,
      EuclidLoop (.ofWords t t' r r') rounds
        (.ofWords (PrimeField.euclid t t' r r').1 u (PrimeField.euclid t t' r r').2 0) := by
  fun_induction PrimeField.euclid t t' r r' with
  | case1 t t' r => exact ⟨0, Nat.zero_le _, t', .finished rfl⟩
  | case2 t t' r r' hr ih =>
    obtain ⟨rounds, hrounds, u, hloop⟩ := ih (h.step hp hr)
    refine ⟨rounds + 1, ?_, u, .round ((signed_eq_zero_iff r').not.mpr hr)
      (euclidRound_eq hp h hr) hloop⟩
    have hr' : r'.toNat ≠ 0 := fun h => hr (UInt32.toNat_inj.mp h)
    have hlt := Nat.mod_lt r.toNat (Nat.pos_of_ne_zero hr')
    have hordered : r % r' ≤ r' := by
      rw [UInt32.le_iff_toNat_le, UInt32.toNat_mod]
      exact hlt.le
    rw [if_pos hordered, UInt32.toNat_mod] at hrounds
    split
    · rename_i hle
      have := size_mod_lt hr' (UInt32.le_iff_toNat_le.mp hle)
      omega
    · rename_i hgt
      -- the quotient is zero, and the numbers change places
      rw [UInt32.le_iff_toNat_le] at hgt
      rw [Nat.mod_eq_of_lt (by omega)] at hrounds
      omega

end Strict

/-! ## Inverses and quotients -/

namespace PrimeField

variable {F : PrimeField} {a b : UInt32}

theorem value_mul_eq_value_iff {c : UInt32} : F.value a * F.value b = F.value c ↔
    a.toNat * b.toNat ≡ c.toNat [MOD F.modulus.toNat] := by
  rw [value, value, value, ← Nat.cast_mul, ZMod.natCast_eq_natCast_iff]

theorem value_mul_eq_one_iff :
    F.value a * F.value b = 1 ↔ a.toNat * b.toNat % F.modulus.toNat = 1 := by
  rw [← value_one, value_mul_eq_value_iff, Nat.ModEq, UInt32.toNat_one,
    Nat.one_mod_eq_one.mpr F.modulus_prime.one_lt.ne']

theorem inv?_eq_some_iff :
    F.inv? a = some b ↔ F.Reduced b ∧ F.value a * F.value b = 1 := by
  constructor
  · intro h
    rw [inv?_eq] at h
    split at h
    · contradiction
    · rename_i hne
      rw [← Option.some.inj h, value_word]
      exact ⟨reduced_word _, mul_inv_cancel₀ hne⟩
  · rintro ⟨hb, hone⟩
    rw [inv?_eq_some_word (left_ne_zero_of_mul_eq_one hone), inv_eq_of_mul_eq_one_right hone,
      word_value hb]

theorem inv?_eq_none_iff : F.inv? a = none ↔ F.modulus.toNat ∣ a.toNat := by
  rw [← value_eq_zero_iff_dvd, inv?_eq]
  split
  · rename_i hzero
    simp [hzero]
  · rename_i hne
    simp [hne]

theorem exists_inv?_iff : (∃ b, F.inv? a = some b) ↔ ¬F.modulus.toNat ∣ a.toNat := by
  rw [← inv?_eq_none_iff, ← Option.ne_none_iff_exists']

theorem div?_eq_some_iff {q : UInt32} : F.div? a b = some q ↔
    F.value b ≠ 0 ∧ F.Reduced q ∧ F.value q * F.value b = F.value a := by
  rw [div?, Option.map_eq_some_iff]
  constructor
  · rintro ⟨c, hc, rfl⟩
    obtain ⟨-, hone⟩ := inv?_eq_some_iff.mp hc
    refine ⟨left_ne_zero_of_mul_eq_one hone, F.reduced_mul a c, ?_⟩
    rw [value_mul, mul_assoc, mul_comm (F.value c), hone, mul_one]
  · rintro ⟨hne, hq, hvalue⟩
    refine ⟨_, inv?_eq_some_word hne, eq_of_value_eq (F.reduced_mul _ _) hq ?_⟩
    rw [value_mul, value_word, ← hvalue, mul_inv_cancel_right₀ hne]

/-- The inverse is read off the last registers of the loop.  The modulus has at most 31 binary digits
and the word at most 32, and the first round may be spent on their order. -/
theorem inv?_eq_of_euclidLoop (F : PrimeField) (a : UInt32) :
    ∃ rounds ≤ 64, ∃ last, Strict.EuclidLoop (.ofWords 0 1 F.modulus a) rounds last ∧
      F.inv? a = if a = 0 ∨ 1 < last.r then none else some (F.ofSigned last.t) := by
  obtain ⟨rounds, hrounds, u, hloop⟩ :=
    Strict.exists_euclidLoop F.modulus.toNat_lt 0 1 F.modulus a (euclidRows_initial F a)
  have hmodulus : F.modulus.toNat.size ≤ 31 := by
    have := F.two_mul_modulus_lt
    exact Nat.size_le.mpr (by omega)
  have hword : a.toNat.size ≤ 32 := Nat.size_le.mpr a.toNat_lt
  refine ⟨rounds, ?_, _, hloop, ?_⟩
  · split at hrounds <;> omega
  · have hone : 1 < (euclid 0 1 F.modulus a).2 ↔
        (1 : Int64) < (euclid 0 1 F.modulus a).2.toUInt64.toInt64 := by
      rw [Int64.lt_iff_toInt_lt, toInt_quotient, UInt32.lt_iff_toNat_lt]
      exact Nat.cast_lt.symm
    rw [inv?]
    dsimp only [Strict.EuclidRegisters.ofWords]
    simp only [← hone]
    by_cases ha : a = 0 <;> simp [ha]

/-- Exactly the words that the modulus does not divide have an inverse, reduced or not, and exactly
these are divisors.  An inverse or a quotient is the one reduced word that solves its equation.
The loop ends after at most 64 rounds, and no signed word overflows in them. -/
theorem inv?_decides (F : PrimeField) (a : UInt32) :
    (∀ b, F.inv? a = some b ↔
      b.toNat < F.modulus.toNat ∧ a.toNat * b.toNat % F.modulus.toNat = 1) ∧
    ((∃ b, F.inv? a = some b) ↔ ¬F.modulus.toNat ∣ a.toNat) ∧
    (F.inv? a = none ↔ F.modulus.toNat ∣ a.toNat) ∧
    (∀ c, (∃ q, F.div? c a = some q) ↔ ¬F.modulus.toNat ∣ a.toNat) ∧
    (∀ c q, F.div? c a = some q ↔ ¬F.modulus.toNat ∣ a.toNat ∧ q.toNat < F.modulus.toNat ∧
      q.toNat * a.toNat ≡ c.toNat [MOD F.modulus.toNat]) ∧
    ∃ rounds ≤ 64, ∃ last, Strict.EuclidLoop (.ofWords 0 1 F.modulus a) rounds last ∧
      F.inv? a = if a = 0 ∨ 1 < last.r then none else some (F.ofSigned last.t) := by
  refine ⟨fun b => ?_, exists_inv?_iff, inv?_eq_none_iff, fun c => ?_, fun c q => ?_,
    inv?_eq_of_euclidLoop F a⟩
  · rw [inv?_eq_some_iff, reduced_iff, value_mul_eq_one_iff]
  · rw [← exists_inv?_iff]
    simp only [div?, ← Option.isSome_iff_exists, Option.isSome_map]
  · rw [div?_eq_some_iff, reduced_iff, Ne, value_eq_zero_iff_dvd, value_mul_eq_value_iff]

/-- Modulo seven the word 10 has the inverse 5, and 4 divided by it is 6; there is no division by
14. -/
theorem inv?_decides_unreduced : ∃ F : PrimeField, F.modulus = 7 ∧ F.inv? 10 = some 5 ∧
    F.div? 4 10 = some 6 ∧ F.inv? 14 = none ∧ (¬∃ q, F.div? 4 14 = some q) ∧
    ∃ rounds ≤ 64, ∃ last, Strict.EuclidLoop (.ofWords 0 1 7 14) rounds last := by
  let F : PrimeField := ⟨7, by decide +kernel, by decide⟩
  obtain ⟨hsome, -, -, -, hquotient, -⟩ := inv?_decides F 10
  obtain ⟨-, -, hnone, hdivides, -, rounds, hrounds, last, hloop, -⟩ := inv?_decides F 14
  exact ⟨F, rfl, (hsome 5).mpr (by decide), (hquotient 4 6).mpr (by decide), hnone.mpr (by decide),
    (hdivides 4).not.mpr (by decide), rounds, hrounds, last, hloop⟩

end PrimeField

end ZeroDim
