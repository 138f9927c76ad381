import Mathlib
import ZeroDim.Proofs.Strict.Words

/-! # Supported moduli

The least divisor of a composite number is a prime whose square does not exceed the number, so trial
division by two and by the odd numbers up to the square root finds it.  A number is the modulus of a
field exactly when it is a prime below the bound, and the two causes of a rejection exclude each
other.

The loop of trial division is followed on 64-bit words as well, round by round: below the bound it
comes to its verdict after at most as many rounds as the square root, and the square of no divisor
overflows. -/

set_option autoImplicit false

namespace ZeroDim

theorem isPrime_iff {n : ℕ} : isPrime n = true ↔ n.Prime := by
  refine ⟨prime_of_isPrime, fun h => ?_⟩
  have htwo := h.two_le
  rw [isPrime, if_neg (by omega)]
  split
  · rename_i heven
    rw [beq_iff_eq]
    exact h.even_iff.mp (Nat.even_iff.mpr heven)
  · rw [Bool.not_eq_true', Bool.eq_false_iff, ne_eq, hasDivisorFrom_iff]
    rintro ⟨k, hsquare, hdvd⟩
    -- a divisor from three up is the number itself, and the square of that is larger
    rcases h.eq_one_or_self_of_dvd _ hdvd with hone | hself
    · omega
    · rw [hself] at hsquare
      exact absurd (Nat.mul_le_mul_right n htwo) (by omega)

namespace PrimeField

variable {p : ℕ} {F : PrimeField}

theorem ofModulus_eq_tooLarge (h : modulusBound ≤ p) : ofModulus p = .error (.tooLarge p) :=
  dif_neg (Nat.not_lt.mpr h)

theorem ofModulus_eq_notPrime (h : p < modulusBound) (hp : ¬p.Prime) :
    ofModulus p = .error (.notPrime p) := by
  rw [ofModulus, dif_pos h, dif_neg (mt isPrime_iff.mp hp)]

theorem ofModulus_eq_ok_iff : ofModulus p = .ok F ↔ F.modulus.toNat = p := by
  constructor
  · intro h
    unfold ofModulus at h
    split at h
    · rename_i hbound
      split at h
      · rw [← Except.ok.inj h]
        exact UInt32.toNat_ofNat_of_lt' (hbound.trans (by decide))
      · contradiction
    · contradiction
  · rintro rfl
    rw [ofModulus, dif_pos F.bounded, dif_pos F.prime]
    simp

theorem eq_of_modulus_eq {F G : PrimeField} (h : F.modulus.toNat = G.modulus.toNat) : F = G :=
  Except.ok.inj ((ofModulus_eq_ok_iff.mpr h).symm.trans (ofModulus_eq_ok_iff.mpr rfl))

theorem ofModulus_cases (p : ℕ) :
    (modulusBound ≤ p ∧ ofModulus p = .error (.tooLarge p)) ∨
    (p < modulusBound ∧ p.Prime ∧ ∃ F, ofModulus p = .ok F) ∨
    (p < modulusBound ∧ ¬p.Prime ∧ ofModulus p = .error (.notPrime p)) := by
  rcases Nat.lt_or_ge p modulusBound with hlt | hge
  · by_cases hp : p.Prime
    · refine .inr (.inl ⟨hlt, hp, ?_⟩)
      rw [ofModulus, dif_pos hlt, dif_pos (isPrime_iff.mpr hp)]
      exact ⟨_, rfl⟩
    · exact .inr (.inr ⟨hlt, hp, ofModulus_eq_notPrime hlt hp⟩)
  · exact .inl ⟨hge, ofModulus_eq_tooLarge hge⟩

end PrimeField

/-! ## Rounds of trial division -/

namespace Strict

/-- One round of trial division of `n` by `d`: the verdict whether there is a divisor, or the next
number to try. -/
def trialRound (n d : UInt64) : Strict (Bool ⊕ UInt64) := do
  if (← mul64 d d) ≤ n then
    if (← ensure .zeroDivisor (d ≠ 0) (n % d)) = 0 then return .inl true
    else return .inr (← add64 d 2)
  else return .inl false

/-- From `d` on, trial division of `n` comes to its verdict in the given number of rounds. -/
inductive TrialDivision (n : UInt64) : UInt64 → ℕ → Bool → Prop
  | verdict {d : UInt64} {found : Bool} : trialRound n d = .ok (.inl found) →
      TrialDivision n d 1 found
  | next {d d' : UInt64} {rounds : ℕ} {found : Bool} : trialRound n d = .ok (.inr d') →
      TrialDivision n d' rounds found → TrialDivision n d (rounds + 1) found

variable {n d : UInt64}

theorem mul64_self_eq (h : d.toNat * d.toNat < 2 ^ 64) :
    mul64 d d = .ok (d * d) ∧ (d * d).toNat = d.toNat * d.toNat :=
  ⟨ensure_eq h _, by rw [UInt64.toNat_mul, Nat.mod_eq_of_lt h]⟩

theorem trialRound_eq (hd : d ≠ 0) (hsquare : d.toNat * d.toNat < 2 ^ 64)
    (hnext : d.toNat + 2 < 2 ^ 64) :
    trialRound n d = .ok (if d.toNat * d.toNat ≤ n.toNat then
      if n.toNat % d.toNat = 0 then .inl true else .inr (d + 2) else .inl false) := by
  obtain ⟨hmul, hvalue⟩ := mul64_self_eq hsquare
  have hmod : n % d = 0 ↔ n.toNat % d.toNat = 0 := by
    rw [← UInt64.toNat_inj, UInt64.toNat_mod, UInt64.toNat_zero]
  have hle : d * d ≤ n ↔ d.toNat * d.toNat ≤ n.toNat := by
    rw [UInt64.le_iff_toNat_le, hvalue]
  have hadd : add64 d 2 = .ok (d + 2) := ensure_eq hnext _
  rw [trialRound, hmul, ok_bind]
  simp only [hle]
  split
  · rw [ensure_eq hd, ok_bind]
    simp only [hmod]
    split
    · rfl
    · rw [hadd]
      rfl
  · rfl

/-- Divisors grow by two in each round, and the first one past the square root is the last. -/
theorem exists_trialDivision (n : UInt64) (m : ℕ) (hn : n.toNat < 2 ^ 62) (hm : m < 2 ^ 31 + 2) :
    ∀ d : UInt64, d ≠ 0 → d.toNat = m →
      ∃ rounds, 2 * rounds + m ≤ max (n.toNat.sqrt + 4) (m + 2) ∧
        TrialDivision n d rounds (ZeroDim.hasDivisorFrom n.toNat m) := by
  fun_induction ZeroDim.hasDivisorFrom n.toNat m with
  | case1 m hle ih =>
    rintro d hd rfl
    have hroot := Nat.le_sqrt.mpr hle
    have hword : d.toNat < 2 ^ 31 := by
      by_contra hge
      have := Nat.mul_le_mul (Nat.le_of_not_lt hge) (Nat.le_of_not_lt hge)
      omega
    have hround := trialRound_eq (n := n) hd (by omega) (by omega)
    rw [if_pos hle] at hround
    by_cases hdvd : n.toNat % d.toNat = 0
    · rw [if_pos hdvd] at hround
      refine ⟨1, by omega, ?_⟩
      rw [hdvd]
      exact .verdict hround
    · have hnext : (d + 2).toNat = d.toNat + 2 := by
        rw [UInt64.toNat_add]
        exact Nat.mod_eq_of_lt (show d.toNat + 2 < 2 ^ 64 by omega)
      obtain ⟨rounds, hrounds, hrun⟩ := ih (by omega) (d + 2) (fun h => by simp [h] at hnext) hnext
      rw [if_neg hdvd] at hround
      refine ⟨rounds + 1, by omega, ?_⟩
      rw [beq_false_of_ne hdvd, Bool.false_or]
      exact .next hround hrun
  | case2 m hlt =>
    rintro d hd rfl
    have hsquare : d.toNat * d.toNat < 2 ^ 64 := by
      have := Nat.mul_le_mul (Nat.le_of_lt_succ hm) (Nat.le_of_lt_succ hm)
      omega
    have hround := trialRound_eq (n := n) hd hsquare (by omega)
    rw [if_neg hlt] at hround
    exact ⟨1, by omega, .verdict hround⟩

end Strict

namespace PrimeField

/-- Exactly the primes below the bound are moduli; all other numbers below it are rejected as not
prime, and all from there on as too large.  No word overflows, and trial division ends. -/
theorem ofModulus_decides (p : UInt64) :
    (∀ q, ofModulus p.toNat = .error (.tooLarge q) ↔ q = p.toNat ∧ 1518500213 ≤ p.toNat) ∧
    (∀ F, ofModulus p.toNat = .ok F ↔ F.modulus.toNat = p.toNat) ∧
    ((∃ F, ofModulus p.toNat = .ok F) ↔ p.toNat < 1518500213 ∧ p.toNat.Prime) ∧
    (∀ q, ofModulus p.toNat = .error (.notPrime q) ↔
      q = p.toNat ∧ p.toNat < 1518500213 ∧ ¬p.toNat.Prime) ∧
    Strict.ofModulus p.toNat = .ok (ofModulus p.toNat) ∧
    (p.toNat < 1518500213 → ∃ rounds ≤ p.toNat.sqrt + 1,
      Strict.TrialDivision p 3 rounds (hasDivisorFrom p.toNat 3)) := by
  have hbound : modulusBound = 1518500213 := rfl
  rw [← hbound]
  refine ⟨fun q => ?_, fun F => ofModulus_eq_ok_iff, ?_, fun q => ?_, Strict.ofModulus_eq _, ?_⟩
  · rcases ofModulus_cases p.toNat with ⟨h, heq⟩ | ⟨h, hp, F, heq⟩ | ⟨h, hp, heq⟩ <;> rw [heq]
    · simp [h, eq_comm]
    · simp [h]
    · simp [h]
  · rcases ofModulus_cases p.toNat with ⟨h, heq⟩ | ⟨h, hp, F, heq⟩ | ⟨h, hp, heq⟩ <;> rw [heq]
    · simp [h]
    · simp [h, hp]
    · simp [hp]
  · rcases ofModulus_cases p.toNat with ⟨h, heq⟩ | ⟨h, hp, F, heq⟩ | ⟨h, hp, heq⟩ <;> rw [heq]
    · simp [h]
    · simp [hp]
    · simp [h, hp, eq_comm]
  · intro h
    obtain ⟨rounds, hrounds, hrun⟩ :=
      Strict.exists_trialDivision p 3 (by omega) (by decide) 3 (by decide) rfl
    exact ⟨rounds, by omega, hrun⟩

/-- Trial division finds a divisor of 91, and the number is rejected as not prime. -/
theorem ofModulus_decides_91 :
    (91 : UInt64).toNat < 1518500213 ∧ ofModulus 91 = .error (.notPrime 91) ∧
      ∃ rounds ≤ Nat.sqrt 91 + 1, Strict.TrialDivision 91 3 rounds true := by
  obtain ⟨-, -, -, hnotPrime, -, htrial⟩ := ofModulus_decides 91
  have hbound : (91 : UInt64).toNat < 1518500213 := by decide
  have hdivisor : hasDivisorFrom 91 3 = true := (hasDivisorFrom_iff 91 3).mpr ⟨2, by decide⟩
  obtain ⟨rounds, hrounds, hrun⟩ := htrial hbound
  refine ⟨hbound, (hnotPrime 91).mpr ⟨rfl, hbound, ?_⟩, rounds, hrounds, hdivisor ▸ hrun⟩
  exact Nat.not_prime_of_dvd_of_lt (show 7 ∣ 91 by decide) (by decide) (by decide)

end PrimeField

end ZeroDim
