import Mathlib
import ZeroDim.Proofs.Numerator
import ZeroDim.Proofs.Random.Draws

/-! # The check with a random shift

Let `s`, `c` and `q` be the numerators of the power sums, of a stream and of the stream of its
square, and `a` a quotient of `c` by `s` modulo the eliminant.  The shift by `lambda` divides
`q + lambda c` by `c + lambda s`.  Modulo the eliminant the second one is `(a + lambda) s`, and the
first one is `a (a + lambda) s` exactly if `q` is `a c`: so the terms with `lambda` cancel, and the
shift decides only whether there is a quotient at all. -/

set_option autoImplicit false

namespace ZeroDim

open Polynomial PrimeField

/-! ## Shifted numerators -/

section Shift
variable {R : Type*} [CommRing R] {E s c q a l inverse : R}

theorem isCoprime_shifted_iff (hs : IsCoprime s E) (ha : E ∣ a * s - c) :
    IsCoprime (c + l * s) E ↔ IsCoprime (a + l) E := by
  obtain ⟨k, hk⟩ := ha
  have hshift : c + l * s = (a + l) * s + E * -k := by linear_combination -hk
  rw [hshift, IsCoprime.add_mul_left_left_iff, IsCoprime.mul_left_iff]
  exact and_iff_left hs

theorem dvd_shifted_iff (ha : E ∣ a * s - c) (hinverse : E ∣ (c + l * s) * inverse - 1) :
    E ∣ (q + l * c) * inverse - a ↔ E ∣ q - a * c := by
  obtain ⟨k, hk⟩ := ha
  obtain ⟨m, hm⟩ := hinverse
  constructor
  · rintro ⟨n, hn⟩
    exact ⟨(c + l * s) * n - (q + l * c) * m + l * k,
      by linear_combination (c + l * s) * hn - (q + l * c) * hm + l * hk⟩
  · rintro ⟨n, hn⟩
    exact ⟨inverse * (n - l * k) + a * m,
      by linear_combination inverse * hn - inverse * l * hk + a * hm⟩

end Shift

/-! ## The check -/

section Check
variable {F : PrimeField} {minimal eliminant expected : Poly}
  {sequence stream square : Array UInt32} (hP : minimal.field = F) (hE : eliminant.field = F)
  (hA : expected.field = F) (hne : eliminant.toPolynomial F ≠ 0)
  (hsequence : minimal.natDegree ≤ sequence.size) (hstream : minimal.natDegree ≤ stream.size)
  (hsquare : minimal.natDegree ≤ square.size)
include hP hE hA hne hsequence hstream hsquare

theorem shiftAgrees_spec (scalar : UInt32)
    (hco : IsCoprime (seriesNumerator (minimal.toPolynomial F) (F.terms sequence))
      (eliminant.toPolynomial F))
    (hlen : expected.length < eliminant.length)
    (hquotient : eliminant.toPolynomial F ∣
      expected.toPolynomial F * seriesNumerator (minimal.toPolynomial F) (F.terms sequence) -
        seriesNumerator (minimal.toPolynomial F) (F.terms stream)) :
    ∃ passed, shiftAgrees minimal eliminant scalar sequence stream square expected = .ok passed ∧
      (passed = true ↔ eliminant.toPolynomial F ∣
        seriesNumerator (minimal.toPolynomial F) (F.terms square) -
          expected.toPolynomial F * seriesNumerator (minimal.toPolynomial F) (F.terms stream) ∧
        IsCoprime (expected.toPolynomial F + C (F.value scalar)) (eliminant.toPolynomial F)) := by
  obtain ⟨below, hbelow, hbsize, hbterms⟩ :=
    combinedStream_spec hE minimal scalar hstream hsequence
  obtain ⟨above, habove, hasize, haterms⟩ := combinedStream_spec hE minimal scalar hsquare hstream
  have hbterms : ∀ i < minimal.natDegree, F.terms below i =
      (F.terms stream + F.value scalar • F.terms sequence) i := hbterms
  have haterms : ∀ i < minimal.natDegree, F.terms above i =
      (F.terms square + F.value scalar • F.terms stream) i := haterms
  have hinvertible := isCoprime_shifted_iff (l := C (F.value scalar)) hco hquotient
  rw [← seriesNumerator_smul, ← seriesNumerator_add] at hinvertible
  rw [shiftAgrees, hbelow, ok_bind, habove, ok_bind, ← hinvertible]
  by_cases hunit : IsCoprime (seriesNumerator (minimal.toPolynomial F)
      (F.terms stream + F.value scalar • F.terms sequence)) (eliminant.toPolynomial F)
  · obtain ⟨inverse, hinverse, hI, hone⟩ :=
      numeratorInverse?_of_isCoprime hP hE hne hbsize.ge hbterms hunit
    obtain ⟨quotient, hq, hqfield, hqvalue⟩ :=
      numeratorQuotient_spec hP hE hne hasize.ge haterms hI
    refine ⟨decide (quotient = expected), ?_, ?_⟩
    · rw [hinverse, ok_bind]
      dsimp only
      rw [hq]
      rfl
    rw [seriesNumerator_add, seriesNumerator_smul] at hone hqvalue
    have hself : expected.toPolynomial F % eliminant.toPolynomial F = expected.toPolynomial F :=
      (mod_eq_self_iff hne).mpr ((Poly.length_lt_length_iff hA hE hne).mp hlen)
    rw [decide_eq_true_eq, ← Poly.toPolynomial_inj hqfield hA, hqvalue, and_iff_left hunit,
      ← dvd_shifted_iff hquotient hone, ← mod_eq_mod_iff_dvd_sub, hself]
  · refine ⟨false, ?_, iff_of_false Bool.false_ne_true fun h => hunit h.2⟩
    rw [numeratorInverse?_of_not_isCoprime hP hE hne hbsize.ge hbterms hunit]
    rfl

/-- A coordinate that is the quotient of its numerators passes the check with the shift `lambda` if
and only if its square is the quotient for the stream of squares and its sum with `lambda` is prime
to the eliminant.  So a wrong coordinate fails with every shift.  Every source draws a shift between
`1` and `p - 1`, and each of these is drawn from some source. -/
theorem verifyQuotient_accepts_iff :
    ∃ s c q : Poly, numerator F sequence minimal = .ok s ∧ numerator F stream minimal = .ok c ∧
      numerator F square minimal = .ok q ∧
      (IsCoprime (s.toPolynomial F) (eliminant.toPolynomial F) →
        expected.length < eliminant.length →
        eliminant.toPolynomial F ∣
          expected.toPolynomial F * s.toPolynomial F - c.toPolynomial F →
        ∀ source, ∃ scalar rest passed, source.nonzeroResidue F = (scalar, rest) ∧
          scalar ≠ 0 ∧ F.Reduced scalar ∧
          verifyQuotient minimal eliminant sequence stream square expected source =
            .ok (passed, rest) ∧
          (passed = true ↔ eliminant.toPolynomial F ∣
              q.toPolynomial F - expected.toPolynomial F * c.toPolynomial F ∧
            IsCoprime (expected.toPolynomial F + C (F.value scalar))
              (eliminant.toPolynomial F))) ∧
      ∀ scalar, scalar ≠ 0 → F.Reduced scalar →
        ∃ source : WordSource, (source.nonzeroResidue F).1 = scalar := by
  obtain ⟨s, hs, -, hsvalue⟩ := numerator_spec hP hsequence (fun _ _ => rfl)
  obtain ⟨c, hc, -, hcvalue⟩ := numerator_spec hP hstream (fun _ _ => rfl)
  obtain ⟨q, hq, -, hqvalue⟩ := numerator_spec hP hsquare (fun _ _ => rfl)
  refine ⟨s, c, q, hs, hc, hq, ?_, ?_⟩
  · intro hco hlen hquotient source
    obtain ⟨hscalar, hreduced⟩ := WordSource.nonzeroResidue_spec F source
    rw [hsvalue] at hco
    rw [hsvalue, hcvalue] at hquotient
    obtain ⟨passed, hpassed, hiff⟩ := shiftAgrees_spec hP hE hA hne hsequence hstream hsquare
      (source.nonzeroResidue F).1 hco hlen hquotient
    refine ⟨_, _, passed, rfl, hscalar, hreduced, ?_, ?_⟩
    · rw [verifyQuotient, hE]
      dsimp only
      rw [hpassed]
      rfl
    · rwa [hqvalue, hcvalue]
  · intro scalar hscalar hreduced
    obtain ⟨source, rest, h⟩ := WordSource.exists_nonzeroResidue_eq F hscalar hreduced
    exact ⟨source, by rw [h]⟩

end Check

/-- Of three points two have the power `2` in common, with the values `1` and `3`: no shift lets
their mean pass. -/
theorem verifyQuotient_accepts_iff_colliding :
    ∃ (F : PrimeField) (P a : Poly), F.modulus = 7 ∧ P = .ofCoeffs F #[3, 0, 1] ∧
      a = .ofCoeffs F #[3, 3] ∧ ∀ source, ∃ rest,
        verifyQuotient P P #[3, 2] #[1, 0] #[5, 2] a source = .ok (false, rest) := by
  let F : PrimeField := ⟨7, by decide +kernel, by decide⟩
  let P := Poly.ofCoeffs F #[3, 0, 1]
  let a := Poly.ofCoeffs F #[3, 3]
  refine ⟨F, P, a, rfl, rfl, rfl, ?_⟩
  intro source
  have hP : P.toPolynomial F ≠ 0 := (Poly.isZero_eq_false_iff rfl).mp (by decide +kernel)
  have hs : numerator F #[3, 2] P = .ok (.ofCoeffs F #[2, 3]) := by decide +kernel
  have hc : numerator F #[1, 0] P = .ok (.ofCoeffs F #[0, 1]) := by decide +kernel
  have hq : numerator F #[5, 2] P = .ok (.ofCoeffs F #[2, 5]) := by decide +kernel
  obtain ⟨s, c, q, hs', hc', hq', h, -⟩ := @verifyQuotient_accepts_iff F P P a #[3, 2] #[1, 0]
    #[5, 2] rfl rfl rfl hP (by decide +kernel) (by decide +kernel) (by decide +kernel)
  obtain rfl := Except.ok.inj (hs.symm.trans hs')
  obtain rfl := Except.ok.inj (hc.symm.trans hc')
  obtain rfl := Except.ok.inj (hq.symm.trans hq')
  have hco : IsCoprime ((Poly.ofCoeffs F #[2, 3]).toPolynomial F) (P.toPolynomial F) :=
    (Poly.gcd_mod_eq_one_iff (Poly.field_ofCoeffs F _) rfl hP).mp (by decide +kernel)
  have hquotient : P.toPolynomial F ∣ a.toPolynomial F * (Poly.ofCoeffs F #[2, 3]).toPolynomial F -
      (Poly.ofCoeffs F #[0, 1]).toPolynomial F := by
    rw [← Poly.toPolynomial_mul (F := F), ← Poly.toPolynomial_sub (F := F),
      ← Poly.isZero_mod_iff (F := F)]
    · decide +kernel
    all_goals rfl
  have hsquare : ¬P.toPolynomial F ∣ (Poly.ofCoeffs F #[2, 5]).toPolynomial F -
      a.toPolynomial F * (Poly.ofCoeffs F #[0, 1]).toPolynomial F := by
    rw [← Poly.toPolynomial_mul (F := F), ← Poly.toPolynomial_sub (F := F),
      ← Poly.isZero_mod_iff (F := F)]
    · decide +kernel
    all_goals rfl
  obtain ⟨_, rest, passed, -, -, -, hrun, hiff⟩ := h hco (by decide +kernel) hquotient source
  have hrejected : passed = false := Bool.eq_false_iff.mpr fun h => hsquare (hiff.mp h).1
  rw [hrejected] at hrun
  exact ⟨rest, hrun⟩

/-- The same values are accepted where the points are apart. -/
example :
    let F : PrimeField := ⟨7, by decide +kernel, by decide⟩
    let P := Poly.ofCoeffs F #[2, 4, 1]
    verifyQuotient P P #[2, 3] #[1, 6] #[6, 3] (.ofCoeffs F #[1, 2]) (.listed []) =
      .ok (true, .listed []) := by
  decide +kernel

end ZeroDim
