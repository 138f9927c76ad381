import Mathlib
import ZeroDim.Proofs.Hankel.Regular
import ZeroDim.Proofs.Solver.Totality

/-! # Proportional sequences

A factor other than zero in all streams cancels wherever a coordinate is computed.  Numerators take
the factor along and their inverses take it back; a Hankel matrix stays regular or singular, with or
without a pivot, and the solution of a system is the polynomial that takes the power sums to the
stream, whichever level of windows it was found at.  The check of a coordinate compares two such
quotients, so it cannot see the factor either. -/

set_option autoImplicit false

namespace ZeroDim

open Polynomial PrimeField Matrix

/-! ## Hankel matrices -/

section Matrices
variable {K : Type*} [Field K] {d : ℕ} {c : K} {w : ℕ → K}

theorem hankelMatrix_smul : hankelMatrix d (c • w) = c • hankelMatrix d w := rfl

variable (hc : c ≠ 0)
include hc

theorem det_hankelMatrix_smul_eq_zero :
    (hankelMatrix d (c • w)).det = 0 ↔ (hankelMatrix d w).det = 0 := by
  rw [hankelMatrix_smul, det_smul, mul_eq_zero, or_iff_right (pow_ne_zero _ hc)]

theorem hankelPivot_smul_eq_zero (hdet : (hankelMatrix d w).det ≠ 0) :
    hankelPivot d (c • w) = 0 ↔ hankelPivot d w = 0 := by
  have hinv : (c • hankelMatrix d w)⁻¹ = c⁻¹ • (hankelMatrix d w)⁻¹ :=
    inv_smul' _ (Units.mk0 c hc) (isUnit_iff_ne_zero.mpr hdet)
  unfold hankelPivot
  split
  · rw [hankelMatrix_smul, hinv, Matrix.smul_apply, smul_eq_zero, or_iff_right (inv_ne_zero hc)]
  · rfl

end Matrices

variable {F : PrimeField}

theorem Level.view_smul (level : Level) (c : F.Element) (s : ℕ → F.Element) :
    level.view (c • s) = c • level.view s := by
  funext i
  cases level <;> simp [Level.view, mul_sub]

theorem Level.unusable_smul {d : ℕ} {c : F.Element} (hc : c ≠ 0) (s : ℕ → F.Element)
    (levels : List Level) : Unusable d (c • s) levels ↔ Unusable d s levels := by
  induction levels with
  | nil => rfl
  | cons level levels ih =>
    rw [Unusable, Unusable, view_smul, det_hankelMatrix_smul_eq_zero hc, Ne,
      det_hankelMatrix_smul_eq_zero hc, ih]
    refine or_congr Iff.rfl (and_congr_right fun hdet => ?_)
    rw [hankelPivot_smul_eq_zero hc hdet]

/-! ## Streams -/

/-- Two streams of the same length, the second one `c` times the first. -/
structure Proportional (F : PrimeField) (c : F.Element) (length : ℕ) (a b : Array UInt32) :
    Prop where
  size_left : a.size = length
  size_right : b.size = length
  terms_eq : ∀ i < length, F.terms b i = c * F.terms a i

section Numerators
variable {minimal eliminant : Poly} (hP : minimal.field = F) (hE : eliminant.field = F)
  (hne : eliminant.toPolynomial F ≠ 0) {c : F.Element} (hc : c ≠ 0) {a b : Array UInt32}
  (h : Proportional F c minimal.natDegree a b)
include hP hE hne hc h

theorem Proportional.numeratorInverse? :
    (numeratorInverse? minimal eliminant a = .ok none ∧
      numeratorInverse? minimal eliminant b = .ok none) ∨
    ∃ I J, numeratorInverse? minimal eliminant a = .ok (some I) ∧
      numeratorInverse? minimal eliminant b = .ok (some J) ∧ I.field = F ∧ J.field = F ∧
      eliminant.toPolynomial F ∣ C c * J.toPolynomial F - I.toPolynomial F := by
  have hterms : ∀ i < minimal.natDegree, F.terms b i = (c • F.terms a) i := h.terms_eq
  have hunit : IsUnit (C c : F.Element[X]) := isUnit_C.mpr (isUnit_iff_ne_zero.mpr hc)
  have hiff : IsCoprime (seriesNumerator (minimal.toPolynomial F) (c • F.terms a))
      (eliminant.toPolynomial F) ↔
      IsCoprime (seriesNumerator (minimal.toPolynomial F) (F.terms a))
        (eliminant.toPolynomial F) := by
    rw [seriesNumerator_smul, isCoprime_mul_unit_left_left hunit]
  by_cases hco : IsCoprime (seriesNumerator (minimal.toPolynomial F) (F.terms a))
      (eliminant.toPolynomial F)
  · obtain ⟨I, hI, hIfield, hIdvd⟩ :=
      numeratorInverse?_of_isCoprime hP hE hne h.size_left.ge (fun _ _ => rfl) hco
    obtain ⟨J, hJ, hJfield, hJdvd⟩ :=
      numeratorInverse?_of_isCoprime hP hE hne h.size_right.ge hterms (hiff.mpr hco)
    refine .inr ⟨I, J, hI, hJ, hIfield, hJfield, ?_⟩
    apply hco.symm.dvd_of_dvd_mul_left
    rw [seriesNumerator_smul] at hJdvd
    have hsub := dvd_sub hJdvd hIdvd
    rwa [show C c * seriesNumerator (minimal.toPolynomial F) (F.terms a) * J.toPolynomial F - 1 -
      (seriesNumerator (minimal.toPolynomial F) (F.terms a) * I.toPolynomial F - 1) =
      seriesNumerator (minimal.toPolynomial F) (F.terms a) *
        (C c * J.toPolynomial F - I.toPolynomial F) by ring] at hsub
  · exact .inl ⟨numeratorInverse?_of_not_isCoprime hP hE hne h.size_left.ge (fun _ _ => rfl) hco,
      numeratorInverse?_of_not_isCoprime hP hE hne h.size_right.ge hterms
        fun hco' => hco (hiff.mp hco')⟩

omit hc in
/-- The factors of a numerator and of an inverse cancel. -/
theorem Proportional.numeratorQuotient {I J : Poly} (hI : I.field = F) (hJ : J.field = F)
    (hdvd : eliminant.toPolynomial F ∣ C c * J.toPolynomial F - I.toPolynomial F) :
    numeratorQuotient minimal eliminant b J = numeratorQuotient minimal eliminant a I := by
  have hterms : ∀ i < minimal.natDegree, F.terms b i = (c • F.terms a) i := h.terms_eq
  obtain ⟨q, hq, hqfield, hqvalue⟩ :=
    numeratorQuotient_spec hP hE hne h.size_left.ge (fun _ _ => rfl) hI
  obtain ⟨q', hq', hqfield', hqvalue'⟩ :=
    numeratorQuotient_spec hP hE hne h.size_right.ge hterms hJ
  rw [hq, hq', Except.ok.injEq, ← Poly.toPolynomial_inj hqfield' hqfield, hqvalue, hqvalue',
    seriesNumerator_smul]
  apply mod_eq_of_dvd_sub
  rw [show C c * seriesNumerator (minimal.toPolynomial F) (F.terms a) * J.toPolynomial F -
    seriesNumerator (minimal.toPolynomial F) (F.terms a) * I.toPolynomial F =
    seriesNumerator (minimal.toPolynomial F) (F.terms a) *
      (C c * J.toPolynomial F - I.toPolynomial F) by ring]
  exact hdvd.mul_left _

end Numerators

section Check
variable {minimal eliminant : Poly} (hE : eliminant.field = F) {c : F.Element}
  {sequence sequence' stream stream' square square' : Array UInt32}
  (hsequence : Proportional F c minimal.natDegree sequence sequence')
  (hstream : Proportional F c minimal.natDegree stream stream')
include hE hsequence hstream

theorem Proportional.combinedStream (scalar : UInt32) :
    ∃ a b, combinedStream minimal eliminant scalar stream sequence = .ok a ∧
      combinedStream minimal eliminant scalar stream' sequence' = .ok b ∧
      Proportional F c minimal.natDegree a b := by
  obtain ⟨a, ha, hasize, haterms⟩ :=
    combinedStream_spec hE minimal scalar hstream.size_left.ge hsequence.size_left.ge
  obtain ⟨b, hb, hbsize, hbterms⟩ :=
    combinedStream_spec hE minimal scalar hstream.size_right.ge hsequence.size_right.ge
  refine ⟨a, b, ha, hb, hasize, hbsize, ?_⟩
  intro i hi
  rw [haterms i hi, hbterms i hi, hstream.terms_eq i hi, hsequence.terms_eq i hi]
  ring

variable (hP : minimal.field = F) (hne : eliminant.toPolynomial F ≠ 0) (hc : c ≠ 0)
  (hsquare : Proportional F c minimal.natDegree square square')
include hP hne hc hsquare

theorem Proportional.verifyQuotient (expected : Poly) (source : WordSource) :
    verifyQuotient minimal eliminant sequence' stream' square' expected source =
      verifyQuotient minimal eliminant sequence stream square expected source := by
  rw [ZeroDim.verifyQuotient, ZeroDim.verifyQuotient]
  generalize source.nonzeroResidue eliminant.field = drawn
  obtain ⟨scalar, rest⟩ := drawn
  obtain ⟨a, b, ha, hb, hab⟩ := hsequence.combinedStream hE hstream scalar
  obtain ⟨a', b', ha', hb', hab'⟩ := hstream.combinedStream hE hsquare scalar
  dsimp only
  rw [shiftAgrees, shiftAgrees, ha, hb, ha', hb']
  simp only [ok_bind]
  rcases hab.numeratorInverse? hP hE hne hc with ⟨hI, hJ⟩ |
    ⟨I, J, hI, hJ, hIfield, hJfield, hdvd⟩
  · rw [hI, hJ]
    rfl
  · rw [hI, hJ]
    simp only [ok_bind]
    rw [hab'.numeratorQuotient hP hE hne hIfield hJfield hdvd]

end Check

/-! ## Records -/

section Records
variable {n rows rows' : ℕ} {A : Matrix (Fin n) (Fin n) F.Element} {v : Fin n → F.Element}
  {c : F.Element} {tracked tracked' : List TrackedVariable} {record record' : KrylovRecord}
  (hrecord : record.Filled F A v tracked rows (2 * n))
  (hrecord' : record'.Filled F A (c • v) tracked' rows' (2 * n))
include hrecord hrecord'

theorem KrylovRecord.Filled.proportional_powerSums {length : ℕ} (hlen : length ≤ 2 * n) :
    ∃ a b, record.terms.column 0 length = .ok a ∧ record'.terms.column 0 length = .ok b ∧
      Proportional F c length a b := by
  obtain ⟨a, ha, hasize, -, haterms⟩ := hrecord.powerSums_spec hlen
  obtain ⟨b, hb, hbsize, -, hbterms⟩ := hrecord'.powerSums_spec hlen
  refine ⟨a, b, ha, hb, hasize, hbsize, ?_⟩
  intro i hi
  rw [haterms i hi, hbterms i hi, krylov_smul, Pi.smul_apply, smul_eq_mul]

variable (hfits : KrylovRecord.Fits tracked n) (hfits' : KrylovRecord.Fits tracked' n)
include hfits hfits'

theorem KrylovRecord.Filled.proportional_streams {x x' : TrackedVariable} (hx : x ∈ tracked)
    (hx' : x' ∈ tracked') (hbasis : x'.basisIndex = x.basisIndex)
    {length : ℕ} (hlen : length ≤ 2 * n) (hlen' : length ≤ n + 1) :
    ∃ a b, record.terms.column x.column length = .ok a ∧
      record'.terms.column x'.column length = .ok b ∧ Proportional F c length a b := by
  obtain ⟨a, ha, hasize, -, haterms⟩ := hrecord.stream_spec hfits hx hlen hlen'
  obtain ⟨b, hb, hbsize, -, hbterms⟩ := hrecord'.stream_spec hfits' hx' hlen hlen'
  refine ⟨a, b, ha, hb, hasize, hbsize, ?_⟩
  intro i hi
  rw [haterms i hi, hbterms i hi, hbasis, krylov_smul, Pi.smul_apply, smul_eq_mul]

end Records

theorem KrylovRecord.squareTerm_smul {n : ℕ} (A : Matrix (Fin n) (Fin n) F.Element)
    (v : Fin n → F.Element) (c : F.Element) (x : TrackedVariable) (i : ℕ) :
    squareTerm A (c • v) x i = c * squareTerm A v x i := by
  cases h : x.squareIndex <;> simp [squareTerm, h, krylov_smul]

theorem KrylovRecord.Filled.square_spec {n : ℕ} {A : Matrix (Fin n) (Fin n) F.Element}
    {v : Fin n → F.Element} {tracked : List TrackedVariable} {record : KrylovRecord}
    (hrecord : record.Filled F A v tracked n (2 * n)) (hfits : KrylovRecord.Fits tracked n)
    {x : TrackedVariable} (hx : x ∈ tracked) {length : ℕ} (hlen : length ≤ n) :
    ∃ cs, record.squares.column x.column length = .ok cs ∧ cs.size = length ∧
      ∀ i < length, F.terms cs i = KrylovRecord.squareTerm A v x i := by
  obtain ⟨cs, hok, hsize, -, hentry⟩ :=
    hrecord.full_squares.column_spec (hfits.column_lt x hx) hlen
  refine ⟨cs, hok, hsize, ?_⟩
  intro i hi
  rw [PrimeField.terms, hentry i hi, hrecord.squares i (by omega) x hx, if_pos (by omega)]

theorem KrylovRecord.Filled.proportional_squares {n : ℕ} {A : Matrix (Fin n) (Fin n) F.Element}
    {v : Fin n → F.Element} {c : F.Element} {tracked : List TrackedVariable}
    {record record' : KrylovRecord} (hrecord : record.Filled F A v tracked n (2 * n))
    (hrecord' : record'.Filled F A (c • v) tracked n (2 * n))
    (hfits : KrylovRecord.Fits tracked n) {x : TrackedVariable} (hx : x ∈ tracked) {length : ℕ}
    (hlen : length ≤ n) :
    ∃ a b, record.squares.column x.column length = .ok a ∧
      record'.squares.column x.column length = .ok b ∧ Proportional F c length a b := by
  obtain ⟨a, ha, hasize, haterms⟩ := hrecord.square_spec hfits hx hlen
  obtain ⟨b, hb, hbsize, hbterms⟩ := hrecord'.square_spec hfits hx hlen
  refine ⟨a, b, ha, hb, hasize, hbsize, ?_⟩
  intro i hi
  rw [haterms i hi, hbterms i hi, KrylovRecord.squareTerm_smul]

section Coordinates
variable {n rows rows' : ℕ} {A : Matrix (Fin n) (Fin n) F.Element} {v : Fin n → F.Element}
  {c : F.Element} {tracked : List TrackedVariable} {square : TrackedVariable → Option ℕ}
  {record record' : KrylovRecord}
  (hrecord : record.Filled F A v tracked rows (2 * n))
  (hrecord' : record'.Filled F A (c • v) (tracked.map (.withSquare square)) rows' (2 * n))
  (hfits : KrylovRecord.Fits tracked n)
  (hfits' : KrylovRecord.Fits (tracked.map (.withSquare square)) n)
  {minimal : Poly} (hP : minimal.field = F) (hdeg : minimal.natDegree ≤ n)
  {p : Parametrization} (hE : p.eliminant.field = F) (hne : p.eliminant.toPolynomial F ≠ 0)
include hrecord hrecord' hfits hfits' hP hdeg hE hne

theorem fillFromNumerators_proportional {I J : Poly} (hI : I.field = F) (hJ : J.field = F)
    (hdvd : p.eliminant.toPolynomial F ∣ C c * J.toPolynomial F - I.toPolynomial F) :
    fillFromNumerators record' minimal J (tracked.map (.withSquare square)) p =
      fillFromNumerators record minimal I tracked p := by
  rw [fillFromNumerators_eq, fillFromNumerators_eq]
  apply Parametrization.fillWith_map_congr
  · intro x _
    rfl
  · intro q hq x hx
    obtain ⟨a, b, ha, hb, hab⟩ := hrecord.proportional_streams hrecord' hfits hfits' hx
      (List.mem_map_of_mem hx) rfl (show minimal.natDegree ≤ 2 * n by omega) (by omega)
    rw [ha, hb, ok_bind, ok_bind, hq.eliminant_eq]
    exact hab.numeratorQuotient hP hE hne hI hJ hdvd

omit hrecord hrecord' hfits hfits' in
theorem scanCoordinates_proportional (hc : c ≠ 0)
    (hrecord : record.Filled F A v tracked n (2 * n))
    (hrecord' : record'.Filled F A (c • v) tracked n (2 * n))
    (hfits : KrylovRecord.Fits tracked n) (xs : List TrackedVariable)
    (hxs : ∀ x ∈ xs, x ∈ tracked) (source : WordSource) :
    scanCoordinates record' minimal p xs source = scanCoordinates record minimal p xs source := by
  induction xs generalizing source with
  | nil => rfl
  | cons x xs ih =>
    have hx := hxs x List.mem_cons_self
    have ih := ih fun y hy => hxs y (List.mem_cons_of_mem x hy)
    obtain ⟨a, b, ha, hb, hab⟩ :=
      hrecord.proportional_powerSums hrecord' (show minimal.natDegree ≤ 2 * n by omega)
    obtain ⟨a', b', ha', hb', hab'⟩ := hrecord.proportional_streams hrecord' hfits hfits hx hx rfl
      (show minimal.natDegree ≤ 2 * n by omega) (by omega)
    obtain ⟨a'', b'', ha'', hb'', hab''⟩ := hrecord.proportional_squares hrecord' hfits hx hdeg
    rw [scanCoordinates, scanCoordinates]
    split
    · exact ih source
    · dsimp only
      rw [ha, hb, ha', hb', ha'', hb'']
      simp only [ok_bind, ih, hab.verifyQuotient hE hab' hP hne hc hab'']

/-- Outside of shape position the coordinates are the same, and so is what is left of them when
the same squares are checked. -/
theorem fillFromQuotients_proportional (hc : c ≠ 0) {verify : Bool}
    (hverify : verify = true →
      tracked.map (.withSquare square) = tracked ∧ rows = n ∧ rows' = n)
    (source : WordSource) :
    fillFromQuotients record' minimal (tracked.map (.withSquare square)) verify p source =
      fillFromQuotients record minimal tracked verify p source := by
  rw [fillFromQuotients, fillFromQuotients]
  dsimp only
  split
  · rfl
  · obtain ⟨a, b, ha, hb, hab⟩ :=
      hrecord.proportional_powerSums hrecord' (show minimal.natDegree ≤ 2 * n by omega)
    rw [ha, hb, ok_bind, ok_bind]
    rcases hab.numeratorInverse? hP hE hne hc with ⟨hI, hJ⟩ |
      ⟨I, J, hI, hJ, hIfield, hJfield, hdvd⟩
    · rw [hI, hJ]
      rfl
    · rw [hI, hJ, ok_bind, ok_bind]
      dsimp only
      rw [fillFromNumerators_proportional hrecord hrecord' hfits hfits' hP hdeg hE hne hIfield
        hJfield hdvd]
      cases hfill : fillFromNumerators record minimal I tracked p with
      | error fault => rfl
      | ok q =>
        rw [ok_bind, ok_bind]
        split
        · rename_i hchecked
          obtain ⟨hsame, rfl, rfl⟩ := hverify hchecked
          rw [fillFromNumerators_eq] at hfill
          have hframe := (Parametrization.fillWith_frame hfill).1
          rw [hsame] at hrecord' ⊢
          rw [scanCoordinates_proportional hP hdeg (hframe.eliminant_eq ▸ hE)
            (hframe.eliminant_eq ▸ hne) hc hrecord hrecord' hfits tracked (fun _ h => h)]
        · rfl

end Coordinates

/-! ## Shape position -/

section Shape
variable {n rows rows' : ℕ} {A : Matrix (Fin n) (Fin n) F.Element} {v : Fin n → F.Element}
  {c : F.Element} (hc : c ≠ 0) {tracked : List TrackedVariable}
  {square : TrackedVariable → Option ℕ} {record record' : KrylovRecord}
  (hrecord : record.Filled F A v tracked rows (2 * n))
  (hrecord' : record'.Filled F A (c • v) (tracked.map (.withSquare square)) rows' (2 * n))
  (hpos : 0 < n) {sequence sequence' : Array UInt32}
  (hsequence : record.sequence = .ok sequence) (hsequence' : record'.sequence = .ok sequence')
  {key key' : KeyEquation} (hkey : key.field = F) (hkey' : key'.field = F)
include hc hrecord hrecord' hpos hsequence hsequence' hkey hkey'

theorem invertHankel_eq_none_iff_of_proportional :
    (∃ k, key'.invertHankel sequence' n = .ok (none, k)) ↔
      ∃ k, key.invertHankel sequence n = .ok (none, k) := by
  obtain ⟨hsize, hred, hterms⟩ := hrecord.sequence_spec hsequence
  obtain ⟨hsize', hred', hterms'⟩ := hrecord'.sequence_spec hsequence'
  rw [KeyEquation.invertHankel, KeyEquation.invertHankel,
    KeyEquation.invertAlong_eq_none_iff hred hpos hsize.ge hterms _ key hkey,
    KeyEquation.invertAlong_eq_none_iff hred' hpos hsize'.ge hterms' _ key' hkey', krylov_smul,
    Level.unusable_smul hc]

theorem fillFromHankel_proportional {P : F.Element[X]}
    (hminimal : IsMinimalRecurrence P (krylov A (unitVector F.Element n 0) v))
    (hdegree : P.natDegree = n) (hfits : KrylovRecord.Fits tracked n)
    (hfits' : KrylovRecord.Fits (tracked.map (.withSquare square)) n)
    {inverse inverse' : HankelInverse} {k k' : KeyEquation}
    (hinvert : key.invertHankel sequence n = .ok (some inverse, k))
    (hinvert' : key'.invertHankel sequence' n = .ok (some inverse', k')) (p : Parametrization) :
    fillFromHankel record' inverse' (tracked.map (.withSquare square)) p =
      fillFromHankel record inverse tracked p := by
  obtain ⟨hsize, hred, hterms⟩ := hrecord.sequence_spec hsequence
  obtain ⟨hsize', hred', hterms'⟩ := hrecord'.sequence_spec hsequence'
  obtain ⟨hdim, hholds⟩ := KeyEquation.invertHankel_eq_some hred hpos hsize.ge hkey hinvert
  obtain ⟨hdim', hholds'⟩ := KeyEquation.invertHankel_eq_some hred' hpos hsize'.ge hkey' hinvert'
  rw [fillFromHankel_eq, fillFromHankel_eq]
  apply Parametrization.fillWith_map_congr
  · intro x _
    rfl
  · intro q _ x hx
    obtain ⟨a, ha, hasize, hared, haterms⟩ :=
      hrecord.stream_spec hfits hx (show n + 1 ≤ 2 * n by omega) le_rfl
    obtain ⟨b, hb, hbsize, hbred, hbterms⟩ := hrecord'.stream_spec hfits' (List.mem_map_of_mem hx)
      (show n + 1 ≤ 2 * n by omega) le_rfl
    have hrecurrence : ∀ u w, act P (krylov A u w) = 0 := by
      intro u w
      rw [eq_charpoly_of_natDegree hminimal hdegree]
      exact act_charpoly_krylov
    obtain ⟨y, hy, hyfield, hydeg, hyact⟩ := (hholds _ hterms).solveStream_spec hminimal.monic
      (hdegree.trans hdim.symm) (hrecurrence _ _) (hrecurrence _ _) hared (by omega)
      fun i hi => haterms i (by omega)
    obtain ⟨z, hz, hzfield, hzdeg, hzact⟩ := (hholds' _ hterms').solveStream_spec hminimal.monic
      (hdegree.trans hdim'.symm) (hrecurrence _ _) (hrecurrence _ _) hbred (by omega)
      fun i hi => hbterms i (by omega)
    have hsame : z = y := by
      rw [← Poly.toPolynomial_inj hzfield hyfield]
      apply sub_eq_zero.mp
      apply hminimal.eq_zero_of_degree_lt
      · rw [krylov_smul, krylov_smul, act_smul_right] at hzact
        rw [act_sub, hyact, smul_right_injective _ hc hzact]
        exact sub_self _
      · rw [degree_eq_natDegree hminimal.monic.ne_zero, hdegree]
        rw [hdim] at hydeg
        rw [hdim'] at hzdeg
        exact lt_of_le_of_lt (degree_sub_le _ _) (max_lt hzdeg hydeg)
    rw [hrecord.dimension_eq, hrecord'.dimension_eq, ha, hb, ok_bind, ok_bind, hy, hz, hsame]

end Shape

end ZeroDim
