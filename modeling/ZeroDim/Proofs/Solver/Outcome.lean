import Mathlib
import ZeroDim.Proofs.Elimination
import ZeroDim.Proofs.Numerator
import ZeroDim.Proofs.Solver.Stages

/-! # What an outcome says about the matrix

A run on an operator that acts as `A` finds the minimal recurrence of the sequence of `A` between
the first unit vector and the probe.  In shape position a coordinate takes this sequence to that of
its variable; otherwise it is the remainder of every polynomial that does. -/

set_option autoImplicit false

namespace ZeroDim

open Polynomial PrimeField Matrix

variable {F : PrimeField} {n : ℕ} {A : Matrix (Fin n) (Fin n) F.Element} {v : Fin n → F.Element}
  {tracked : List TrackedVariable} {rows : ℕ} {record : KrylovRecord}

/-! ## Streams -/

section Record
variable (hrecord : record.Filled F A v tracked rows (2 * n))
include hrecord

theorem KrylovRecord.Filled.powerSums_spec {length : ℕ} (hlen : length ≤ 2 * n) :
    ∃ cs, record.terms.column 0 length = .ok cs ∧ cs.size = length ∧ F.AllReduced cs ∧
      ∀ i < length, F.terms cs i = krylov A (unitVector F.Element n 0) v i := by
  have hcolumn : 0 < 1 + tracked.length := by omega
  obtain ⟨cs, hok, hsize, hred, hentry⟩ := hrecord.full_terms.column_spec hcolumn hlen
  refine ⟨cs, hok, hsize, hred, ?_⟩
  intro i hi
  rw [PrimeField.terms, hentry i hi, hrecord.powerSums i (by omega), if_pos (by omega)]

theorem KrylovRecord.Filled.sequence_spec {sequence : Array UInt32}
    (hsequence : record.sequence = .ok sequence) :
    sequence.size = 2 * n ∧ F.AllReduced sequence ∧
      ∀ i < 2 * n, F.terms sequence i = krylov A (unitVector F.Element n 0) v i := by
  obtain ⟨cs, hcs, hsize, hred, hterms⟩ := hrecord.powerSums_spec (le_refl (2 * n))
  rw [KrylovRecord.sequence, hrecord.full_terms.rows_eq, hcs] at hsequence
  obtain rfl := Except.ok.inj hsequence
  exact ⟨hsize, hred, hterms⟩

theorem KrylovRecord.Filled.stream_spec (hfits : KrylovRecord.Fits tracked n)
    {x : TrackedVariable} (hx : x ∈ tracked) {length : ℕ} (hlen : length ≤ 2 * n)
    (hlen' : length ≤ n + 1) :
    ∃ cs, record.terms.column x.column length = .ok cs ∧ cs.size = length ∧ F.AllReduced cs ∧
      ∀ i < length, F.terms cs i = krylov A (unitVector F.Element n x.basisIndex) v i := by
  obtain ⟨cs, hok, hsize, hred, hentry⟩ :=
    hrecord.full_terms.column_spec (hfits.column_lt x hx) hlen
  refine ⟨cs, hok, hsize, hred, ?_⟩
  intro i hi
  rw [PrimeField.terms, hentry i hi, hrecord.streams i (by omega) x hx, if_pos (by omega)]

end Record

theorem isMinimalRecurrence_powerSums {u : Fin n → F.Element} {sequence : Array UInt32}
    (hsize : sequence.size = 2 * n)
    (hterms : ∀ i < 2 * n, F.terms sequence i = krylov A u v i) :
    IsMinimalRecurrence
      (((KeyEquation.empty F).addPoints sequence).solve.minimalPolynomial.toPolynomial F)
      (krylov A u v) := by
  have hfield : ((KeyEquation.empty F).addPoints sequence).field = F := rfl
  have hpoints := (KeyEquation.size_points_addPoints F sequence).trans hsize
  have hdeg : A.charpoly.natDegree ≤ n := by rw [A.charpoly_natDegree_eq_dim, Fintype.card_fin]
  apply KeyEquation.isMinimalRecurrence_solve _ hfield hpoints _ A.charpoly_monic hdeg
    act_charpoly_krylov
  intro i hi
  rw [KeyEquation.terms_points_addPoints, hterms i hi]

theorem exists_numeratorInverse {P : F.Element[X]} {minimal eliminant : Poly}
    (hrecord : record.Filled F A v tracked rows (2 * n))
    (hP : IsMinimalRecurrence P (krylov A (unitVector F.Element n 0) v))
    (hfield : minimal.field = F) (hminimal : minimal.toPolynomial F = P)
    (hE : eliminant.field = F)
    (helim : eliminant.toPolynomial F = UniqueFactorizationMonoid.radical P) :
    minimal.natDegree ≤ n ∧ ∃ sequence inverse,
      record.terms.column 0 minimal.natDegree = .ok sequence ∧
      numeratorInverse? minimal eliminant sequence = .ok (some inverse) ∧ inverse.field = F ∧
      UniqueFactorizationMonoid.radical P ∣
        seriesNumerator P (krylov A (unitVector F.Element n 0) v) * inverse.toPolynomial F - 1 := by
  have hEne : eliminant.toPolynomial F ≠ 0 := by
    rw [helim]
    exact UniqueFactorizationMonoid.radical_ne_zero
  have hdeg : minimal.natDegree ≤ n := by
    have hle := natDegree_le_of_dvd (hP.dvd _ act_charpoly_krylov) A.charpoly_monic.ne_zero
    rw [A.charpoly_natDegree_eq_dim, Fintype.card_fin, ← hminimal,
      Poly.natDegree_toPolynomial hfield] at hle
    exact hle
  refine ⟨hdeg, ?_⟩
  obtain ⟨cs, hcs, hcsize, -, hcterms⟩ :=
    hrecord.powerSums_spec (show minimal.natDegree ≤ 2 * n by omega)
  have hcoprime : IsCoprime
      (seriesNumerator (minimal.toPolynomial F) (krylov A (unitVector F.Element n 0) v))
      (eliminant.toPolynomial F) := by
    rw [hminimal, helim]
    exact hP.isCoprime_seriesNumerator.of_isCoprime_of_dvd_right
      (UniqueFactorizationMonoid.radical_dvd_self (a := P))
  obtain ⟨I, hI, hIfield, hIdvd⟩ :=
    numeratorInverse?_of_isCoprime hfield hE hEne hcsize.ge hcterms hcoprime
  rw [hminimal, helim] at hIdvd
  exact ⟨cs, I, hcs, hI, hIfield, hIdvd⟩

/-! ## Coordinates of the tracked variables -/

section Coordinates
variable (hrecord : record.Filled F A v tracked rows (2 * n))
  (hfits : KrylovRecord.Fits tracked n)
  (hnodup : (tracked.map TrackedVariable.index).Nodup) {P : F.Element[X]}
  (hP : IsMinimalRecurrence P (krylov A (unitVector F.Element n 0) v))
  {p p' : Parametrization} (hp : p.Over F)
include hrecord hfits hnodup hP hp

/-- From a Hankel inverse, the coordinate of a variable takes the power sums to its stream. -/
theorem fillFromHankel_spec (hpos : 0 < n) (hdeg : P.natDegree = n)
    (helim : p.eliminant.toPolynomial F = P)
    {sequence : Array UInt32} (hsize : sequence.size = 2 * n) (hred : F.AllReduced sequence)
    (hterms : ∀ i < 2 * n, F.terms sequence i = krylov A (unitVector F.Element n 0) v i)
    {key key' : KeyEquation} (hkey : key.field = F) {inverse : HankelInverse}
    (hinvert : key.invertHankel sequence n = .ok (some inverse, key'))
    (h : fillFromHankel record inverse tracked p = .ok p') :
    p'.SameFrame p ∧ p'.Over F ∧
      ∀ x ∈ tracked, (p'.coordinatePolynomial F x.index).degree < P.degree ∧
        act (p'.coordinatePolynomial F x.index) (krylov A (unitVector F.Element n 0) v) =
          krylov A (unitVector F.Element n x.basisIndex) v := by
  have hPne := hP.monic.ne_zero
  obtain ⟨hdim, hholds⟩ := KeyEquation.invertHankel_eq_some hred hpos hsize.ge hkey hinvert
  have hdim' : P.natDegree = inverse.dimension := hdeg.trans hdim.symm
  have hsolve : ∀ x ∈ tracked, ∀ (stream : Array UInt32) (b : Poly),
      record.terms.column x.column (record.dimension + 1) = .ok stream →
      inverse.solveStream stream = .ok b →
      b.field = F ∧ (b.toPolynomial F).degree < P.degree ∧
        act (b.toPolynomial F) (krylov A (unitVector F.Element n 0) v) =
          krylov A (unitVector F.Element n x.basisIndex) v := by
    intro x hx stream b hstream hb
    have hlength : n + 1 ≤ 2 * n := by omega
    obtain ⟨cs, hcs, hcsize, hcred, hcterms⟩ := hrecord.stream_spec hfits hx hlength le_rfl
    rw [hrecord.dimension_eq, hcs] at hstream
    obtain rfl := Except.ok.inj hstream
    have hc : act P (krylov A (unitVector F.Element n x.basisIndex) v) = 0 := by
      rw [eq_charpoly_of_natDegree hP hdeg]
      exact act_charpoly_krylov
    obtain ⟨a, ha, hafield, hadeg, hact⟩ := (hholds _ hterms).solveStream_spec hP.monic hdim'
      hP.recurrence hc hcred (by omega) fun i hi => hcterms i (by omega)
    obtain rfl := Except.ok.inj (ha.symm.trans hb)
    refine ⟨hafield, ?_, hact⟩
    rw [degree_eq_natDegree hPne, hdim']
    exact hadeg
  rw [fillFromHankel_eq] at h
  apply Parametrization.fillWith_forall (R := fun x a => a.degree < P.degree ∧
    act a (krylov A (unitVector F.Element n 0) v) =
      krylov A (unitVector F.Element n x.basisIndex) v) h hnodup hp
  intro q a x hx hq hqover ha
  obtain ⟨stream, hstream, ha⟩ := bind_eq_ok.mp ha
  obtain ⟨b, hb, ha⟩ := bind_eq_ok.mp ha
  obtain ⟨-, rfl⟩ := Poly.mod?_eq_ok_iff.mp ha
  obtain ⟨hfield, hbdeg, hact⟩ := hsolve x hx stream b hstream hb
  -- the solution is shorter than the eliminant already
  rw [Poly.toPolynomial_mod hfield hqover.field_eliminant, hq.eliminant_eq, helim,
    (mod_eq_self_iff hPne).mpr hbdeg]
  exact ⟨(Poly.field_mod _ _).trans hfield, hbdeg, hact⟩

/-- From the numerators, the coordinate of a variable is the remainder of every polynomial that
takes the power sums to its stream. -/
theorem fillFromNumerators_spec {minimal : Poly} (hfield : minimal.field = F)
    (hminimal : minimal.toPolynomial F = P)
    (helim : p.eliminant.toPolynomial F = UniqueFactorizationMonoid.radical P)
    {sequence : Array UInt32} {inverse : Poly}
    (hsequence : record.terms.column 0 minimal.natDegree = .ok sequence)
    (hinverse : numeratorInverse? minimal p.eliminant sequence = .ok (some inverse))
    (h : fillFromNumerators record minimal inverse tracked p = .ok p') :
    p'.SameFrame p ∧ p'.Over F ∧
      ∀ x ∈ tracked, ∀ b : F.Element[X],
        act b (krylov A (unitVector F.Element n 0) v) =
          krylov A (unitVector F.Element n x.basisIndex) v →
        p'.coordinatePolynomial F x.index = b % UniqueFactorizationMonoid.radical P := by
  have hEfield := hp.field_eliminant
  have hEne : p.eliminant.toPolynomial F ≠ 0 := by
    rw [helim]
    exact UniqueFactorizationMonoid.radical_ne_zero
  obtain ⟨hdeg, cs, I, hcs, hI, hIfield, hIdvd⟩ :=
    exists_numeratorInverse hrecord hP hfield hminimal hEfield helim
  obtain rfl := Except.ok.inj (hcs.symm.trans hsequence)
  obtain rfl := Option.some.inj (Except.ok.inj (hI.symm.trans hinverse))
  rw [fillFromNumerators_eq] at h
  apply Parametrization.fillWith_forall (R := fun x a => ∀ b : F.Element[X],
    act b (krylov A (unitVector F.Element n 0) v) =
      krylov A (unitVector F.Element n x.basisIndex) v →
    a = b % UniqueFactorizationMonoid.radical P) h hnodup hp
  intro q a x hx hq _ ha
  obtain ⟨stream, hstream, ha⟩ := bind_eq_ok.mp ha
  obtain ⟨us, hus, husize, -, huterms⟩ :=
    hrecord.stream_spec hfits hx (show minimal.natDegree ≤ 2 * n by omega) (by omega)
  obtain rfl := Except.ok.inj (hus.symm.trans hstream)
  rw [hq.eliminant_eq] at ha
  obtain ⟨c, hc, hcfield, hcvalue⟩ :=
    numeratorQuotient_spec hfield hEfield hEne husize.ge huterms hIfield
  obtain rfl := Except.ok.inj (hc.symm.trans ha)
  refine ⟨hcfield, ?_⟩
  intro b hb
  rw [hminimal, helim] at hcvalue
  rw [hcvalue, ← hb, seriesNumerator_act_mul_mod hP.recurrence
    UniqueFactorizationMonoid.radical_dvd_self hIdvd]

end Coordinates

/-! ## Outcomes -/

/-- What the minimal recurrence `P` of the power sums says about an outcome. -/
structure Outcome.Describes (F : PrimeField) {n : ℕ} (A : Matrix (Fin n) (Fin n) F.Element)
    (v : Fin n → F.Element) (tracked : List TrackedVariable) (P : F.Element[X]) (o : Outcome) :
    Prop where
  minimal : IsMinimalRecurrence P (krylov A (unitVector F.Element n 0) v)
  shape : o.verdict = .shapePosition → P.natDegree = n ∧
    o.parametrization.eliminant.toPolynomial F = P ∧
    ∀ x ∈ tracked, (o.parametrization.coordinatePolynomial F x.index).degree < P.degree ∧
      act (o.parametrization.coordinatePolynomial F x.index)
        (krylov A (unitVector F.Element n 0) v) = krylov A (unitVector F.Element n x.basisIndex) v
  quotient : o.verdict ≠ .shapePosition →
    o.parametrization.eliminant.toPolynomial F = UniqueFactorizationMonoid.radical P ∧
    ∀ x ∈ tracked, ∀ b : F.Element[X], act b (krylov A (unitVector F.Element n 0) v) =
        krylov A (unitVector F.Element n x.basisIndex) v →
      o.parametrization.coordinatePolynomial F x.index = b % UniqueFactorizationMonoid.radical P

theorem Outcome.Describes.eliminant_ne_zero {P : F.Element[X]} {o : Outcome}
    (h : o.Describes F A v tracked P) : o.parametrization.eliminant.toPolynomial F ≠ 0 := by
  by_cases hverdict : o.verdict = .shapePosition
  · rw [(h.shape hverdict).2.1]
    exact h.minimal.monic.ne_zero
  · rw [(h.quotient hverdict).1]
    exact UniqueFactorizationMonoid.radical_ne_zero

/-- Only the verdict, the eliminant and the coordinates of the tracked variables matter. -/
theorem Outcome.Describes.congr {P : F.Element[X]} {o o' : Outcome}
    (h : o.Describes F A v tracked P) (hverdict : o'.verdict = o.verdict)
    (helim : o'.parametrization.eliminant = o.parametrization.eliminant)
    (hcoord : ∀ x ∈ tracked, o'.parametrization.coordinates[x.index]? =
      o.parametrization.coordinates[x.index]?) : o'.Describes F A v tracked P := by
  refine ⟨h.minimal, ?_, ?_⟩
  · intro hshape
    obtain ⟨hdeg, heq, htracked⟩ := h.shape (hverdict ▸ hshape)
    refine ⟨hdeg, helim ▸ heq, ?_⟩
    intro x hx
    rw [Parametrization.coordinatePolynomial_congr (hcoord x hx)]
    exact htracked x hx
  · intro hshape
    obtain ⟨heq, htracked⟩ := h.quotient (hverdict ▸ hshape)
    refine ⟨helim ▸ heq, ?_⟩
    intro x hx
    rw [Parametrization.coordinatePolynomial_congr (hcoord x hx)]
    exact htracked x hx

structure Parametrization.Solves (F : PrimeField) (layout : VariableLayout) (p : Parametrization) :
    Prop where
  isOver : p.Over F
  denominator_eq : p.denominator = .one F
  variableCount_eq : p.variableCount = layout.variableCount
  eliminant_ne_zero : p.eliminant.toPolynomial F ≠ 0
  linear : ∀ k ∈ layout.linearVariables, ∃ r row, (k, r) ∈ layout.linearVariables.zipIdx ∧
    layout.equation r = .ok row ∧ p.coordinatePolynomial F k =
      equationValue F row layout.variableCount k (p.coordinatePolynomial F) %
        p.eliminant.toPolynomial F

theorem Parametrization.Solves.exists_coordinate {layout : VariableLayout} {p : Parametrization}
    (h : p.Solves F layout) {i : ℕ} (hi : i < layout.variableCount - 1) :
    ∃ a, p.coordinates[i]? = some a ∧ a.field = F ∧
      p.coordinatePolynomial F i = a.toPolynomial F := by
  have hsize : i < p.coordinates.size := by
    rw [p.size_coordinates, h.variableCount_eq]
    exact hi
  refine ⟨p.coordinates[i], Array.getElem?_eq_getElem hsize, ?_, ?_⟩
  · exact h.isOver.field_coordinates _ (Array.getElem_mem hsize)
  · exact Parametrization.coordinatePolynomial_of_getElem? (Array.getElem?_eq_getElem hsize)

namespace Session

variable {s : Session} {layout : VariableLayout}

theorem over_startOf {e : Elimination} (hs : s.field = F) (he : e.eliminant.field = F) :
    (s.startOf layout e).Over F := by
  refine ⟨hs, he, ?_⟩
  intro a ha
  rw [(Array.mem_replicate.mp ha).2]
  exact hs

theorem solves_of_substituteLinear {e : Elimination} {p p' : Parametrization} (hs : s.field = F)
    (hp : p.SameFrame (s.startOf layout e)) (hover : p.Over F)
    (hne : p.eliminant.toPolynomial F ≠ 0) (h : p.substituteLinear layout = .ok p') :
    p'.Solves F layout ∧ p'.eliminant = p.eliminant ∧
      ∀ x ∈ layout.tracked, p'.coordinates[x.index]? = p.coordinates[x.index]? := by
  obtain ⟨hframe, hover', hother, hlinear⟩ :=
    Parametrization.substituteLinear_spec hover hp.variableCount_eq hne h
  refine ⟨⟨hover', ?_, ?_, hframe.eliminant_eq ▸ hne, ?_⟩, hframe.eliminant_eq, ?_⟩
  · rw [hframe.denominator_eq, hp.denominator_eq, ← hs]
    rfl
  · rw [hframe.variableCount_eq, hp.variableCount_eq]
    rfl
  · rw [hframe.eliminant_eq]
    exact hlinear
  · intro x hx
    exact hother _ (layout.index_tracked_notMem hx)

theorem describes_of_coordinates {sequence : Array UInt32} {e : Elimination} {verify : Bool}
    {source source' : WordSource} {outcome : Outcome} {key : KeyEquation} {minimal : Poly}
    (hs : s.field = F) (hkey : s.key.field = F)
    (hrecord : s.record.Filled F A v layout.tracked rows (2 * n))
    (hfits : KrylovRecord.Fits layout.tracked n) (hpos : 0 < n)
    (hsequence : s.record.sequence = .ok sequence)
    (hminimal : minimal = ((KeyEquation.empty F).addPoints sequence).solve.minimalPolynomial)
    (he : e = .ofMinimal minimal n)
    (h : s.coordinates layout sequence e verify source = .ok (.ok outcome, key, source')) :
    outcome.parametrization.SameFrame (s.startOf layout e) ∧ outcome.parametrization.Over F ∧
      outcome.Describes F A v layout.tracked (minimal.toPolynomial F) := by
  have hnodup := layout.nodup_index_tracked
  have hfield : minimal.field = F := hminimal ▸ KeyEquation.field_minimalPolynomial _ rfl
  obtain ⟨hsize, hred, hterms⟩ := hrecord.sequence_spec hsequence
  have hP := isMinimalRecurrence_powerSums hsize hterms
  rw [← hminimal] at hP
  have hcases := Elimination.ofMinimal_cases minimal n
  rw [← he] at hcases
  rcases hcases with ⟨hdeg, rfl⟩ | rfl
  · have hstart : (s.startOf layout ⟨minimal, minimal, true⟩).Over F := over_startOf hs hfield
    rw [← Poly.natDegree_toPolynomial hfield] at hdeg
    rcases coordinates_eq_ok h with ⟨-, hnil, -, hresult⟩ | ⟨-, -, hresult⟩ |
      ⟨-, inverse, p, hinvert, hfill, hresult⟩ | ⟨hshape, -⟩
    · obtain rfl := Except.ok.inj hresult
      refine ⟨.refl _, hstart, hP, fun _ => ⟨hdeg, rfl, ?_⟩, fun hne => absurd rfl hne⟩
      rw [hnil]
      intro x hx
      exact absurd hx List.not_mem_nil
    · contradiction
    · obtain rfl := Except.ok.inj hresult
      rw [hrecord.dimension_eq] at hinvert
      obtain ⟨hframe, hover, htracked⟩ := fillFromHankel_spec hrecord hfits hnodup hP hstart
        hpos hdeg rfl hsize hred hterms hkey hinvert hfill
      refine ⟨hframe, hover, hP, fun _ => ⟨hdeg, ?_, htracked⟩, fun hne => absurd rfl hne⟩
      exact congrArg (Poly.toPolynomial F) hframe.eliminant_eq
    · contradiction
  · obtain ⟨hradical, hradicalEq⟩ := Poly.toPolynomial_radical hfield hP.monic.ne_zero
    have hstart : (s.startOf layout ⟨minimal.radical, minimal, false⟩).Over F :=
      over_startOf hs hradical
    rcases coordinates_eq_ok h with ⟨hshape, -⟩ | ⟨hshape, -⟩ | ⟨hshape, -⟩ | ⟨-, -, hfill⟩
    · contradiction
    · contradiction
    · contradiction
    · obtain ⟨hverdict, sequence, inverse, hsequence, hinverse, hfill⟩ :=
        fillFromQuotients_eq_ok hfill
      obtain ⟨hframe, hover, htracked⟩ := fillFromNumerators_spec hrecord hfits hnodup hP
        hstart hfield rfl hradicalEq hsequence hinverse hfill
      refine ⟨hframe, hover, hP, fun heq => absurd heq hverdict, fun _ => ⟨?_, htracked⟩⟩
      exact (congrArg (Poly.toPolynomial F) hframe.eliminant_eq).trans hradicalEq

section Run
variable {α : Type} [LinearOperator α] {op : α} {probe : Array UInt32} {target : Option ℕ}
  {source : WordSource} {reply : Reply} {outcome : Outcome}

/-- An outcome went through all stages, with an eliminant of the degree that it had to have. -/
theorem run_eq_ok_of_outcome (h : s.run op layout probe target source = .ok reply)
    (hresult : reply.result = .ok outcome) :
    checkInput s.field op layout probe = .ok () ∧
    ∃ record sequence e key first key' source',
      s.record.generate op s.field layout.tracked probe (s.config.verify && target.isNone) =
        .ok record ∧
      record.sequence = .ok sequence ∧
      Elimination.ofSequence s.key sequence (LinearOperator.dimension op) layout = .ok (e, key) ∧
      ({ s with record := record, key := key } : Session).coordinates layout sequence e
        (s.config.verify && target.isNone) source = .ok (.ok first, key', source') ∧
      first.parametrization.substituteLinear layout = .ok outcome.parametrization ∧
      outcome.verdict = first.verdict ∧ (∀ d, target = some d → e.degree = d) ∧
      reply.session = { s with
        record := record
        key := key'
        learnedDegree := if target.isNone then some e.degree else s.learnedDegree } ∧
      reply.source = source' := by
  rcases run_eq_ok h with ⟨error, -, rfl⟩ | ⟨hcheck, h⟩
  · contradiction
  · obtain ⟨record, sequence, e, key, hrecord, hsequence, he, hcase⟩ := runStages_eq_ok h
    refine ⟨hcheck, record, sequence, e, key, ?_⟩
    rcases hcase with ⟨d, -, -, rfl⟩ | ⟨hmeets, result, key', source', hcoordinates, hcase⟩
    · contradiction
    · rcases hcase with ⟨error, -, rfl⟩ | ⟨first, p, rfl, hp, rfl⟩
      · contradiction
      · obtain rfl := Except.ok.inj hresult
        exact ⟨first, key', source', hrecord, hsequence, he, hcoordinates, hp, rfl, hmeets, rfl,
          rfl⟩

theorem describes_of_run {A : Matrix (Fin (LinearOperator.dimension op))
      (Fin (LinearOperator.dimension op)) F.Element} (hs : s.field = F) (hkey : s.key.field = F)
    (hop : LinearOperator.ActsAs op F A) (hpos : 0 < LinearOperator.dimension op)
    (hlinear : layout.allLinear = false) (h : s.run op layout probe target source = .ok reply)
    (hresult : reply.result = .ok outcome) :
    outcome.parametrization.Solves F layout ∧
      ∃ P, outcome.Describes F A (F.vector _ probe) layout.tracked P := by
  obtain ⟨hcheck, record, sequence, e, key, first, key', source', hrecord, hsequence, he,
    hcoordinates, hsubstitute, hverdict, -⟩ := run_eq_ok_of_outcome h hresult
  obtain ⟨-, hdimension, hprobe⟩ := checkInput_eq_ok hcheck
  have hfits := layout.fits_tracked hdimension
  rw [hs] at hrecord
  have hfilled := KrylovRecord.filled_of_generate hop hfits hpos hprobe hrecord
  have hkey' : key.field = F := (field_ofSequence he).trans hkey
  rcases ofSequence_cases hkey he with ⟨hall, -, -⟩ | ⟨-, rfl, rfl⟩
  · rw [hlinear] at hall
    contradiction
  obtain ⟨hframe, hover, hdescribes⟩ := describes_of_coordinates
    (s := { s with record := record, key := _ }) hs hkey' hfilled hfits hpos hsequence rfl rfl
    hcoordinates
  obtain ⟨hsolves, helim, hcoord⟩ := solves_of_substituteLinear hs hframe hover
    hdescribes.eliminant_ne_zero hsubstitute
  exact ⟨hsolves, _, hdescribes.congr hverdict helim hcoord⟩

theorem Reachable.describes {M : MultiplicationMatrix} (hs : s.Reachable) (hF : s.field = F)
    (hlinear : layout.allLinear = false) (h : s.run M layout probe target source = .ok reply)
    (hresult : reply.result = .ok outcome) :
    outcome.parametrization.Solves F layout ∧ KrylovRecord.Fits layout.tracked M.dimension ∧
      ∃ P, outcome.Describes F (M.toMatrix F) (F.vector _ probe) layout.tracked P := by
  obtain ⟨hfield, hdimension, -⟩ := checkInput_eq_ok (run_eq_ok_of_outcome h hresult).1
  rw [hF] at hfield
  obtain ⟨hsolves, hdescribes⟩ := describes_of_run hF (hs.field_key.trans hF) (M.actsAs hfield)
    M.dimension_pos hlinear h hresult
  exact ⟨hsolves, layout.fits_tracked hdimension, hdescribes⟩

end Run

end Session

end ZeroDim
