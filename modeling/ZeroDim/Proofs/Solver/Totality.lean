import Mathlib
import ZeroDim.Proofs.Elimination
import ZeroDim.Proofs.Solver.Outcome

/-! # Runs without fault

A run on an input that passes its checks meets no fault, whatever the probe, the random words and
the state of the session: every column and every segment it asks for is there, and nothing is
divided by zero.  One statement for each stage; the run is their composition. -/

set_option autoImplicit false

namespace ZeroDim

open Polynomial PrimeField Matrix

variable {F : PrimeField} {n rows : ℕ} {A : Matrix (Fin n) (Fin n) F.Element}
  {v : Fin n → F.Element} {tracked : List TrackedVariable} {record : KrylovRecord}

/-! ## Filling in coordinates -/

namespace Parametrization

variable {p : Parametrization}

theorem withCoordinate_eq_ok {i : ℕ} (hi : i < p.variableCount - 1) (a : Poly) :
    ∃ p', p.withCoordinate i a = .ok p' := by
  rw [← p.size_coordinates] at hi
  unfold withCoordinate
  rw [dif_pos hi]
  exact ⟨_, rfl⟩

theorem Over.coordinate_eq_ok (hp : p.Over F) {i : ℕ} (hi : i < p.variableCount - 1) :
    ∃ a, p.coordinate i = .ok a ∧ a.field = F := by
  rw [← p.size_coordinates] at hi
  exact ⟨_, entryAt_eq_ok hi, hp.field_coordinates _ (Array.getElem_mem hi)⟩

theorem fillWith_eq_ok {ι : Type} {index : ι → ℕ} {f : Parametrization → ι → Checked Poly}
    (xs : List ι) (hp : p.Over F) (hindex : ∀ x ∈ xs, index x < p.variableCount - 1)
    (hf : ∀ q, q.SameFrame p → q.Over F → ∀ x ∈ xs, ∃ a, f q x = .ok a ∧ a.field = F) :
    ∃ p', fillWith index f xs p = .ok p' ∧ p'.SameFrame p ∧ p'.Over F := by
  induction xs generalizing p with
  | nil => exact ⟨p, rfl, .refl p, hp⟩
  | cons x xs ih =>
    obtain ⟨a, ha, hfield⟩ := hf p (.refl p) hp x List.mem_cons_self
    obtain ⟨p₁, hp₁⟩ := withCoordinate_eq_ok (hindex x List.mem_cons_self) a
    obtain ⟨hframe, -, -⟩ := withCoordinate_spec hp₁
    obtain ⟨p', hp', hframe', hover⟩ := ih (hp.withCoordinate hfield hp₁)
      (fun y hy => hframe.variableCount_eq ▸ hindex y (List.mem_cons_of_mem x hy))
      (fun q hq hqover y hy => hf q (hq.trans hframe) hqover y (List.mem_cons_of_mem x hy))
    refine ⟨p', ?_, hframe'.trans hframe, hover⟩
    rw [fillWith, ha, ok_bind, hp₁, ok_bind, hp']

/-! ## Linear variables -/

variable (hp : p.Over F) (hne : p.eliminant.toPolynomial F ≠ 0)
include hp

theorem subtractTerms_eq_ok {row : Array UInt32} (js : List ℕ)
    (hrow : ∀ j ∈ js, j < row.size) (hjs : ∀ j ∈ js, j < p.variableCount - 1) (acc : Poly)
    (hacc : acc.field = F) : ∃ r, p.subtractTerms row js acc = .ok r ∧ r.field = F := by
  induction js generalizing acc with
  | nil => exact ⟨acc, rfl, hacc⟩
  | cons j js ih =>
    have ih := ih (fun i hi => hrow i (List.mem_cons_of_mem j hi))
      (fun i hi => hjs i (List.mem_cons_of_mem j hi))
    rw [subtractTerms, entryAt_eq_ok (hrow j List.mem_cons_self), ok_bind]
    split
    · exact ih acc hacc
    · obtain ⟨a, ha, -⟩ := hp.coordinate_eq_ok (hjs j List.mem_cons_self)
      rw [ha, ok_bind]
      exact ih _ hacc

include hne

theorem solveEquation_eq_ok {row : Array UInt32} (hrow : row.size = p.variableCount + 1) (k : ℕ) :
    ∃ a, p.solveEquation row k = .ok a ∧ a.field = F := by
  have hlt : ∀ j ∈ (List.range (p.variableCount - 1)).drop (k + 1), j < p.variableCount - 1 :=
    fun j hj => List.mem_range.mp (List.mem_of_mem_drop hj)
  obtain ⟨rest, hrest, hfield⟩ := subtractTerms_eq_ok hp _
    (fun j hj => (show j < row.size by have := hlt j hj; omega)) hlt
    (.ofCoeffs p.field #[row[p.variableCount], row[p.variableCount - 1]]) hp.field_eq
  refine ⟨rest % p.eliminant, ?_, (Poly.field_mod _ _).trans hfield⟩
  rw [solveEquation, entryAt_eq_ok (by omega), ok_bind, entryAt_eq_ok (by omega), ok_bind]
  dsimp only
  rw [hrest, ok_bind, Poly.mod?_eq_ok rest hp.field_eliminant hne]

theorem substituteLinear_eq_ok {layout : VariableLayout}
    (hcount : p.variableCount = layout.variableCount) :
    ∃ p', p.substituteLinear layout = .ok p' := by
  have hzero := (Poly.isZero_eq_false_iff hp.field_eliminant).mpr hne
  rw [substituteLinear, hzero, if_neg Bool.false_ne_true, fillLinear_eq]
  have hmem : ∀ x ∈ layout.linearVariables.zipIdx.reverse, (x.1, x.2) ∈
      layout.linearVariables.zipIdx := fun x hx => List.mem_reverse.mp hx
  refine (fillWith_eq_ok _ hp (fun x hx => hcount ▸ (layout.linearEquation (hmem x hx)).1) ?_).imp
    fun p' h => h.1
  intro q hq hqover x hx
  obtain ⟨-, row, hrow, hsize⟩ := layout.linearEquation (hmem x hx)
  rw [hrow, ok_bind]
  refine solveEquation_eq_ok hqover (hq.eliminant_eq ▸ hne) ?_ x.1
  rw [hsize, hq.variableCount_eq, hcount]

end Parametrization

/-! ## Coordinates of the tracked variables -/

theorem HankelInverse.Holds.solveStream_eq_ok {inverse : HankelInverse} {w : ℕ → F.Element}
    (hw : inverse.Holds F w) {stream : Array UInt32} (hr : F.AllReduced stream)
    (hsize : inverse.dimension + 1 ≤ stream.size) :
    ∃ a, inverse.solveStream stream = .ok a ∧ a.field = F := by
  have hfield : inverse.field = F := hw.field_z1
  obtain ⟨u, hu, husize, -⟩ := inverse.level.window_spec hr hsize
  obtain ⟨a, ha, hafield, -⟩ := hw.solve_spec husize.ge
  refine ⟨a, ?_, hafield⟩
  rw [solveStream, hfield, hu, ok_bind, ha]

section Numerators
variable {minimal eliminant : Poly} (hP : minimal.field = F) (hE : eliminant.field = F)
  (hne : eliminant.toPolynomial F ≠ 0)
include hP hE hne

theorem numeratorInverse?_eq_ok {stream : Array UInt32}
    (hsize : minimal.natDegree ≤ stream.size) :
    ∃ r, numeratorInverse? minimal eliminant stream = .ok r ∧ ∀ i, r = some i → i.field = F := by
  by_cases hco : IsCoprime (seriesNumerator (minimal.toPolynomial F) (F.terms stream))
      (eliminant.toPolynomial F)
  · obtain ⟨i, hi, hfield, -⟩ :=
      numeratorInverse?_of_isCoprime hP hE hne hsize (fun _ _ => rfl) hco
    refine ⟨some i, hi, ?_⟩
    rintro _ ⟨⟩
    exact hfield
  · refine ⟨none, numeratorInverse?_of_not_isCoprime hP hE hne hsize (fun _ _ => rfl) hco, ?_⟩
    intro i hi
    contradiction

theorem verifyQuotient_eq_ok {sequence stream square : Array UInt32}
    (h₁ : minimal.natDegree ≤ sequence.size) (h₂ : minimal.natDegree ≤ stream.size)
    (h₃ : minimal.natDegree ≤ square.size) (expected : Poly) (source : WordSource) :
    ∃ r, verifyQuotient minimal eliminant sequence stream square expected source = .ok r := by
  rw [verifyQuotient]
  generalize source.nonzeroResidue eliminant.field = drawn
  obtain ⟨scalar, rest⟩ := drawn
  obtain ⟨shiftedSequence, hsequence, hsize, -⟩ := combinedStream_spec hE minimal scalar h₂ h₁
  obtain ⟨shiftedStream, hstream, hsize', -⟩ := combinedStream_spec hE minimal scalar h₃ h₂
  obtain ⟨inverse?, hinverse, hfield⟩ := numeratorInverse?_eq_ok hP hE hne hsize.ge
  dsimp only
  rw [shiftAgrees, hsequence, ok_bind, hstream, ok_bind, hinverse, ok_bind]
  cases inverse? with
  | none => exact ⟨_, rfl⟩
  | some inverse =>
    obtain ⟨q, hq, -⟩ := numeratorQuotient_spec hP hE hne hsize'.ge (fun _ _ => rfl)
      (hfield inverse rfl)
    dsimp only
    rw [hq]
    exact ⟨_, rfl⟩

end Numerators

section Coordinates
variable (hrecord : record.Filled F A v tracked rows (2 * n))
  (hfits : KrylovRecord.Fits tracked n) {p : Parametrization} (hp : p.Over F)
  (hne : p.eliminant.toPolynomial F ≠ 0)
  (hindex : ∀ x ∈ tracked, x.index < p.variableCount - 1)
include hrecord hfits hp hne hindex

theorem fillFromHankel_eq_ok (hpos : 0 < n) {inverse : HankelInverse} {w : ℕ → F.Element}
    (hw : inverse.Holds F w) (hdim : inverse.dimension = n) :
    ∃ p', fillFromHankel record inverse tracked p = .ok p' ∧ p'.SameFrame p ∧ p'.Over F := by
  rw [fillFromHankel_eq]
  apply Parametrization.fillWith_eq_ok tracked hp hindex
  intro q hq hqover x hx
  obtain ⟨stream, hstream, hsize, hred, -⟩ :=
    hrecord.stream_spec hfits hx (show n + 1 ≤ 2 * n by omega) le_rfl
  obtain ⟨a, ha, hfield⟩ := hw.solveStream_eq_ok hred (by omega)
  refine ⟨a % q.eliminant, ?_, (Poly.field_mod _ _).trans hfield⟩
  rw [hrecord.dimension_eq, hstream, ok_bind, ha, ok_bind,
    Poly.mod?_eq_ok a hqover.field_eliminant (hq.eliminant_eq ▸ hne)]

variable {minimal : Poly} (hP : minimal.field = F) (hdeg : minimal.natDegree ≤ n)
include hP hdeg

theorem fillFromNumerators_eq_ok {inverse : Poly} (hI : inverse.field = F) :
    ∃ p', fillFromNumerators record minimal inverse tracked p = .ok p' ∧ p'.SameFrame p ∧
      p'.Over F := by
  rw [fillFromNumerators_eq]
  apply Parametrization.fillWith_eq_ok tracked hp hindex
  intro q hq hqover x hx
  obtain ⟨stream, hstream, hsize, -⟩ :=
    hrecord.stream_spec hfits hx (show minimal.natDegree ≤ 2 * n by omega) (by omega)
  obtain ⟨a, ha, hfield, -⟩ := numeratorQuotient_spec hP hqover.field_eliminant
    (hq.eliminant_eq ▸ hne) hsize.ge (fun _ _ => rfl) hI
  exact ⟨a, by rw [hstream, ok_bind, ha], hfield⟩

theorem scanCoordinates_eq_ok (hrows : rows = n) (xs : List TrackedVariable)
    (hxs : ∀ x ∈ xs, x ∈ tracked) (source : WordSource) :
    ∃ r, scanCoordinates record minimal p xs source = .ok r := by
  induction xs generalizing source with
  | nil => exact ⟨_, rfl⟩
  | cons x xs ih =>
    have ih := ih fun y hy => hxs y (List.mem_cons_of_mem x hy)
    have hx := hxs x List.mem_cons_self
    rw [scanCoordinates]
    split
    · exact ih source
    · obtain ⟨sequence, hsequence, h₁, -⟩ :=
        hrecord.powerSums_spec (show minimal.natDegree ≤ 2 * n by omega)
      obtain ⟨stream, hstream, h₂, -⟩ :=
        hrecord.stream_spec hfits hx (show minimal.natDegree ≤ 2 * n by omega) (by omega)
      obtain ⟨square, hsquare, h₃, -⟩ :=
        hrecord.full_squares.column_spec (hfits.column_lt x hx) (hrows ▸ hdeg)
      obtain ⟨a, ha, -⟩ := hp.coordinate_eq_ok (hindex x hx)
      obtain ⟨⟨passed, source'⟩, hverify⟩ := verifyQuotient_eq_ok hP hp.field_eliminant hne h₁.ge
        h₂.ge h₃.ge a source
      dsimp only
      rw [hsequence, ok_bind, hstream, ok_bind, hsquare, ok_bind, ha, ok_bind, hverify, ok_bind]
      dsimp only
      split
      · exact ih source'
      · exact ⟨_, rfl⟩

theorem fillFromQuotients_total (verify : Bool) (hrows : verify = true → rows = n)
    (source : WordSource) :
    ∃ result source', fillFromQuotients record minimal tracked verify p source =
        .ok (result, source') ∧
      ∀ outcome, result = .ok outcome →
        outcome.parametrization.SameFrame p ∧ outcome.parametrization.Over F := by
  rw [fillFromQuotients]
  dsimp only
  split
  · exact ⟨_, _, rfl, fun _ h => by contradiction⟩
  · obtain ⟨sequence, hsequence, hsize, -⟩ :=
      hrecord.powerSums_spec (show minimal.natDegree ≤ 2 * n by omega)
    obtain ⟨inverse?, hinverse, hfield⟩ :=
      numeratorInverse?_eq_ok hP hp.field_eliminant hne hsize.ge
    rw [hsequence, ok_bind, hinverse, ok_bind]
    cases inverse? with
    | none => exact ⟨_, _, rfl, fun _ h => by contradiction⟩
    | some inverse =>
      obtain ⟨p', hp', hframe, hover⟩ :=
        fillFromNumerators_eq_ok hrecord hfits hp hne hindex hP hdeg (hfield inverse rfl)
      dsimp only
      rw [hp', ok_bind]
      split
      · rename_i hverify
        obtain ⟨⟨verdict, source'⟩, hscan⟩ := scanCoordinates_eq_ok hrecord hfits hover
          (hframe.eliminant_eq ▸ hne) (fun x hx => hframe.variableCount_eq ▸ hindex x hx) hP hdeg
          (hrows hverify) tracked (fun _ h => h) source
        rw [hscan, ok_bind]
        refine ⟨_, _, rfl, ?_⟩
        rintro _ ⟨⟩
        exact ⟨hframe, hover⟩
      · refine ⟨_, _, rfl, ?_⟩
        rintro _ ⟨⟩
        exact ⟨hframe, hover⟩

end Coordinates

/-! ## Runs -/

namespace Session

variable {s : Session} {layout : VariableLayout}

theorem coordinates_total (hs : s.field = F) (hkey : s.key.field = F)
    (hrecord : s.record.Filled F A v layout.tracked rows (2 * n))
    (hfits : KrylovRecord.Fits layout.tracked n) (hpos : 0 < n) {sequence : Array UInt32}
    (hsize : sequence.size = 2 * n) (hred : F.AllReduced sequence) {e : Elimination}
    (he : e.Sound F n) {verify : Bool} (hrows : verify = true → rows = n) (source : WordSource) :
    ∃ result key source', s.coordinates layout sequence e verify source =
        .ok (result, key, source') ∧
      ∀ outcome, result = .ok outcome →
        outcome.parametrization.SameFrame (s.startOf layout e) ∧
        outcome.parametrization.Over F := by
  have hstart : (s.startOf layout e).Over F := over_startOf hs he.field_eliminant
  have hne : (s.startOf layout e).eliminant.toPolynomial F ≠ 0 := he.monic.ne_zero
  have hindex : ∀ x ∈ layout.tracked, x.index < (s.startOf layout e).variableCount - 1 :=
    fun x hx => layout.index_tracked_lt hx
  rw [coordinates]
  dsimp only
  split
  · split
    · refine ⟨_, _, _, rfl, ?_⟩
      rintro _ ⟨⟩
      exact ⟨.refl _, hstart⟩
    · obtain ⟨inverse?, key', hinvert, -, hspec⟩ :=
        KeyEquation.invertAlong_spec hred hpos hsize.ge Level.direct.onward s.key hkey
      rw [hrecord.dimension_eq, KeyEquation.invertHankel, hinvert, ok_bind]
      cases inverse? with
      | none => exact ⟨_, _, _, rfl, fun _ h => by contradiction⟩
      | some inverse =>
        obtain ⟨hdim, hholds⟩ := hspec inverse rfl
        obtain ⟨p, hp, hframe, hover⟩ := fillFromHankel_eq_ok hrecord hfits hstart hne hindex hpos
          (hholds (F.terms sequence) fun _ _ => rfl) hdim
        change ∃ result key source', (fillFromHankel s.record inverse layout.tracked
          (s.startOf layout e) >>= _) = .ok (result, key, source') ∧ _
        rw [hp]
        refine ⟨_, _, _, rfl, ?_⟩
        rintro _ ⟨⟩
        exact ⟨hframe, hover⟩
  · obtain ⟨result, source', hfill, hresult⟩ := fillFromQuotients_total hrecord hfits hstart hne
      hindex he.field_minimal he.natDegree_minimal_le verify hrows source
    change ∃ result key source', (fillFromQuotients s.record e.minimal layout.tracked verify
      (s.startOf layout e) source >>= _) = .ok (result, key, source') ∧ _
    rw [hfill]
    exact ⟨_, _, _, rfl, hresult⟩

section Run
variable {α : Type} [LinearOperator α] {op : α}
  {A : Matrix (Fin (LinearOperator.dimension op)) (Fin (LinearOperator.dimension op)) F.Element}

theorem elimination_total (hs : s.field = F) (hkey : s.key.field = F)
    (hop : LinearOperator.ActsAs op F A) (hpos : 0 < LinearOperator.dimension op)
    {probe : Array UInt32} (hcheck : checkInput s.field op layout probe = .ok ())
    (withSquares : Bool) :
    ∃ record sequence e key,
      s.record.generate op s.field layout.tracked probe withSquares = .ok record ∧
      record.Filled F A (F.vector _ probe) layout.tracked
        (if withSquares then LinearOperator.dimension op else 0)
        (2 * LinearOperator.dimension op) ∧
      record.sequence = .ok sequence ∧ sequence.size = 2 * LinearOperator.dimension op ∧
      F.AllReduced sequence ∧
      Elimination.ofSequence s.key sequence (LinearOperator.dimension op) layout = .ok (e, key) ∧
      e.Sound F (LinearOperator.dimension op) ∧ key.field = F := by
  subst hs
  obtain ⟨-, hdimension, hprobe⟩ := checkInput_eq_ok hcheck
  have hfits := layout.fits_tracked hdimension
  obtain ⟨record, hrecord, hfilled⟩ := KrylovRecord.generate_spec hop hfits hpos hprobe
    withSquares s.record
  obtain ⟨sequence, hcolumn, hsize, hred, -⟩ := hfilled.powerSums_spec le_rfl
  have hsequence : record.sequence = .ok sequence := by
    rw [KrylovRecord.sequence, hfilled.full_terms.rows_eq, hcolumn]
  obtain ⟨e, key, he, hsound, hkey'⟩ := Elimination.ofSequence_eq_ok hkey hsize hdimension
  exact ⟨record, sequence, e, key, hrecord, hfilled, hsequence, hsize, hred, he, hsound, hkey'⟩

/-- An operator that acts as a matrix is run without fault on every input that passes the checks.
Without a degree to meet, the errors are those of the coordinates. -/
theorem runStages_total (hs : s.field = F) (hkey : s.key.field = F)
    (hop : LinearOperator.ActsAs op F A) (hpos : 0 < LinearOperator.dimension op)
    {probe : Array UInt32} (hcheck : checkInput s.field op layout probe = .ok ())
    (target : Option ℕ) (source : WordSource) :
    ∃ reply, s.runStages op layout probe target source = .ok reply ∧
      ∃ record sequence e key,
        record.Filled F A (F.vector _ probe) layout.tracked
          (if s.config.verify && target.isNone then LinearOperator.dimension op else 0)
          (2 * LinearOperator.dimension op) ∧
        record.sequence = .ok sequence ∧
        Elimination.ofSequence s.key sequence (LinearOperator.dimension op) layout = .ok (e, key) ∧
        e.Sound F (LinearOperator.dimension op) ∧ key.field = F ∧
        (target = none → ∃ result key' source',
          ({ s with record := record, key := key } : Session).coordinates layout sequence e
            (s.config.verify && target.isNone) source = .ok (result, key', source') ∧
          ∀ error, reply.result = .error error ↔ result = .error error) := by
  subst hs
  have hfits := layout.fits_tracked (checkInput_eq_ok hcheck).2.1
  obtain ⟨record, sequence, e, key, hrecord, hfilled, hsequence, hsize, hred, he, hsound, hkey'⟩ :=
    elimination_total rfl hkey hop hpos hcheck (s.config.verify && target.isNone)
  obtain ⟨result, key', source', hcoordinates, hresult⟩ := coordinates_total
    (s := { s with record := record, key := key }) rfl hkey' hfilled hfits hpos hsize hred hsound
    (fun hverify => if_pos hverify) source
  rw [runStages]
  dsimp only
  rw [hrecord, ok_bind, hsequence, ok_bind, he, ok_bind]
  dsimp only
  split
  · rename_i hany
    refine ⟨_, rfl, record, sequence, e, key, hfilled, hsequence, he, hsound, hkey', ?_⟩
    rintro rfl
    contradiction
  · rw [hcoordinates, ok_bind]
    cases result with
    | error error =>
      refine ⟨_, rfl, record, sequence, e, key, hfilled, hsequence, he, hsound, hkey', ?_⟩
      intro _
      exact ⟨_, key', source', hcoordinates, fun _ => Iff.rfl⟩
    | ok outcome =>
      obtain ⟨hframe, hover⟩ := hresult outcome rfl
      have hne : outcome.parametrization.eliminant.toPolynomial s.field ≠ 0 := by
        rw [hframe.eliminant_eq]
        exact hsound.monic.ne_zero
      obtain ⟨p, hp⟩ := Parametrization.substituteLinear_eq_ok hover hne hframe.variableCount_eq
      dsimp only
      rw [hp]
      refine ⟨_, rfl, record, sequence, e, key, hfilled, hsequence, he, hsound, hkey', ?_⟩
      intro _
      refine ⟨_, key', source', hcoordinates, ?_⟩
      intro error
      exact iff_of_false (fun h => by contradiction) fun h => by contradiction

end Run

theorem run_total (hs : s.key.field = s.field) (M : MultiplicationMatrix) (layout : VariableLayout)
    (probe : Array UInt32) (target : Option ℕ) (source : WordSource) :
    ∃ reply, s.run M layout probe target source = .ok reply := by
  rw [run]
  split
  · exact ⟨_, rfl⟩
  · rename_i hcheck
    obtain ⟨reply, hreply, -⟩ := runStages_total rfl hs (M.actsAs (checkInput_eq_ok hcheck).1)
      M.dimension_pos hcheck target source
    exact ⟨reply, hreply⟩

theorem solve_total (hs : s.key.field = s.field) (M : MultiplicationMatrix)
    (layout : VariableLayout) (source : WordSource) :
    ∃ reply, s.solve M layout source = .ok reply :=
  run_total hs M layout (s.randomProbe M source).1 none (s.randomProbe M source).2

theorem field_moveTo? {s' : Session} {p : ℕ} (h : s.moveTo? p = .ok s') :
    s'.key.field = s'.field := by
  unfold moveTo? at h
  split at h
  · rw [← Except.ok.inj h]
    rfl
  · contradiction

/-- The key equation is moved to the new prime, whatever field it was over. -/
theorem replay_total (s : Session) (M : MultiplicationMatrix) (p : ℕ) (layout : VariableLayout)
    (source : WordSource) : ∃ reply, s.replay M p layout source = .ok reply := by
  rw [replay]
  cases hmove : s.moveTo? p with
  | error e => exact ⟨_, rfl⟩
  | ok s' => exact run_total (field_moveTo? hmove) M layout _ s'.learnedDegree _

end Session

end ZeroDim
