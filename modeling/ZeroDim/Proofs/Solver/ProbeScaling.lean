import Mathlib
import ZeroDim.Proofs.Solver.Failures
import ZeroDim.Proofs.Solver.Proportional

/-! # Multiples of a probe

Two runs are compared stage by stage.  Their probes are proportional, and their layouts may differ
in the squares: the eliminations are then equal, because a multiple of a sequence has the same
minimal recurrence, and so are the coordinates.  With the same squares the checks draw the same
words and come to the same verdict. -/

set_option autoImplicit false

namespace ZeroDim

open Polynomial PrimeField Matrix

variable {F : PrimeField} {n rows rows' : ℕ} {A : Matrix (Fin n) (Fin n) F.Element}
  {v : Fin n → F.Element} {c : F.Element} {layout layout' : VariableLayout}
  {sequence sequence' : Array UInt32} {e : Elimination}

theorem Elimination.ofEquations_of_sameButSquares (h : layout.SameButSquares layout') :
    ofEquations F layout' = ofEquations F layout := by
  have hequations : layout'.parts.equations = layout.parts.equations := by
    rw [h]
  rw [ofEquations, ofEquations, hequations, h.equation_eq, h.variableCount_eq]

namespace Session

section Elimination
variable {record record' : KrylovRecord} {tracked tracked' : List TrackedVariable}
  (hrecord : record.Filled F A v tracked rows (2 * n))
  (hsequence : record.sequence = .ok sequence) {key key₁ : KeyEquation} (hkey : key.field = F)
  (he : Elimination.ofSequence key sequence n layout = .ok (e, key₁))
include hrecord hsequence hkey he

/-- In shape position, unless all variables are linear, the eliminant is the minimal recurrence of
the power sums. -/
theorem isMinimalRecurrence_of_elimination (hlinear : layout.allLinear = false)
    (hshape : e.shapePosition = true) :
    IsMinimalRecurrence (e.eliminant.toPolynomial F) (krylov A (unitVector F.Element n 0) v) := by
  rcases ofSequence_cases hkey he with ⟨htrue, -, -⟩ | ⟨-, rfl, rfl⟩
  · simp [hlinear] at htrue
  · obtain ⟨hsize, -, hterms⟩ := hrecord.sequence_spec hsequence
    rw [Elimination.eliminant_ofMinimal hshape]
    exact isMinimalRecurrence_powerSums hsize hterms

theorem elimination_proportional (hc : c ≠ 0)
    (hrecord' : record'.Filled F A (c • v) tracked' rows' (2 * n))
    (hsequence' : record'.sequence = .ok sequence') (hlayout : layout.SameButSquares layout')
    {key' key₁' : KeyEquation} (hkey' : key'.field = F) {e' : Elimination}
    (he' : Elimination.ofSequence key' sequence' n layout' = .ok (e', key₁')) : e' = e := by
  rcases ofSequence_cases hkey he with ⟨hlinear, hequations, -⟩ | ⟨hlinear, rfl, rfl⟩
  · rcases ofSequence_cases hkey' he' with ⟨-, hequations', -⟩ | ⟨hlinear', -, -⟩
    · rw [Elimination.ofEquations_of_sameButSquares hlayout] at hequations'
      exact Except.ok.inj (hequations'.symm.trans hequations)
    · simp [hlayout.allLinear_eq, hlinear] at hlinear'
  · rcases ofSequence_cases hkey' he' with ⟨hlinear', -, -⟩ | ⟨-, rfl, rfl⟩
    · simp [hlayout.allLinear_eq, hlinear] at hlinear'
    · obtain ⟨hsize, -, hterms⟩ := hrecord.sequence_spec hsequence
      obtain ⟨hsize', -, hterms'⟩ := hrecord'.sequence_spec hsequence'
      have hminimal := (isMinimalRecurrence_powerSums hsize hterms).smul hc
      have hminimal' := isMinimalRecurrence_powerSums hsize' hterms'
      rw [krylov_smul] at hminimal'
      have hfield : ∀ sequence : Array UInt32,
          ((KeyEquation.empty F).addPoints sequence).solve.minimalPolynomial.field = F :=
        fun _ => KeyEquation.field_minimalPolynomial _ rfl
      rw [(Poly.toPolynomial_inj (hfield sequence') (hfield sequence)).mp
        (hminimal'.unique hminimal)]

end Elimination

section Coordinates
variable {s s' : Session} (hs : s.field = F) (hs' : s'.field = F)
  (hkey : s.key.field = F) (hkey' : s'.key.field = F) (hc : c ≠ 0)
  (hrecord : s.record.Filled F A v layout.tracked rows (2 * n))
  (hrecord' : s'.record.Filled F A (c • v) layout'.tracked rows' (2 * n))
  (hfits : KrylovRecord.Fits layout.tracked n) (hfits' : KrylovRecord.Fits layout'.tracked n)
  (hpos : 0 < n) (hlayout : layout.SameButSquares layout')
  (hsequence : s.record.sequence = .ok sequence) (hsequence' : s'.record.sequence = .ok sequence')
  (hsound : e.Sound F n)
include hs hs' hkey hkey' hc hrecord hrecord' hfits hfits' hpos hlayout hsequence hsequence' hsound

theorem coordinates_proportional_shape (hshape : e.shapePosition = true)
    (hminimal : layout.allLinear = false →
      IsMinimalRecurrence (e.eliminant.toPolynomial F) (krylov A (unitVector F.Element n 0) v))
    {verify verify' : Bool} {source source₁ source₁' : WordSource}
    {result result' : Except SolverError Outcome} {key key' : KeyEquation}
    (h : s.coordinates layout sequence e verify source = .ok (result, key, source₁))
    (h' : s'.coordinates layout' sequence' e verify' source = .ok (result', key', source₁')) :
    result' = result ∧ source₁ = source ∧ source₁' = source := by
  have htracked := hlayout.tracked_eq
  rw [coordinates, if_pos hshape, hs] at h
  rw [coordinates, if_pos hshape, hs', hlayout.variableCount_eq, htracked] at h'
  dsimp only at h h'
  cases hempty : layout.tracked.isEmpty with
  | true =>
    rw [List.isEmpty_map, hempty, if_pos rfl] at h'
    rw [hempty, if_pos rfl] at h
    cases h
    cases h'
    exact ⟨rfl, rfl, rfl⟩
  | false =>
    rw [List.isEmpty_map, hempty, if_neg Bool.false_ne_true, hrecord'.dimension_eq] at h'
    rw [hempty, if_neg Bool.false_ne_true, hrecord.dimension_eq] at h
    rw [htracked] at hrecord' hfits'
    obtain ⟨⟨inverse?, key₁⟩, hinvert, h⟩ := bind_eq_ok.mp h
    obtain ⟨⟨inverse?', key₁'⟩, hinvert', h'⟩ := bind_eq_ok.mp h'
    have hnone := invertHankel_eq_none_iff_of_proportional hc hrecord hrecord' hpos hsequence
      hsequence' hkey hkey'
    cases inverse? with
    | none =>
      obtain ⟨k, hk⟩ := hnone.mpr ⟨key₁, hinvert⟩
      obtain ⟨rfl, -⟩ := Prod.mk.inj (Except.ok.inj (hinvert'.symm.trans hk))
      cases h
      cases h'
      exact ⟨rfl, rfl, rfl⟩
    | some inverse =>
      cases inverse?' with
      | none =>
        obtain ⟨k, hk⟩ := hnone.mp ⟨key₁', hinvert'⟩
        simp [hinvert] at hk
      | some inverse' =>
        have hlinear : layout.allLinear = false := by
          by_contra htrue
          simp [layout.tracked_eq_nil_of_allLinear (Bool.not_eq_false _ ▸ htrue)] at hempty
        have hdegree : (e.eliminant.toPolynomial F).natDegree = n := by
          rw [Poly.natDegree_toPolynomial hsound.field_eliminant]
          exact hsound.shapePosition_iff.mp hshape
        obtain ⟨p, hp, h⟩ := bind_eq_ok.mp h
        obtain ⟨p', hp', h'⟩ := bind_eq_ok.mp h'
        rw [fillFromHankel_proportional hc hrecord hrecord' hpos hsequence hsequence' hkey hkey'
          (hminimal hlinear) hdegree hfits hfits' hinvert hinvert', hp] at hp'
        obtain rfl := Except.ok.inj hp'
        cases h
        cases h'
        exact ⟨rfl, rfl, rfl⟩

/-- Outside of shape position too, and the verdicts are those of the same check. -/
theorem coordinates_proportional {verify : Bool}
    (hverify : verify = true → layout' = layout ∧ rows = n ∧ rows' = n)
    (hminimal : layout.allLinear = false → e.shapePosition = true →
      IsMinimalRecurrence (e.eliminant.toPolynomial F) (krylov A (unitVector F.Element n 0) v))
    {source source₁ source₁' : WordSource} {result result' : Except SolverError Outcome}
    {key key' : KeyEquation}
    (h : s.coordinates layout sequence e verify source = .ok (result, key, source₁))
    (h' : s'.coordinates layout' sequence' e verify source = .ok (result', key', source₁')) :
    result' = result ∧ source₁' = source₁ := by
  cases hshape : e.shapePosition with
  | true =>
    obtain ⟨hresult, hsource, hsource'⟩ := coordinates_proportional_shape hs hs' hkey hkey' hc
      hrecord hrecord' hfits hfits' hpos hlayout hsequence hsequence' hsound hshape
      (fun hlinear => hminimal hlinear hshape) h h'
    exact ⟨hresult, hsource'.trans hsource.symm⟩
  | false =>
    have htracked := hlayout.tracked_eq
    rw [coordinates, if_neg (Bool.eq_false_iff.mp hshape), hs] at h
    rw [coordinates, if_neg (Bool.eq_false_iff.mp hshape), hs', hlayout.variableCount_eq,
      htracked] at h'
    rw [htracked] at hrecord' hfits'
    have hchecks : verify = true → layout.tracked.map (.withSquare fun x =>
        layout'.parts.squares.getD x.index none) = layout.tracked ∧ rows = n ∧ rows' = n := by
      intro hchecked
      obtain ⟨rfl, hrows⟩ := hverify hchecked
      exact ⟨htracked.symm, hrows⟩
    have hsame := fillFromQuotients_proportional
      (p := (Parametrization.blank F layout.variableCount).withEliminant e.eliminant)
      hrecord hrecord' hfits hfits' hsound.field_minimal hsound.natDegree_minimal_le
      hsound.field_eliminant hsound.monic.ne_zero hc hchecks source
    dsimp only at h h'
    rw [hsame] at h'
    obtain ⟨⟨r, t⟩, hfill, h⟩ := bind_eq_ok.mp h
    obtain ⟨⟨r', t'⟩, hfill', h'⟩ := bind_eq_ok.mp h'
    obtain ⟨rfl, rfl⟩ := Prod.mk.inj (Except.ok.inj (hfill.symm.trans hfill'))
    cases h
    cases h'
    exact ⟨rfl, rfl⟩

end Coordinates

/-! ## Runs -/

/-- How a run goes on from its coordinates: an error stays, and an outcome gets the coordinates of
the linear variables. -/
inductive Finished (layout : VariableLayout) :
    Except SolverError Outcome → Except SolverError Outcome → Prop
  | error (error : SolverError) : Finished layout (.error error) (.error error)
  | ok {outcome : Outcome} {p : Parametrization} :
      outcome.parametrization.substituteLinear layout = .ok p →
      Finished layout (.ok outcome) (.ok { outcome with parametrization := p })

section Run
variable {α : Type} [LinearOperator α] {op : α}
  {A : Matrix (Fin (LinearOperator.dimension op)) (Fin (LinearOperator.dimension op)) F.Element}
  {s : Session} {probe : Array UInt32} {source : WordSource} {reply : Reply}

theorem stages_of_run (hs : s.field = F) (hkey : s.key.field = F)
    (hop : LinearOperator.ActsAs op F A) (hpos : 0 < LinearOperator.dimension op)
    (hcheck : checkInput s.field op layout probe = .ok ())
    (h : s.run op layout probe none source = .ok reply) :
    ∃ record sequence e key result key' source',
      record.Filled F A (F.vector _ probe) layout.tracked
        (if s.config.verify then LinearOperator.dimension op else 0)
        (2 * LinearOperator.dimension op) ∧
      record.sequence = .ok sequence ∧
      Elimination.ofSequence s.key sequence (LinearOperator.dimension op) layout = .ok (e, key) ∧
      e.Sound F (LinearOperator.dimension op) ∧ key.field = F ∧
      ({ s with record := record, key := key } : Session).coordinates layout sequence e
        s.config.verify source = .ok (result, key', source') ∧
      Finished layout result reply.result ∧ reply.source = source' := by
  obtain ⟨-, hdimension, hprobe⟩ := checkInput_eq_ok hcheck
  rcases run_eq_ok h with ⟨error, herror, -⟩ | ⟨-, h⟩
  · simp [hcheck] at herror
  · obtain ⟨record, sequence, e, key, hrecord, hsequence, he, hcase⟩ := runStages_eq_ok h
    rw [hs] at hrecord
    have hfilled := KrylovRecord.filled_of_generate hop (layout.fits_tracked hdimension) hpos
      hprobe hrecord
    obtain ⟨e', key', he', hsound, hkey'⟩ := Elimination.ofSequence_eq_ok hkey
      (hfilled.sequence_spec hsequence).1 hdimension
    obtain ⟨rfl, rfl⟩ := Prod.mk.inj (Except.ok.inj (he.symm.trans he'))
    simp only [Option.isNone_none, Bool.and_true] at hfilled hcase
    rcases hcase with ⟨d, hnone, -⟩ | ⟨-, result, key₁, source', hcoordinates, hcase⟩
    · contradiction
    refine ⟨record, sequence, e, key, result, key₁, source', hfilled, hsequence, he, hsound, hkey',
      hcoordinates, ?_⟩
    rcases hcase with ⟨error, rfl, rfl⟩ | ⟨first, p, rfl, hp, rfl⟩
    · exact ⟨.error error, rfl⟩
    · exact ⟨.ok hp, rfl⟩

theorem checkInput_congr {probe' : Array UInt32} (hsize : probe'.size = probe.size) :
    checkInput F op layout probe' = checkInput F op layout probe := by
  rw [checkInput, checkInput, hsize]

end Run

theorem Finished.unique {first result result' : Except SolverError Outcome}
    (h : Finished layout first result) (h' : Finished layout first result') : result' = result := by
  cases h with
  | error error =>
    cases h'
    rfl
  | ok hp =>
    cases h' with
    | ok hp' => rw [Except.ok.inj (hp.symm.trans hp')]

theorem vector_map_mul (c : UInt32) (probe : Array UInt32) :
    F.vector n (probe.map (F.mul c)) = F.value c • F.vector n probe := by
  funext i
  rw [vector, Pi.smul_apply, vector, PrimeField.terms, PrimeField.terms,
    Array.getD_eq_getD_getElem?, Array.getD_eq_getD_getElem?, Array.getElem?_map]
  cases probe[(i : ℕ)]? <;> simp

section Pair
variable {s s' : Session} (hs : s.key.field = s.field) (hs' : s'.key.field = s'.field)
  (hfield : s'.field = s.field) {M : MultiplicationMatrix} {probe probe' : Array UInt32}
  {c : s.field.Element} (hc : c ≠ 0)
  (hprobe : s.field.vector M.dimension probe' = c • s.field.vector M.dimension probe)
  (hlayout : layout.SameButSquares layout') {source : WordSource} {reply reply' : Reply}
include hs hs' hfield hc hprobe hlayout

/-- Two runs from proportional probes come to the same elimination, and from there their coordinates
are the same, unless checks with different squares are asked for. -/
theorem stages_proportional (hcheck : checkInput s.field M layout probe = .ok ())
    (hcheck' : checkInput s'.field M layout' probe' = .ok ())
    (h : s.run M layout probe none source = .ok reply)
    (h' : s'.run M layout' probe' none source = .ok reply') :
    ∃ (t t' : Session) (sequence sequence' : Array UInt32) (e : Elimination)
      (result result' : Except SolverError Outcome) (key key' : KeyEquation),
      t.coordinates layout sequence e s.config.verify source = .ok (result, key, reply.source) ∧
      t'.coordinates layout' sequence' e s'.config.verify source =
        .ok (result', key', reply'.source) ∧
      Finished layout result reply.result ∧ Finished layout' result' reply'.result ∧
      ∀ verify, (verify = true →
          layout' = layout ∧ s.config.verify = true ∧ s'.config.verify = true) →
        ∀ r r' k k' source₁ source₁',
          t.coordinates layout sequence e verify source = .ok (r, k, source₁) →
          t'.coordinates layout' sequence' e verify source = .ok (r', k', source₁') →
          r' = r ∧ source₁' = source₁ := by
  obtain ⟨hmatrix, hdimension, -⟩ := checkInput_eq_ok hcheck
  have hfits := layout.fits_tracked hdimension
  have hfits' := layout'.fits_tracked (checkInput_eq_ok hcheck').2.1
  have hop := M.actsAs hmatrix
  obtain ⟨record, sequence, e, key, result, key₁, source₁, hrecord, hsequence, he, hsound, hkey,
    hcoordinates, hfinished, rfl⟩ := stages_of_run rfl hs hop M.dimension_pos hcheck h
  obtain ⟨record', sequence', e', key', result', key₁', source₁', hrecord', hsequence', he', -,
    hkey', hcoordinates', hfinished', rfl⟩ :=
    stages_of_run hfield (hs'.trans hfield) hop M.dimension_pos hcheck' h'
  replace hrecord' : record'.Filled s.field (M.toMatrix s.field)
    (c • s.field.vector M.dimension probe) layout'.tracked _ _ := hprobe ▸ hrecord'
  obtain rfl := elimination_proportional hrecord hsequence hs he hc hrecord' hsequence' hlayout
    (hs'.trans hfield) he'
  refine ⟨_, _, sequence, sequence', _, result, result', key₁, key₁', hcoordinates, hcoordinates',
    hfinished, hfinished', ?_⟩
  intro verify hverify r r' k k' source₁ source₁'
  have hfield' : ({ s' with record := record', key := key' } : Session).field = s.field := hfield
  apply coordinates_proportional (s := { s with record := record, key := key }) rfl hfield' hkey
    hkey' hc hrecord hrecord' hfits hfits' M.dimension_pos hlayout hsequence hsequence' hsound
  · intro hchecked
    obtain ⟨hsame, htrue, htrue'⟩ := hverify hchecked
    exact ⟨hsame, if_pos htrue, if_pos htrue'⟩
  · exact isMinimalRecurrence_of_elimination hrecord hsequence hs he

end Pair

variable {s : Session} {M : MultiplicationMatrix} {probe : Array UInt32} {c : UInt32}
  {source : WordSource} {reply reply' : Reply}

theorem run_scale (hs : s.key.field = s.field) (hc : s.field.value c ≠ 0)
    (h : s.run M layout probe none source = .ok reply)
    (h' : s.run M layout (probe.map (s.field.mul c)) none source = .ok reply') :
    reply'.result = reply.result ∧ reply'.source = reply.source := by
  have hsame : checkInput s.field M layout (probe.map (s.field.mul c)) =
      checkInput s.field M layout probe := checkInput_congr Array.size_map
  cases hcheck : checkInput s.field M layout probe with
  | error error =>
    rw [run, hcheck] at h
    rw [run, hsame, hcheck] at h'
    obtain rfl := Except.ok.inj (h.symm.trans h')
    exact ⟨rfl, rfl⟩
  | ok =>
    obtain ⟨t, t', sequence, sequence', e, result, result', key, key', hcoordinates, hcoordinates',
      hfinished, hfinished', hequal⟩ := stages_proportional hs hs rfl hc (vector_map_mul c probe)
        (.refl layout) hcheck (hsame.trans hcheck) h h'
    obtain ⟨rfl, hsource⟩ := hequal s.config.verify (fun hverify => ⟨rfl, hverify, hverify⟩)
      _ _ _ _ _ _ hcoordinates hcoordinates'
    exact ⟨hfinished.unique hfinished', hsource⟩

/-- A probe and its multiple by any residue other than zero lead to the same result, the same
parametrization with the same verdict or the same error, and to the same random words. -/
theorem Reachable.solveFrom_scale (hs : s.Reachable) (M : MultiplicationMatrix)
    (layout : VariableLayout) (probe : Array UInt32) (hc : s.field.value c ≠ 0)
    (source : WordSource) :
    ∃ reply reply', s.solveFrom M layout probe source = .ok reply ∧
      s.solveFrom M layout (probe.map (s.field.mul c)) source = .ok reply' ∧
      reply'.result = reply.result ∧ reply'.source = reply.source := by
  obtain ⟨reply, h⟩ := run_total hs.field_key M layout probe none source
  obtain ⟨reply', h'⟩ :=
    run_total hs.field_key M layout (probe.map (s.field.mul c)) none source
  exact ⟨reply, reply', h, h', run_scale hs.field_key hc h h'⟩

/-- A double point at `t = 1` with a wrong square for `x_0 = t ^ 2`.  The check fails for three
times the probe as it does for the probe, with the same word. -/
theorem Reachable.solveFrom_scale_doublePoint :
    ∃ (s : Session) (M : MultiplicationMatrix) (layout : VariableLayout) (reply reply' : Reply),
      open? 7 {} = .ok s ∧ M.parts = ⟨3, #[2, 2, 4], #[0, 1], #[1, 2], #[2]⟩ ∧
      layout.parts = ⟨2, 0, #[false], #[], #[some 0]⟩ ∧ s.field.value 3 ≠ 0 ∧
      s.solveFrom M layout #[1, 0, 3] (.listed [1, 2, 3]) = .ok reply ∧
      s.solveFrom M layout #[3, 0, 2] (.listed [1, 2, 3]) = .ok reply' ∧
      reply.result.map Outcome.verdict = .ok (.failed 0 1) ∧ reply.source = .listed [2, 3] ∧
      reply'.result = reply.result ∧ reply'.source = reply.source := by
  let F : PrimeField := ⟨7, by decide +kernel, by decide⟩
  let M : MultiplicationMatrix := ⟨⟨3, #[2, 2, 4], #[0, 1], #[1, 2], #[2]⟩, by decide +kernel, 64⟩
  let layout : VariableLayout := ⟨⟨2, 0, #[false], #[], #[some 0]⟩, by decide +kernel⟩
  have hopen : open? 7 {} = .ok ⟨F, {}, .empty, .empty F, none⟩ := by decide +kernel
  have hthree : F.value 3 ≠ 0 := by decide +kernel
  have hprobe : (#[1, 0, 3] : Array UInt32).map (F.mul 3) = #[3, 0, 2] := by decide +kernel
  obtain ⟨reply, reply', hreply, hreply', hresult, hsource⟩ := solveFrom_scale (.opened hopen) M
    layout #[1, 0, 3] hthree (.listed [1, 2, 3])
  have hrun : ((⟨F, {}, .empty, .empty F, none⟩ : Session).solveFrom M layout #[1, 0, 3]
      (.listed [1, 2, 3])).map (fun r => (r.result.map Outcome.verdict, r.source)) =
        .ok (.ok (.failed 0 1), .listed [2, 3]) := by decide +kernel
  obtain ⟨reply₁, hreply₁, hafter⟩ := map_eq_ok.mp hrun
  obtain rfl := Except.ok.inj (hreply.symm.trans hreply₁)
  obtain ⟨hverdict, hwords⟩ := Prod.mk.inj hafter
  rw [hprobe] at hreply'
  exact ⟨_, M, layout, reply, reply', hopen, rfl, rfl, hthree, hreply, hreply', hverdict, hwords,
    hresult, hsource⟩

end Session

end ZeroDim
