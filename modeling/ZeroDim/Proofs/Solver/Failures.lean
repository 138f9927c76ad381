import Mathlib
import ZeroDim.Proofs.Hankel.Regular
import ZeroDim.Proofs.Solver.ProbeInvariance
import ZeroDim.Proofs.Solver.Totality

/-! # When a run fails

A run on an input that passes its checks can end in two errors only, and both are told by the power
sums.  The numerator of the power sums has an inverse unless all of them are zero, because it is
prime to their minimal recurrence.  In shape position the direct Hankel matrix is regular, so that
an inversion fails for want of a pivot, at this level and at both later ones. -/

set_option autoImplicit false

namespace ZeroDim

open Polynomial PrimeField Matrix

/-! ## Power sums that vanish -/

theorem IsMinimalRecurrence.natDegree_eq_zero_iff {K : Type*} [Field K] {P : K[X]} {u : ℕ → K}
    (h : IsMinimalRecurrence P u) : P.natDegree = 0 ↔ u = 0 := by
  constructor
  · intro hzero
    have hone := eq_one_of_monic_natDegree_zero h.monic hzero
    rw [← act_one u, ← hone]
    exact h.recurrence
  · rintro rfl
    have hunit := isUnit_of_dvd_one (h.dvd 1 (act_zero_right 1))
    exact natDegree_eq_zero_of_isUnit hunit

theorem krylov_eq_zero_iff {K : Type*} [Field K] {n : ℕ} {A : Matrix (Fin n) (Fin n) K}
    {u v : Fin n → K} : krylov A u v = 0 ↔ ∀ i < n, krylov A u v i = 0 := by
  constructor
  · intro h i _
    rw [h, Pi.zero_apply]
  · intro h
    apply eq_zero_of_act_eq_zero A.charpoly_monic.ne_zero act_charpoly_krylov
    rw [A.charpoly_natDegree_eq_dim, Fintype.card_fin]
    exact h

variable {F : PrimeField} {n rows : ℕ} {A : Matrix (Fin n) (Fin n) F.Element}
  {v : Fin n → F.Element} {tracked : List TrackedVariable} {record : KrylovRecord}

/-- The only error outside of shape position is that of a minimal recurrence of degree zero. -/
theorem fillFromQuotients_error_iff {P : F.Element[X]} {minimal : Poly} {p : Parametrization}
    (hrecord : record.Filled F A v tracked rows (2 * n))
    (hP : IsMinimalRecurrence P (krylov A (unitVector F.Element n 0) v))
    (hfield : minimal.field = F) (hminimal : minimal.toPolynomial F = P)
    (hE : p.eliminant.field = F)
    (helim : p.eliminant.toPolynomial F = UniqueFactorizationMonoid.radical P) {verify : Bool}
    {source source' : WordSource} {result : Except SolverError Outcome}
    (h : fillFromQuotients record minimal tracked verify p source = .ok (result, source'))
    (error : SolverError) :
    result = .error error ↔ error = .singularNumerator ∧
      krylov A (unitVector F.Element n 0) v = 0 := by
  have hdegree : minimal.natDegree = 0 ↔ krylov A (unitVector F.Element n 0) v = 0 := by
    rw [← hP.natDegree_eq_zero_iff, ← hminimal, Poly.natDegree_toPolynomial hfield]
  obtain ⟨-, sequence, inverse, hsequence, hinverse, -⟩ :=
    exists_numeratorInverse hrecord hP hfield hminimal hE helim
  rw [fillFromQuotients] at h
  dsimp only at h
  split at h
  · rename_i hzero
    obtain rfl := (Prod.mk.inj (Except.ok.inj h)).1
    rw [and_iff_left (hdegree.mp hzero), Except.error.injEq, eq_comm]
  · rename_i hne
    rw [← hdegree]
    refine iff_of_false ?_ fun hzero => hne hzero.2
    rw [hsequence, ok_bind, hinverse, ok_bind] at h
    obtain ⟨q, -, h⟩ := bind_eq_ok.mp h
    split at h
    · obtain ⟨⟨verdict, source₁⟩, -, h⟩ := bind_eq_ok.mp h
      rw [← (Prod.mk.inj (Except.ok.inj h)).1]
      exact fun heq => by contradiction
    · rw [← (Prod.mk.inj (Except.ok.inj h)).1]
      exact fun heq => by contradiction

namespace Session

variable {s : Session} {layout : VariableLayout} {sequence : Array UInt32} {e : Elimination}
  {verify : Bool} {source source' : WordSource} {result : Except SolverError Outcome}
  {key : KeyEquation}

/-- In shape position, nothing can fail without variables to track. -/
theorem coordinates_ne_error (htracked : layout.tracked = []) (hshape : e.shapePosition = true)
    (h : s.coordinates layout sequence e verify source = .ok (result, key, source'))
    (error : SolverError) : result ≠ .error error := by
  rw [coordinates, htracked] at h
  dsimp only at h
  rw [if_pos hshape, if_pos List.isEmpty_nil] at h
  rw [← (Prod.mk.inj (Except.ok.inj h)).1]
  exact fun heq => by contradiction

/-- The power sums have a square-free minimal recurrence of full degree, and no level of windows
gives an inverse. -/
structure Unpivoted (n : ℕ) (u : ℕ → F.Element) : Prop where
  recurrence : ∃ P, IsMinimalRecurrence P u ∧ Squarefree P ∧ P.natDegree = n
  regular : (hankelMatrix n u).det ≠ 0
  pivot : hankelPivot n u = 0
  shifted : HankelFails n fun i => u (i + 1)
  deflated : HankelFails n fun i => u i - u (i + 1)

theorem coordinates_error_iff {minimal : Poly} (hkey : s.key.field = F)
    (hrecord : s.record.Filled F A v layout.tracked rows (2 * n)) (hpos : 0 < n)
    (hsequence : s.record.sequence = .ok sequence)
    (hminimal : minimal = ((KeyEquation.empty F).addPoints sequence).solve.minimalPolynomial)
    (he : e = .ofMinimal minimal n)
    (h : s.coordinates layout sequence e verify source = .ok (result, key, source'))
    (error : SolverError) :
    result = .error error ↔
      (error = .singularNumerator ∧ krylov A (unitVector F.Element n 0) v = 0) ∨
      (error = .singularHankel n ∧ layout.tracked ≠ [] ∧
        Unpivoted n (krylov A (unitVector F.Element n 0) v)) := by
  set u := krylov A (unitVector F.Element n 0) v with hu
  have hfield : minimal.field = F := hminimal ▸ KeyEquation.field_minimalPolynomial _ rfl
  obtain ⟨hsize, hred, hterms⟩ := hrecord.sequence_spec hsequence
  have hP := isMinimalRecurrence_powerSums hsize hterms
  rw [← hminimal, ← hu] at hP
  have hsquare := Poly.isSquareFree_iff hfield hP.monic.ne_zero
  rw [Elimination.ofMinimal] at he
  split at he
  · rename_i hshape
    subst he
    have hdeg : (minimal.toPolynomial F).natDegree = n := by
      rw [Poly.natDegree_toPolynomial hfield, hshape.1]
    have hrecurrence : ∃ P, IsMinimalRecurrence P u ∧ Squarefree P ∧ P.natDegree = n :=
      ⟨_, hP, hsquare.mp hshape.2, hdeg⟩
    have hregular := hP.det_hankelMatrix_ne_zero hdeg
    have hne : u ≠ 0 := by
      rw [Ne, ← hP.natDegree_eq_zero_iff, hdeg]
      exact hpos.ne'
    rw [or_iff_right fun hzero => hne hzero.2]
    have hsearch := KeyEquation.invertHankel_eq_none_iff hred hpos hsize.ge hterms hregular hkey
    by_cases hnil : layout.tracked = []
    · exact iff_of_false (coordinates_ne_error hnil rfl h error) fun hfails => hfails.2.1 hnil
    rcases coordinates_eq_ok h with ⟨-, hnil', -⟩ | ⟨-, hnone, rfl⟩ |
      ⟨-, inverse, p, hsome, hfill, rfl⟩ | ⟨hshape', -⟩
    · exact absurd hnil' hnil
    · rw [hrecord.dimension_eq] at hnone ⊢
      obtain ⟨hpivot, hshifted, hdeflated⟩ := hsearch.mp ⟨key, hnone⟩
      rw [and_iff_left ⟨hnil, hrecurrence, hregular, hpivot, hshifted, hdeflated⟩,
        Except.error.injEq, eq_comm]
    · rw [hrecord.dimension_eq] at hsome
      refine iff_of_false (fun heq => by contradiction) fun hfails => ?_
      obtain ⟨key', hnone⟩ := hsearch.mpr ⟨hfails.2.2.pivot, hfails.2.2.shifted,
        hfails.2.2.deflated⟩
      rw [hsome] at hnone
      have := (Prod.mk.inj (Except.ok.inj hnone)).1
      contradiction
    · contradiction
  · rename_i hshape
    have hfails : ¬Unpivoted n u := by
      intro hfails
      obtain ⟨Q, hQ, hQsquare, hQdeg⟩ := hfails.recurrence
      rw [hQ.unique hP] at hQsquare hQdeg
      rw [Poly.natDegree_toPolynomial hfield] at hQdeg
      exact hshape ⟨hQdeg, hsquare.mpr hQsquare⟩
    rw [or_iff_left fun hall => hfails hall.2.2]
    obtain ⟨hradical, hradicalEq⟩ := Poly.toPolynomial_radical hfield hP.monic.ne_zero
    have hshape' : e.shapePosition ≠ true := by
      rw [he]
      exact Bool.false_ne_true
    rcases coordinates_eq_ok h with ⟨htrue, -⟩ | ⟨htrue, -⟩ | ⟨htrue, -⟩ | ⟨-, -, hfill⟩
    · exact absurd htrue hshape'
    · exact absurd htrue hshape'
    · exact absurd htrue hshape'
    · rw [he] at hfill
      exact fillFromQuotients_error_iff (p := s.startOf layout ⟨minimal.radical, minimal, false⟩)
        hrecord hP hfield rfl hradical hradicalEq hfill error

theorem runStages_error_iff (hs : s.field = F) (hkey : s.key.field = F) {α : Type}
    [LinearOperator α] {op : α}
    {A : Matrix (Fin (LinearOperator.dimension op)) (Fin (LinearOperator.dimension op)) F.Element}
    (hop : LinearOperator.ActsAs op F A) (hpos : 0 < LinearOperator.dimension op)
    {probe : Array UInt32} (hcheck : checkInput s.field op layout probe = .ok ())
    (source : WordSource) :
    ∃ reply, s.runStages op layout probe none source = .ok reply ∧
      ∀ error, reply.result = .error error ↔
        (error = .singularNumerator ∧ layout.allLinear = false ∧
          krylov A (unitVector F.Element _ 0) (F.vector _ probe) = 0) ∨
        (error = .singularHankel (LinearOperator.dimension op) ∧ layout.tracked ≠ [] ∧
          Unpivoted (LinearOperator.dimension op)
            (krylov A (unitVector F.Element _ 0) (F.vector _ probe))) := by
  obtain ⟨reply, hreply, record, sequence, e, key, hfilled, hsequence, he, -, hkey', hresult⟩ :=
    runStages_total hs hkey hop hpos hcheck none source
  obtain ⟨result, key', source', hcoordinates, hiff⟩ := hresult rfl
  refine ⟨reply, hreply, ?_⟩
  intro error
  rw [hiff]
  rcases ofSequence_cases hkey he with ⟨hlinear, hequations, -⟩ | ⟨hlinear, rfl, rfl⟩
  · have hnil := layout.tracked_eq_nil_of_allLinear hlinear
    refine iff_of_false (coordinates_ne_error hnil (Elimination.ofEquations_spec hequations).1
      hcoordinates error) ?_
    rintro (⟨-, hfalse, -⟩ | ⟨-, htracked, -⟩)
    · rw [hlinear] at hfalse
      contradiction
    · exact htracked hnil
  · rw [coordinates_error_iff (s := { s with record := record, key := _ }) hkey' hfilled hpos
      hsequence rfl rfl hcoordinates error, hlinear]
    simp only [true_and]

theorem checkInput_of {α : Type} [LinearOperator α] {op : α} {probe : Array UInt32}
    (hfield : LinearOperator.checkField op F = .ok ())
    (hdimension : layout.checkDimension (LinearOperator.dimension op) = .ok ())
    (hprobe : probe.size = LinearOperator.dimension op) :
    checkInput F op layout probe = .ok () := by
  rw [checkInput, hfield, hdimension]
  exact if_neg (not_not.mpr hprobe)

/-- On an input that passes its checks, a run from a probe always replies.  The reply is an error
exactly when all power sums are zero, unless every variable is linear, or when there is a variable
to track and no level of windows gives an inverse of the regular Hankel matrix of the power sums. -/
theorem Reachable.solveFrom_error_iff (hs : s.Reachable) {M : MultiplicationMatrix}
    (hfield : M.checkField s.field = .ok ())
    (hdimension : layout.checkDimension M.dimension = .ok ()) {probe : Array UInt32}
    (hprobe : probe.size = M.dimension) (source : WordSource) :
    ∃ reply, s.solveFrom M layout probe source = .ok reply ∧
      ∀ error, reply.result = .error error ↔
        (error = .singularNumerator ∧ layout.allLinear = false ∧
          ∀ i < M.dimension, krylov (M.toMatrix s.field) (unitVector s.field.Element M.dimension 0)
            (s.field.vector M.dimension probe) i = 0) ∨
        (error = .singularHankel M.dimension ∧ layout.tracked ≠ [] ∧
          Unpivoted M.dimension (krylov (M.toMatrix s.field)
            (unitVector s.field.Element M.dimension 0) (s.field.vector M.dimension probe))) := by
  have hcheck : checkInput s.field M layout probe = .ok () :=
    checkInput_of hfield hdimension hprobe
  obtain ⟨reply, hreply, herror⟩ := runStages_error_iff rfl hs.field_key (M.actsAs hfield)
    M.dimension_pos hcheck source
  refine ⟨reply, ?_, ?_⟩
  · rw [solveFrom, run, hcheck]
    exact hreply
  · intro error
    rw [herror, krylov_eq_zero_iff]
    rfl

/-- Three points over the field with seven elements and a probe without pivots: the power sums
`1, 1, 0, 0, 5, 5` have the minimal recurrence `(t - 1) (t ^ 2 - 2)`. -/
theorem Reachable.solveFrom_error_iff_withoutPivot :
    ∃ (s : Session) (M : MultiplicationMatrix) (reply : Reply), open? 7 {} = .ok s ∧
      M.parts = ⟨3, #[5, 2, 1], #[0, 1], #[1, 2], #[2]⟩ ∧
      s.solveFrom M (.generic 2) #[1, 1, 0] (.ofSeed 42) = .ok reply ∧
      reply.result = .error (.singularHankel 3) ∧
      Unpivoted M.dimension (krylov (M.toMatrix s.field)
        (unitVector s.field.Element M.dimension 0) (s.field.vector M.dimension #[1, 1, 0])) := by
  let F : PrimeField := ⟨7, by decide +kernel, by decide⟩
  let M : MultiplicationMatrix := ⟨⟨3, #[5, 2, 1], #[0, 1], #[1, 2], #[2]⟩, by decide +kernel, 64⟩
  have hopen : open? 7 {} = .ok ⟨F, {}, .empty, .empty F, none⟩ := by decide +kernel
  have hrun : ((⟨F, {}, .empty, .empty F, none⟩ : Session).solveFrom M (.generic 2) #[1, 1, 0]
      (.ofSeed 42)).map Reply.result = .ok (.error (.singularHankel 3)) := by decide +kernel
  obtain ⟨reply, hreply, hresult⟩ := map_eq_ok.mp hrun
  have hfield : M.checkField F = .ok () := by decide +kernel
  have hdimension : (VariableLayout.generic 2).checkDimension M.dimension = .ok () := by
    decide +kernel
  have hprobe : (#[1, 1, 0] : Array UInt32).size = M.dimension := rfl
  obtain ⟨reply', hreply', herror⟩ :=
    solveFrom_error_iff (.opened hopen) hfield hdimension hprobe (.ofSeed 42)
  obtain rfl := Except.ok.inj (hreply.symm.trans hreply')
  refine ⟨_, M, reply, hopen, rfl, hreply, hresult, ?_⟩
  rcases (herror _).mp hresult with ⟨hne, -⟩ | ⟨-, -, hfails⟩
  · contradiction
  · exact hfails

end Session

end ZeroDim
