import Mathlib
import ZeroDim.Proofs.Parametrization.Substitution
import ZeroDim.Proofs.Solver.ProbeInvariance

/-! # The form of an outcome

An outcome has one coordinate for each variable but `t`, all polynomials over the field that the
session is left with, a monic square-free eliminant, denominator one, and coordinates shorter than
the eliminant.  None of it depends on the way the coordinates were found: a coordinate is a
remainder modulo the eliminant in every pass, and it is zero before the first.  Shape position is
the case of an eliminant of full degree.

The tracked and the linear variables share the coordinates.  The tracked pass writes what the record
gives, the linear pass what the equations give, and no index is written twice, so that all of it is
there at the end. -/

set_option autoImplicit false

namespace ZeroDim

open Polynomial PrimeField Matrix

variable {F : PrimeField}

theorem Poly.length_lt_of_mod? {a b r : Poly} (h : a.mod? b = .ok r) : r.length < b.length := by
  obtain ⟨hzero, rfl⟩ := Poly.mod?_eq_ok_iff.mp h
  exact length_mod_lt a hzero

/-! ## Short coordinates -/

namespace Parametrization

def Short (p : Parametrization) : Prop := ∀ a ∈ p.coordinates, a.length < p.eliminant.length

variable {p p' : Parametrization}

theorem Short.withCoordinate (hp : p.Short) {i : ℕ} {a : Poly}
    (ha : a.length < p.eliminant.length) (h : p.withCoordinate i a = .ok p') : p'.Short := by
  obtain ⟨hframe, -, hcoord⟩ := withCoordinate_spec h
  intro b hb
  rw [hframe.eliminant_eq]
  obtain ⟨j, hj⟩ := Array.mem_iff_getElem?.mp hb
  rw [hcoord] at hj
  split at hj
  · rw [← Option.some.inj hj]
    exact ha
  · exact hp b (Array.mem_of_getElem? hj)

theorem Short.fillWith {ι : Type} {index : ι → ℕ} {f : Parametrization → ι → Checked Poly}
    (hf : ∀ q x a, f q x = .ok a → a.length < q.eliminant.length) (xs : List ι) (hp : p.Short)
    (h : fillWith index f xs p = .ok p') : p'.Short :=
  fillWith_preserves (fun q x a _ hq ha hwrite => hq.withCoordinate (hf q x a ha) hwrite) xs hp h

theorem Short.substituteLinear {layout : VariableLayout} (hp : p.Short)
    (h : p.substituteLinear layout = .ok p') : p'.Short := by
  unfold Parametrization.substituteLinear at h
  split at h
  · obtain rfl := Except.ok.inj h
    exact hp
  · rw [fillLinear_eq] at h
    refine Short.fillWith ?_ _ hp h
    intro q x a ha
    obtain ⟨row, -, ha⟩ := bind_eq_ok.mp ha
    obtain ⟨c₀, -, ha⟩ := bind_eq_ok.mp ha
    obtain ⟨c₁, -, ha⟩ := bind_eq_ok.mp ha
    obtain ⟨rest, -, ha⟩ := bind_eq_ok.mp ha
    exact Poly.length_lt_of_mod? ha

end Parametrization

theorem Parametrization.Short.fillFromHankel {record : KrylovRecord} {inverse : HankelInverse}
    {tracked : List TrackedVariable} {p p' : Parametrization} (hp : p.Short)
    (h : fillFromHankel record inverse tracked p = .ok p') : p'.Short := by
  rw [fillFromHankel_eq] at h
  refine Short.fillWith ?_ _ hp h
  intro q x a ha
  obtain ⟨stream, -, ha⟩ := bind_eq_ok.mp ha
  obtain ⟨b, -, ha⟩ := bind_eq_ok.mp ha
  exact Poly.length_lt_of_mod? ha

theorem Parametrization.Short.fillFromNumerators {record : KrylovRecord} {minimal inverse : Poly}
    {tracked : List TrackedVariable} {p p' : Parametrization} (hp : p.Short)
    (h : fillFromNumerators record minimal inverse tracked p = .ok p') : p'.Short := by
  rw [fillFromNumerators_eq] at h
  refine Short.fillWith ?_ _ hp h
  intro q x a ha
  obtain ⟨stream, -, ha⟩ := bind_eq_ok.mp ha
  obtain ⟨N, -, ha⟩ := bind_eq_ok.mp ha
  obtain ⟨reduced, -, ha⟩ := bind_eq_ok.mp ha
  exact Poly.length_lt_of_mod? ha

/-! ## What the passes write -/

/-- The coordinate modulo `E` that a record gives for a tracked variable: the solution of a Hankel
system in shape position, and a quotient of numerators otherwise. -/
inductive KrylovRecord.Gives (F : PrimeField) (record : KrylovRecord) (E : Poly) (verdict : Verdict)
    (x : TrackedVariable) (a : Poly) : Prop
  | solution {sequence stream : Array UInt32} {key : KeyEquation} {inverse : HankelInverse}
      {b : Poly} : verdict = .shapePosition → record.sequence = .ok sequence →
      ((KeyEquation.empty F).addPoints sequence).solve.invertHankel sequence record.dimension =
        .ok (some inverse, key) →
      record.terms.column x.column (record.dimension + 1) = .ok stream →
      inverse.solveStream stream = .ok b → b.mod? E = .ok a → Gives F record E verdict x a
  | quotient {sequence powerSums stream : Array UInt32} {minimal inverse : Poly} :
      verdict ≠ .shapePosition → record.sequence = .ok sequence →
      minimal = ((KeyEquation.empty F).addPoints sequence).solve.minimalPolynomial →
      record.terms.column 0 minimal.natDegree = .ok powerSums →
      numeratorInverse? minimal E powerSums = .ok (some inverse) →
      record.terms.column x.column minimal.natDegree = .ok stream →
      numeratorQuotient minimal E stream inverse = .ok a → Gives F record E verdict x a

theorem KrylovRecord.Gives.unique {record : KrylovRecord} {E : Poly} {verdict : Verdict}
    {x : TrackedVariable} {a b : Poly} (ha : record.Gives F E verdict x a)
    (hb : record.Gives F E verdict x b) : a = b := by
  cases ha with
  | solution hshape hsequence hinvert hstream hsolve hmod =>
    cases hb with
    | solution _ hsequence' hinvert' hstream' hsolve' hmod' =>
      obtain rfl := Except.ok.inj (hsequence.symm.trans hsequence')
      obtain ⟨hinverse, -⟩ := Prod.mk.inj (Except.ok.inj (hinvert.symm.trans hinvert'))
      obtain rfl := Option.some.inj hinverse
      obtain rfl := Except.ok.inj (hstream.symm.trans hstream')
      obtain rfl := Except.ok.inj (hsolve.symm.trans hsolve')
      exact Except.ok.inj (hmod.symm.trans hmod')
    | quotient hshape' => exact absurd hshape hshape'
  | quotient hshape hsequence hminimal hpowerSums hinverse hstream hquotient =>
    cases hb with
    | solution hshape' => exact absurd hshape' hshape
    | quotient _ hsequence' hminimal' hpowerSums' hinverse' hstream' hquotient' =>
      obtain rfl := Except.ok.inj (hsequence.symm.trans hsequence')
      obtain rfl := hminimal.trans hminimal'.symm
      obtain rfl := Except.ok.inj (hpowerSums.symm.trans hpowerSums')
      obtain rfl := Option.some.inj (Except.ok.inj (hinverse.symm.trans hinverse'))
      obtain rfl := Except.ok.inj (hstream.symm.trans hstream')
      exact Except.ok.inj (hquotient.symm.trans hquotient')

/-- The equation with number `x.2` gives `a` for the variable `x.1`, from the coordinates above. -/
def Parametrization.EquationGives (p : Parametrization) (layout : VariableLayout) (x : ℕ × ℕ)
    (a : Poly) : Prop :=
  ∃ row, layout.equation x.2 = .ok row ∧ p.solveEquation row x.1 = .ok a

theorem Parametrization.Solves.equationGives {layout : VariableLayout} {p : Parametrization}
    (h : p.Solves F layout) {k r : ℕ} (hkr : (k, r) ∈ layout.linearVariables.zipIdx) :
    ∃ a, p.EquationGives layout (k, r) a ∧ p.coordinates[k]? = some a := by
  have hk : k ∈ layout.linearVariables :=
    List.mem_of_getElem? (List.mem_zipIdx_iff_getElem?.mp hkr)
  obtain ⟨r', row, hkr', hrow, hcoord⟩ := h.linear k hk
  obtain rfl := layout.equationIndex_unique hkr hkr'
  obtain ⟨-, row', hrow', hsize⟩ := layout.linearEquation hkr
  obtain rfl := Except.ok.inj (hrow.symm.trans hrow')
  obtain ⟨a, ha, hget⟩ := Parametrization.solveEquation_eq_coordinate h.isOver h.variableCount_eq
    h.eliminant_ne_zero hkr hsize hcoord
  exact ⟨a, ⟨row, hrow, ha⟩, hget⟩

/-- The equations hold at the end, and so every write of the linear pass is what its equation gives
for the final coordinates. -/
theorem Parametrization.Solves.pass_of_substituteLinear {layout : VariableLayout}
    {p p' : Parametrization} (hp' : p'.Solves F layout) (h : p.substituteLinear layout = .ok p') :
    Parametrization.Pass Prod.fst (p'.EquationGives layout)
      (Parametrization.equationOrder layout) p p' := by
  refine Parametrization.pass_of_substituteLinear ?_ h ?_
  · rw [← (Parametrization.substituteLinear_frame h).1.eliminant_eq]
    exact (Poly.isZero_eq_false_iff hp'.isOver.field_eliminant).mpr hp'.eliminant_ne_zero
  · intro k r a hkr ha
    obtain ⟨b, hb, hget⟩ := hp'.equationGives hkr
    rwa [← Option.some.inj (hget.symm.trans ha)]

/-! ## Outcomes -/

structure Outcome.WellFormed (F : PrimeField) (layout : VariableLayout) (n : ℕ) (o : Outcome) :
    Prop where
  field_eq : o.parametrization.field = F
  size_coordinates : o.parametrization.coordinates.size = layout.variableCount - 1
  normal : ∀ a ∈ o.parametrization.blocks,
    a.field = F ∧ F.AllReduced a.coeffs ∧ a.coeffs.back? ≠ some 0
  denominator_eq : o.parametrization.denominator = .one F
  monic : (o.parametrization.eliminant.toPolynomial F).Monic
  squarefree : Squarefree (o.parametrization.eliminant.toPolynomial F)
  short : o.parametrization.Short
  shapePosition_iff : o.verdict = .shapePosition ↔ o.parametrization.eliminant.natDegree = n

/-- How the coordinates of an outcome were written.  The tracked pass starts from zeros and writes
what the record gives; the linear pass goes on from there and writes what the equations give.  Both
are found in their places at the end, with the final coordinates in the equations. -/
structure Outcome.WrittenOnce (F : PrimeField) (record : KrylovRecord) (layout : VariableLayout)
    (o : Outcome) : Prop where
  passes : ∃ p,
    Parametrization.Pass TrackedVariable.index
      (record.Gives F o.parametrization.eliminant o.verdict) layout.tracked
      ((Parametrization.blank F layout.variableCount).withEliminant o.parametrization.eliminant) p ∧
    Parametrization.Pass Prod.fst (o.parametrization.EquationGives layout)
      (Parametrization.equationOrder layout) p o.parametrization
  tracked : ∀ x ∈ layout.tracked, ∃ a, o.parametrization.coordinates[x.index]? = some a ∧
    ∀ b, record.Gives F o.parametrization.eliminant o.verdict x b ↔ b = a
  linear : ∀ k r, (k, r) ∈ layout.linearVariables.zipIdx → ∃ row a, layout.equation r = .ok row ∧
    o.parametrization.solveEquation row k = .ok a ∧ o.parametrization.coordinates[k]? = some a

/-- The linear pass leaves what the tracked pass wrote. -/
theorem Outcome.WrittenOnce.of_passes {record : KrylovRecord} {layout : VariableLayout}
    {o : Outcome} {p : Parametrization} (hsolves : o.parametrization.Solves F layout)
    (htracked : Parametrization.Pass TrackedVariable.index
      (record.Gives F o.parametrization.eliminant o.verdict) layout.tracked
      ((Parametrization.blank F layout.variableCount).withEliminant o.parametrization.eliminant) p)
    (hlinear : Parametrization.Pass Prod.fst (o.parametrization.EquationGives layout)
      (Parametrization.equationOrder layout) p o.parametrization) :
    o.WrittenOnce F record layout := by
  refine ⟨⟨p, htracked, hlinear⟩, ?_, ?_⟩
  · intro x hx
    obtain ⟨a, hgives, hget⟩ := htracked.written layout.nodup_index_tracked x hx
    refine ⟨a, ?_, fun b => ⟨fun hb => hb.unique hgives, fun heq => heq ▸ hgives⟩⟩
    rw [hlinear.kept _ ?_, hget]
    rw [Parametrization.map_fst_equationOrder, List.mem_reverse]
    exact layout.index_tracked_notMem hx
  · intro k r hkr
    obtain ⟨a, ⟨row, hrow, ha⟩, hget⟩ := hsolves.equationGives hkr
    exact ⟨row, a, hrow, ha, hget⟩

theorem Poly.normal_of_field {a : Poly} (ha : a.field = F) :
    a.field = F ∧ F.AllReduced a.coeffs ∧ a.coeffs.back? ≠ some 0 :=
  ⟨ha, ha ▸ a.reduced, a.trimmed⟩

namespace Session

variable {s : Session} {layout : VariableLayout}

/-- Coordinates found by any method are short, and the verdict says which one it was. -/
theorem short_of_coordinates {sequence : Array UInt32} {e : Elimination} {verify : Bool}
    {source source' : WordSource} {outcome : Outcome} {key : KeyEquation}
    (hpos : 0 < e.eliminant.length)
    (h : s.coordinates layout sequence e verify source = .ok (.ok outcome, key, source')) :
    outcome.parametrization.Short ∧
      (outcome.verdict = .shapePosition ↔ e.shapePosition = true) := by
  have hstart : (s.startOf layout e).Short := by
    intro a ha
    rw [(Array.mem_replicate.mp ha).2]
    exact lt_of_le_of_lt (Poly.length_ofCoeffs_le s.field #[]) hpos
  rcases coordinates_eq_ok h with ⟨hshape, -, -, hok⟩ | ⟨-, -, hok⟩ |
    ⟨hshape, inverse, p, -, hfill, hok⟩ | ⟨hshape, -, hfill⟩
  · obtain rfl := Except.ok.inj hok
    exact ⟨hstart, iff_of_true rfl hshape⟩
  · contradiction
  · obtain rfl := Except.ok.inj hok
    exact ⟨hstart.fillFromHankel hfill, iff_of_true rfl hshape⟩
  · obtain ⟨hverdict, sequence, inverse, -, -, hfill⟩ := fillFromQuotients_eq_ok hfill
    exact ⟨hstart.fillFromNumerators hfill, iff_of_false hverdict (Bool.eq_false_iff.mp hshape)⟩

section Run
variable {α : Type} [LinearOperator α] {op : α} {probe : Array UInt32} {target : Option ℕ}
  {source : WordSource} {reply : Reply} {outcome : Outcome}

theorem field_session_run (h : s.run op layout probe target source = .ok reply) :
    reply.session.field = s.field := by
  rcases run_eq_ok h with ⟨error, -, rfl⟩ | ⟨-, h⟩
  · rfl
  · obtain ⟨record, sequence, e, key, -, -, -, hcase⟩ := runStages_eq_ok h
    rcases hcase with ⟨d, -, -, rfl⟩ |
      ⟨-, result, key', source', -, ⟨error, -, rfl⟩ | ⟨first, p, -, -, rfl⟩⟩
    · rfl
    · rfl
    · rfl

theorem sound_of_run {A : Matrix (Fin (LinearOperator.dimension op))
      (Fin (LinearOperator.dimension op)) F.Element} (hs : s.field = F) (hkey : s.key.field = F)
    (hop : LinearOperator.ActsAs op F A) (hpos : 0 < LinearOperator.dimension op)
    (h : s.run op layout probe target source = .ok reply) (hresult : reply.result = .ok outcome) :
    ∃ e : Elimination, e.Sound F (LinearOperator.dimension op) ∧
      outcome.parametrization.SameFrame (s.startOf layout e) ∧ outcome.parametrization.Short ∧
      (outcome.verdict = .shapePosition ↔ e.shapePosition = true) := by
  obtain ⟨hcheck, record, sequence, e, key, first, key', source', hrecord, hsequence, he,
    hcoordinates, hsubstitute, hverdict, -⟩ := run_eq_ok_of_outcome h hresult
  obtain ⟨-, hdimension, hprobe⟩ := checkInput_eq_ok hcheck
  rw [hs] at hrecord
  have hfilled := KrylovRecord.filled_of_generate hop (layout.fits_tracked hdimension) hpos hprobe
    hrecord
  obtain ⟨hsize, -, -⟩ := hfilled.sequence_spec hsequence
  obtain ⟨e', key'', he', hsound, -⟩ := Elimination.ofSequence_eq_ok hkey hsize hdimension
  obtain ⟨rfl, -⟩ := Prod.mk.inj (Except.ok.inj (he.symm.trans he'))
  have hlength : 0 < e.eliminant.length := by
    rw [Poly.length_eq_natDegree_add_one hsound.field_eliminant hsound.monic.ne_zero]
    exact Nat.succ_pos _
  obtain ⟨hshort, hiff⟩ := short_of_coordinates hlength hcoordinates
  have hframe := sameFrame_of_substituteLinear hcoordinates hsubstitute
  exact ⟨e, hsound, hframe, hshort.substituteLinear hsubstitute, hverdict ▸ hiff⟩

/-- The tracked pass, with the key equation that the elimination leaves. -/
theorem pass_of_coordinates {sequence : Array UInt32} {e : Elimination} {verify : Bool}
    {source source' : WordSource} {outcome : Outcome} {key : KeyEquation}
    (hsequence : s.record.sequence = .ok sequence)
    (hkey : layout.tracked ≠ [] → s.key = ((KeyEquation.empty s.field).addPoints sequence).solve ∧
      e.minimal = s.key.minimalPolynomial)
    (h : s.coordinates layout sequence e verify source = .ok (.ok outcome, key, source')) :
    Parametrization.Pass TrackedVariable.index
      (s.record.Gives s.field outcome.parametrization.eliminant outcome.verdict) layout.tracked
      (s.startOf layout e) outcome.parametrization := by
  have hframe := sameFrame_of_coordinates h
  rcases coordinates_eq_ok h with ⟨-, hnil, -, hok⟩ | ⟨-, -, hok⟩ |
    ⟨-, inverse, p, hinvert, hfill, hok⟩ | ⟨-, -, hfill⟩
  · obtain rfl := Except.ok.inj hok
    rw [hnil]
    exact .nil
  · contradiction
  · obtain rfl := Except.ok.inj hok
    rw [fillFromHankel_eq] at hfill
    refine Parametrization.pass_of_fillWith hfill layout.nodup_index_tracked ?_
    intro q a x hx hq ha _
    obtain ⟨stream, hstream, ha⟩ := bind_eq_ok.mp ha
    obtain ⟨b, hb, ha⟩ := bind_eq_ok.mp ha
    rw [hq.eliminant_eq, ← hframe.eliminant_eq] at ha
    rw [(hkey (List.ne_nil_of_mem hx)).1] at hinvert
    exact .solution rfl hsequence hinvert hstream hb ha
  · obtain ⟨hverdict, powerSums, inverse, hpowerSums, hinverse, hfill⟩ :=
      fillFromQuotients_eq_ok hfill
    rw [fillFromNumerators_eq] at hfill
    refine Parametrization.pass_of_fillWith hfill layout.nodup_index_tracked ?_
    intro q a x hx hq ha _
    obtain ⟨stream, hstream, ha⟩ := bind_eq_ok.mp ha
    obtain ⟨hkey, hminimal⟩ := hkey (List.ne_nil_of_mem hx)
    rw [hq.eliminant_eq, ← hframe.eliminant_eq] at ha
    rw [← hframe.eliminant_eq] at hinverse
    exact .quotient hverdict hsequence (hminimal.trans (congrArg _ hkey)) hpowerSums hinverse
      hstream ha

theorem solves_of_run {M : MultiplicationMatrix} (hs : s.key.field = s.field)
    (h : s.run M layout probe target source = .ok reply) (hresult : reply.result = .ok outcome) :
    outcome.parametrization.Solves s.field layout := by
  obtain ⟨hfield, -, -⟩ := checkInput_eq_ok (run_eq_ok_of_outcome h hresult).1
  cases hlinear : layout.allLinear with
  | true => exact (solves_of_allLinear rfl hs hlinear h hresult).1
  | false =>
    exact (describes_of_run rfl hs (M.actsAs hfield) M.dimension_pos hlinear h hresult).1

/-- With something to track, the key equation is solved anew. -/
theorem key_of_tracked {key key' : KeyEquation} {sequence : Array UInt32} {n : ℕ} {e : Elimination}
    (hkey : key.field = F) (hne : layout.tracked ≠ [])
    (h : Elimination.ofSequence key sequence n layout = .ok (e, key')) :
    key' = ((KeyEquation.empty F).addPoints sequence).solve ∧
      e.minimal = key'.minimalPolynomial := by
  rcases ofSequence_cases hkey h with ⟨hall, -, -⟩ | ⟨-, hkey', he⟩
  · exact absurd (layout.tracked_eq_nil_of_allLinear hall) hne
  · exact ⟨hkey', he ▸ Elimination.minimal_ofMinimal _ _⟩

theorem writtenOnce_of_run {M : MultiplicationMatrix} (hs : s.key.field = s.field)
    (h : s.run M layout probe target source = .ok reply) (hresult : reply.result = .ok outcome) :
    outcome.WrittenOnce s.field reply.session.record layout := by
  have hsolves := solves_of_run hs h hresult
  obtain ⟨-, record, sequence, e, key, first, key', source', -, hsequence, he, hcoordinates,
    hsubstitute, hverdict, -, hsession, -⟩ := run_eq_ok_of_outcome h hresult
  have hframe := (Parametrization.substituteLinear_frame hsubstitute).1
  have htracked := pass_of_coordinates (s := { s with record := record, key := key }) hsequence
    (fun hne => key_of_tracked hs hne he) hcoordinates
  have hstart : s.startOf layout e =
      (Parametrization.blank s.field layout.variableCount).withEliminant
        outcome.parametrization.eliminant := by
    rw [hframe.eliminant_eq, (sameFrame_of_coordinates hcoordinates).eliminant_eq]
    rfl
  rw [← hframe.eliminant_eq, ← hverdict] at htracked
  rw [hsession]
  exact .of_passes hsolves (hstart ▸ htracked) (hsolves.pass_of_substituteLinear hsubstitute)

theorem wellFormed_of_run {M : MultiplicationMatrix} (hs : s.key.field = s.field)
    (h : s.run M layout probe target source = .ok reply) (hresult : reply.result = .ok outcome) :
    outcome.WellFormed s.field layout M.dimension := by
  obtain ⟨hfield, -, -⟩ := checkInput_eq_ok (run_eq_ok_of_outcome h hresult).1
  obtain ⟨e, hsound, hframe, hshort, hverdict⟩ :=
    sound_of_run rfl hs (M.actsAs hfield) M.dimension_pos h hresult
  have hover := (solves_of_run hs h hresult).isOver
  have helim := hframe.eliminant_eq
  have hdenominator : outcome.parametrization.denominator = .one s.field := hframe.denominator_eq
  refine ⟨hover.field_eq, ?_, ?_, hdenominator, ?_, ?_, hshort, ?_⟩
  · rw [outcome.parametrization.size_coordinates, hframe.variableCount_eq]
    rfl
  · intro a ha
    rcases Parametrization.mem_blocks.mp ha with rfl | rfl | ha
    · exact Poly.normal_of_field hover.field_eliminant
    · exact Poly.normal_of_field (hdenominator ▸ rfl)
    · exact Poly.normal_of_field (hover.field_coordinates a ha)
  · rw [helim]
    exact hsound.monic
  · rw [helim]
    exact hsound.squarefree
  · rw [hverdict, helim]
    exact hsound.shapePosition_iff

/-- A reply to a call on a system: from a random probe, from a given one, or at another prime. -/
inductive Answers (s : Session) (op : α) (layout : VariableLayout) : Reply → Prop
  | solve {source : WordSource} {reply : Reply} :
      s.solve op layout source = .ok reply → Answers s op layout reply
  | solveFrom {probe : Array UInt32} {source : WordSource} {reply : Reply} :
      s.solveFrom op layout probe source = .ok reply → Answers s op layout reply
  | replay {p : ℕ} {source : WordSource} {reply : Reply} :
      s.replay op p layout source = .ok reply → Answers s op layout reply

theorem Answers.exists_run (hs : s.Reachable) (h : s.Answers op layout reply)
    (hresult : reply.result = .ok outcome) :
    ∃ (s' : Session) (probe : Array UInt32) (target : Option ℕ) (source : WordSource),
      s'.key.field = s'.field ∧ s'.run op layout probe target source = .ok reply := by
  cases h with
  | solve h => exact ⟨s, _, _, _, hs.field_key, h⟩
  | solveFrom h => exact ⟨s, _, _, _, hs.field_key, h⟩
  | replay h =>
    rcases replay_eq_ok h with ⟨e, -, rfl⟩ | ⟨F, -, hrun⟩
    · contradiction
    · exact ⟨s.moveTo F, _, _, _, rfl, hrun⟩

end Run

/-- Every outcome of every call is well formed over the field of the session it leaves.  Each of its
coordinates is written once, in the tracked or in the linear pass, and at the end it is what the
pass had to write: what the record that the call leaves gives for a tracked variable, and what the
equation gives for a linear one. -/
theorem Reachable.wellFormed_of_answers (hs : s.Reachable) {M : MultiplicationMatrix}
    {reply : Reply} (h : s.Answers M layout reply) {outcome : Outcome}
    (hresult : reply.result = .ok outcome) :
    outcome.WellFormed reply.session.field layout M.dimension ∧
    outcome.WrittenOnce reply.session.field reply.session.record layout ∧
    (layout.tracked.map TrackedVariable.index ++ layout.linearVariables).Perm
      (List.range (layout.variableCount - 1)) ∧
    layout.tracked.map TrackedVariable.column = List.range' 1 layout.tracked.length ∧
    layout.tracked.map TrackedVariable.basisIndex = List.range' 2 layout.tracked.length := by
  obtain ⟨s', probe, target, source, hs', hrun⟩ := h.exists_run hs hresult
  rw [field_session_run hrun]
  exact ⟨wellFormed_of_run hs' hrun hresult, writtenOnce_of_run hs' hrun hresult,
    layout.perm_range, layout.map_column_tracked, layout.map_basisIndex_tracked⟩

/-- Three points with `x_1 = t ^ 2` and an equation for `x_0`, at another prime than the session was
opened with.  The probe sees `t = 1` only, so that the coordinate of `x_1` is a quotient. -/
theorem Reachable.wellFormed_of_answers_replay :
    ∃ (s : Session) (M : MultiplicationMatrix) (layout : VariableLayout) (reply : Reply)
      (outcome : Outcome) (F : PrimeField), open? 11 {} = .ok s ∧
      M.parts = ⟨3, #[6, 3, 6], #[0, 1], #[1, 2], #[2]⟩ ∧
      layout.parts = ⟨3, 1, #[true, false], #[1, 2, 3, 4], #[none, none]⟩ ∧
      s.replay M 7 layout (.listed [613566757, 613566757, 613566757]) = .ok reply ∧
      reply.result = .ok outcome ∧ outcome.WellFormed reply.session.field layout M.dimension ∧
      outcome.WrittenOnce reply.session.field reply.session.record layout ∧
      outcome.parametrization.coordinates = #[.ofCoeffs F #[5], .ofCoeffs F #[1]] ∧
      (∃ x ∈ layout.tracked, x.index = 1 ∧ reply.session.record.Gives reply.session.field
        outcome.parametrization.eliminant outcome.verdict x (.ofCoeffs F #[1])) ∧
      (∃ row, layout.equation 0 = .ok row ∧
        outcome.parametrization.solveEquation row 0 = .ok (.ofCoeffs F #[5])) ∧
      (layout.tracked.map TrackedVariable.index ++ layout.linearVariables).Perm [0, 1] := by
  let F : PrimeField := ⟨11, by decide +kernel, by decide⟩
  let F' : PrimeField := ⟨7, by decide +kernel, by decide⟩
  let M : MultiplicationMatrix := ⟨⟨3, #[6, 3, 6], #[0, 1], #[1, 2], #[2]⟩, by decide +kernel, 64⟩
  let layout : VariableLayout :=
    ⟨⟨3, 1, #[true, false], #[1, 2, 3, 4], #[none, none]⟩, by decide +kernel⟩
  have hopen : open? 11 {} = .ok ⟨F, {}, .empty, .empty F, none⟩ := by decide +kernel
  have hrun : ((⟨F, {}, .empty, .empty F, none⟩ : Session).replay M 7 layout
      (.listed [613566757, 613566757, 613566757])).map Reply.result = .ok (.ok ⟨⟨F', 3,
        .ofCoeffs F' #[6, 1], .one F', #[.ofCoeffs F' #[5], .ofCoeffs F' #[1]], rfl⟩,
        .verified⟩) := by
    decide +kernel
  obtain ⟨reply, hreply, hresult⟩ := map_eq_ok.mp hrun
  obtain ⟨hform, hwritten, hperm, -⟩ :=
    wellFormed_of_answers (.opened hopen) (.replay hreply) hresult
  refine ⟨_, M, layout, reply, _, F', hopen, rfl, rfl, hreply, hresult, hform, hwritten, rfl, ?_,
    ?_, hperm⟩
  · have htracked : layout.tracked = [⟨1, 1, 2, none⟩] := by decide +kernel
    have hmem : (⟨1, 1, 2, none⟩ : TrackedVariable) ∈ layout.tracked := by simp [htracked]
    obtain ⟨a, hget, hgives⟩ := hwritten.tracked _ hmem
    exact ⟨_, hmem, rfl, (hgives _).mpr (Option.some.inj hget)⟩
  · obtain ⟨row, a, hrow, ha, hget⟩ := hwritten.linear 0 0 (by decide +kernel)
    exact ⟨row, hrow, ha.trans (congrArg _ (Option.some.inj hget).symm)⟩

end Session

end ZeroDim
