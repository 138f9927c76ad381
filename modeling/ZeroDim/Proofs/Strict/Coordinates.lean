import Mathlib
import ZeroDim.Proofs.Solver.Stages
import ZeroDim.Proofs.Strict.Hankel

/-! # Strict coordinates

Everything that goes into a coordinate is over the field of the eliminant: the columns of a record
whose cells are reduced, the numerators of their series, the columns of a Hankel inverse, and the
coordinates found before.  A loop that fills in coordinates keeps this, and so none of its steps is
stopped. -/

set_option autoImplicit false

namespace ZeroDim

open PrimeField

variable {F : PrimeField}

/-! ## Fields of intermediate results -/

theorem Table.allReduced_column {t : Table} (h : F.AllReduced t.cells) {j length : ℕ}
    {cs : Array UInt32} (hcs : t.column j length = .ok cs) : F.AllReduced cs := by
  have hentries : ∀ (is : List ℕ) (xs : List UInt32), is.mapM (fun i => t.get i j) = .ok xs →
      ∀ x ∈ xs, F.Reduced x := by
    intro is
    induction is with
    | nil =>
      intro xs hxs x hx
      obtain rfl := Except.ok.inj hxs
      contradiction
    | cons i is ih =>
      intro xs hxs
      rw [List.mapM_cons] at hxs
      obtain ⟨y, hy, hxs⟩ := bind_eq_ok.mp hxs
      obtain ⟨ys, hys, hxs⟩ := bind_eq_ok.mp hxs
      obtain rfl := Except.ok.inj hxs
      intro x hx
      rcases List.mem_cons.mp hx with rfl | hx
      · exact h x (Array.mem_of_getElem? (entryAt_eq_ok_iff.mp hy))
      · exact ih ys hys x hx
  unfold column at hcs
  split at hcs
  · obtain ⟨xs, hxs, hcs⟩ := bind_eq_ok.mp hcs
    obtain rfl := Except.ok.inj hcs
    intro x hx
    exact hentries _ xs hxs x (by simpa using hx)
  · contradiction

theorem HankelInverse.field_solveStream {h : HankelInverse} {stream : Array UInt32} {a : Poly}
    (ha : h.solveStream stream = .ok a) : a.field = h.field := by
  obtain ⟨rhs, -, ha⟩ := bind_eq_ok.mp ha
  obtain ⟨c, -, ha⟩ := bind_eq_ok.mp ha
  rw [← Except.ok.inj ha]
  rfl

theorem field_numerator {stream : Array UInt32} {minimal a : Poly}
    (ha : numerator F stream minimal = .ok a) : a.field = F := by
  obtain ⟨terms, -, ha⟩ := bind_eq_ok.mp ha
  rw [← Except.ok.inj ha]
  rfl

theorem field_numeratorInverse? {minimal eliminant i : Poly} {stream : Array UInt32}
    (hi : numeratorInverse? minimal eliminant stream = .ok (some i)) :
    i.field = eliminant.field := by
  obtain ⟨a, ha, hi⟩ := bind_eq_ok.mp hi
  exact Poly.field_of_inverseMod? (field_numerator ha) hi

theorem field_numeratorQuotient {minimal eliminant inverse q : Poly} {stream : Array UInt32}
    (hq : numeratorQuotient minimal eliminant stream inverse = .ok q) :
    q.field = eliminant.field := by
  obtain ⟨a, ha, hq⟩ := bind_eq_ok.mp hq
  obtain ⟨reduced, hreduced, hq⟩ := bind_eq_ok.mp hq
  obtain ⟨-, rfl⟩ := Poly.mod?_eq_ok_iff.mp hreduced
  obtain ⟨-, rfl⟩ := Poly.mod?_eq_ok_iff.mp hq
  calc ((a % eliminant * inverse) % eliminant).field = (a % eliminant).field := Poly.field_mod _ _
    _ = a.field := Poly.field_mod _ _
    _ = eliminant.field := field_numerator ha

namespace Strict

/-! ## Numerators -/

def numerator (F : PrimeField) (stream : Array UInt32) (minimal : Poly) : Strict Poly := do
  let l := minimal.natDegree
  let terms ← lift (segment stream 0 l)
  return (← Poly.mul (.ofCoeffs F terms.reverse) minimal).shiftDown l

section Quotient
variable (minimal eliminant : Poly)

def numeratorInverse? (stream : Array UInt32) : Strict (Option Poly) := do
  Poly.inverseMod? (← numerator eliminant.field stream minimal) eliminant

def numeratorQuotient (stream : Array UInt32) (inverse : Poly) : Strict Poly := do
  let reduced ← Poly.mod (← numerator eliminant.field stream minimal) eliminant
  Poly.mod (← Poly.mul reduced inverse) eliminant

def combinedStream (scalar : UInt32) (a b : Array UInt32) : Strict (Array UInt32) := do
  let l := minimal.natDegree
  let a ← lift (segment a 0 l)
  let b ← lift (segment b 0 l)
  return (← (a.toList.zip b.toList).mapM fun (x, y) => mulAdd eliminant.field x scalar y).toArray

def shiftAgrees (scalar : UInt32) (sequence stream square : Array UInt32) (expected : Poly) :
    Strict Bool := do
  let shiftedSequence ← combinedStream minimal eliminant scalar stream sequence
  let shiftedStream ← combinedStream minimal eliminant scalar square stream
  match ← numeratorInverse? minimal eliminant shiftedSequence with
  | some inverse =>
    return decide ((← numeratorQuotient minimal eliminant shiftedStream inverse) = expected)
  | none => return false

def verifyQuotient (sequence stream square : Array UInt32) (expected : Poly)
    (source : WordSource) : Strict (Bool × WordSource) := do
  let (scalar, source) ← nonzeroResidue eliminant.field source
  return (← shiftAgrees minimal eliminant scalar sequence stream square expected, source)

end Quotient

theorem numerator_eq {minimal : Poly} (hP : minimal.field = F) (stream : Array UInt32) :
    numerator F stream minimal = lift (ZeroDim.numerator F stream minimal) := by
  apply lift_bind
  intro terms _
  have hfield : (Poly.ofCoeffs F terms.reverse).field = minimal.field := hP.symm
  rw [Poly.mul_eq hfield]
  rfl

section Quotient
variable {minimal eliminant : Poly} (hP : minimal.field = eliminant.field)
include hP

theorem numeratorInverse?_eq (stream : Array UInt32) : numeratorInverse? minimal eliminant stream =
    lift (ZeroDim.numeratorInverse? minimal eliminant stream) := by
  rw [numeratorInverse?, numerator_eq hP]
  apply lift_bind
  intro a ha
  exact Poly.inverseMod?_eq (field_numerator ha)

theorem numeratorQuotient_eq (stream : Array UInt32) {inverse : Poly}
    (hI : inverse.field = eliminant.field) : numeratorQuotient minimal eliminant stream inverse =
      lift (ZeroDim.numeratorQuotient minimal eliminant stream inverse) := by
  rw [numeratorQuotient, numerator_eq hP]
  apply lift_bind
  intro a ha
  rw [Poly.mod_eq]
  apply lift_bind
  intro reduced hreduced
  obtain ⟨-, rfl⟩ := ZeroDim.Poly.mod?_eq_ok_iff.mp hreduced
  have hfield : (a % eliminant).field = inverse.field :=
    (ZeroDim.Poly.field_mod _ _).trans ((field_numerator ha).trans hI.symm)
  rw [Poly.mul_eq hfield, ok_bind]
  exact Poly.mod_eq _ _

omit hP in
theorem combinedStream_eq (scalar : UInt32) (a b : Array UInt32) :
    combinedStream minimal eliminant scalar a b =
      lift (ZeroDim.combinedStream minimal eliminant scalar a b) := by
  apply lift_bind
  intro a _
  apply lift_bind
  intro b _
  have hmap : (a.toList.zip b.toList).mapM
      (fun x => mulAdd eliminant.field x.1 scalar x.2) =
      .ok ((a.toList.zip b.toList).map fun x => eliminant.field.mulAdd x.1 scalar x.2) :=
    mapM_eq fun x _ => mulAdd_eq eliminant.field x.1 scalar x.2
  rw [hmap, ok_bind]
  apply congrArg Except.ok
  rw [← Array.toList_inj, Array.toList_zipWith, List.zip, List.map_zipWith]

theorem shiftAgrees_eq (scalar : UInt32) (sequence stream square : Array UInt32)
    (expected : Poly) : shiftAgrees minimal eliminant scalar sequence stream square expected =
      lift (ZeroDim.shiftAgrees minimal eliminant scalar sequence stream square expected) := by
  rw [shiftAgrees, combinedStream_eq]
  apply lift_bind
  intro shiftedSequence _
  rw [combinedStream_eq]
  apply lift_bind
  intro shiftedStream _
  rw [numeratorInverse?_eq hP]
  apply lift_bind
  intro inverse? hinverse
  cases inverse? with
  | none => rfl
  | some inverse =>
    dsimp only
    rw [numeratorQuotient_eq hP _ (field_numeratorInverse? hinverse)]
    exact lift_bind fun _ _ => rfl

theorem verifyQuotient_eq (sequence stream square : Array UInt32) (expected : Poly)
    (source : WordSource) :
    verifyQuotient minimal eliminant sequence stream square expected source =
      lift (ZeroDim.verifyQuotient minimal eliminant sequence stream square expected source) := by
  rw [verifyQuotient, ZeroDim.verifyQuotient, nonzeroResidue_eq, ok_bind]
  dsimp only
  rw [shiftAgrees_eq hP]
  exact lift_bind fun _ _ => rfl

end Quotient

/-! ## Filling in coordinates -/

namespace Parametrization

def fillWith {ι : Type} (index : ι → ℕ) (f : Parametrization → ι → Strict Poly) :
    List ι → Parametrization → Strict Parametrization
  | [], p => .ok p
  | x :: xs, p => do fillWith index f xs (← lift (p.withCoordinate (index x) (← f p x)))

theorem fillWith_eq {ι : Type} {index : ι → ℕ} {f : Parametrization → ι → Strict Poly}
    {g : Parametrization → ι → Checked Poly} {xs : List ι} {p : Parametrization} (hp : p.Over F)
    (hf : ∀ q, q.SameFrame p → q.Over F → ∀ x ∈ xs,
      f q x = lift (g q x) ∧ ∀ a, g q x = .ok a → a.field = F) :
    fillWith index f xs p = lift (ZeroDim.Parametrization.fillWith index g xs p) := by
  induction xs generalizing p with
  | nil => rfl
  | cons x xs ih =>
    obtain ⟨hstep, hfield⟩ := hf p (.refl p) hp x List.mem_cons_self
    rw [fillWith, hstep]
    apply lift_bind
    intro a ha
    apply lift_bind
    intro p' hp'
    obtain ⟨hframe, -, -⟩ := ZeroDim.Parametrization.withCoordinate_spec hp'
    apply ih (hp.withCoordinate (hfield a ha) hp')
    intro q hq hqover y hy
    exact hf q (hq.trans hframe) hqover y (List.mem_cons_of_mem x hy)

/-! ## Linear variables -/

def subtractTerms (p : Parametrization) (row : Array UInt32) : List ℕ → Poly → Strict Poly
  | [], acc => .ok acc
  | j :: js, acc => do
    let c ← lift (entryAt row j)
    if c = 0 then subtractTerms p row js acc
    else
      let term ← Poly.scale (← lift (p.coordinate j)) c
      subtractTerms p row js (← Poly.sub acc term)

def solveEquation (p : Parametrization) (row : Array UInt32) (k : ℕ) : Strict Poly := do
  let n := p.variableCount
  let last ← subIndex n 1
  let constant ← lift (entryAt row n)
  let rhs := Poly.ofCoeffs p.field #[constant, ← lift (entryAt row last)]
  let rest ← subtractTerms p row ((List.range last).drop (k + 1)) rhs
  Poly.mod rest p.eliminant

def substituteLinear (p : Parametrization) (layout : VariableLayout) : Strict Parametrization :=
  if p.eliminant.isZero then .ok p
  else fillWith Prod.fst (fun p x => do solveEquation p (← lift (layout.equation x.2)) x.1)
    layout.linearVariables.zipIdx.reverse p

theorem subtractTerms_eq {p : Parametrization} (hp : p.Over F) (row : Array UInt32) (js : List ℕ)
    {acc : Poly} (hacc : acc.field = F) :
    subtractTerms p row js acc = lift (p.subtractTerms row js acc) := by
  induction js generalizing acc with
  | nil => rfl
  | cons j js ih =>
    apply lift_bind
    intro c _
    split
    · exact ih hacc
    · apply lift_bind
      intro a ha
      have hfield : acc.field = (a.scale c).field :=
        hacc.trans (hp.field_coordinates a (Array.mem_of_getElem? (entryAt_eq_ok_iff.mp ha))).symm
      rw [Poly.scale_eq, ok_bind, Poly.sub_eq hfield, ok_bind]
      exact ih hacc

theorem field_subtractTerms {p : Parametrization} {row : Array UInt32} {js : List ℕ} {acc r : Poly}
    (h : p.subtractTerms row js acc = .ok r) : r.field = acc.field := by
  induction js generalizing acc with
  | nil => rw [Except.ok.inj h]
  | cons j js ih =>
    obtain ⟨c, -, h⟩ := bind_eq_ok.mp h
    split at h
    · exact ih h
    · obtain ⟨a, -, h⟩ := bind_eq_ok.mp h
      exact (ih h).trans rfl

theorem solveEquation_eq {p : Parametrization} (hp : p.Over F) (hcount : 1 ≤ p.variableCount)
    (row : Array UInt32) (k : ℕ) : solveEquation p row k = lift (p.solveEquation row k) := by
  rw [solveEquation, subIndex, ensure_eq hcount, ok_bind]
  apply lift_bind
  intro constant _
  apply lift_bind
  intro linear _
  dsimp only
  rw [subtractTerms_eq hp row _ hp.field_eq]
  apply lift_bind
  intro rest _
  exact Poly.mod_eq _ _

theorem field_solveEquation {p : Parametrization} (hp : p.Over F) {row : Array UInt32} {k : ℕ}
    {a : Poly} (h : p.solveEquation row k = .ok a) : a.field = F := by
  obtain ⟨constant, -, h⟩ := bind_eq_ok.mp h
  obtain ⟨linear, -, h⟩ := bind_eq_ok.mp h
  obtain ⟨rest, hrest, h⟩ := bind_eq_ok.mp h
  obtain ⟨-, rfl⟩ := ZeroDim.Poly.mod?_eq_ok_iff.mp h
  exact (ZeroDim.Poly.field_mod _ _).trans ((field_subtractTerms hrest).trans hp.field_eq)

theorem substituteLinear_eq {p : Parametrization} (hp : p.Over F) (hcount : 1 ≤ p.variableCount)
    (layout : VariableLayout) : substituteLinear p layout = lift (p.substituteLinear layout) := by
  rw [substituteLinear, ZeroDim.Parametrization.substituteLinear]
  split
  · rfl
  · rw [ZeroDim.Parametrization.fillLinear_eq]
    apply fillWith_eq hp
    intro q hq hqover x _
    constructor
    · exact lift_bind fun row _ => solveEquation_eq hqover (hq.variableCount_eq ▸ hcount) row x.1
    · intro a ha
      obtain ⟨row, -, ha⟩ := bind_eq_ok.mp ha
      exact field_solveEquation hqover ha

end Parametrization

/-! ## Coordinates of the tracked variables -/

def fillFromHankel (record : KrylovRecord) (inverse : HankelInverse) :
    List TrackedVariable → Parametrization → Strict Parametrization :=
  Parametrization.fillWith TrackedVariable.index fun p x => do
    let stream ← lift (record.terms.column x.column (record.dimension + 1))
    Poly.mod (← HankelInverse.solveStream inverse stream) p.eliminant

section Quotients
variable (record : KrylovRecord) (minimal : Poly)

def fillFromNumerators (inverse : Poly) :
    List TrackedVariable → Parametrization → Strict Parametrization :=
  Parametrization.fillWith TrackedVariable.index fun p x => do
    let stream ← lift (record.terms.column x.column minimal.natDegree)
    numeratorQuotient minimal p.eliminant stream inverse

def scanCoordinates (p : Parametrization) (total : ℕ) :
    List TrackedVariable → WordSource → Strict (Verdict × WordSource)
  | [], source => .ok (.verified, source)
  | x :: tracked, source =>
    match x.squareIndex with
    | none => scanCoordinates p total tracked source
    | some _ => do
      let l := minimal.natDegree
      let sequence ← lift (record.terms.column 0 l)
      let stream ← lift (record.terms.column x.column l)
      let square ← lift (record.squares.column x.column l)
      let expected ← lift (p.coordinate x.index)
      let (passed, source) ←
        verifyQuotient minimal p.eliminant sequence stream square expected source
      if passed then scanCoordinates p total tracked source
      else return (.failed (← subIndex (← subIndex total 1) x.index) total, source)

def fillFromQuotients (tracked : List TrackedVariable) (verify : Bool) (p : Parametrization)
    (source : WordSource) : Strict (Except SolverError Outcome × WordSource) := do
  let l := minimal.natDegree
  if l = 0 then return (.error .singularNumerator, source)
  else
    let sequence ← lift (record.terms.column 0 l)
    match ← numeratorInverse? minimal p.eliminant sequence with
    | none => return (.error .singularNumerator, source)
    | some inverse =>
      let p ← fillFromNumerators record minimal inverse tracked p
      if verify then
        let total ← subIndex p.variableCount 1
        let (verdict, source) ← scanCoordinates record minimal p total tracked source
        return (.ok ⟨p, verdict⟩, source)
      else return (.ok ⟨p, .unchecked⟩, source)

end Quotients

section Coordinates
variable {record : KrylovRecord} {p : Parametrization} (hp : p.Over F)
include hp

theorem fillFromHankel_eq (hrecord : F.AllReduced record.terms.cells) {inverse : HankelInverse}
    (h₁ : inverse.z1.field = F) (h₂ : inverse.z2.field = F) (tracked : List TrackedVariable) :
    fillFromHankel record inverse tracked p =
      lift (ZeroDim.fillFromHankel record inverse tracked p) := by
  rw [ZeroDim.fillFromHankel_eq]
  apply Parametrization.fillWith_eq hp
  intro q _ _ x _
  have hfield : inverse.field = F := h₁
  constructor
  · apply lift_bind
    intro stream hstream
    have hred := Table.allReduced_column hrecord hstream
    rw [HankelInverse.solveStream_eq (h₁.trans h₂.symm) (hfield ▸ hred)]
    exact lift_bind fun a _ => Poly.mod_eq _ _
  · intro a ha
    obtain ⟨stream, -, ha⟩ := bind_eq_ok.mp ha
    obtain ⟨solution, hsolution, ha⟩ := bind_eq_ok.mp ha
    obtain ⟨-, rfl⟩ := ZeroDim.Poly.mod?_eq_ok_iff.mp ha
    exact (ZeroDim.Poly.field_mod _ _).trans
      ((ZeroDim.HankelInverse.field_solveStream hsolution).trans hfield)

variable {minimal : Poly} (hP : minimal.field = F)
include hP

theorem fillFromNumerators_eq {inverse : Poly} (hI : inverse.field = F)
    (tracked : List TrackedVariable) : fillFromNumerators record minimal inverse tracked p =
      lift (ZeroDim.fillFromNumerators record minimal inverse tracked p) := by
  rw [ZeroDim.fillFromNumerators_eq]
  apply Parametrization.fillWith_eq hp
  intro q _ hq x _
  have hE := hq.field_eliminant
  constructor
  · exact lift_bind fun stream _ =>
      numeratorQuotient_eq (hP.trans hE.symm) stream (hI.trans hE.symm)
  · intro a ha
    obtain ⟨stream, -, ha⟩ := bind_eq_ok.mp ha
    exact (field_numeratorQuotient ha).trans hE

theorem scanCoordinates_eq (tracked : List TrackedVariable)
    (hindex : ∀ x ∈ tracked, x.index < p.variableCount - 1) (source : WordSource) :
    scanCoordinates record minimal p (p.variableCount - 1) tracked source =
      lift (ZeroDim.scanCoordinates record minimal p tracked source) := by
  induction tracked generalizing source with
  | nil => rfl
  | cons x tracked ih =>
    have hx := hindex x List.mem_cons_self
    have ih := ih fun y hy => hindex y (List.mem_cons_of_mem x hy)
    rw [scanCoordinates, ZeroDim.scanCoordinates]
    cases x.squareIndex with
    | none => exact ih source
    | some square =>
      apply lift_bind
      intro sequence _
      apply lift_bind
      intro stream _
      apply lift_bind
      intro square _
      apply lift_bind
      intro expected _
      rw [verifyQuotient_eq (hP.trans hp.field_eliminant.symm)]
      apply lift_bind
      rintro ⟨passed, source⟩ _
      cases passed with
      | true => exact ih source
      | false =>
        dsimp only
        rw [if_neg Bool.false_ne_true, if_neg Bool.false_ne_true, subIndex, ensure_eq (by omega),
          ok_bind, subIndex, ensure_eq (by omega)]
        rfl

theorem fillFromQuotients_eq (hcount : 1 ≤ p.variableCount) {tracked : List TrackedVariable}
    (hnodup : (tracked.map TrackedVariable.index).Nodup)
    (hindex : ∀ x ∈ tracked, x.index < p.variableCount - 1) (verify : Bool) (source : WordSource) :
    fillFromQuotients record minimal tracked verify p source =
      lift (ZeroDim.fillFromQuotients record minimal tracked verify p source) := by
  rw [fillFromQuotients, ZeroDim.fillFromQuotients]
  dsimp only
  split
  · rfl
  · apply lift_bind
    intro sequence _
    rw [numeratorInverse?_eq (hP.trans hp.field_eliminant.symm)]
    apply lift_bind
    intro inverse? hinverse
    cases inverse? with
    | none => rfl
    | some inverse =>
      have hI := (field_numeratorInverse? hinverse).trans hp.field_eliminant
      dsimp only
      rw [fillFromNumerators_eq hp hP hI]
      apply lift_bind
      intro p' hp'
      rw [ZeroDim.fillFromNumerators_eq] at hp'
      obtain ⟨hframe, hover, -, -⟩ := ZeroDim.Parametrization.fillWith_spec hp' hnodup hp (by
        intro q a x _ _ hq ha
        obtain ⟨stream, -, ha⟩ := bind_eq_ok.mp ha
        exact (field_numeratorQuotient ha).trans hq.field_eliminant)
      rw [← hframe.variableCount_eq] at hcount hindex
      split
      · rw [subIndex, ensure_eq hcount, ok_bind, scanCoordinates_eq hover hP tracked hindex]
        exact lift_bind fun _ _ => rfl
      · rfl

end Coordinates

end Strict

end ZeroDim
