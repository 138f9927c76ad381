import Mathlib
import ZeroDim.Proofs.Solver.Stages
import ZeroDim.Proofs.Strict.Words

/-! # Strict checks and Krylov sequences

The places of the variables are read off two vectors that have an entry for every variable other
than `t`.  The products of dense rows need the entries of the matrix, which the check of the field
looks at, and those of the vector, which stay reduced from step to step. -/

set_option autoImplicit false

namespace ZeroDim

open PrimeField

variable {F : PrimeField}

namespace Strict

/-! ## Variables -/

namespace VariableLayout

def tracked (l : VariableLayout) : Strict (List TrackedVariable) := do
  let count ← subIndex l.variableCount 1
  let flags ← (List.range count).reverse.mapM fun i => do
    return (i, ← lift (entryAt l.parts.linear i))
  let nonlinear := (flags.filter fun x => !x.2).map Prod.fst
  nonlinear.zipIdx.mapM fun (k, j) => do
    let square ← lift (entryAt l.parts.squares k)
    return { index := k, column := j + 1, basisIndex := j + 2, squareIndex := square }

def checkDimension (l : VariableLayout) (dimension : ℕ) : Strict (Except LayoutError Unit) :=
  if l.allLinear = true ∧ dimension ≠ 1 then .ok (.error (.allLinear dimension))
  else do
    match (← tracked l).findSome? (ZeroDim.VariableLayout.placeDefect dimension) with
    | some e => return .error e
    | none => return .ok ()

variable (l : VariableLayout)

theorem tracked_eq : tracked l = .ok l.tracked := by
  have hpos : 1 ≤ l.variableCount := l.variableCount_pos
  have hflags : (List.range (l.variableCount - 1)).reverse.mapM (fun i => do
      return (i, ← lift (entryAt l.parts.linear i))) =
      (.ok ((List.range (l.variableCount - 1)).reverse.map fun i =>
        (i, l.parts.linear.getD i false)) : Strict _) := by
    apply mapM_eq
    intro i hi
    rw [List.mem_reverse, List.mem_range] at hi
    rw [lift_entryAt (l.size_linear ▸ hi) false]
    rfl
  have hnonlinear : (((List.range (l.variableCount - 1)).reverse.map fun i =>
      (i, l.parts.linear.getD i false)).filter fun x => !x.2).map Prod.fst =
        l.nonlinearVariables := by
    rw [List.filter_map, List.map_map]
    exact List.map_id _
  rw [tracked, subIndex, ensure_eq hpos, ok_bind, hflags, ok_bind]
  dsimp only
  rw [hnonlinear]
  apply mapM_eq
  rintro ⟨k, j⟩ hkj
  have hk := (l.mem_nonlinearVariables.mp (List.fst_mem_of_mem_zipIdx hkj)).1
  dsimp only
  rw [lift_entryAt (l.size_squares ▸ hk) none]
  rfl

theorem checkDimension_eq (dimension : ℕ) :
    checkDimension l dimension = .ok (l.checkDimension dimension) := by
  rw [checkDimension, ZeroDim.VariableLayout.checkDimension, tracked_eq]
  split
  · rfl
  · rw [ok_bind]
    cases l.tracked.findSome? (ZeroDim.VariableLayout.placeDefect dimension) with
    | some e => rfl
    | none => rfl

end VariableLayout

/-! ## Products with matrices -/

namespace MultiplicationMatrix

def checkField (M : MultiplicationMatrix) (F : PrimeField) : Strict (Except OperatorError Unit) :=
  match M.parts.dense.toList.zipIdx.find? fun (c, _) => F.modulus ≤ c with
  | some (_, i) => do
    let row ← divIndex i M.dimension
    return .error (.unreducedEntry row (← lift (entryAt M.parts.dense i)) F.modulus)
  | none => do
    -- the number of entries other than zero is part of the density
    let _ ← subIndex M.parts.dense.size M.zeroEntries
    return .ok ()

def denseRow (M : MultiplicationMatrix) (r : ℕ) : Strict (Array UInt32) :=
  ensure .zeroDivisor (0 < M.dimension) (M.parts.denseRow r)

def denseValues (M : MultiplicationMatrix) (F : PrimeField) (src : Array UInt32) :
    Strict (Array UInt32) :=
  collect M.parts.denseRows fun r => do dot F (← denseRow M r) src

def writeDense (M : MultiplicationMatrix) (F : PrimeField) (src : Array UInt32) :
    ℕ → List ℕ → Array UInt32 → Strict (Array UInt32)
  | _, [], dst => .ok dst
  | r, i :: targets, dst => do
    let a ← dot F (← denseRow M r) src
    writeDense M F src (r + 1) targets (← lift (writeAt dst i a))

def applyWithScratch (M : MultiplicationMatrix) (F : PrimeField) (src dst scratch : Array UInt32) :
    Strict (Array UInt32 × Array UInt32) := do
  let m := M.parts
  let values ← lift (M.unitValues src)
  let dst ← lift (scatter (m.unitTargets.toList.zip values) dst)
  if m.denseRows = 0 then
    return (dst, scratch)
  else if M.gatherFrom ≤ m.denseRows then
    let gathered ← denseValues M F src
    return (← lift (scatter (m.denseTargets.toList.zip gathered.toList) dst), gathered)
  else
    return (← writeDense M F src 0 m.denseTargets.toList dst, scratch)

variable {M : MultiplicationMatrix} {src : Array UInt32}

theorem checkField_eq (M : MultiplicationMatrix) (F : PrimeField) :
    checkField M F = .ok (M.checkField F) := by
  rw [checkField, ZeroDim.MultiplicationMatrix.checkField]
  cases hfind : M.parts.dense.toList.zipIdx.find? fun (c, _) => F.modulus ≤ c with
  | none =>
    have hzeros : M.zeroEntries ≤ M.parts.dense.size := Array.countP_le_size
    dsimp only
    rw [subIndex, ensure_eq hzeros]
    rfl
  | some entry =>
    obtain ⟨c, i⟩ := entry
    have hget : M.parts.dense.toList[i]? = some c :=
      List.mem_zipIdx_iff_getElem?.mp (List.mem_of_find?_eq_some hfind)
    have hentry : entryAt M.parts.dense i = .ok c :=
      entryAt_eq_ok_iff.mpr (by rw [← Array.getElem?_toList, hget])
    dsimp only
    rw [divIndex, ensure_eq M.dimension_pos, ok_bind, hentry]
    rfl

section Product
variable (hM : M.checkField F = .ok ()) (hsrc : F.AllReduced src)
include hM hsrc

theorem dot_denseRow_eq (r : ℕ) :
    (denseRow M r >>= fun row => dot F row src) = .ok (F.dot (M.parts.denseRow r) src) := by
  rw [denseRow, ensure_eq M.dimension_pos, ok_bind]
  exact dot_eq ((M.allReduced_dense hM).extract _ _) hsrc

theorem denseValues_eq : denseValues M F src = .ok (M.denseValues F src) :=
  collect_eq fun r _ => dot_denseRow_eq hM hsrc r

theorem writeDense_eq (r : ℕ) (targets : List ℕ) (dst : Array UInt32) :
    writeDense M F src r targets dst = lift (M.writeDense F src r targets dst) := by
  induction targets generalizing r dst with
  | nil => rfl
  | cons i targets ih =>
    have hdot := dot_denseRow_eq hM hsrc r
    rw [writeDense, ← bind_assoc, hdot, ok_bind]
    exact lift_bind fun dst _ => ih (r + 1) dst

theorem applyWithScratch_eq (dst scratch : Array UInt32) :
    applyWithScratch M F src dst scratch = lift (M.applyWithScratch F src dst scratch) := by
  apply lift_bind
  intro values _
  apply lift_bind
  intro dst _
  split
  · rfl
  · split
    · rw [denseValues_eq hM hsrc, ok_bind]
      exact lift_bind fun dst _ => rfl
    · rw [writeDense_eq hM hsrc]
      exact lift_bind fun dst _ => rfl

end Product

end MultiplicationMatrix

/-! ## Krylov sequences -/

def VectorPair.step (v : VectorPair) (M : MultiplicationMatrix) (F : PrimeField) :
    Strict VectorPair := do
  let (next, scratch) ←
    MultiplicationMatrix.applyWithScratch M F v.current v.next v.scratch
  return { v with next := next, scratch := scratch }.swap

namespace KrylovRecord

def vectorsAt (M : MultiplicationMatrix) (F : PrimeField) (k : KrylovRecord) (i : ℕ) :
    Strict VectorPair :=
  if i = 0 then .ok k.vectors else VectorPair.step k.vectors M F

def steps (M : MultiplicationMatrix) (F : PrimeField) (tracked : List TrackedVariable) :
    ℕ → ℕ → KrylovRecord → Strict KrylovRecord
  | 0, _, k => .ok k
  | n + 1, i, k => do
    let vectors ← vectorsAt M F k i
    steps M F tracked n (i + 1)
      (← lift (ZeroDim.KrylovRecord.keep { k with vectors := vectors } tracked i))

def generate (M : MultiplicationMatrix) (F : PrimeField) (tracked : List TrackedVariable)
    (probe : Array UInt32) (withSquares : Bool) (k : KrylovRecord) : Strict KrylovRecord :=
  if probe.size = M.dimension then
    let k := k.prepare M.dimension (1 + tracked.length) withSquares
    let vectors := { k.vectors with current := probe.map F.residue }
    steps M F tracked (2 * M.dimension) 0 { k with vectors := vectors }
  else .error (.fault .probeLength)

end KrylovRecord

end Strict

theorem KrylovRecord.vectors_of_keep {k k' : KrylovRecord} {tracked : List TrackedVariable} {i : ℕ}
    (h : k.keep tracked i = .ok k') : k'.vectors = k.vectors := by
  rw [keep_eq] at h
  obtain ⟨t, -, h⟩ := bind_eq_ok.mp h
  obtain ⟨terms, -, h⟩ := bind_eq_ok.mp h
  obtain ⟨squares, -, h⟩ := bind_eq_ok.mp h
  rw [← Except.ok.inj h]

namespace Strict.KrylovRecord

variable {M : MultiplicationMatrix} (hM : M.checkField F = .ok ())
include hM

theorem step_eq {v : VectorPair} (hred : F.AllReduced v.current) :
    VectorPair.step v M F = lift (v.step M F) := by
  rw [VectorPair.step, MultiplicationMatrix.applyWithScratch_eq hM hred]
  exact lift_bind fun _ _ => rfl

theorem steps_eq (tracked : List TrackedVariable) (n i : ℕ) {k : KrylovRecord}
    (hsize : k.vectors.current.size = M.dimension) (hnext : k.vectors.next.size = M.dimension)
    (hred : F.AllReduced k.vectors.current) :
    steps M F tracked n i k = lift (ZeroDim.KrylovRecord.steps M F tracked n i k) := by
  induction n generalizing i k with
  | zero => rfl
  | succ n ih =>
    have hvectors : vectorsAt M F k i =
        lift (if i = 0 then pure k.vectors else k.vectors.step M F) := by
      rw [vectorsAt]
      split
      · rfl
      · exact step_eq hM hred
    rw [steps, ZeroDim.KrylovRecord.steps_succ, hvectors]
    apply lift_bind
    intro vectors hok
    have hinvariant : vectors.current.size = M.dimension ∧ vectors.next.size = M.dimension ∧
        F.AllReduced vectors.current := by
      split at hok
      · obtain rfl := Except.ok.inj hok
        exact ⟨hsize, hnext, hred⟩
      · obtain ⟨vectors', hok', hsize', hnext', hred', -⟩ :=
          ZeroDim.KrylovRecord.step_spec (M.actsAs hM) hsize hnext hred
        obtain rfl := Except.ok.inj (hok'.symm.trans hok)
        exact ⟨hsize', hnext', hred'⟩
    apply lift_bind
    intro k' hk'
    have hkept := ZeroDim.KrylovRecord.vectors_of_keep hk'
    obtain ⟨hsize', hnext', hred'⟩ := hinvariant
    exact ih (i + 1) (hkept ▸ hsize') (hkept ▸ hnext') (hkept ▸ hred')

theorem generate_eq (tracked : List TrackedVariable) (probe : Array UInt32) (withSquares : Bool)
    (k : KrylovRecord) : generate M F tracked probe withSquares k =
      lift (k.generate M F tracked probe withSquares) := by
  have hdimension : LinearOperator.dimension M = M.dimension := rfl
  rw [generate, ZeroDim.KrylovRecord.generate, hdimension]
  dsimp only
  split
  · rename_i hprobe
    apply steps_eq hM
    · rw [Array.size_map, hprobe]
    · exact Array.size_replicate
    · intro c hc
      obtain ⟨a, -, rfl⟩ := Array.mem_map.mp hc
      exact F.reduced_residue a
  · rfl

end Strict.KrylovRecord

end ZeroDim
