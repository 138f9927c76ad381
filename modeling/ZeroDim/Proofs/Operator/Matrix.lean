import Mathlib
import ZeroDim.Operator.Multiplication
import ZeroDim.Proofs.Field.DelayedReduction
import ZeroDim.Proofs.Poly.Denotation

/-! # Products with multiplication matrices

The rows of an intact matrix write every coordinate exactly once, so that the image of a vector
does not depend on what was written over, and is the product with the matrix that has unit rows
and dense rows at their targets. -/

set_option autoImplicit false

namespace ZeroDim

open PrimeField Matrix

variable {F : PrimeField}

/-! ## Writing at listed positions -/

theorem getD_set {xs : Array UInt32} {i : ℕ} (h : i < xs.size) (a : UInt32) (j : ℕ) :
    (xs.set i a h).getD j 0 = if i = j then a else xs.getD j 0 := by
  rw [Array.getD_eq_getD_getElem?, Array.getElem?_set, Array.getD_eq_getD_getElem?]
  split <;> rfl

theorem getD_of_getElem? {α : Type} {xs : Array α} {i : ℕ} {x y : α} (h : xs[i]? = some x) :
    xs.getD i y = x := by
  rw [Array.getD_eq_getD_getElem?, h, Option.getD_some]

/-- Writes at different positions do not disturb each other. -/
theorem scatter_spec (writes : List (ℕ × UInt32)) (dst : Array UInt32)
    (hnodup : (writes.map Prod.fst).Nodup) (hrange : ∀ w ∈ writes, w.1 < dst.size) :
    ∃ out, scatter writes dst = .ok out ∧ out.size = dst.size ∧
      (∀ w ∈ writes, out.getD w.1 0 = w.2) ∧
      ∀ i ∉ writes.map Prod.fst, out.getD i 0 = dst.getD i 0 := by
  induction writes generalizing dst with
  | nil =>
    refine ⟨dst, rfl, rfl, ?_, fun i _ => rfl⟩
    intro w hw
    contradiction
  | cons w writes ih =>
    obtain ⟨i, a⟩ := w
    have hi : i < dst.size := hrange (i, a) List.mem_cons_self
    rw [List.map_cons, List.nodup_cons] at hnodup
    obtain ⟨out, hok, hsize, hmem, hframe⟩ := ih (dst.set i a hi) hnodup.2 (by
      intro w hw
      rw [Array.size_set]
      exact hrange w (List.mem_cons_of_mem _ hw))
    refine ⟨out, ?_, by rw [hsize, Array.size_set], ?_, ?_⟩
    · rw [scatter, writeAt_eq_ok a hi, ok_bind, hok]
    · intro w hw
      rcases List.mem_cons.mp hw with rfl | hw
      · rw [hframe i hnodup.1, getD_set, if_pos rfl]
      · exact hmem w hw
    · intro k hk
      rw [List.map_cons, List.mem_cons, not_or] at hk
      rw [hframe k hk.2, getD_set, if_neg (Ne.symm hk.1)]

theorem scatter_append (ws ws' : List (ℕ × UInt32)) (dst : Array UInt32) :
    scatter (ws ++ ws') dst = scatter ws dst >>= scatter ws' := by
  induction ws generalizing dst with
  | nil => rfl
  | cons w ws ih =>
    obtain ⟨i, a⟩ := w
    rw [List.cons_append, scatter, scatter]
    cases writeAt dst i a with
    | ok dst => exact ih dst
    | error fault => rfl

theorem mapM_entryAt {src : Array UInt32} {indices : List ℕ} (h : ∀ i ∈ indices, i < src.size) :
    indices.mapM (entryAt src) = .ok (indices.map (src.getD · 0)) := by
  induction indices with
  | nil => rfl
  | cons i indices ih =>
    have hi := h i List.mem_cons_self
    have hget : src.getD i 0 = src[i] := by simp [hi]
    rw [List.mapM_cons, entryAt_eq_ok hi, ok_bind, ih fun j hj => h j (List.mem_cons_of_mem i hj),
      ok_bind, List.map_cons, hget]
    rfl

/-! ## Intact data -/

theorem mem_of_nodup_of_lt {l : List ℕ} {n : ℕ} (hnodup : l.Nodup) (hlt : ∀ i ∈ l, i < n)
    (hlen : l.length = n) {i : ℕ} (hi : i < n) : i ∈ l := by
  have hsub : l.toFinset ⊆ Finset.range n := by
    intro j hj
    exact Finset.mem_range.mpr (hlt j (List.mem_toFinset.mp hj))
  have hcard : (Finset.range n).card ≤ l.toFinset.card := by
    rw [List.toFinset_card_of_nodup hnodup, hlen, Finset.card_range]
  have heq := Finset.eq_of_subset_of_card_le hsub hcard
  exact List.mem_toFinset.mp (heq ▸ Finset.mem_range.mpr hi)

theorem firstRepeated_eq_none_iff (seen l : List ℕ) :
    firstRepeated seen l = none ↔ l.Nodup ∧ ∀ i ∈ l, i ∉ seen := by
  induction l generalizing seen with
  | nil => simp [firstRepeated]
  | cons i l ih =>
    rw [firstRepeated]
    split
    · rename_i hi
      simp [hi]
    · rename_i hi
      rw [ih, List.nodup_cons]
      constructor
      · rintro ⟨hn, hl⟩
        refine ⟨⟨fun hmem => hl i hmem List.mem_cons_self, hn⟩, ?_⟩
        intro j hj
        rcases List.mem_cons.mp hj with rfl | hj
        · exact hi
        · exact fun hs => hl j hj (List.mem_cons_of_mem i hs)
      · rintro ⟨⟨hil, hn⟩, hl⟩
        refine ⟨hn, ?_⟩
        intro j hj hmem
        rcases List.mem_cons.mp hmem with rfl | hs
        · exact hil hj
        · exact hl j (List.mem_cons_of_mem i hj) hs

theorem lengthDefect_eq_none_iff (what : OperatorPart) (expected found : ℕ) :
    lengthDefect what expected found = none ↔ expected = found := by
  unfold lengthDefect
  split <;> simp [*]

theorem rangeDefect_eq_none_iff (what : OperatorPart) (indices : Array ℕ) (dimension : ℕ) :
    rangeDefect what indices dimension = none ↔ ∀ i ∈ indices, i < dimension := by
  simp [rangeDefect]

namespace MatrixParts

/-- Data in which every coordinate is written exactly once. -/
structure Intact (m : MatrixParts) : Prop where
  dimension_pos : 0 < m.dimension
  size_dense : m.dense.size = m.denseRows * m.dimension
  size_unitTargets : m.unitTargets.size + m.denseRows = m.dimension
  size_unitSources : m.unitSources.size = m.unitTargets.size
  sources_lt : ∀ i ∈ m.unitSources, i < m.dimension
  targets_lt : ∀ i ∈ m.targets, i < m.dimension
  nodup_targets : m.targets.Nodup

theorem mem_targets_iff (m : MatrixParts) (i : ℕ) :
    i ∈ m.targets ↔ i ∈ m.unitTargets ∨ i ∈ m.denseTargets := by
  simp [targets]

theorem countDefect_eq_none_iff (m : MatrixParts) :
    m.countDefect = none ↔ 0 < m.dimension ∧ m.denseRows ≤ m.dimension := by
  unfold countDefect
  split
  · simp only [reduceCtorEq, false_iff]
    omega
  · split
    · simp only [reduceCtorEq, false_iff]
      omega
    · simp only [true_iff]
      omega

theorem vectorDefect_eq_none_iff (m : MatrixParts) (denseSize : ℕ) :
    m.vectorDefect denseSize = none ↔ denseSize = m.dense.size ∧
      m.dimension - m.denseRows = m.unitTargets.size ∧
      m.dimension - m.denseRows = m.unitSources.size ∧
      (∀ i ∈ m.unitSources, i < m.dimension) ∧ (∀ i ∈ m.targets, i < m.dimension) ∧
      m.targets.Nodup := by
  unfold vectorDefect
  simp only [Option.orElse_eq_orElse, Option.orElse_eq_or, Option.or_eq_none_iff,
    lengthDefect_eq_none_iff, rangeDefect_eq_none_iff, Option.map_eq_none_iff,
    firstRepeated_eq_none_iff, mem_targets_iff]
  constructor
  · rintro ⟨hdense, hunit, hsource, hsrc, htar, hden, hnodup, -⟩
    exact ⟨hdense, hunit, hsource, hsrc, fun i hi => hi.elim (htar i) (hden i), hnodup⟩
  · rintro ⟨hdense, hunit, hsource, hsrc, htargets, hnodup⟩
    exact ⟨hdense, hunit, hsource, hsrc, fun i hi => htargets i (.inl hi),
      fun i hi => htargets i (.inr hi), hnodup, fun i _ => List.not_mem_nil⟩

theorem defect_eq_none_iff (m : MatrixParts) : m.defect = none ↔ m.Intact := by
  unfold defect
  rw [Option.orElse_eq_orElse, Option.orElse_eq_or, Option.or_eq_none_iff,
    countDefect_eq_none_iff, vectorDefect_eq_none_iff]
  constructor
  · rintro ⟨⟨hpos, hle⟩, hdense, hunit, hsource, hsrc, htargets, hnodup⟩
    exact ⟨hpos, hdense.symm, by omega, by omega, hsrc, htargets, hnodup⟩
  · intro h
    have hunits := h.size_unitTargets
    have hsources := h.size_unitSources
    exact ⟨⟨h.dimension_pos, by omega⟩, h.size_dense.symm, by omega, by omega, h.sources_lt,
      h.targets_lt, h.nodup_targets⟩

theorem length_targets (m : MatrixParts) :
    m.targets.length = m.unitTargets.size + m.denseRows := by
  simp [targets, denseRows]

theorem Intact.length_targets {m : MatrixParts} (h : m.Intact) : m.targets.length = m.dimension :=
  m.length_targets.trans h.size_unitTargets

theorem Intact.mem_targets {m : MatrixParts} (h : m.Intact) {i : ℕ} (hi : i < m.dimension) :
    i ∈ m.targets :=
  mem_of_nodup_of_lt h.nodup_targets h.targets_lt h.length_targets hi

/-- Entry `c` of the row at position `j` of the data, unit rows first. -/
def rowEntry (m : MatrixParts) (F : PrimeField) (j c : ℕ) : F.Element :=
  if j < m.unitTargets.size then if m.unitSources.getD j 0 = c then 1 else 0
  else F.value ((m.denseRow (j - m.unitTargets.size)).getD c 0)

/-- The matrix of the data: the row at position `j` stands at the `j`-th target. -/
def toMatrix (m : MatrixParts) (F : PrimeField) :
    Matrix (Fin m.dimension) (Fin m.dimension) F.Element :=
  Matrix.of fun r c => m.rowEntry F (m.targets.idxOf (r : ℕ)) c

def rowValue (m : MatrixParts) (F : PrimeField) (src : Array UInt32) (j : ℕ) : UInt32 :=
  if j < m.unitTargets.size then src.getD (m.unitSources.getD j 0) 0
  else F.dot (m.denseRow (j - m.unitTargets.size)) src

def writes (m : MatrixParts) (F : PrimeField) (src : Array UInt32) : List (ℕ × UInt32) :=
  m.targets.zipIdx.map fun (i, j) => (i, m.rowValue F src j)

theorem map_fst_writes (m : MatrixParts) (F : PrimeField) (src : Array UInt32) :
    (m.writes F src).map Prod.fst = m.targets := by
  rw [writes, List.map_map]
  exact List.zipIdx_map_fst 0 m.targets

end MatrixParts

def PrimeField.vector (F : PrimeField) (n : ℕ) (cs : Array UInt32) : Fin n → F.Element :=
  fun i => F.terms cs i

namespace MatrixParts

theorem reduced_rowValue (m : MatrixParts) {src : Array UInt32} (hsrc : F.AllReduced src) (j : ℕ) :
    F.Reduced (m.rowValue F src j) := by
  unfold rowValue
  split
  · exact hsrc.getD _
  · exact F.reduced_reduce _

variable {m : MatrixParts} (h : m.Intact) {src : Array UInt32} (hsize : src.size = m.dimension)
  (hsrc : F.AllReduced src) (hdense : F.AllReduced m.dense)
include h hsize hsrc hdense

theorem value_rowValue {j : ℕ} (hj : j < m.dimension) : F.value (m.rowValue F src j) =
    ∑ c : Fin m.dimension, m.rowEntry F j c * F.vector m.dimension src c := by
  unfold rowValue rowEntry
  split
  · rename_i hlt
    have hmem : m.unitSources.getD j 0 < m.dimension := by
      have hj' : j < m.unitSources.size := by rw [h.size_unitSources]; exact hlt
      apply h.sources_lt
      simp [hj']
    rw [Finset.sum_eq_single ⟨m.unitSources.getD j 0, hmem⟩]
    · rw [if_pos rfl, one_mul, vector, terms]
    · intro c _ hc
      rw [if_neg fun heq => hc (Fin.ext heq.symm), zero_mul]
    · intro hnot
      exact absurd (Finset.mem_univ _) hnot
  · rename_i hge
    have hrow : (m.denseRow (j - m.unitTargets.size)).size = m.dimension := by
      have hle : (j - m.unitTargets.size + 1) * m.dimension ≤ m.dense.size := by
        rw [h.size_dense]
        have := h.size_unitTargets
        exact Nat.mul_le_mul_right _ (by omega)
      rw [denseRow, Array.size_extract, Nat.min_eq_left hle, Nat.add_mul, Nat.one_mul,
        Nat.add_sub_cancel_left]
    have hred : F.AllReduced (m.denseRow (j - m.unitTargets.size)) := hdense.extract _ _
    rw [value_dot hred hsrc, hrow, hsize, Nat.min_self,
      ← Fin.sum_univ_eq_sum_range (fun i => F.value _ * F.value (src.getD i 0))]
    rfl

theorem scatter_writes {dst : Array UInt32} (hdst : dst.size = m.dimension) :
    ∃ out, scatter (m.writes F src) dst = .ok out ∧ out.size = m.dimension ∧ F.AllReduced out ∧
      F.vector m.dimension out = m.toMatrix F *ᵥ F.vector m.dimension src := by
  obtain ⟨out, hok, hout, hmem, -⟩ := scatter_spec (m.writes F src) dst
    (by rw [map_fst_writes]; exact h.nodup_targets) (by
      intro w hw
      rw [hdst]
      apply h.targets_lt
      rw [← map_fst_writes m F src]
      exact List.mem_map_of_mem hw)
  have hentry : ∀ i < m.dimension,
      out.getD i 0 = m.rowValue F src (m.targets.idxOf i) ∧ m.targets.idxOf i < m.dimension := by
    intro i hi
    have hlt : m.targets.idxOf i < m.targets.length :=
      List.idxOf_lt_length_of_mem (h.mem_targets hi)
    refine ⟨hmem (i, _) ?_, h.length_targets ▸ hlt⟩
    rw [writes, List.mem_map]
    refine ⟨(i, m.targets.idxOf i), ?_, rfl⟩
    rw [List.mem_zipIdx_iff_getElem?]
    rw [List.getElem?_eq_getElem hlt, List.getElem_idxOf]
  refine ⟨out, hok, hout.trans hdst, ?_, ?_⟩
  · intro c hc
    obtain ⟨i, hi, rfl⟩ := Array.mem_iff_getElem.mp hc
    have hvalue := (hentry i (by omega)).1
    rw [getD_of_getElem? (Array.getElem?_eq_getElem hi)] at hvalue
    rw [hvalue]
    exact m.reduced_rowValue hsrc _
  · funext r
    obtain ⟨hval, hlt⟩ := hentry r r.isLt
    rw [vector, terms, hval, value_rowValue h hsize hsrc hdense hlt]
    rfl

end MatrixParts

namespace LinearOperator

/-- An operator that takes a vector to its product with `A`, whatever it writes over. -/
structure ActsAs {α : Type} [LinearOperator α] (op : α) (F : PrimeField)
    (A : Matrix (Fin (dimension op)) (Fin (dimension op)) F.Element) : Prop where
  apply_eq : ∀ src dst scratch : Array UInt32, src.size = dimension op → F.AllReduced src →
    dst.size = dimension op →
    ∃ out scratch', applyWithScratch op F src dst scratch = .ok (out, scratch') ∧
      out.size = dimension op ∧ F.AllReduced out ∧
      F.vector (dimension op) out = A *ᵥ F.vector (dimension op) src

end LinearOperator

namespace MultiplicationMatrix

variable (M : MultiplicationMatrix)

theorem isIntact : M.parts.Intact := M.parts.defect_eq_none_iff.mp M.intact

theorem dimension_pos : 0 < M.dimension := M.isIntact.dimension_pos

def toMatrix (F : PrimeField) : Matrix (Fin M.dimension) (Fin M.dimension) F.Element :=
  M.parts.toMatrix F

theorem allReduced_dense (h : M.checkField F = .ok ()) : F.AllReduced M.parts.dense := by
  unfold checkField at h
  split at h
  · contradiction
  · rename_i hnone
    intro c hc
    obtain ⟨i, hi, rfl⟩ := Array.mem_iff_getElem.mp hc
    have := List.find?_eq_none.mp hnone (M.parts.dense[i], i) (by
      rw [List.mem_zipIdx_iff_getElem?]
      simp [hi])
    simpa [Reduced] using this

theorem writeDense_eq (F : PrimeField) (src : Array UInt32) (r : ℕ) (targets : List ℕ)
    (dst : Array UInt32) : M.writeDense F src r targets dst =
      scatter ((targets.zipIdx r).map fun (i, j) => (i, F.dot (M.parts.denseRow j) src)) dst := by
  induction targets generalizing r dst with
  | nil => rfl
  | cons i targets ih =>
    rw [writeDense, List.zipIdx_cons, List.map_cons, scatter]
    cases writeAt dst i (F.dot (M.parts.denseRow r) src) with
    | ok dst => exact ih (r + 1) dst
    | error fault => rfl

theorem zip_denseValues_eq (F : PrimeField) (src : Array UInt32) :
    M.parts.denseTargets.toList.zip (M.denseValues F src).toList =
      M.parts.denseTargets.toList.zipIdx.map fun (i, j) => (i, F.dot (M.parts.denseRow j) src) := by
  apply List.ext_getElem
  · simp [denseValues, MatrixParts.denseRows]
  · intro j h₁ h₂
    simp [denseValues]

theorem writes_eq (F : PrimeField) (src : Array UInt32) : M.parts.writes F src =
    M.parts.unitTargets.toList.zip (M.parts.unitSources.toList.map (src.getD · 0)) ++
      M.parts.denseTargets.toList.zipIdx.map fun (i, j) => (i, F.dot (M.parts.denseRow j) src) := by
  have hsize := M.isIntact.size_unitSources
  rw [MatrixParts.writes, MatrixParts.targets, List.zipIdx_append, List.map_append]
  congr 1
  · apply List.ext_getElem
    · simp [hsize]
    · intro j h₁ h₂
      have hj : j < M.parts.unitTargets.size := by simpa using h₁
      simp [MatrixParts.rowValue, hj, hsize]
  · apply List.ext_getElem
    · simp
    · intro j h₁ h₂
      simp [MatrixParts.rowValue]

theorem actsAs (h : M.checkField F = .ok ()) : LinearOperator.ActsAs M F (M.toMatrix F) := by
  constructor
  intro src dst scratch hsize hsrc hdst
  have hm := M.isIntact
  obtain ⟨out, hok, hout, hred, hvec⟩ := MatrixParts.scatter_writes hm hsize hsrc
    (M.allReduced_dense h) hdst
  have hunit : M.unitValues src = .ok (M.parts.unitSources.toList.map (src.getD · 0)) := by
    apply mapM_entryAt
    intro i hi
    rw [hsize]
    exact hm.sources_lt i (Array.mem_toList_iff.mp hi)
  rw [writes_eq, scatter_append] at hok
  obtain ⟨mid, hmid, hrest⟩ := bind_eq_ok.mp hok
  have hrun : LinearOperator.applyWithScratch M F src dst scratch =
      M.applyWithScratch F src dst scratch := rfl
  rw [hrun, applyWithScratch]
  dsimp only
  rw [hunit, ok_bind, hmid, ok_bind]
  by_cases hzero : M.parts.denseRows = 0
  · have hnil : M.parts.denseTargets.toList = [] := by
      rw [← List.length_eq_zero_iff, Array.length_toList]
      exact hzero
    rw [hnil] at hrest
    obtain rfl := Except.ok.inj hrest
    exact ⟨mid, scratch, by rw [if_pos hzero]; rfl, hout, hred, hvec⟩
  · rw [if_neg hzero]
    by_cases hgather : M.gatherFrom ≤ M.parts.denseRows
    · refine ⟨out, M.denseValues F src, ?_, hout, hred, hvec⟩
      rw [if_pos hgather, zip_denseValues_eq, hrest]
      rfl
    · refine ⟨out, scratch, ?_, hout, hred, hvec⟩
      rw [if_neg hgather, writeDense_eq, hrest]
      rfl

end MultiplicationMatrix

end ZeroDim
