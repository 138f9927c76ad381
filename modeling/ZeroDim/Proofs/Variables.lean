import Mathlib
import ZeroDim.Variables
import ZeroDim.Proofs.Krylov.Record

/-! # Places of the variables

The tracked and the linear variables are a partition of the variables other than `t`, in one order
each, and a layout that passes the check against a dimension has all its places inside the
basis. -/

set_option autoImplicit false

namespace ZeroDim

def TrackedVariable.withSquare (square : TrackedVariable → Option ℕ) (x : TrackedVariable) :
    TrackedVariable := { x with squareIndex := square x }

/-- What the check of the equations certifies: their coefficients are there, one equation for each
linear variable, and each has coefficient one on the variable that owns it. -/
theorem LayoutParts.equationDefect_eq_none_iff (l : LayoutParts) : l.equationDefect = none ↔
    l.coefficients.size = l.equations * l.equationWidth ∧
      (l.equations = l.linearVariables.length ∨
        l.allLinear = true ∧ l.linearVariables.length = l.variableCount - 1) ∧
      ∀ x ∈ l.owners.zipIdx, l.coefficients.getD (x.2 * l.equationWidth + x.1) 0 = 1 := by
  unfold equationDefect
  dsimp only
  split
  · rename_i hsize
    simp [hsize]
  · rename_i hsize
    rw [not_not] at hsize
    split
    · rename_i hcount
      simp only [reduceCtorEq, false_iff, not_and]
      intro _ h
      tauto
    · rename_i hcount
      rw [not_and_or, not_not, not_not] at hcount
      simp [hsize, hcount]

namespace VariableLayout

variable (l : VariableLayout)

theorem mem_linearVariables {k : ℕ} :
    k ∈ l.linearVariables ↔ k < l.variableCount - 1 ∧ l.parts.linear.getD k false = true := by
  have hsize := l.size_linear
  rw [linearVariables, LayoutParts.linearVariables, List.mem_filterMap]
  constructor
  · rintro ⟨⟨flag, i⟩, hmem, hflag⟩
    rw [List.mem_zipIdx_iff_getElem?] at hmem
    have hi : i < l.parts.linear.size := by
      simpa using (List.getElem?_eq_some_iff.mp hmem).1
    cases flag with
    | false => contradiction
    | true =>
      obtain rfl : i = k := by simpa using hflag
      refine ⟨by rw [variableCount]; omega, ?_⟩
      simpa [Array.getD_eq_getD_getElem?] using congrArg (·.getD false) hmem
  · rintro ⟨hk, hflag⟩
    refine ⟨(true, k), ?_, by simp⟩
    have hi : k < l.parts.linear.size := by rw [hsize]; exact hk
    rw [List.mem_zipIdx_iff_getElem?]
    simpa [hi] using hflag

theorem size_squares : l.parts.squares.size = l.variableCount - 1 :=
  (l.parts.defect_eq_none_iff.mp l.intact).2.1.2

theorem mem_nonlinearVariables {k : ℕ} : k ∈ l.nonlinearVariables ↔
    k < l.variableCount - 1 ∧ l.parts.linear.getD k false = false := by
  simp [nonlinearVariables]

theorem nodup_nonlinearVariables : l.nonlinearVariables.Nodup :=
  (List.nodup_reverse.mpr List.nodup_range).filter _

theorem map_index_tracked : l.tracked.map TrackedVariable.index = l.nonlinearVariables := by
  rw [tracked, List.map_map]
  exact List.zipIdx_map_fst 0 l.nonlinearVariables

theorem pairwise_index_tracked : (l.tracked.map TrackedVariable.index).Pairwise (· > ·) := by
  rw [map_index_tracked, nonlinearVariables]
  apply List.Pairwise.filter
  rw [List.pairwise_reverse]
  exact List.pairwise_lt_range

theorem nodup_index_tracked : (l.tracked.map TrackedVariable.index).Nodup := by
  rw [map_index_tracked]
  exact l.nodup_nonlinearVariables

theorem index_tracked_lt {x : TrackedVariable} (hx : x ∈ l.tracked) :
    x.index < l.variableCount - 1 := by
  have hmem : x.index ∈ l.nonlinearVariables :=
    l.map_index_tracked ▸ List.mem_map_of_mem hx
  exact (l.mem_nonlinearVariables.mp hmem).1

theorem linear_or_tracked {k : ℕ} (hk : k < l.variableCount - 1) :
    k ∈ l.linearVariables ∨ ∃ x ∈ l.tracked, x.index = k := by
  cases hflag : l.parts.linear.getD k false with
  | true => exact .inl (l.mem_linearVariables.mpr ⟨hk, hflag⟩)
  | false =>
    have hmem := l.mem_nonlinearVariables.mpr ⟨hk, hflag⟩
    rw [← l.map_index_tracked] at hmem
    exact .inr (List.mem_map.mp hmem)

theorem index_tracked_notMem {x : TrackedVariable} (hx : x ∈ l.tracked) :
    x.index ∉ l.linearVariables := by
  have hmem : x.index ∈ l.nonlinearVariables :=
    l.map_index_tracked ▸ List.mem_map_of_mem hx
  intro hlinear
  have h₁ := (l.mem_nonlinearVariables.mp hmem).2
  rw [(l.mem_linearVariables.mp hlinear).2] at h₁
  contradiction

theorem pairwise_linearVariables : l.linearVariables.Pairwise (· < ·) := by
  rw [linearVariables, LayoutParts.linearVariables, List.pairwise_filterMap]
  have hpair : l.parts.linear.toList.zipIdx.Pairwise fun a b => a.2 < b.2 := by
    rw [← List.pairwise_map (f := Prod.snd) (R := (· < ·)), List.zipIdx_map_snd]
    exact List.pairwise_lt_range' _
  refine hpair.imp ?_
  rintro ⟨flag, i⟩ ⟨flag', j⟩ hlt a ha b hb
  cases flag with
  | false => contradiction
  | true =>
    cases flag' with
    | false => contradiction
    | true =>
      obtain rfl : i = a := by simpa using ha
      obtain rfl : j = b := by simpa using hb
      exact hlt

theorem nodup_linearVariables : l.linearVariables.Nodup :=
  l.pairwise_linearVariables.imp fun hlt => hlt.ne

theorem length_tracked : l.tracked.length = l.nonlinearVariables.length := by
  rw [tracked, List.length_map, List.length_zipIdx]

theorem map_place_tracked (place : TrackedVariable → ℕ) (start : ℕ)
    (h : ∀ k j square, place ⟨k, j + 1, j + 2, square⟩ = start + j) :
    l.tracked.map place = List.range' start l.tracked.length := by
  have hmap : l.tracked.map place = (l.nonlinearVariables.zipIdx.map Prod.snd).map (start + ·) := by
    rw [tracked, List.map_map, List.map_map]
    exact List.map_congr_left fun p _ => h _ _ _
  rw [hmap, List.zipIdx_map_snd, List.map_add_range', Nat.add_zero, l.length_tracked]

theorem map_column_tracked :
    l.tracked.map TrackedVariable.column = List.range' 1 l.tracked.length :=
  l.map_place_tracked _ 1 fun _ j _ => Nat.add_comm j 1

theorem map_basisIndex_tracked :
    l.tracked.map TrackedVariable.basisIndex = List.range' 2 l.tracked.length :=
  l.map_place_tracked _ 2 fun _ j _ => Nat.add_comm j 2

/-- The tracked and the linear variables are all variables other than `t`, once each. -/
theorem perm_range : (l.tracked.map TrackedVariable.index ++ l.linearVariables).Perm
    (List.range (l.variableCount - 1)) := by
  rw [List.perm_ext_iff_of_nodup _ List.nodup_range]
  · intro k
    rw [List.mem_append, List.mem_range, map_index_tracked, mem_nonlinearVariables,
      mem_linearVariables]
    cases l.parts.linear.getD k false <;> simp
  · rw [List.nodup_append']
    refine ⟨l.nodup_index_tracked, l.nodup_linearVariables, ?_⟩
    intro k htracked hlinear
    obtain ⟨x, hx, rfl⟩ := List.mem_map.mp htracked
    exact l.index_tracked_notMem hx hlinear

/-! ## Layouts for a dimension -/

theorem checkDimension_eq_ok {n : ℕ} (h : l.checkDimension n = .ok ()) :
    (l.allLinear = true → n = 1) ∧ ∀ x ∈ l.tracked, placeDefect n x = none := by
  unfold checkDimension at h
  split at h
  · contradiction
  · rename_i hlinear
    split at h
    · contradiction
    · rename_i hnone
      refine ⟨?_, List.findSome?_eq_none_iff.mp hnone⟩
      intro hall
      by_contra hne
      exact hlinear ⟨hall, hne⟩

theorem placeDefect_eq_none_iff (n : ℕ) (x : TrackedVariable) : placeDefect n x = none ↔
    x.basisIndex < n ∧ ∀ square, x.squareIndex = some square → square < n := by
  unfold placeDefect
  split
  · rename_i hle
    simp [Nat.not_lt.mpr hle]
  · rename_i hlt
    cases hsquare : x.squareIndex with
    | none => simp [Nat.lt_of_not_le hlt]
    | some square => simp [Nat.lt_of_not_le hlt]

theorem fits_tracked_of_places {n : ℕ} (h : ∀ x ∈ l.tracked,
    x.basisIndex < n ∧ ∀ square, x.squareIndex = some square → square < n) :
    KrylovRecord.Fits l.tracked n := by
  have hcolumns := l.map_column_tracked
  have hmem : ∀ x ∈ l.tracked, x.column ∈ List.range' 1 l.tracked.length :=
    fun x hx => hcolumns ▸ List.mem_map_of_mem hx
  refine ⟨?_, ?_, ?_, fun x hx => (h x hx).1, fun x hx => (h x hx).2⟩
  · rw [hcolumns]
    exact List.nodup_range'
  · intro x hx
    exact (List.mem_range'_1.mp (hmem x hx)).1
  · intro x hx
    exact (List.mem_range'_1.mp (hmem x hx)).2

theorem fits_tracked {n : ℕ} (h : l.checkDimension n = .ok ()) : KrylovRecord.Fits l.tracked n := by
  apply l.fits_tracked_of_places
  intro x hx
  exact (placeDefect_eq_none_iff n x).mp ((l.checkDimension_eq_ok h).2 x hx)

theorem length_linearVariables_le : l.linearVariables.length ≤ l.variableCount - 1 := by
  have hsize : l.parts.linear.toList.zipIdx.length = l.variableCount - 1 := by
    rw [List.length_zipIdx, Array.length_toList]
    exact l.size_linear
  rw [← hsize]
  exact List.length_filterMap_le _ _

/-! ## Equations -/

theorem equations_spec : l.parts.coefficients.size = l.parts.equations * l.parts.equationWidth ∧
    (l.parts.equations = l.linearVariables.length ∨
      l.allLinear = true ∧ l.linearVariables.length = l.variableCount - 1) := by
  obtain ⟨hsize, hcount, -⟩ := l.parts.equationDefect_eq_none_iff.mp l.equationDefect_eq_none
  exact ⟨hsize, hcount⟩

theorem equation_eq_ok {r : ℕ} (hr : r < l.parts.equations) :
    ∃ row, l.equation r = .ok row ∧ row.size = l.variableCount + 1 := by
  have hend : (r + 1) * l.parts.equationWidth ≤ l.parts.coefficients.size := by
    rw [l.equations_spec.1]
    exact Nat.mul_le_mul_right _ hr
  have hstart : r * l.parts.equationWidth ≤ (r + 1) * l.parts.equationWidth :=
    Nat.mul_le_mul_right _ (Nat.le_succ r)
  refine ⟨_, segment_eq_ok hstart hend, ?_⟩
  rw [Array.size_extract, Nat.min_eq_left hend, Nat.add_mul, Nat.one_mul, Nat.add_sub_cancel_left]
  rfl

theorem equations_of_allLinear (h : l.allLinear = true) : l.parts.equations = l.variableCount := by
  rw [allLinear, LayoutParts.allLinear, beq_iff_eq] at h
  exact h

theorem length_linearVariables_le_equations : l.linearVariables.length ≤ l.parts.equations := by
  rcases l.equations_spec.2 with heq | ⟨hall, hcount⟩
  · exact heq.ge
  · rw [hcount, l.equations_of_allLinear hall]
    exact Nat.sub_le _ _

theorem linearEquation {k r : ℕ} (h : (k, r) ∈ l.linearVariables.zipIdx) :
    k < l.variableCount - 1 ∧ ∃ row, l.equation r = .ok row ∧ row.size = l.variableCount + 1 := by
  rw [List.mem_zipIdx_iff_getElem?] at h
  have hr : r < l.linearVariables.length := (List.getElem?_eq_some_iff.mp h).1
  exact ⟨(l.mem_linearVariables.mp (List.mem_of_getElem? h)).1,
    l.equation_eq_ok (lt_of_lt_of_le hr l.length_linearVariables_le_equations)⟩

theorem equationIndex_unique {k r r' : ℕ} (h : (k, r) ∈ l.linearVariables.zipIdx)
    (h' : (k, r') ∈ l.linearVariables.zipIdx) : r = r' := by
  rw [List.mem_zipIdx_iff_getElem?] at h h'
  obtain ⟨hlt, -⟩ := List.getElem?_eq_some_iff.mp h
  exact (List.getElem?_inj hlt l.nodup_linearVariables).mp (h.trans h'.symm)

theorem ownCoefficient {k r : ℕ} (h : (k, r) ∈ l.linearVariables.zipIdx) {row : Array UInt32}
    (hrow : l.equation r = .ok row) : row[k]? = some 1 := by
  have hlt := (l.linearEquation h).1
  rw [List.mem_zipIdx_iff_getElem?] at h
  have howner : (k, r) ∈ l.parts.owners.zipIdx := by
    rw [List.mem_zipIdx_iff_getElem?, LayoutParts.owners]
    split
    · exact (List.getElem?_append_left (List.getElem?_eq_some_iff.mp h).1).trans h
    · exact h
  have hone : l.parts.coefficients.getD (r * l.parts.equationWidth + k) 0 = 1 :=
    (l.parts.equationDefect_eq_none_iff.mp l.equationDefect_eq_none).2.2 (k, r) howner
  have hk : k < l.parts.equationWidth := by
    rw [variableCount] at hlt
    rw [LayoutParts.equationWidth]
    omega
  obtain ⟨⟨-, hle⟩, rfl⟩ := segment_eq_ok_iff.mp hrow
  have hpos : r * l.parts.equationWidth + k < (r + 1) * l.parts.equationWidth := by
    rw [Nat.add_mul, Nat.one_mul]
    exact Nat.add_lt_add_left hk _
  rw [getD_of_getElem? (Array.getElem?_eq_getElem (by omega))] at hone
  rw [Array.getElem?_extract, if_pos (by omega), Array.getElem?_eq_getElem (by omega), hone]

theorem tracked_eq_nil_of_allLinear (h : l.allLinear = true) : l.tracked = [] := by
  have hpos : 0 < l.variableCount := l.variableCount_pos
  have hle := l.length_linearVariables_le
  have hequations := l.equations_of_allLinear h
  have hcount : l.linearVariables.length = l.variableCount - 1 := by
    rcases l.equations_spec.2 with heq | ⟨-, hcount⟩
    · omega
    · exact hcount
  have hall := fun k => mem_of_nodup_of_lt l.nodup_linearVariables
    (fun i hi => (l.mem_linearVariables.mp hi).1) hcount (i := k)
  apply List.eq_nil_iff_forall_not_mem.mpr
  intro x hx
  exact l.index_tracked_notMem hx (hall x.index (l.index_tracked_lt hx))

/-! ## Squares -/

/-- Layouts that agree in everything but the squares. -/
def SameButSquares (l l' : VariableLayout) : Prop :=
  l'.parts = { l.parts with squares := l'.parts.squares }

namespace SameButSquares

theorem refl (l : VariableLayout) : l.SameButSquares l := rfl

variable {l l' : VariableLayout} (h : l.SameButSquares l')
include h

theorem variableCount_eq : l'.variableCount = l.variableCount := by
  rw [variableCount, h, variableCount]

theorem linearVariables_eq : l'.linearVariables = l.linearVariables := by
  rw [linearVariables, h, linearVariables]
  rfl

theorem allLinear_eq : l'.allLinear = l.allLinear := by
  rw [allLinear, h, allLinear]
  rfl

theorem equation_eq (r : ℕ) : l'.equation r = l.equation r := by
  rw [equation, h, equation]
  rfl

theorem tracked_eq : l'.tracked =
    l.tracked.map (.withSquare fun x => l'.parts.squares.getD x.index none) := by
  have hnonlinear : l'.nonlinearVariables = l.nonlinearVariables := by
    rw [nonlinearVariables, h.variableCount_eq, h, nonlinearVariables]
  rw [tracked, hnonlinear, tracked, List.map_map]
  rfl

end SameButSquares

end VariableLayout

end ZeroDim
