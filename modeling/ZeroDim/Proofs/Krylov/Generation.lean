import Mathlib
import ZeroDim.Proofs.Operator.Rows
import ZeroDim.Proofs.Solver.Freshness

/-! # Generated sequences

What a record holds after a run, cell by cell: the entries of the vectors `A^i v` as far as they are
kept, and zero where none is.  Neither the tables nor the vectors that the record held before the
run leave a trace, and the probe counts only modulo the modulus. -/

set_option autoImplicit false

namespace ZeroDim

open PrimeField Matrix

variable {F : PrimeField}

theorem krylov_unitVector {K : Type*} [Field K] {n : ℕ} (A : Matrix (Fin n) (Fin n) K)
    (v : Fin n → K) (b : Fin n) (i : ℕ) : krylov A (unitVector K n b) v i = (A ^ i *ᵥ v) b :=
  unitVector_dotProduct b.isLt _

theorem PrimeField.word_zero (F : PrimeField) : F.word 0 = 0 := by
  rw [← value_zero, word_value F.reduced_zero]

/-- Tables with the entries that are kept of the vectors `A^i v`. -/
structure KrylovTables (F : PrimeField) {n : ℕ} (A : Matrix (Fin n) (Fin n) F.Element)
    (v : Fin n → F.Element) (tracked : List TrackedVariable) (withSquares : Bool)
    (terms squares : Table) : Prop where
  rows_terms : terms.rows = 2 * n
  width_terms : terms.width = 1 + tracked.length
  rows_squares : squares.rows = if withSquares then n else 0
  width_squares : squares.width = 1 + tracked.length
  reduced_terms : F.AllReduced terms.cells
  reduced_squares : F.AllReduced squares.cells
  powerSum : ∀ b : Fin n, (b : ℕ) = 0 → ∀ i < 2 * n,
    terms.get i 0 = .ok (F.word ((A ^ i *ᵥ v) b))
  term : ∀ x ∈ tracked, ∀ b : Fin n, (b : ℕ) = x.basisIndex → ∀ i < 2 * n,
    terms.get i x.column = .ok (if i ≤ n then F.word ((A ^ i *ᵥ v) b) else 0)
  square : withSquares = true → ∀ x ∈ tracked, ∀ b : Fin n, x.squareIndex = some (b : ℕ) →
    ∀ i < n, squares.get i x.column = .ok (F.word ((A ^ i *ᵥ v) b))
  noSquare : withSquares = true → ∀ x ∈ tracked, x.squareIndex = none → ∀ i < n,
    squares.get i x.column = .ok 0

namespace KrylovRecord

section Filled
variable {n : ℕ} {A : Matrix (Fin n) (Fin n) F.Element} {v : Fin n → F.Element}
  {tracked : List TrackedVariable} {withSquares : Bool} {k : KrylovRecord}
  (hk : k.Filled F A v tracked (if withSquares then n else 0) (2 * n)) (hfits : Fits tracked n)
include hk

theorem Filled.sequence_eq (b : Fin n) (hb : (b : ℕ) = 0) : k.sequence =
    .ok (Array.ofFn fun i : Fin (2 * n) => F.word ((A ^ (i : ℕ) *ᵥ v) b)) := by
  obtain ⟨s, hs, hsize, hred, hterms⟩ := hk.powerSums_spec (le_refl (2 * n))
  rw [sequence, hk.full_terms.rows_eq, hs, Except.ok.injEq]
  apply eq_of_terms_eq hred (allReduced_ofFn fun i => reduced_word _) (by simpa using hsize)
  intro i hi
  rw [hsize] at hi
  rw [hterms i hi, ← hb, krylov_unitVector, PrimeField.terms]
  simp [hi]

include hfits

theorem Filled.krylovTables : KrylovTables F A v tracked withSquares k.terms k.squares := by
  have hsquares : withSquares = true → ∀ x ∈ tracked, ∀ i < n,
      k.squares.get i x.column = .ok (F.word (squareTerm A v x i)) := by
    rintro rfl x hx i hi
    rw [if_pos rfl] at hk
    apply hk.full_squares.get_eq_word hi (hfits.column_lt x hx)
    rw [hk.squares i hi x hx, if_pos (by omega)]
  refine ⟨hk.full_terms.rows_eq, hk.full_terms.width_eq, hk.full_squares.rows_eq,
    hk.full_squares.width_eq, hk.full_terms.reduced, hk.full_squares.reduced, ?_, ?_, ?_, ?_⟩
  · intro b hb i hi
    apply hk.full_terms.get_eq_word hi (by omega)
    rw [hk.powerSums i hi, if_pos hi, ← hb, krylov_unitVector]
  · intro x hx b hb i hi
    rw [hk.full_terms.get_eq_word hi (hfits.column_lt x hx) (hk.streams i hi x hx), ← hb,
      krylov_unitVector]
    by_cases hle : i ≤ n
    · rw [if_pos ⟨hi, hle⟩, if_pos hle]
    · rw [if_neg fun h => hle h.2, if_neg hle, F.word_zero]
  · intro hwith x hx b hb i hi
    rw [hsquares hwith x hx i hi, squareTerm, hb, Option.elim_some, krylov_unitVector]
  · intro hwith x hx hnone i hi
    rw [hsquares hwith x hx i hi, squareTerm, hnone, Option.elim_none, F.word_zero]

end Filled

variable {M : MultiplicationMatrix} {layout : VariableLayout} {probe : Array UInt32}

/-- A run leaves the tables of the vectors `A^i v` for the probe `v` modulo the modulus, whatever
the record held before. -/
theorem generate_krylovTables (hdense : F.AllReduced M.parts.dense)
    {A : Matrix (Fin M.dimension) (Fin M.dimension) F.Element} (hA : M.parts.HasRows F A)
    (hplaces : ∀ x ∈ layout.tracked, x.basisIndex < M.dimension ∧
      ∀ square, x.squareIndex = some square → square < M.dimension)
    (hprobe : probe.size = M.dimension) (withSquares : Bool) :
    ∃ terms squares, KrylovTables F A (F.vector M.dimension probe) layout.tracked withSquares terms
        squares ∧
      ∀ k : KrylovRecord, ∃ k', k.generate M F layout.tracked probe withSquares = .ok k' ∧
        k'.terms = terms ∧ k'.squares = squares ∧ k'.dimension = M.dimension ∧
        k'.sequence = .ok (Array.ofFn fun i : Fin (2 * M.dimension) =>
          F.word ((A ^ (i : ℕ) *ᵥ F.vector M.dimension probe) ⟨0, M.dimension_pos⟩)) := by
  obtain rfl : A = M.toMatrix F := hA.unique M.isIntact (M.isIntact.hasRows_toMatrix F)
  have hop := M.actsAs (MultiplicationMatrix.checkField_of_allReduced hdense)
  have hfits := layout.fits_tracked_of_places hplaces
  have hrun : ∀ k : KrylovRecord, ∃ k', k.generate M F layout.tracked probe withSquares = .ok k' ∧
      k'.Filled F (M.toMatrix F) (F.vector M.dimension probe) layout.tracked
        (if withSquares then M.dimension else 0) (2 * M.dimension) :=
    fun k => generate_spec hop hfits M.dimension_pos hprobe withSquares k
  obtain ⟨first, hfirst, hfilled⟩ := hrun .empty
  refine ⟨first.terms, first.squares, hfilled.krylovTables hfits, ?_⟩
  intro k
  obtain ⟨k', hk', hfilled'⟩ := hrun k
  have halike : Alike Similar (k.generate M F layout.tracked probe withSquares)
      (generate M F layout.tracked probe withSquares .empty) :=
    alike_generate M.ignoresScratch F probe withSquares k .empty
  rw [hk', hfirst] at halike
  obtain ⟨hsimilar⟩ := halike
  exact ⟨k', hk', hsimilar.terms_eq, hsimilar.squares_eq, hfilled'.dimension_eq,
    hfilled'.sequence_eq _ rfl⟩

/-- A record of a smaller run is filled with the sequence of an unreduced probe. -/
theorem generate_krylovTables_reused :
    ∃ (F : PrimeField) (M : MultiplicationMatrix) (layout : VariableLayout) (k k' : KrylovRecord),
      F.modulus = 7 ∧ M.parts = ⟨3, #[2, 0, 3], #[2, 0], #[0, 1], #[1]⟩ ∧
      layout.tracked = [⟨0, 1, 2, some 1⟩] ∧
      k = ⟨⟨#[5, 5], #[9], #[4]⟩, ⟨1, 2, #[3, 3]⟩, ⟨1, 1, #[6]⟩, 2⟩ ∧
      k.generate M F layout.tracked #[1, 8, 10] true = .ok k' ∧
      KrylovTables F (M.toMatrix F) (F.vector M.dimension #[1, 8, 10]) layout.tracked true k'.terms
        k'.squares := by
  let F : PrimeField := ⟨7, by decide +kernel, by decide⟩
  let M : MultiplicationMatrix :=
    ⟨⟨3, #[2, 0, 3], #[2, 0], #[0, 1], #[1]⟩, by decide +kernel, 64⟩
  let layout : VariableLayout := ⟨⟨2, 0, #[false], #[], #[some 1]⟩, by decide +kernel⟩
  have hplaces : ∀ x ∈ layout.tracked, VariableLayout.placeDefect 3 x = none := by decide +kernel
  obtain ⟨terms, squares, htables, hrun⟩ := generate_krylovTables (F := F) (M := M)
    (by decide +kernel) (M.isIntact.hasRows_toMatrix F)
    (fun x hx => (VariableLayout.placeDefect_eq_none_iff 3 x).mp (hplaces x hx))
    (show (#[1, 8, 10] : Array UInt32).size = 3 from rfl) true
  obtain ⟨k', hk', rfl, rfl, -, -⟩ :=
    hrun ⟨⟨#[5, 5], #[9], #[4]⟩, ⟨1, 2, #[3, 3]⟩, ⟨1, 1, #[6]⟩, 2⟩
  exact ⟨F, M, layout, _, k', rfl, rfl, by decide +kernel, rfl, hk', htables⟩

end KrylovRecord

end ZeroDim
