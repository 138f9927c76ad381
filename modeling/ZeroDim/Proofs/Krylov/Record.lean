import Mathlib
import ZeroDim.Krylov.Record
import ZeroDim.Proofs.Krylov.Sequence
import ZeroDim.Proofs.Operator.Matrix

/-! # Records of Krylov sequences

One step of a run writes one row of the tables, and the rows before it stay as they are.  After
all steps the columns hold the sequences between the unit vectors of the kept entries and the
probe, whatever the record held before. -/

set_option autoImplicit false

namespace ZeroDim

open PrimeField Matrix

variable {F : PrimeField}

/-! ## Tables -/

namespace Table

/-- The cell at row `i` and column `j`, zero outside of the table. -/
def entry (t : Table) (i j : ℕ) : UInt32 := t.cells.getD (i * t.width + j) 0

structure Full (F : PrimeField) (rows width : ℕ) (t : Table) : Prop where
  rows_eq : t.rows = rows
  width_eq : t.width = width
  size_cells : t.cells.size = rows * width
  reduced : F.AllReduced t.cells

theorem position_lt {rows width i j : ℕ} (hi : i < rows) (hj : j < width) :
    i * width + j < rows * width := by
  calc i * width + j < i * width + width := Nat.add_lt_add_left hj _
    _ = (i + 1) * width := by rw [Nat.add_mul, Nat.one_mul]
    _ ≤ rows * width := Nat.mul_le_mul_right _ hi

theorem position_inj {width i i' j j' : ℕ} (hj : j < width) (hj' : j' < width)
    (h : i * width + j = i' * width + j') : i = i' ∧ j = j' := by
  have hdiv := congrArg (· / width) h
  have hmod := congrArg (· % width) h
  have hpos : 0 < width := by omega
  simp only [Nat.mul_comm _ width, Nat.mul_add_div hpos, Nat.div_eq_of_lt hj,
    Nat.div_eq_of_lt hj', Nat.add_zero] at hdiv
  simp only [Nat.mul_comm _ width, Nat.mul_add_mod, Nat.mod_eq_of_lt hj, Nat.mod_eq_of_lt hj']
    at hmod
  exact ⟨hdiv, hmod⟩

theorem full_zeros (F : PrimeField) (rows width : ℕ) : (zeros rows width).Full F rows width := by
  refine ⟨rfl, rfl, Array.size_replicate, ?_⟩
  intro c hc
  rw [(Array.mem_replicate.mp hc).2]
  exact F.reduced_zero

theorem entry_zeros (rows width i j : ℕ) : (zeros rows width).entry i j = 0 := by
  rw [entry, zeros, Array.getD_eq_getD_getElem?, Array.getElem?_replicate]
  split <;> rfl

def writeRow (t : Table) (i : ℕ) (writes : List (ℕ × UInt32)) : Checked Table :=
  scatter (writes.map fun w => (i * t.width + w.1, w.2)) t.cells >>= fun cells =>
    .ok { t with cells := cells }

theorem Full.writeRow_spec {rows width i : ℕ} {t : Table} (h : t.Full F rows width) (hi : i < rows)
    (writes : List (ℕ × UInt32)) (hnodup : (writes.map Prod.fst).Nodup)
    (hcolumn : ∀ w ∈ writes, w.1 < width) (hred : ∀ w ∈ writes, F.Reduced w.2) :
    ∃ t', t.writeRow i writes = .ok t' ∧ t'.Full F rows width ∧
      (∀ w ∈ writes, t'.entry i w.1 = w.2) ∧
      ∀ r c, c < width → r ≠ i ∨ c ∉ writes.map Prod.fst → t'.entry r c = t.entry r c := by
  have hwidth := h.width_eq
  obtain ⟨cells, hok, hsize, hmem, hframe⟩ :=
    scatter_spec (writes.map fun w => (i * t.width + w.1, w.2)) t.cells (by
      rw [List.map_map]
      have hmap : (Prod.fst ∘ fun w : ℕ × UInt32 => (i * t.width + w.1, w.2)) =
          (i * t.width + ·) ∘ Prod.fst := rfl
      rw [hmap, ← List.map_map]
      exact hnodup.map fun a b hab => Nat.add_left_cancel hab) (by
      intro w hw
      obtain ⟨w, hw', rfl⟩ := List.mem_map.mp hw
      rw [h.size_cells, hwidth]
      exact position_lt hi (hcolumn w hw'))
  have hentry : ∀ w ∈ writes, cells.getD (i * t.width + w.1) 0 = w.2 := by
    intro w hw
    exact hmem _ (List.mem_map_of_mem hw)
  refine ⟨{ t with cells := cells }, ?_, ⟨h.rows_eq, hwidth, hsize.trans h.size_cells, ?_⟩, hentry,
    ?_⟩
  · rw [writeRow, hok, ok_bind]
  · apply allReduced_of_getD
    intro j
    by_cases hj : j ∈ (writes.map fun w => (i * t.width + w.1, w.2)).map Prod.fst
    · obtain ⟨w, hw, rfl⟩ := List.mem_map.mp hj
      obtain ⟨w, hw', rfl⟩ := List.mem_map.mp hw
      rw [hentry w hw']
      exact hred w hw'
    · rw [hframe j hj]
      exact h.reduced.getD j
  · intro r c hc hother
    apply hframe
    intro hin
    obtain ⟨w, hw, hpos⟩ := List.mem_map.mp hin
    obtain ⟨w, hw', rfl⟩ := List.mem_map.mp hw
    obtain ⟨hri, hcw⟩ := position_inj (hwidth ▸ hcolumn w hw') (hwidth ▸ hc) hpos
    rcases hother with hr | hnot
    · exact hr hri.symm
    · exact hnot (hcw ▸ List.mem_map_of_mem hw')

theorem Full.get_eq_entry {rows width i j : ℕ} {t : Table} (h : t.Full F rows width) (hi : i < rows)
    (hj : j < width) : t.get i j = .ok (t.entry i j) := by
  have hpos : i * t.width + j < t.cells.size := by
    rw [h.size_cells, h.width_eq]
    exact position_lt hi hj
  rw [get, entryAt_eq_ok hpos, entry]
  simp [hpos]

theorem Full.get_eq_word {rows width i j : ℕ} {t : Table} (h : t.Full F rows width) (hi : i < rows)
    (hj : j < width) {x : F.Element} (hx : F.value (t.entry i j) = x) :
    t.get i j = .ok (F.word x) := by
  have hred : F.Reduced (t.entry i j) := h.reduced.getD _
  rw [h.get_eq_entry hi hj, ← hx, word_value hred]

theorem Full.column_spec {rows width j length : ℕ} {t : Table} (h : t.Full F rows width)
    (hj : j < width) (hlen : length ≤ rows) :
    ∃ cs, t.column j length = .ok cs ∧ cs.size = length ∧ F.AllReduced cs ∧
      ∀ i < length, cs.getD i 0 = t.entry i j := by
  have hget : ∀ i < length, t.get i j = .ok (t.entry i j) :=
    fun i hi => h.get_eq_entry (by omega) hj
  have hmap : ∀ is : List ℕ, (∀ i ∈ is, i < length) →
      is.mapM (fun i => t.get i j) = .ok (is.map (t.entry · j)) := by
    intro is his
    induction is with
    | nil => rfl
    | cons i is ih =>
      rw [List.mapM_cons, hget i (his i List.mem_cons_self), ok_bind,
        ih fun k hk => his k (List.mem_cons_of_mem i hk), ok_bind]
      rfl
  have hentry : ∀ i < length,
      ((List.range length).map (t.entry · j)).toArray.getD i 0 = t.entry i j := by
    intro i hi
    simp [hi]
  refine ⟨((List.range length).map (t.entry · j)).toArray, ?_, by simp, ?_, hentry⟩
  · rw [column, if_pos (h.rows_eq ▸ hlen), hmap _ fun i hi => List.mem_range.mp hi, ok_bind]
    rfl
  · intro c hc
    simp only [List.mem_toArray, List.mem_map] at hc
    obtain ⟨i, -, rfl⟩ := hc
    exact h.reduced.getD _

end Table

/-! ## One step -/

namespace KrylovRecord

theorem copyTerms_eq {v : Array UInt32} (i : ℕ) {tracked : List TrackedVariable}
    (h : ∀ x ∈ tracked, x.basisIndex < v.size) (t : Table) :
    copyTerms v i tracked t =
      t.writeRow i (tracked.map fun x => (x.column, v.getD x.basisIndex 0)) := by
  induction tracked generalizing t with
  | nil => rfl
  | cons x tracked ih =>
    have hx : x.basisIndex < v.size := h x List.mem_cons_self
    have hget : v.getD x.basisIndex 0 = v[x.basisIndex] := by simp [hx]
    rw [copyTerms, copyEntry, entryAt_eq_ok hx, ok_bind, Table.set, List.map_cons, Table.writeRow,
      List.map_cons, scatter, hget]
    dsimp only
    cases writeAt t.cells (i * t.width + x.column) v[x.basisIndex] with
    | ok cells => exact ih (fun y hy => h y (List.mem_cons_of_mem x hy)) { t with cells := cells }
    | error fault => rfl

theorem copySquares_eq {v : Array UInt32} (i : ℕ) {tracked : List TrackedVariable}
    (h : ∀ x ∈ tracked, ∀ square, x.squareIndex = some square → square < v.size) (t : Table) :
    copySquares v i tracked t = t.writeRow i (tracked.filterMap fun x =>
      x.squareIndex.map fun square => (x.column, v.getD square 0)) := by
  induction tracked generalizing t with
  | nil => rfl
  | cons x tracked ih =>
    have hrest := ih fun y hy => h y (List.mem_cons_of_mem x hy)
    cases hx : x.squareIndex with
    | none =>
      rw [copySquares, hx, List.filterMap_cons_none (by rw [hx]; rfl)]
      exact hrest t
    | some square =>
      have hlt := h x List.mem_cons_self square hx
      have hget : v.getD square 0 = v[square] := by simp [hlt]
      rw [copySquares, hx, List.filterMap_cons_some (by rw [hx]; rfl)]
      dsimp only
      rw [copyEntry, entryAt_eq_ok hlt, ok_bind, Table.set, Table.writeRow, List.map_cons, scatter,
        hget]
      cases writeAt t.cells (i * t.width + x.column) v[square] with
      | ok cells => exact hrest { t with cells := cells }
      | error fault => rfl

/-- Tracked variables with their own columns and with places inside the basis. -/
structure Fits (tracked : List TrackedVariable) (n : ℕ) : Prop where
  nodup_columns : (tracked.map TrackedVariable.column).Nodup
  column_pos : ∀ x ∈ tracked, 0 < x.column
  column_lt : ∀ x ∈ tracked, x.column < 1 + tracked.length
  basisIndex_lt : ∀ x ∈ tracked, x.basisIndex < n
  squareIndex_lt : ∀ x ∈ tracked, ∀ square, x.squareIndex = some square → square < n

/-- The sequence of the square of a tracked variable, zero when it is not known. -/
def squareTerm {n : ℕ} (A : Matrix (Fin n) (Fin n) F.Element) (v : Fin n → F.Element)
    (x : TrackedVariable) (i : ℕ) : F.Element :=
  x.squareIndex.elim 0 fun square => krylov A (unitVector F.Element n square) v i

/-- A record before step `i`: rows from `i` on are zero, those before hold the entries of
`A^r v`. -/
structure Filled (F : PrimeField) {n : ℕ} (A : Matrix (Fin n) (Fin n) F.Element)
    (v : Fin n → F.Element) (tracked : List TrackedVariable) (squareRows i : ℕ)
    (k : KrylovRecord) : Prop where
  dimension_eq : k.dimension = n
  size_current : k.vectors.current.size = n
  size_next : k.vectors.next.size = n
  reduced_current : F.AllReduced k.vectors.current
  current : F.vector n k.vectors.current = A ^ (i - 1) *ᵥ v
  full_terms : k.terms.Full F (2 * n) (1 + tracked.length)
  full_squares : k.squares.Full F squareRows (1 + tracked.length)
  powerSums : ∀ r < 2 * n, F.value (k.terms.entry r 0) =
    if r < i then krylov A (unitVector F.Element n 0) v r else 0
  streams : ∀ r < 2 * n, ∀ x ∈ tracked, F.value (k.terms.entry r x.column) =
    if r < i ∧ r ≤ n then krylov A (unitVector F.Element n x.basisIndex) v r else 0
  squares : ∀ r < squareRows, ∀ x ∈ tracked, F.value (k.squares.entry r x.column) =
    if r < i then squareTerm A v x r else 0

section Keep
variable {n : ℕ} {A : Matrix (Fin n) (Fin n) F.Element} {v : Fin n → F.Element} {w : Array UInt32}
  {tracked : List TrackedVariable} {i : ℕ} {t : Table}

theorem value_getD_eq_krylov (hw : F.vector n w = A ^ i *ᵥ v) {k : ℕ} (hk : k < n) :
    F.value (w.getD k 0) = krylov A (unitVector F.Element n k) v i := by
  rw [krylov, unitVector_dotProduct hk, ← hw]
  rfl

theorem copyEntry_eq (i column : ℕ) {index : ℕ} (h : index < w.size) (t : Table) :
    copyEntry w i column index t = t.writeRow i [(column, w.getD index 0)] := by
  have hget : w.getD index 0 = w[index] := by simp [h]
  rw [copyEntry, entryAt_eq_ok h, ok_bind, Table.set, Table.writeRow, hget]
  rw [List.map_singleton, scatter]
  cases writeAt t.cells (i * t.width + column) w[index] with
  | ok cells => rfl
  | error fault => rfl

theorem keepTerms_spec (hfits : Fits tracked n) (hpos : 0 < n) (hi : i < 2 * n) (hsize : w.size = n)
    (hred : F.AllReduced w) (ht : t.Full F (2 * n) (1 + tracked.length)) :
    ∃ t₁ t₂, copyEntry w i 0 0 t = .ok t₁ ∧
      (if i ≤ n then copyTerms w i tracked t₁ else pure t₁) = .ok t₂ ∧
      t₂.Full F (2 * n) (1 + tracked.length) ∧ t₂.entry i 0 = w.getD 0 0 ∧
      (∀ x ∈ tracked, t₂.entry i x.column =
        if i ≤ n then w.getD x.basisIndex 0 else t.entry i x.column) ∧
      ∀ r c, r ≠ i → c < 1 + tracked.length → t₂.entry r c = t.entry r c := by
  have hwidth : 0 < 1 + tracked.length := by omega
  obtain ⟨t₁, hok₁, hfull₁, hmem₁, hframe₁⟩ := ht.writeRow_spec hi [(0, w.getD 0 0)]
    (List.nodup_singleton _) (by simp) (by simpa using hred.getD 0)
  rw [← copyEntry_eq i 0 (by omega)] at hok₁
  have hother : ∀ x ∈ tracked, t₁.entry i x.column = t.entry i x.column := by
    intro x hx
    apply hframe₁ i _ (hfits.column_lt x hx) (.inr _)
    simpa using (hfits.column_pos x hx).ne'
  by_cases hle : i ≤ n
  · obtain ⟨t₂, hok₂, hfull₂, hmem₂, hframe₂⟩ := hfull₁.writeRow_spec hi
      (tracked.map fun x => (x.column, w.getD x.basisIndex 0))
      (by rw [List.map_map]; exact hfits.nodup_columns)
      (by
        intro e he
        obtain ⟨x, hx, rfl⟩ := List.mem_map.mp he
        exact hfits.column_lt x hx)
      (by
        intro e he
        obtain ⟨x, hx, rfl⟩ := List.mem_map.mp he
        exact hred.getD _)
    rw [← copyTerms_eq i fun x hx => by rw [hsize]; exact hfits.basisIndex_lt x hx] at hok₂
    refine ⟨t₁, t₂, hok₁, by rw [if_pos hle]; exact hok₂, hfull₂, ?_, ?_, ?_⟩
    · rw [hframe₂ i 0 hwidth (.inr ?_), hmem₁ _ List.mem_cons_self]
      intro hmem
      obtain ⟨e, he, hzero⟩ := List.mem_map.mp hmem
      obtain ⟨x, hx, rfl⟩ := List.mem_map.mp he
      exact (hfits.column_pos x hx).ne' hzero
    · intro x hx
      rw [if_pos hle]
      exact hmem₂ _ (List.mem_map_of_mem hx)
    · intro r c hr hc
      rw [hframe₂ r c hc (.inl hr), hframe₁ r c hc (.inl hr)]
  · refine ⟨t₁, t₁, hok₁, by rw [if_neg hle]; rfl, hfull₁, hmem₁ _ List.mem_cons_self, ?_, ?_⟩
    · intro x hx
      rw [if_neg hle, hother x hx]
    · intro r c hr hc
      exact hframe₁ r c hc (.inl hr)

theorem squareColumns_sublist (w : Array UInt32) (tracked : List TrackedVariable) :
    ((tracked.filterMap fun x => x.squareIndex.map fun square => (x.column, w.getD square 0)).map
      Prod.fst).Sublist (tracked.map TrackedVariable.column) := by
  induction tracked with
  | nil => exact List.Sublist.slnil
  | cons x tracked ih =>
    cases hx : x.squareIndex with
    | none =>
      rw [List.filterMap_cons_none (by rw [hx]; rfl)]
      exact ih.cons x.column
    | some square =>
      rw [List.filterMap_cons_some (by rw [hx]; rfl)]
      exact ih.cons_cons x.column

theorem keepSquares_spec {rows : ℕ} (hfits : Fits tracked n) (hsize : w.size = n)
    (hred : F.AllReduced w) (ht : t.Full F rows (1 + tracked.length)) :
    ∃ t', (if i < rows then copySquares w i tracked t else pure t) = .ok t' ∧
      t'.Full F rows (1 + tracked.length) ∧
      (i < rows → ∀ x ∈ tracked, t'.entry i x.column =
        x.squareIndex.elim (t.entry i x.column) (w.getD · 0)) ∧
      ∀ r c, r ≠ i → c < 1 + tracked.length → t'.entry r c = t.entry r c := by
  by_cases hi : i < rows
  · set row := tracked.filterMap fun x =>
      x.squareIndex.map fun square => (x.column, w.getD square 0) with hrow
    have hmem : ∀ e ∈ row, ∃ x ∈ tracked, ∃ square, x.squareIndex = some square ∧
        (x.column, w.getD square 0) = e := by
      intro e he
      obtain ⟨x, hx, hmap⟩ := List.mem_filterMap.mp he
      obtain ⟨square, hsquare, heq⟩ := Option.map_eq_some_iff.mp hmap
      exact ⟨x, hx, square, hsquare, heq⟩
    have hsub := squareColumns_sublist w tracked
    obtain ⟨t', hok, hfull, hwritten, hframe⟩ := ht.writeRow_spec hi row
      (hfits.nodup_columns.sublist hsub)
      (by
        intro e he
        obtain ⟨x, hx, square, -, rfl⟩ := hmem e he
        exact hfits.column_lt x hx)
      (by
        intro e he
        obtain ⟨x, hx, square, -, rfl⟩ := hmem e he
        exact hred.getD square)
    rw [hrow, ← copySquares_eq i fun x hx square hsquare => by
      rw [hsize]; exact hfits.squareIndex_lt x hx square hsquare] at hok
    refine ⟨t', by rw [if_pos hi]; exact hok, hfull, ?_, fun r c hr hc => hframe r c hc (.inl hr)⟩
    intro _ x hx
    cases hsquare : x.squareIndex with
    | some square =>
      exact hwritten (x.column, w.getD square 0)
        (List.mem_filterMap.mpr ⟨x, hx, by rw [hsquare]; rfl⟩)
    | none =>
      apply hframe i x.column (hfits.column_lt x hx) (.inr _)
      -- columns are different, so no other variable writes here
      intro hin
      obtain ⟨e, he, heq⟩ := List.mem_map.mp hin
      obtain ⟨y, hy, square, hsome, rfl⟩ := hmem e he
      have hxy := List.inj_on_of_nodup_map hfits.nodup_columns hy hx heq
      rw [hxy, hsquare] at hsome
      contradiction
  · exact ⟨t, by rw [if_neg hi]; rfl, ht, fun h => absurd h hi, fun r c _ _ => rfl⟩

theorem keep_eq (k : KrylovRecord) (tracked : List TrackedVariable) (i : ℕ) :
    k.keep tracked i = copyEntry k.vectors.current i 0 0 k.terms >>= fun t =>
      (if i ≤ k.dimension then copyTerms k.vectors.current i tracked t else pure t) >>= fun terms =>
        (if i < k.squares.rows then copySquares k.vectors.current i tracked k.squares
          else pure k.squares) >>= fun squares =>
            .ok { k with terms := terms, squares := squares } := by
  unfold keep
  dsimp only
  by_cases hi : i ≤ k.dimension
  · by_cases hr : i < k.squares.rows
    · simp only [if_pos hi, if_pos hr]
      rfl
    · simp only [if_pos hi, if_neg hr]
      rfl
  · by_cases hr : i < k.squares.rows
    · simp only [if_neg hi, if_pos hr]
      rfl
    · simp only [if_neg hi, if_neg hr]
      rfl

theorem Filled.keep_spec {rows : ℕ} {k : KrylovRecord} (hk : k.Filled F A v tracked rows i)
    (hfits : Fits tracked n) (hpos : 0 < n) (hi : i < 2 * n) {vectors : VectorPair}
    (hsize : vectors.current.size = n) (hnext : vectors.next.size = n)
    (hred : F.AllReduced vectors.current) (hvec : F.vector n vectors.current = A ^ i *ᵥ v) :
    ∃ k', keep { k with vectors := vectors } tracked i = .ok k' ∧
      k'.Filled F A v tracked rows (i + 1) := by
  obtain ⟨t₁, terms, hok₁, hok₂, hterms, hzero, hcolumns, hframe⟩ :=
    keepTerms_spec hfits hpos hi hsize hred hk.full_terms
  obtain ⟨squares, hok₃, hsquares, hwritten, hframe'⟩ :=
    keepSquares_spec (i := i) hfits hsize hred hk.full_squares
  refine ⟨{ k with vectors := vectors, terms := terms, squares := squares }, ?_,
    ⟨hk.dimension_eq, hsize, hnext, hred, hvec, hterms, hsquares, ?_, ?_, ?_⟩⟩
  · rw [keep_eq]
    dsimp only
    rw [hok₁, ok_bind, hk.dimension_eq, hok₂, ok_bind, hk.full_squares.rows_eq, hok₃, ok_bind]
  · intro r hr
    by_cases hri : r = i
    · rw [hri, if_pos (Nat.lt_succ_self i)]
      exact (congrArg F.value hzero).trans (value_getD_eq_krylov hvec hpos)
    · refine (congrArg F.value (hframe r 0 hri (by omega))).trans ((hk.powerSums r hr).trans ?_)
      exact if_congr (by omega) rfl rfl
  · intro r hr x hx
    by_cases hri : r = i
    · subst hri
      refine (congrArg F.value (hcolumns x hx)).trans ?_
      by_cases hle : r ≤ n
      · rw [if_pos hle, if_pos ⟨Nat.lt_succ_self r, hle⟩]
        exact value_getD_eq_krylov hvec (hfits.basisIndex_lt x hx)
      · rw [if_neg hle, if_neg (by omega), hk.streams r hr x hx, if_neg (by omega)]
    · refine (congrArg F.value (hframe r _ hri (hfits.column_lt x hx))).trans
        ((hk.streams r hr x hx).trans ?_)
      exact if_congr (by omega) rfl rfl
  · intro r hr x hx
    by_cases hri : r = i
    · subst hri
      refine (congrArg F.value (hwritten hr x hx)).trans ?_
      rw [if_pos (Nat.lt_succ_self r), squareTerm]
      cases hsquare : x.squareIndex with
      | none => exact (hk.squares r hr x hx).trans (if_neg (lt_irrefl r))
      | some square =>
        exact value_getD_eq_krylov hvec (hfits.squareIndex_lt x hx square hsquare)
    · refine (congrArg F.value (hframe' r _ hri (hfits.column_lt x hx))).trans
        ((hk.squares r hr x hx).trans ?_)
      exact if_congr (by omega) rfl rfl

end Keep

/-! ## Runs -/

section Run
variable {α : Type} [LinearOperator α] {op : α}
  {A : Matrix (Fin (LinearOperator.dimension op)) (Fin (LinearOperator.dimension op)) F.Element}
  {v : Fin (LinearOperator.dimension op) → F.Element} {tracked : List TrackedVariable}

theorem step_spec (hop : LinearOperator.ActsAs op F A) {vectors : VectorPair}
    (hsize : vectors.current.size = LinearOperator.dimension op)
    (hnext : vectors.next.size = LinearOperator.dimension op)
    (hred : F.AllReduced vectors.current) :
    ∃ vectors', vectors.step op F = .ok vectors' ∧
      vectors'.current.size = LinearOperator.dimension op ∧
      vectors'.next.size = LinearOperator.dimension op ∧ F.AllReduced vectors'.current ∧
      F.vector _ vectors'.current = A *ᵥ F.vector _ vectors.current := by
  obtain ⟨out, scratch, hok, hout, hred', hvec⟩ :=
    hop.apply_eq vectors.current vectors.next vectors.scratch hsize hred hnext
  refine ⟨⟨out, vectors.current, scratch⟩, ?_, hout, hsize, hred', hvec⟩
  rw [VectorPair.step, hok]
  rfl

theorem steps_succ (op : α) (F : PrimeField) (tracked : List TrackedVariable)
    (m i : ℕ) (k : KrylovRecord) : steps op F tracked (m + 1) i k =
      (if i = 0 then pure k.vectors else k.vectors.step op F) >>= fun vectors =>
        keep { k with vectors := vectors } tracked i >>= steps op F tracked m (i + 1) := by
  rw [steps]
  split <;> rfl

theorem Filled.steps_spec (hop : LinearOperator.ActsAs op F A)
    (hfits : Fits tracked (LinearOperator.dimension op)) (hpos : 0 < LinearOperator.dimension op)
    {rows : ℕ} (m : ℕ) : ∀ (i : ℕ) (k : KrylovRecord), k.Filled F A v tracked rows i →
      i + m ≤ 2 * LinearOperator.dimension op →
      ∃ k', steps op F tracked m i k = .ok k' ∧ k'.Filled F A v tracked rows (i + m) := by
  induction m with
  | zero =>
    intro i k hk _
    exact ⟨k, rfl, hk⟩
  | succ m ih =>
    intro i k hk hle
    have hvectors : ∃ vectors, (if i = 0 then pure k.vectors else k.vectors.step op F) =
        (.ok vectors : Checked VectorPair) ∧
        vectors.current.size = LinearOperator.dimension op ∧
        vectors.next.size = LinearOperator.dimension op ∧ F.AllReduced vectors.current ∧
        F.vector _ vectors.current = A ^ i *ᵥ v := by
      by_cases hzero : i = 0
      · refine ⟨k.vectors, by rw [if_pos hzero]; rfl, hk.size_current, hk.size_next,
          hk.reduced_current, ?_⟩
        rw [hk.current, hzero]
      · obtain ⟨vectors, hok, hsize, hnext, hred, hvec⟩ :=
          step_spec hop hk.size_current hk.size_next hk.reduced_current
        refine ⟨vectors, by rw [if_neg hzero]; exact hok, hsize, hnext, hred, ?_⟩
        rw [hvec, hk.current, mulVec_mulVec, ← pow_succ', Nat.sub_add_cancel (by omega)]
    obtain ⟨vectors, hok, hsize, hnext, hred, hvec⟩ := hvectors
    obtain ⟨k', hkeep, hk'⟩ := hk.keep_spec hfits hpos (by omega) hsize hnext hred hvec
    obtain ⟨k'', hrest, hk''⟩ := ih (i + 1) k' hk' (by omega)
    refine ⟨k'', ?_, by rw [Nat.add_comm m, ← Nat.add_assoc]; exact hk''⟩
    rw [steps_succ, hok, ok_bind, hkeep, ok_bind, hrest]

theorem generate_spec (hop : LinearOperator.ActsAs op F A)
    (hfits : Fits tracked (LinearOperator.dimension op)) (hpos : 0 < LinearOperator.dimension op)
    {probe : Array UInt32} (hprobe : probe.size = LinearOperator.dimension op) (withSquares : Bool)
    (k : KrylovRecord) :
    ∃ k', k.generate op F tracked probe withSquares = .ok k' ∧
      k'.Filled F A (F.vector _ probe) tracked
        (if withSquares then LinearOperator.dimension op else 0)
        (2 * LinearOperator.dimension op) := by
  set prepared := k.prepare (LinearOperator.dimension op) (1 + tracked.length) withSquares
    with hprepared
  set start : KrylovRecord := { prepared with
    vectors := { prepared.vectors with current := probe.map F.residue } } with hstart
  have hvector : F.vector (LinearOperator.dimension op) (probe.map F.residue) =
      F.vector (LinearOperator.dimension op) probe := by
    funext i
    rw [vector, vector, PrimeField.terms, PrimeField.terms, Array.getD_eq_getD_getElem?,
      Array.getD_eq_getD_getElem?, Array.getElem?_map]
    cases probe[(i : ℕ)]? with
    | none => rfl
    | some a => exact value_residue
  have hfilled : start.Filled F A (F.vector _ probe) tracked
      (if withSquares then LinearOperator.dimension op else 0) 0 := by
    refine ⟨rfl, by simpa [hstart] using hprobe, Array.size_replicate, ?_, ?_,
      Table.full_zeros F _ _, Table.full_zeros F _ _, ?_, ?_, ?_⟩
    · intro c hc
      obtain ⟨a, -, rfl⟩ := Array.mem_map.mp hc
      exact F.reduced_residue a
    · rw [Nat.zero_sub, pow_zero, one_mulVec]
      exact hvector
    · intro r _
      rw [if_neg (Nat.not_lt_zero r)]
      exact (congrArg F.value (Table.entry_zeros _ _ _ _)).trans value_zero
    · intro r _ x _
      rw [if_neg fun h => Nat.not_lt_zero r h.1]
      exact (congrArg F.value (Table.entry_zeros _ _ _ _)).trans value_zero
    · intro r _ x _
      rw [if_neg (Nat.not_lt_zero r)]
      exact (congrArg F.value (Table.entry_zeros _ _ _ _)).trans value_zero
  obtain ⟨k', hok, hk'⟩ :=
    Filled.steps_spec hop hfits hpos (2 * LinearOperator.dimension op) 0 start hfilled (by omega)
  refine ⟨k', ?_, by rwa [Nat.zero_add] at hk'⟩
  rw [generate]
  dsimp only
  rw [if_pos hprobe]
  exact hok

theorem filled_of_generate (hop : LinearOperator.ActsAs op F A)
    (hfits : Fits tracked (LinearOperator.dimension op)) (hpos : 0 < LinearOperator.dimension op)
    {probe : Array UInt32} (hprobe : probe.size = LinearOperator.dimension op) {withSquares : Bool}
    {k k' : KrylovRecord} (h : k.generate op F tracked probe withSquares = .ok k') :
    k'.Filled F A (F.vector _ probe) tracked
      (if withSquares then LinearOperator.dimension op else 0)
      (2 * LinearOperator.dimension op) := by
  obtain ⟨k'', hok, hfilled⟩ := generate_spec hop hfits hpos hprobe withSquares k
  obtain rfl := Except.ok.inj (hok.symm.trans h)
  exact hfilled

end Run

end KrylovRecord

end ZeroDim
