import Mathlib
import ZeroDim.Proofs.Hankel.Escalation

/-! # Inverses as fingerprints

A check multiplies the matrix of a window by the two columns that an inversion returned.  The
columns determine the window as soon as there is a pivot, so the check accepts a sequence exactly
when it shows the window that was inverted, although it never forms the inverse. -/

set_option autoImplicit false

namespace ZeroDim

open Polynomial PrimeField

variable {F : PrimeField}

namespace HankelInverse

section Product
variable (d : ℕ) (w : Array UInt32) (z : ℕ → UInt32) (i : ℕ)

theorem reduced_productEntry : F.Reduced (productEntry F d w z i) := by
  unfold productEntry
  cases d with
  | zero => exact F.reduced_zero
  | succ d =>
    rw [Nat.fold_succ]
    exact reduced_mulAdd _ _ _ _

theorem value_productEntry : F.value (productEntry F d w z i) =
    ∑ j ∈ Finset.range d, F.terms w (i + j) * F.value (z j) := by
  unfold productEntry
  induction d with
  | zero => exact value_zero
  | succ d ih => rw [Nat.fold_succ, value_mulAdd, ih, Finset.sum_range_succ, terms]

theorem productEntry_beq_iff {f : F.Element[X]} (hf : f.degree < d)
    (hz : ∀ j < d, F.value (z j) = f.coeff j) (p : Prop) [Decidable p] :
    (productEntry F d w z i == if p then 1 else 0) = true ↔
      act f (F.terms w) i = if p then 1 else 0 := by
  have hvalue : F.value (productEntry F d w z i) = act f (F.terms w) i := by
    rw [value_productEntry, act_apply hf]
    apply Finset.sum_congr rfl
    intro j hj
    rw [hz j (Finset.mem_range.mp hj), mul_comm]
  rw [beq_iff_eq, ← hvalue]
  constructor
  · intro h
    rw [h]
    split <;> simp
  · intro h
    apply eq_of_value_eq (reduced_productEntry d w z i)
    · split
      · exact reduced_one
      · exact F.reduced_zero
    · rw [h]
      split <;> simp

end Product

/-- A check asks whether the two columns are those of another window. -/
theorem Holds.check_spec {h : HankelInverse} {u : ℕ → F.Element} (hu : h.Holds F u)
    {sequence w : Array UInt32}
    (hw : h.level.window F sequence (2 * h.dimension - 1) = .ok w) :
    ∃ verdict, h.check sequence = .ok verdict ∧ (verdict = true ↔
      HankelColumns h.dimension (F.terms w) (h.lastColumn F) (h.firstColumn F)) := by
  have hfield : h.field = F := hu.field_z1
  have hlast (i : ℕ) := productEntry_beq_iff h.dimension w h.z1.coeff i hu.columns.degree_last
    (fun j _ => (Poly.coeff_toPolynomial _ _).symm) (i = h.dimension - 1)
  have hfirst (i : ℕ) := productEntry_beq_iff h.dimension w
    (fun j => h.z2.coeff (h.dimension - 1 - j)) i hu.columns.degree_first
    (fun j hj => by rw [hu.coeff_firstColumn, if_pos hj, Poly.coeff_toPolynomial]) (i = 0)
  rw [check, hfield, hw, ok_bind]
  refine ⟨_, rfl, ?_⟩
  simp only [List.all_eq_true, List.mem_range, Bool.and_eq_true, hlast, hfirst]
  constructor
  · intro hall
    exact ⟨hu.columns.degree_last, hu.columns.degree_first, fun i hi => (hall i hi).1,
      fun i hi => (hall i hi).2⟩
  · intro hcolumns i hi
    exact ⟨hcolumns.last i hi, hcolumns.first i hi⟩

end HankelInverse

namespace KeyEquation

/-! ## Inversions that succeed have a dimension -/

theorem generator?_zero (key : KeyEquation) : key.generator? 0 = none := by
  unfold generator?
  split
  · rename_i hlen
    have hlead : key.r1.leadingCoeff? = none := by
      rw [Poly.leadingCoeff?, Array.back?_eq_none_iff]
      exact Array.eq_empty_of_size_eq_zero hlen
    rw [hlead, Option.bind_none, Option.map_none]
  · rfl

theorem attempt_zero (key : KeyEquation) (w : Array UInt32) (level : Level) :
    (key.attempt w 0 level).1 = .singular := by
  rw [attempt, generator?_zero]

theorem pos_of_invertAlong {sequence : Array UInt32} {d : ℕ} (levels : List Level)
    {key key' : KeyEquation} {inverse : HankelInverse}
    (h : key.invertAlong sequence d levels = .ok (some inverse, key')) : 0 < d := by
  rw [Nat.pos_iff_ne_zero]
  rintro rfl
  induction levels generalizing key with
  | nil =>
    have := (Prod.mk.inj (Except.ok.inj h)).1
    contradiction
  | cons level levels ih =>
    obtain ⟨w, key₁, -, -, ⟨found, hfound, -, -⟩ | ⟨-, -, hnone, -⟩ | ⟨-, h⟩⟩ :=
      invertAlong_cons_eq_ok h
    · have := (attempt_zero key w level).symm.trans hfound
      contradiction
    · contradiction
    · exact ih h

/-! ## The check -/

/-- The check of an inverse accepts the sequence it comes from, and another sequence exactly when
both show the same window. -/
theorem invertHankel_check {sequence : Array UInt32} (hr : F.AllReduced sequence) {d : ℕ}
    {key key' : KeyEquation} (hkey : key.field = F) {inverse : HankelInverse}
    (h : key.invertHankel sequence d = .ok (some inverse, key')) :
    inverse.check sequence = .ok true ∧
      ∀ other : Array UInt32, F.AllReduced other → 2 * d ≤ other.size →
        ∃ w w', inverse.level.window F sequence (2 * d - 1) = .ok w ∧
          inverse.level.window F other (2 * d - 1) = .ok w' ∧
          ∃ verdict, inverse.check other = .ok verdict ∧ (verdict = true ↔ w' = w) := by
  have hd := pos_of_invertAlong _ h
  obtain ⟨w, hw, rfl, hholds⟩ := holds_of_invertAlong hd _ hkey h
  obtain ⟨hwsize, hwr⟩ := Level.of_window hw
  constructor
  · obtain ⟨verdict, hcheck, hverdict⟩ := hholds.check_spec hw
    rw [hcheck, hverdict.mpr hholds.columns]
  · intro other hother hsize
    obtain ⟨w', hw', hwsize', hwr', -⟩ := inverse.level.window_spec hother
      (show 2 * inverse.dimension - 1 + 1 ≤ other.size by omega)
    obtain ⟨verdict, hcheck, hverdict⟩ := hholds.check_spec hw'
    refine ⟨w, w', hw, hw', verdict, hcheck, ?_⟩
    rw [hverdict]
    constructor
    · intro hcolumns
      apply eq_of_terms_eq hwr' (hwr hr) (hwsize'.trans hwsize.symm)
      intro i hi
      exact hholds.columns.window_unique hcolumns hholds.pivot_ne_zero (hwsize' ▸ hi)
    · rintro rfl
      exact hholds.columns

/-- The inverse of `1, 0, 99, 95` over 101 elements belongs to the shifted window `0, 99, 95`. -/
theorem invertHankel_check_shifted :
    ∃ (F : PrimeField) (inverse : HankelInverse) (key' : KeyEquation), F.modulus = 101 ∧
      (KeyEquation.empty F).invertHankel #[1, 0, 99, 95] 2 = .ok (some inverse, key') ∧
      inverse.level = .shifted ∧ inverse.check #[1, 0, 99, 95] = .ok true ∧
      inverse.check #[5, 0, 99, 95] = .ok true ∧ inverse.check #[1, 0, 99, 94] = .ok false := by
  let F : PrimeField := ⟨101, by decide +kernel, by decide⟩
  have hinv : ((KeyEquation.empty F).invertHankel #[1, 0, 99, 95] 2).map
      (fun reply => reply.1.map HankelInverse.level) = .ok (some .shifted) := by
    decide +kernel
  obtain ⟨⟨result, key'⟩, hrun, hresult⟩ := map_eq_ok.mp hinv
  obtain ⟨inverse, rfl, hlevel⟩ := Option.map_eq_some_iff.mp hresult
  have hr : F.AllReduced #[1, 0, 99, 95] := by decide +kernel
  obtain ⟨hself, hother⟩ := invertHankel_check hr rfl hrun
  refine ⟨F, inverse, key', rfl, hrun, hlevel, hself, ?_, ?_⟩
  · obtain ⟨w, w', hw, hw', verdict, hcheck, hverdict⟩ :=
      hother #[5, 0, 99, 95] (by decide +kernel) (by decide)
    have hsame : w' = w := by
      apply Except.ok.inj
      rw [← hw, ← hw', hlevel]
      decide +kernel
    rw [hcheck, hverdict.mpr hsame]
  · obtain ⟨w, w', hw, hw', verdict, hcheck, hverdict⟩ :=
      hother #[1, 0, 99, 94] (by decide +kernel) (by decide)
    have hdiffer : w' ≠ w := by
      intro heq
      have hwindows : Level.shifted.window F #[1, 0, 99, 94] 3 =
          Level.shifted.window F #[1, 0, 99, 95] 3 := by
        rw [← hlevel, hw, hw', heq]
      exact absurd hwindows (by decide +kernel)
    rw [hcheck, Bool.eq_false_iff.mpr fun htrue => hdiffer (hverdict.mp htrue)]

end KeyEquation

end ZeroDim
