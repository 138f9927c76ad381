import Mathlib
import ZeroDim.Parametrization.Linear
import ZeroDim.Proofs.Poly.Division
import ZeroDim.Proofs.Variables

/-! # Filling in coordinates

The coordinates of a parametrization are filled in one after the other, by loops that differ in how
they compute one coordinate.  Every loop writes its own indices once and leaves everything else, so
a coordinate at the end is what was computed for it, from a parametrization that already had all
coordinates that are not filled in later. -/

set_option autoImplicit false

namespace ZeroDim

open Polynomial PrimeField

variable {F : PrimeField}

namespace Parametrization

/-- A coordinate over the field of residues, zero when there is none. -/
noncomputable def coordinatePolynomial (F : PrimeField) (p : Parametrization) (i : ℕ) :
    F.Element[X] := (p.coordinates.getD i (.zero F)).toPolynomial F

structure Over (F : PrimeField) (p : Parametrization) : Prop where
  field_eq : p.field = F
  field_eliminant : p.eliminant.field = F
  field_coordinates : ∀ a ∈ p.coordinates, a.field = F

theorem mem_blocks {p : Parametrization} {a : Poly} :
    a ∈ p.blocks ↔ a = p.eliminant ∨ a = p.denominator ∨ a ∈ p.coordinates := by
  rw [blocks, List.mem_cons, List.mem_cons, List.mem_reverse, Array.mem_toList_iff]

structure SameFrame (p q : Parametrization) : Prop where
  field_eq : p.field = q.field
  variableCount_eq : p.variableCount = q.variableCount
  eliminant_eq : p.eliminant = q.eliminant
  denominator_eq : p.denominator = q.denominator

theorem SameFrame.refl (p : Parametrization) : p.SameFrame p := ⟨rfl, rfl, rfl, rfl⟩

theorem SameFrame.trans {p q r : Parametrization} (h : p.SameFrame q) (h' : q.SameFrame r) :
    p.SameFrame r :=
  ⟨h.field_eq.trans h'.field_eq, h.variableCount_eq.trans h'.variableCount_eq,
    h.eliminant_eq.trans h'.eliminant_eq, h.denominator_eq.trans h'.denominator_eq⟩

theorem coordinatePolynomial_of_getElem? {p : Parametrization} {i : ℕ} {a : Poly}
    (h : p.coordinates[i]? = some a) : p.coordinatePolynomial F i = a.toPolynomial F := by
  rw [coordinatePolynomial, getD_of_getElem? h]

theorem coordinatePolynomial_congr {p q : Parametrization} {i : ℕ}
    (h : p.coordinates[i]? = q.coordinates[i]?) :
    p.coordinatePolynomial F i = q.coordinatePolynomial F i := by
  rw [coordinatePolynomial, coordinatePolynomial, Array.getD_eq_getD_getElem?,
    Array.getD_eq_getD_getElem?, h]

theorem withCoordinate_spec {p p' : Parametrization} {i : ℕ} {a : Poly}
    (h : p.withCoordinate i a = .ok p') : p'.SameFrame p ∧ i < p.coordinates.size ∧
      ∀ j, p'.coordinates[j]? = if i = j then some a else p.coordinates[j]? := by
  unfold withCoordinate at h
  split at h
  · rename_i hi
    obtain rfl := Except.ok.inj h
    refine ⟨⟨rfl, rfl, rfl, rfl⟩, hi, ?_⟩
    intro j
    exact Array.getElem?_set hi
  · contradiction

theorem Over.withCoordinate {p p' : Parametrization} {i : ℕ} {a : Poly} (hp : p.Over F)
    (ha : a.field = F) (h : p.withCoordinate i a = .ok p') : p'.Over F := by
  obtain ⟨hframe, -, hcoord⟩ := withCoordinate_spec h
  refine ⟨hframe.field_eq.trans hp.field_eq, hframe.eliminant_eq ▸ hp.field_eliminant, ?_⟩
  intro b hb
  obtain ⟨j, hj⟩ := Array.mem_iff_getElem?.mp hb
  rw [hcoord] at hj
  split at hj
  · rw [← Option.some.inj hj]
    exact ha
  · exact hp.field_coordinates b (Array.mem_of_getElem? hj)

/-- The loop that all ways to fill in coordinates share. -/
def fillWith {ι : Type} (index : ι → ℕ) (f : Parametrization → ι → Checked Poly) :
    List ι → Parametrization → Checked Parametrization
  | [], p => .ok p
  | x :: xs, p => f p x >>= fun a => p.withCoordinate (index x) a >>= fillWith index f xs

theorem fillWith_preserves {ι : Type} {index : ι → ℕ} {f : Parametrization → ι → Checked Poly}
    {R : Parametrization → Prop} (hstep : ∀ q x a q', R q → f q x = .ok a →
      q.withCoordinate (index x) a = .ok q' → R q') (xs : List ι) {p p' : Parametrization}
    (hp : R p) (h : fillWith index f xs p = .ok p') : R p' := by
  induction xs generalizing p with
  | nil =>
    obtain rfl := Except.ok.inj h
    exact hp
  | cons x xs ih =>
    obtain ⟨a, ha, h⟩ := bind_eq_ok.mp h
    obtain ⟨p₁, hp₁, h⟩ := bind_eq_ok.mp h
    exact ih (hstep p x a p₁ hp ha hp₁) h

/-- A loop touches nothing but its own coordinates, whatever it computes. -/
theorem fillWith_frame {ι : Type} {index : ι → ℕ} {f : Parametrization → ι → Checked Poly}
    {xs : List ι} {p p' : Parametrization} (h : fillWith index f xs p = .ok p') :
    p'.SameFrame p ∧ ∀ i ∉ xs.map index, p'.coordinates[i]? = p.coordinates[i]? := by
  induction xs generalizing p with
  | nil =>
    obtain rfl := Except.ok.inj h
    exact ⟨.refl p, fun _ _ => rfl⟩
  | cons x xs ih =>
    obtain ⟨a, -, h⟩ := bind_eq_ok.mp h
    obtain ⟨p₁, hp₁, h⟩ := bind_eq_ok.mp h
    obtain ⟨hframe, -, hcoord⟩ := withCoordinate_spec hp₁
    obtain ⟨hframe', hother⟩ := ih h
    refine ⟨hframe'.trans hframe, ?_⟩
    intro i hi
    rw [List.map_cons, List.mem_cons, not_or] at hi
    rw [hother i hi.2, hcoord, if_neg (Ne.symm hi.1)]

theorem fillWith_map_congr {ι κ : Type} {index : ι → ℕ} {index' : κ → ℕ}
    {f : Parametrization → ι → Checked Poly} {f' : Parametrization → κ → Checked Poly} {g : ι → κ}
    {xs : List ι} {p : Parametrization} (hindex : ∀ x ∈ xs, index' (g x) = index x)
    (hf : ∀ q, q.SameFrame p → ∀ x ∈ xs, f' q (g x) = f q x) :
    fillWith index' f' (xs.map g) p = fillWith index f xs p := by
  induction xs generalizing p with
  | nil => rfl
  | cons x xs ih =>
    rw [List.map_cons, fillWith, fillWith, hf p (.refl p) x List.mem_cons_self,
      hindex x List.mem_cons_self]
    congr 1
    funext a
    cases hp₁ : p.withCoordinate (index x) a with
    | error fault => rfl
    | ok p₁ =>
      rw [ok_bind, ok_bind]
      apply ih
      · intro y hy
        exact hindex y (List.mem_cons_of_mem x hy)
      · intro q hq y hy
        exact hf q (hq.trans (withCoordinate_spec hp₁).1) y (List.mem_cons_of_mem x hy)

/-- A pass over the coordinates: one write for each variable of a list, at the index of the variable
and of a value that was found for it. -/
inductive Pass {ι : Type} (index : ι → ℕ) (value : ι → Poly → Prop) :
    List ι → Parametrization → Parametrization → Prop
  | nil {p : Parametrization} : Pass index value [] p p
  | cons {x : ι} {xs : List ι} {a : Poly} {p p₁ p' : Parametrization} : value x a →
      p.withCoordinate (index x) a = .ok p₁ → Pass index value xs p₁ p' →
      Pass index value (x :: xs) p p'

section Pass
variable {ι : Type} {index : ι → ℕ} {value : ι → Poly → Prop} {xs : List ι}
  {p p' : Parametrization}

theorem Pass.kept (h : Pass index value xs p p') :
    ∀ i ∉ xs.map index, p'.coordinates[i]? = p.coordinates[i]? := by
  induction h with
  | nil => exact fun _ _ => rfl
  | cons _ hwrite _ ih =>
    intro i hi
    rw [List.map_cons, List.mem_cons, not_or] at hi
    rw [ih i hi.2, (withCoordinate_spec hwrite).2.2, if_neg (Ne.symm hi.1)]

/-- Without repetition, nothing is written over. -/
theorem Pass.written (h : Pass index value xs p p') (hnodup : (xs.map index).Nodup) :
    ∀ x ∈ xs, ∃ a, value x a ∧ p'.coordinates[index x]? = some a := by
  induction h with
  | nil => exact fun x hx => absurd hx List.not_mem_nil
  | cons hvalue hwrite hrest ih =>
    rw [List.map_cons, List.nodup_cons] at hnodup
    intro x hx
    rcases List.mem_cons.mp hx with rfl | hx
    · refine ⟨_, hvalue, ?_⟩
      rw [hrest.kept _ hnodup.1, (withCoordinate_spec hwrite).2.2, if_pos rfl]
    · exact ih hnodup.2 x hx

/-- A loop is a pass with the values that it computes.  They are in their places at the end. -/
theorem pass_of_fillWith {f : Parametrization → ι → Checked Poly}
    (h : fillWith index f xs p = .ok p') (hnodup : (xs.map index).Nodup)
    (hvalue : ∀ q a, ∀ x ∈ xs, q.SameFrame p → f q x = .ok a →
      p'.coordinates[index x]? = some a → value x a) : Pass index value xs p p' := by
  induction xs generalizing p with
  | nil =>
    obtain rfl := Except.ok.inj h
    exact .nil
  | cons x xs ih =>
    obtain ⟨a, ha, h⟩ := bind_eq_ok.mp h
    obtain ⟨p₁, hwrite, hrest⟩ := bind_eq_ok.mp h
    obtain ⟨hframe, -, hcoord⟩ := withCoordinate_spec hwrite
    rw [List.map_cons, List.nodup_cons] at hnodup
    refine .cons (hvalue p a x List.mem_cons_self (.refl p) ha ?_) hwrite (ih hrest hnodup.2 ?_)
    · rw [(fillWith_frame hrest).2 _ hnodup.1, hcoord, if_pos rfl]
    · intro q b y hy hq
      exact hvalue q b y (List.mem_cons_of_mem x hy) (hq.trans hframe)

end Pass

theorem fillWith_spec {ι : Type} {index : ι → ℕ} {f : Parametrization → ι → Checked Poly}
    {xs : List ι} {p p' : Parametrization} (h : fillWith index f xs p = .ok p')
    (hnodup : (xs.map index).Nodup) (hp : p.Over F)
    (hf : ∀ q a, ∀ x ∈ xs, q.SameFrame p → q.Over F → f q x = .ok a → a.field = F) :
    p'.SameFrame p ∧ p'.Over F ∧
      (∀ i ∉ xs.map index, p'.coordinates[i]? = p.coordinates[i]?) ∧
      ∀ earlier x later, xs = earlier ++ x :: later →
        ∃ q a, q.SameFrame p ∧ q.Over F ∧ f q x = .ok a ∧ p'.coordinates[index x]? = some a ∧
          ∀ i ∉ (x :: later).map index, q.coordinates[i]? = p'.coordinates[i]? := by
  induction xs generalizing p with
  | nil =>
    obtain rfl := Except.ok.inj h
    refine ⟨.refl p, hp, fun i _ => rfl, ?_⟩
    intro earlier x later hsplit
    simp at hsplit
  | cons y ys ih =>
    obtain ⟨a, ha, h⟩ := bind_eq_ok.mp h
    obtain ⟨p₁, hp₁, hrest⟩ := bind_eq_ok.mp h
    obtain ⟨hframe₁, -, hcoord₁⟩ := withCoordinate_spec hp₁
    rw [List.map_cons, List.nodup_cons] at hnodup
    obtain ⟨hframe, hover, hother, hsplits⟩ :=
      ih hrest hnodup.2 (hp.withCoordinate (hf p a y List.mem_cons_self (.refl p) hp ha) hp₁)
        fun q b x hx hq => hf q b x (List.mem_cons_of_mem y hx) (hq.trans hframe₁)
    have hkeep : ∀ i ∉ (y :: ys).map index, p'.coordinates[i]? = p.coordinates[i]? := by
      intro i hi
      rw [List.map_cons, List.mem_cons, not_or] at hi
      rw [hother i hi.2, hcoord₁, if_neg (Ne.symm hi.1)]
    refine ⟨hframe.trans hframe₁, hover, hkeep, ?_⟩
    intro earlier x later hsplit
    cases earlier with
    | nil =>
      rw [List.nil_append, List.cons.injEq] at hsplit
      obtain ⟨rfl, rfl⟩ := hsplit
      refine ⟨p, a, .refl p, hp, ha, ?_, fun i hi => (hkeep i hi).symm⟩
      rw [hother _ hnodup.1, hcoord₁, if_pos rfl]
    | cons z earlier =>
      rw [List.cons_append, List.cons.injEq] at hsplit
      obtain ⟨q, b, hq, hrest⟩ := hsplits earlier x later hsplit.2
      exact ⟨q, b, hq.trans hframe₁, hrest⟩

theorem fillWith_forall {ι : Type} {index : ι → ℕ} {f : Parametrization → ι → Checked Poly}
    {xs : List ι} {p p' : Parametrization} {R : ι → F.Element[X] → Prop}
    (h : fillWith index f xs p = .ok p') (hnodup : (xs.map index).Nodup) (hp : p.Over F)
    (hf : ∀ q a, ∀ x ∈ xs, q.SameFrame p → q.Over F → f q x = .ok a →
      a.field = F ∧ R x (a.toPolynomial F)) :
    p'.SameFrame p ∧ p'.Over F ∧ ∀ x ∈ xs, R x (p'.coordinatePolynomial F (index x)) := by
  obtain ⟨hframe, hover, -, hsplits⟩ :=
    fillWith_spec h hnodup hp fun q a x hx hq hqover ha => (hf q a x hx hq hqover ha).1
  refine ⟨hframe, hover, ?_⟩
  intro x hx
  obtain ⟨earlier, later, hsplit⟩ := List.append_of_mem hx
  obtain ⟨q, a, hq, hqover, ha, hcoord, -⟩ := hsplits earlier x later hsplit
  rw [coordinatePolynomial_of_getElem? hcoord]
  exact (hf q a x hx hq hqover ha).2

/-! ## Linear equations -/

/-- The right side of the equation `row` for `x_k`, for given coordinates of the variables above. -/
noncomputable def equationValue (F : PrimeField) (row : Array UInt32) (n k : ℕ)
    (g : ℕ → F.Element[X]) : F.Element[X] :=
  C (F.terms row n) + C (F.terms row (n - 1)) * X -
    ∑ j ∈ Finset.Ioo k (n - 1), C (F.terms row j) * g j

theorem sum_drop_range (f : ℕ → F.Element[X]) (n k : ℕ) :
    (((List.range n).drop (k + 1)).map f).sum = ∑ j ∈ Finset.Ioo k n, f j := by
  rw [← List.sum_toFinset f (List.nodup_range.sublist (List.drop_sublist _ _))]
  congr 1
  ext j
  rw [List.mem_toFinset, Finset.mem_Ioo, List.mem_iff_getElem]
  simp only [List.length_drop, List.length_range, List.getElem_drop, List.getElem_range]
  constructor
  · rintro ⟨m, hm, rfl⟩
    omega
  · rintro ⟨hlt, hlt'⟩
    exact ⟨j - (k + 1), by omega, by omega⟩

/-- Only the coordinates of the variables above matter, up to multiples of the modulus. -/
theorem dvd_equationValue_sub {E : F.Element[X]} {row : Array UInt32} {n k : ℕ}
    {g g' : ℕ → F.Element[X]} (h : ∀ j, k < j → j < n - 1 → E ∣ g j - g' j) :
    E ∣ equationValue F row n k g - equationValue F row n k g' := by
  rw [equationValue, equationValue, sub_sub_sub_cancel_left, ← Finset.sum_sub_distrib]
  apply Finset.dvd_sum
  intro j hj
  obtain ⟨hlt, hlt'⟩ := Finset.mem_Ioo.mp hj
  rw [← mul_sub, ← neg_sub, mul_neg, dvd_neg]
  exact (h j hlt hlt').mul_left _

theorem terms_of_entryAt {row : Array UInt32} {j : ℕ} {c : UInt32} (h : entryAt row j = .ok c) :
    F.terms row j = F.value c := by
  rw [PrimeField.terms, getD_of_getElem? (entryAt_eq_ok_iff.mp h)]

theorem subtractTerms_spec {p : Parametrization} (hp : p.Over F) (row : Array UInt32)
    (js : List ℕ) {acc r : Poly} (hacc : acc.field = F) (h : p.subtractTerms row js acc = .ok r) :
    r.field = F ∧ r.toPolynomial F = acc.toPolynomial F -
      (js.map fun j => C (F.terms row j) * p.coordinatePolynomial F j).sum := by
  induction js generalizing acc with
  | nil =>
    obtain rfl := Except.ok.inj h
    rw [List.map_nil, List.sum_nil, sub_zero]
    exact ⟨hacc, rfl⟩
  | cons j js ih =>
    obtain ⟨c, hc, h⟩ := bind_eq_ok.mp h
    have hterm : F.terms row j = F.value c := terms_of_entryAt hc
    rw [List.map_cons, List.sum_cons, hterm]
    split at h
    · rename_i hzero
      rw [hzero, value_zero, C_0, zero_mul, zero_add]
      exact ih hacc h
    · obtain ⟨b, hb, h⟩ := bind_eq_ok.mp h
      have hget : p.coordinates[j]? = some b := entryAt_eq_ok_iff.mp hb
      have hbfield : b.field = F := hp.field_coordinates b (Array.mem_of_getElem? hget)
      have hscale : (b.scale c).field = F := hbfield
      have hsub : (acc - b.scale c).field = F := hacc
      obtain ⟨hr, hreq⟩ := ih hsub h
      refine ⟨hr, ?_⟩
      rw [hreq, Poly.toPolynomial_sub hacc hscale, Poly.toPolynomial_scale hbfield,
        coordinatePolynomial_of_getElem? hget]
      ring

theorem solveEquation_spec {p : Parametrization} (hp : p.Over F) {row : Array UInt32} {k : ℕ}
    {a : Poly} (h : p.solveEquation row k = .ok a) :
    a.field = F ∧ a.toPolynomial F =
      equationValue F row p.variableCount k (p.coordinatePolynomial F) %
        p.eliminant.toPolynomial F := by
  obtain ⟨c₀, hc₀, h⟩ := bind_eq_ok.mp h
  obtain ⟨c₁, hc₁, h⟩ := bind_eq_ok.mp h
  obtain ⟨rest, hrest, h⟩ := bind_eq_ok.mp h
  obtain ⟨-, rfl⟩ := Poly.mod?_eq_ok_iff.mp h
  have hright : (Poly.ofCoeffs p.field #[c₀, c₁]).field = F := hp.field_eq
  obtain ⟨hfield, hvalue⟩ := subtractTerms_spec hp row _ hright hrest
  refine ⟨(Poly.field_mod _ _).trans hfield, ?_⟩
  rw [Poly.toPolynomial_mod hfield hp.field_eliminant, hvalue, hp.field_eq,
    Poly.toPolynomial_ofCoeffs, equationValue, terms_of_entryAt hc₀, terms_of_entryAt hc₁,
    sum_drop_range]
  congr 2
  rw [polynomial]
  simp [Finset.sum_range_succ]

def equationOrder (layout : VariableLayout) : List (ℕ × ℕ) := layout.linearVariables.zipIdx.reverse

theorem fillLinear_eq (layout : VariableLayout) (xs : List (ℕ × ℕ)) (p : Parametrization) :
    fillLinear layout xs p = fillWith Prod.fst
      (fun p x => layout.equation x.2 >>= fun row => p.solveEquation row x.1) xs p := by
  induction xs generalizing p with
  | nil => rfl
  | cons x xs ih =>
    obtain ⟨k, r⟩ := x
    rw [fillLinear, fillWith]
    simp only [bind_assoc]
    congr 1
    funext row
    congr 1
    funext a
    congr 1
    funext p
    exact ih p

theorem substituteLinear_of_sameButSquares {layout layout' : VariableLayout}
    (h : layout.SameButSquares layout') (p : Parametrization) :
    p.substituteLinear layout' = p.substituteLinear layout := by
  have hequation : layout'.equation = layout.equation := funext h.equation_eq
  rw [substituteLinear, substituteLinear, fillLinear_eq, fillLinear_eq, h.linearVariables_eq,
    hequation]

theorem map_fst_equationOrder (layout : VariableLayout) :
    (equationOrder layout).map Prod.fst = layout.linearVariables.reverse := by
  rw [equationOrder, List.map_reverse, List.zipIdx_map_fst]

theorem substituteLinear_frame {p p' : Parametrization} {layout : VariableLayout}
    (h : p.substituteLinear layout = .ok p') :
    p'.SameFrame p ∧ ∀ i ∉ layout.linearVariables, p'.coordinates[i]? = p.coordinates[i]? := by
  rw [substituteLinear] at h
  split at h
  · obtain rfl := Except.ok.inj h
    exact ⟨.refl p, fun _ _ => rfl⟩
  · rw [fillLinear_eq] at h
    obtain ⟨hframe, hother⟩ := fillWith_frame h
    refine ⟨hframe, ?_⟩
    intro i hi
    apply hother
    change i ∉ (equationOrder layout).map Prod.fst
    rw [map_fst_equationOrder, List.mem_reverse]
    exact hi

theorem nodup_fst_equationOrder (layout : VariableLayout) :
    ((equationOrder layout).map Prod.fst).Nodup := by
  rw [map_fst_equationOrder, List.nodup_reverse]
  exact layout.nodup_linearVariables

theorem pass_of_substituteLinear {p p' : Parametrization} {layout : VariableLayout}
    {value : ℕ × ℕ → Poly → Prop} (hne : p.eliminant.isZero = false)
    (h : p.substituteLinear layout = .ok p')
    (hvalue : ∀ k r a, (k, r) ∈ layout.linearVariables.zipIdx → p'.coordinates[k]? = some a →
      value (k, r) a) : Pass Prod.fst value (equationOrder layout) p p' := by
  rw [substituteLinear, hne, if_neg Bool.false_ne_true, fillLinear_eq] at h
  refine pass_of_fillWith h (nodup_fst_equationOrder layout) ?_
  rintro q a ⟨k, r⟩ hkr - - hcoord
  exact hvalue k r a (List.mem_reverse.mp hkr) hcoord

/-- The coordinates of the linear variables solve their equations, all at once and modulo the
eliminant; nothing else changes. -/
theorem substituteLinear_spec {p p' : Parametrization} {layout : VariableLayout} (hp : p.Over F)
    (hcount : p.variableCount = layout.variableCount) (hne : p.eliminant.toPolynomial F ≠ 0)
    (h : p.substituteLinear layout = .ok p') :
    p'.SameFrame p ∧ p'.Over F ∧
      (∀ i ∉ layout.linearVariables, p'.coordinates[i]? = p.coordinates[i]?) ∧
      ∀ k ∈ layout.linearVariables, ∃ r row, (k, r) ∈ layout.linearVariables.zipIdx ∧
        layout.equation r = .ok row ∧ p'.coordinatePolynomial F k =
          equationValue F row layout.variableCount k (p'.coordinatePolynomial F) %
            p.eliminant.toPolynomial F := by
  have hzero := (Poly.isZero_eq_false_iff hp.field_eliminant).mpr hne
  rw [substituteLinear, hzero, if_neg Bool.false_ne_true, fillLinear_eq] at h
  have hfst := map_fst_equationOrder layout
  have hdecreasing : (equationOrder layout).Pairwise fun a b => b.1 < a.1 := by
    rw [← List.pairwise_map (f := Prod.fst) (R := fun a b => b < a), hfst, List.pairwise_reverse]
    exact layout.pairwise_linearVariables
  obtain ⟨hframe, hover, hother, hsplits⟩ := fillWith_spec h
    (nodup_fst_equationOrder layout) hp
    (by
      intro q a x _ _ hq ha
      obtain ⟨row, -, ha⟩ := bind_eq_ok.mp ha
      exact (solveEquation_spec hq ha).1)
  refine ⟨hframe, hover, ?_, ?_⟩
  · intro i hi
    apply hother
    change i ∉ (equationOrder layout).map Prod.fst
    rw [hfst, List.mem_reverse]
    exact hi
  · intro k hk
    have hmem : k ∈ (equationOrder layout).map Prod.fst := by
      rw [hfst, List.mem_reverse]
      exact hk
    obtain ⟨⟨k', r⟩, hkr, rfl⟩ := List.mem_map.mp hmem
    obtain ⟨earlier, later, hsplit⟩ := List.append_of_mem hkr
    obtain ⟨q, a, hq, hqover, ha, hcoord, hsame⟩ := hsplits earlier (k', r) later hsplit
    obtain ⟨row, hrow, ha⟩ := bind_eq_ok.mp ha
    obtain ⟨-, hvalue⟩ := solveEquation_spec hqover ha
    refine ⟨r, row, List.mem_reverse.mp hkr, hrow, ?_⟩
    dsimp only at hcoord ⊢
    rw [coordinatePolynomial_of_getElem? hcoord, hvalue, hq.variableCount_eq, hcount,
      hq.eliminant_eq]
    -- the variables above are not filled in any more
    apply Polynomial.mod_eq_of_dvd_sub
    apply dvd_equationValue_sub
    intro j hlt _
    rw [coordinatePolynomial_congr (hsame j ?_), sub_self]
    · exact dvd_zero _
    · intro hlater
      rw [hsplit, List.pairwise_append] at hdecreasing
      have hbelow := (List.pairwise_cons.mp hdecreasing.2.1).1
      rcases List.mem_cons.mp hlater with heq | hlater
      · exact absurd heq hlt.ne'
      · obtain ⟨x, hx, rfl⟩ := List.mem_map.mp hlater
        exact absurd (hbelow x hx) hlt.asymm

/-! ## Points -/

theorem pointAt?_spec {p : Parametrization} (hp : p.Over F) (hone : p.denominator = .one F)
    (t : UInt32) : ∃ point, p.pointAt? t = some point ∧
      ∀ (i : ℕ) (a : Poly), p.coordinates[i]? = some a →
        point[i]? = some (F.word ((a.toPolynomial F).eval (F.value t))) := by
  have hden : F.value (p.denominator.eval t) = 1 := by
    rw [hone, Poly.value_eval (Poly.field_one F), Poly.toPolynomial_one, eval_one]
  refine ⟨(p.coordinates.map fun a => F.mul (a.eval t) (F.word 1)).push (F.residue t), ?_, ?_⟩
  · rw [pointAt?, hp.field_eq, inv?_eq_some_word (by rw [hden]; exact one_ne_zero), hden, inv_one,
      Option.map_some]
  · intro i a ha
    have hi : i < p.coordinates.size := (Array.getElem?_eq_some_iff.mp ha).1
    have hfield : a.field = F := hp.field_coordinates a (Array.mem_of_getElem? ha)
    rw [Array.getElem?_push_lt (by simpa using hi), ← Array.getElem?_eq_getElem, Array.getElem?_map,
      ha, Option.map_some, Option.some.injEq]
    apply eq_of_value_eq (F.reduced_mul _ _) (reduced_word _)
    rw [value_mul, value_word, mul_one, value_word, Poly.value_eval hfield]

end Parametrization

end ZeroDim
