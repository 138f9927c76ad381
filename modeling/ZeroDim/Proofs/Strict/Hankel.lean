import Mathlib
import ZeroDim.Proofs.Hankel.Solution
import ZeroDim.Proofs.Strict.Euclid

/-! # Strict inversion of Hankel matrices

The rows of a key equation are all over its field once the recursion is started, and every step
keeps this.  A step divides by a remainder that is longer than the bound, and so not zero. -/

set_option autoImplicit false

namespace ZeroDim

open PrimeField

variable {F : PrimeField}

/-! ## The key equation -/

structure KeyEquation.Over (F : PrimeField) (e : KeyEquation) : Prop where
  field_eq : e.field = F
  field_r0 : e.r0.field = F
  field_r1 : e.r1.field = F
  field_v0 : e.v0.field = F
  field_v1 : e.v1.field = F

namespace Strict

namespace KeyEquation

def step (e : KeyEquation) : Strict { e' : KeyEquation // e'.r1.length < e.r1.length } := do
  let (q, r) ← Poly.divMod e.r0 e.r1
  let v ← Poly.sub e.v0 (← Poly.mul q e.v1)
  return ⟨{ e with r0 := e.r1, r1 := r, v0 := e.v1, v1 := v }, r.2⟩

def reduceBelow (e : KeyEquation) (bound : ℕ) : Strict KeyEquation :=
  if bound < e.r1.length then do
    let next ← step e
    reduceBelow next bound
  else .ok e
termination_by e.r1.length
decreasing_by exact next.2

def descend (e : KeyEquation) (high : ℕ) (f : Poly) (d : ℕ) : Strict KeyEquation :=
  reduceBelow (e.start high f) d

def solve (e : KeyEquation) : Strict KeyEquation := do
  let n := e.points.size
  let e ← descend e n (.ofCoeffs e.field e.points.reverse) ((n + 1) / 2)
  return { e with solved := n }

def minimalPolynomial (e : KeyEquation) : Strict Poly := Poly.monic e.v1

variable {e : KeyEquation}

theorem step_eq (h : e.Over F) (hr : e.r1.isZero = false) :
    step e = .ok ⟨e.step, e.length_r1_step hr⟩ ∧ e.step.Over F := by
  have hq : (e.r0 / e.r1).field = F := (ZeroDim.Poly.field_div _ _).trans h.field_r0
  have hm : (e.r0 % e.r1).field = F := (ZeroDim.Poly.field_mod _ _).trans h.field_r0
  have hproduct : (e.r0 / e.r1 * e.v1).field = F := hq
  constructor
  · rw [step, Poly.divMod_eq e.r0 hr, ok_bind]
    dsimp only
    rw [Poly.mul_eq (hq.trans h.field_v1.symm), ok_bind,
      Poly.sub_eq (h.field_v0.trans hproduct.symm), ok_bind]
    rfl
  · exact ⟨h.field_eq, h.field_r1, hm, h.field_v1, h.field_v0⟩

theorem reduceBelow_eq (bound : ℕ) (h : e.Over F) :
    reduceBelow e bound = .ok (e.reduceBelow bound) ∧ (e.reduceBelow bound).Over F := by
  fun_induction ZeroDim.KeyEquation.reduceBelow e bound with
  | case1 e hlt ih =>
    have hr : e.r1.isZero = false := by
      rw [Bool.eq_false_iff, Ne, ← ZeroDim.Poly.length_eq_zero_iff]
      omega
    obtain ⟨hstep, hover⟩ := step_eq h hr
    obtain ⟨hrest, hrest'⟩ := ih hover
    refine ⟨?_, hrest'⟩
    rw [reduceBelow, if_pos hlt, hstep]
    exact hrest
  | case2 e hle =>
    refine ⟨?_, h⟩
    rw [reduceBelow, if_neg hle]

theorem descend_eq (he : e.field = F) {f : Poly} (hf : f.field = F) (high d : ℕ) :
    descend e high f d = .ok (e.descend high f d) ∧ (e.descend high f d).Over F := by
  subst he
  exact reduceBelow_eq d ⟨rfl, rfl, hf, rfl, rfl⟩

theorem solve_eq (e : KeyEquation) : solve e = .ok e.solve := by
  rw [solve, (descend_eq rfl rfl _ _).1]
  rfl

theorem minimalPolynomial_eq (e : KeyEquation) :
    minimalPolynomial e = .ok e.minimalPolynomial := Poly.monic_eq _

end KeyEquation

/-! ## Inversion -/

def window (level : Level) (F : PrimeField) (stream : Array UInt32) (n : ℕ) :
    Strict (Array UInt32) :=
  match level with
  | .direct => lift (segment stream 0 n)
  | .shifted => lift (segment stream 1 (n + 1))
  | .deflated => do
    let terms ← lift (segment stream 0 (n + 1))
    collect n fun i => do
      let x ← lift (entryAt terms i)
      let y ← lift (entryAt terms (i + 1))
      sub F x y

theorem window_eq (level : Level) {stream : Array UInt32} (hr : F.AllReduced stream) (n : ℕ) :
    window level F stream n = lift (level.window F stream n) := by
  cases level with
  | direct => rfl
  | shifted => rfl
  | deflated =>
    apply lift_bind
    intro terms hterms
    have hsize : terms.size = n + 1 ∧ F.AllReduced terms := by
      obtain ⟨hle, rfl⟩ := segment_eq_ok_iff.mp hterms
      rw [Array.size_extract]
      exact ⟨by omega, hr.extract _ _⟩
    refine collect_eq (g := fun i => F.sub (terms.getD i 0) (terms.getD (i + 1) 0)) fun i hi => ?_
    rw [lift_entryAt (by omega) 0, ok_bind, lift_entryAt (by omega) 0, ok_bind]
    exact sub_eq (hsize.2.getD _) (hsize.2.getD _)

namespace KeyEquation

def generator? (key : KeyEquation) (d : ℕ) : Strict (Option Poly) :=
  if key.r1.length = d then
    match key.r1.leadingCoeff? with
    | none => .ok none
    | some lead => do
      match ← inv? key.field lead with
      | none => return none
      | some c => return some (← Poly.scale key.v1 c)
  else .ok none

def attempt (key : KeyEquation) (window : Array UInt32) (d : ℕ) (level : Level) :
    Strict (Attempt × KeyEquation) := do
  let F := key.field
  let key ← descend key window.size (.ofCoeffs F window.reverse) d
  match ← generator? key d with
  | none => return (.singular, key)
  | some z1 =>
    match ← inv? F (z1.coeff 0) with
    | none => return (.zeroPivot, key)
    | some pivotInverse =>
      let key ← descend key window.size (.ofCoeffs F window) d
      match ← generator? key d with
      | none => return (.singular, key)
      | some z2 => return (.inverted ⟨d, level, z1, z2, pivotInverse⟩, key)

def invertAlong (sequence : Array UInt32) (d : ℕ) :
    List Level → KeyEquation → Strict (Option HankelInverse × KeyEquation)
  | [], key => .ok (none, key)
  | level :: levels, key => do
    let terms ← window level key.field sequence (← subIndex (2 * d) 1)
    match ← attempt key terms d level with
    | (.inverted inverse, key) => return (some inverse, key)
    | (.zeroPivot, key) => invertAlong sequence d levels key
    | (.singular, key) =>
      if level = .direct then return (none, key) else invertAlong sequence d levels key

def invertHankel (key : KeyEquation) (sequence : Array UInt32) (d : ℕ) :
    Strict (Option HankelInverse × KeyEquation) :=
  invertAlong sequence d Level.direct.onward key

theorem generator?_eq (key : KeyEquation) (d : ℕ) : generator? key d = .ok (key.generator? d) := by
  rw [generator?, ZeroDim.KeyEquation.generator?]
  split
  · cases key.r1.leadingCoeff? with
    | none => rfl
    | some lead =>
      dsimp only
      rw [inv?_eq, ok_bind, Option.bind_some]
      cases key.field.inv? lead with
      | none => rfl
      | some c =>
        dsimp only
        rw [Poly.scale_eq, ok_bind]
        rfl
  · rfl

theorem attempt_eq (key : KeyEquation) (window : Array UInt32) (d : ℕ) (level : Level) :
    attempt key window d level = .ok (key.attempt window d level) := by
  rw [attempt, ZeroDim.KeyEquation.attempt, (descend_eq rfl rfl _ _).1, ok_bind, generator?_eq,
    ok_bind]
  dsimp only
  cases (key.descend window.size (.ofCoeffs key.field window.reverse) d).generator? d with
  | none => rfl
  | some z1 =>
    dsimp only
    rw [inv?_eq, ok_bind]
    cases key.field.inv? (z1.coeff 0) with
    | none => rfl
    | some pivotInverse =>
      dsimp only
      rw [(descend_eq (ZeroDim.KeyEquation.field_descend _ _ _ _) rfl _ _).1, ok_bind,
        generator?_eq, ok_bind]
      cases ((key.descend window.size (.ofCoeffs key.field window.reverse) d).descend window.size
        (.ofCoeffs key.field window) d).generator? d with
      | none => rfl
      | some z2 => rfl

theorem invertAlong_eq {sequence : Array UInt32} (hr : F.AllReduced sequence) {d : ℕ} (hd : 0 < d)
    (levels : List Level) {key : KeyEquation} (hkey : key.field = F) :
    invertAlong sequence d levels key = lift (key.invertAlong sequence d levels) := by
  induction levels generalizing key with
  | nil => rfl
  | cons level levels ih =>
    rw [invertAlong, ZeroDim.KeyEquation.invertAlong, subIndex, ensure_eq (by omega), ok_bind, hkey,
      window_eq level hr]
    apply lift_bind
    intro terms _
    have hfield := (ZeroDim.KeyEquation.field_attempt key terms d level).trans hkey
    rw [attempt_eq, ok_bind]
    generalize key.attempt terms d level = attempted at hfield ⊢
    obtain ⟨attempted, key'⟩ := attempted
    cases attempted with
    | inverted inverse => rfl
    | zeroPivot => exact ih hfield
    | singular =>
      dsimp only
      split
      · rfl
      · exact ih hfield

end KeyEquation

/-! ## Solutions -/

namespace HankelInverse

def solve (h : HankelInverse) (rhs : Array UInt32) : Strict Poly := do
  let d := h.dimension
  let c : Poly := .ofCoeffs h.field (← lift (segment rhs 0 d))
  let first ← Poly.mirror h.z1 (d + 1)
  let second ← Poly.mirror h.z2 (d + 1)
  let a ← Poly.mirror (← Poly.mulLow first c d) d
  let b ← Poly.mirror (← Poly.mulLow h.z2 c d) d
  let difference ← Poly.sub (← Poly.mulLow h.z1 b d) (← Poly.mulLow second a d)
  Poly.scale difference h.pivotInverse

def solveStream (h : HankelInverse) (stream : Array UInt32) : Strict Poly := do
  solve h (← window h.level h.field stream h.dimension)

variable {h : HankelInverse}

theorem solve_eq (hz : h.z1.field = h.z2.field) (rhs : Array UInt32) :
    solve h rhs = lift (h.solve rhs) := by
  rw [solve, ZeroDim.HankelInverse.solve]
  apply lift_bind
  intro terms _
  dsimp only
  set d := h.dimension
  set c : Poly := .ofCoeffs h.field terms
  set a := ((h.z1.mirror (d + 1)).mulLow c d).mirror d
  set b := (h.z2.mulLow c d).mirror d
  have hfirst : (h.z1.mirror (d + 1)).field = c.field := rfl
  have hsecond : h.z2.field = c.field := hz.symm
  have hb : h.z1.field = b.field := hz
  have ha : (h.z2.mirror (d + 1)).field = a.field := hz.symm
  have hproducts : (h.z1.mulLow b d).field = ((h.z2.mirror (d + 1)).mulLow a d).field := hz
  rw [Poly.mirror_eq, ok_bind, Poly.mirror_eq, ok_bind, Poly.mulLow_eq hfirst, ok_bind,
    Poly.mirror_eq, ok_bind, Poly.mulLow_eq hsecond, ok_bind, Poly.mirror_eq, ok_bind,
    Poly.mulLow_eq hb, ok_bind, Poly.mulLow_eq ha, ok_bind, Poly.sub_eq hproducts, ok_bind,
    Poly.scale_eq]
  rfl

theorem solveStream_eq (hz : h.z1.field = h.z2.field) {stream : Array UInt32}
    (hr : h.field.AllReduced stream) : solveStream h stream = lift (h.solveStream stream) := by
  rw [solveStream, ZeroDim.HankelInverse.solveStream, window_eq h.level hr]
  apply lift_bind
  intro rhs _
  exact solve_eq hz rhs

end HankelInverse

end Strict

end ZeroDim
