import Mathlib
import ZeroDim.Proofs.Poly.SquareFree
import ZeroDim.Proofs.Strict.Poly

/-! # Strict Euclidean algorithms

Common divisors, modular inverses and radicals divide by nothing that is zero: Euclid's algorithm
stops before it would, and the common divisors that peeling divides by have a multiple other than
zero.  In characteristic `p` this includes the root of what is left, because that is a `p`-th
power. -/

set_option autoImplicit false

namespace ZeroDim.Strict.Poly

open Polynomial PrimeField

variable {F : PrimeField} {a b : Poly}

/-! ## Common divisors -/

def lastRemainder (a b : Poly) : Strict Poly :=
  if b.isZero then .ok a
  else do
    let (_, r) ← divMod a b
    lastRemainder b r
termination_by b.length
decreasing_by exact r.2

def gcd (a b : Poly) : Strict Poly := do monic (← lastRemainder a b)

theorem lastRemainder_eq (a b : Poly) : lastRemainder a b = .ok (a.lastRemainder b) := by
  fun_induction ZeroDim.Poly.lastRemainder a b with
  | case1 a b hzero => rw [lastRemainder, if_pos hzero]
  | case2 a b hzero ih =>
    rw [lastRemainder, if_neg hzero, divMod_eq a (Bool.eq_false_iff.mpr hzero)]
    exact ih

theorem gcd_eq (a b : Poly) : gcd a b = .ok (a.gcd b) := by
  rw [gcd, lastRemainder_eq, ok_bind]
  exact monic_eq _

/-! ## Combinations -/

def lastCombination (u v : ZeroDim.Poly.Combination) : Strict ZeroDim.Poly.Combination :=
  if v.value.isZero then .ok u
  else do
    let (q, r) ← divMod u.value v.value
    let left ← sub u.left (← mul q v.left)
    let right ← sub u.right (← mul q v.right)
    lastCombination v ⟨r, left, right⟩
termination_by v.value.length
decreasing_by exact r.2

def extendedGcd (a b : Poly) : Strict ZeroDim.Poly.Combination := do
  let F := a.field
  let c ← lastCombination ⟨a, .one F, .zero F⟩ ⟨b, .zero F, .one F⟩
  match c.value.leadingCoeff? with
  | none => return ⟨c.value, .one F, .zero F⟩
  | some lead =>
    let scalar ← leadInverse F lead
    return ⟨← scale c.value scalar, ← scale c.left scalar, ← scale c.right scalar⟩

def inverseMod? (a m : Poly) : Strict (Option Poly) := do
  let reduced ← mod a m
  let c ← extendedGcd m reduced
  if c.value.isOne then return some (← mod c.right m) else return none

theorem lastCombination_eq {f g : F.Element[X]} (u v : ZeroDim.Poly.Combination)
    (hu : u.Holds F f g) (hv : v.Holds F f g) :
    lastCombination u v = .ok (ZeroDim.Poly.lastCombination u v) := by
  fun_induction ZeroDim.Poly.lastCombination u v with
  | case1 u v hzero => rw [lastCombination, if_pos hzero]
  | case2 u v hzero q ih =>
    have hq : (u.value / v.value).field = F := (ZeroDim.Poly.field_div _ _).trans hu.field_value
    have hleft : (u.value / v.value * v.left).field = F := hq
    have hright : (u.value / v.value * v.right).field = F := hq
    rw [lastCombination, if_neg hzero, divMod_eq u.value (Bool.eq_false_iff.mpr hzero), ok_bind]
    dsimp only
    rw [mul_eq (hq.trans hv.field_left.symm), ok_bind, sub_eq (hu.field_left.trans hleft.symm),
      ok_bind, mul_eq (hq.trans hv.field_right.symm), ok_bind,
      sub_eq (hu.field_right.trans hright.symm), ok_bind]
    exact ih hv (hu.next hv)

theorem extendedGcd_eq (h : a.field = b.field) :
    extendedGcd a b = .ok (a.extendedGcd b) := by
  rw [extendedGcd, ZeroDim.Poly.extendedGcd]
  dsimp only
  rw [lastCombination_eq (F := a.field) (f := a.toPolynomial a.field)
    (g := b.toPolynomial a.field) _ _ ⟨rfl, rfl, rfl, by simp⟩ ⟨h.symm, rfl, rfl, by simp⟩, ok_bind]
  generalize ZeroDim.Poly.lastCombination _ _ = c
  cases c.value.leadingCoeff? with
  | none => rfl
  | some lead =>
    dsimp only
    rw [leadInverse_eq, ok_bind, scale_eq, ok_bind, scale_eq, ok_bind, scale_eq, ok_bind]
    rfl

theorem inverseMod?_eq {m : Poly} (h : a.field = m.field) :
    inverseMod? a m = lift (a.inverseMod? m) := by
  rw [inverseMod?, ZeroDim.Poly.inverseMod?, mod_eq]
  apply lift_bind
  intro reduced hreduced
  obtain ⟨hm, rfl⟩ := ZeroDim.Poly.mod?_eq_ok_iff.mp hreduced
  rw [extendedGcd_eq (h.symm.trans (ZeroDim.Poly.field_mod a m).symm), ok_bind]
  dsimp only
  split
  · rw [mod_eq, ZeroDim.Poly.mod?, hm]
    rfl
  · rfl

/-! ## Square-free decompositions -/

def peel (scale i : ℕ) (w c : Poly) : Strict (List SquareFreeFactor × Poly) :=
  if w.length ≤ 1 then .ok ([], c)
  else do
    let y ← gcd w c
    let z ← div w y
    let c' ← div c y
    let (factors, rest) ←
      if y.length + c'.length < w.length + c.length then peel scale (i + 1) y c' else .ok ([], c')
    return (if 1 < z.length then ⟨z, i * scale⟩ :: factors else factors, rest)
termination_by w.length + c.length

def factorsFrom (scale : ℕ) (f : Poly) : Strict (List SquareFreeFactor) := do
  let c ← gcd f (← derivative f)
  let (factors, rest) ← peel scale 1 (← div f c) c
  if rest.length ≤ 1 then return factors
  else
    let root := rest.frobeniusRoot
    if root.length < f.length then
      return factors ++ (← factorsFrom (scale * rest.field.modulus.toNat) root)
    else return factors
termination_by f.length

def squareFreeDecomposition (f : Poly) : Strict SquareFreeDecomposition :=
  match f.leadingCoeff? with
  | none => .ok ⟨0, []⟩
  | some unit => do
    if 1 < f.length then return ⟨unit, ← factorsFrom 1 (← monic f)⟩ else return ⟨unit, []⟩

def radical (f : Poly) : Strict Poly :=
  if f.isZero then .ok f
  else do
    let d ← squareFreeDecomposition f
    d.factors.foldlM (fun acc s => mul acc s.factor) (.one f.field)

def isSquareFree (f : Poly) : Strict Bool :=
  if f.length ≤ 1 then .ok true
  else do
    let d ← derivative f
    if d.isZero then return false else return (← gcd f d).isOne

theorem peel_eq {e : F.Element[X] → ℕ} (scale i : ℕ) (w c : Poly)
    (h : ZeroDim.Poly.Peeling F e i w c) : peel scale i w c = .ok (ZeroDim.Poly.peel scale i w c) := by
  fun_induction ZeroDim.Poly.peel scale i w c with
  | case1 i w c hlen => rw [peel, if_pos hlen]
  | case2 i w c hlen y z c' factors rest hrec ih =>
    have hy : (ZeroDim.Poly.gcd w c).isZero = false :=
      (ZeroDim.Poly.isZero_eq_false_iff h.field_common).mpr h.monic_common.ne_zero
    have hshort := h.length_next_lt hlen
    rw [dif_pos hshort] at hrec
    rw [peel, if_neg hlen, gcd_eq, ok_bind, div_eq w hy, ok_bind, div_eq c hy, ok_bind,
      if_pos hshort, ih hshort h.next, hrec]
    rfl

section Start
variable {f : Poly} (hf : f.field = F) (hm : (f.toPolynomial F).Monic)
include hf hm

theorem isZero_gcd_derivative : (f.gcd f.derivative).isZero = false := by
  have hd : f.derivative.field = F := hf
  rw [ZeroDim.Poly.isZero_eq_false_iff (ZeroDim.Poly.field_gcd hf hd)]
  exact (ZeroDim.Poly.monic_gcd hf hd (.inl hm.ne_zero)).ne_zero

/-- Taking factors off starts with the distinct factors and a common divisor other than zero. -/
theorem factorsFrom_unfold (scale : ℕ) :
    factorsFrom scale f =
      let (factors, rest) := ZeroDim.Poly.peel scale 1 (f / f.gcd f.derivative) (f.gcd f.derivative)
      if rest.length ≤ 1 then .ok factors
      else if rest.frobeniusRoot.length < f.length then do
        return factors ++ (← factorsFrom (scale * rest.field.modulus.toNat) rest.frobeniusRoot)
      else .ok factors := by
  rw [factorsFrom, derivative_eq, ok_bind, gcd_eq, ok_bind,
    div_eq f (isZero_gcd_derivative hf hm), ok_bind,
    peel_eq scale 1 _ _ (ZeroDim.Poly.peeling_start hf hm), ok_bind]
  rfl

end Start

theorem factorsFrom_eq (scale : ℕ) (f : Poly) (hf : f.field = F) (hm : (f.toPolynomial F).Monic) :
    factorsFrom scale f = .ok (ZeroDim.Poly.factorsFrom scale f) := by
  fun_induction ZeroDim.Poly.factorsFrom scale f with
  | case1 scale f c factors rest hpeel hlen =>
    rw [factorsFrom_unfold hf hm, hpeel]
    exact if_pos hlen
  | case2 scale f c factors rest hpeel hlen root hshort ih =>
    obtain ⟨-, -, hfield, hmrest, -, hroot⟩ := ZeroDim.Poly.peel_start_spec scale hf hm hpeel
    have hrec := ih hfield (ZeroDim.Poly.monic_frobeniusRoot hmrest hroot)
    rw [factorsFrom_unfold hf hm, hpeel]
    dsimp only
    rw [if_neg hlen, if_pos hshort, hrec]
    rfl
  | case3 scale f c factors rest hpeel hlen root hshort =>
    rw [factorsFrom_unfold hf hm, hpeel]
    dsimp only
    rw [if_neg hlen, if_neg hshort]

theorem foldlM_mul_eq (factors : List SquareFreeFactor) (acc : Poly) (hacc : acc.field = F)
    (h : ∀ s ∈ factors, s.factor.field = F) :
    factors.foldlM (fun acc s => mul acc s.factor) acc =
      .ok (factors.foldl (fun acc s => acc * s.factor) acc) := by
  induction factors generalizing acc with
  | nil => rfl
  | cons s factors ih =>
    rw [List.foldlM_cons, mul_eq (hacc.trans (h s List.mem_cons_self).symm), ok_bind,
      List.foldl_cons]
    exact ih (acc * s.factor) hacc fun t ht => h t (List.mem_cons_of_mem s ht)

theorem radical_eq {f : Poly} (hf : f.field = F) (hne : f.toPolynomial F ≠ 0) :
    radical f = .ok f.radical := by
  have hfield := (ZeroDim.Poly.field_monic f).trans hf
  have hmonic := ZeroDim.Poly.monic_toPolynomial_monic hf hne
  obtain ⟨hlead, -⟩ := ZeroDim.Poly.leadingCoeff?_eq hf hne
  rw [radical, ZeroDim.Poly.radical, (ZeroDim.Poly.isZero_eq_false_iff hf).mpr hne,
    if_neg Bool.false_ne_true, if_neg Bool.false_ne_true, squareFreeDecomposition,
    ZeroDim.Poly.squareFreeDecomposition, hlead]
  dsimp only
  split
  · rw [monic_eq, ok_bind, factorsFrom_eq 1 f.monic hfield hmonic, ok_bind]
    exact foldlM_mul_eq _ _ hf fun s hs =>
      ((ZeroDim.Poly.factorsFrom_spec 1 f.monic hfield hmonic).1 s hs).1
  · rfl

theorem isSquareFree_eq (f : Poly) : isSquareFree f = .ok f.isSquareFree := by
  rw [isSquareFree, ZeroDim.Poly.isSquareFree]
  split
  · rfl
  · rw [derivative_eq, ok_bind]
    dsimp only
    split
    · rfl
    · rw [gcd_eq]
      rfl

end ZeroDim.Strict.Poly
