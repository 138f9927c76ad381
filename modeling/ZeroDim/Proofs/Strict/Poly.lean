import Mathlib
import ZeroDim.Proofs.Poly.Division
import ZeroDim.Proofs.Strict.Words

/-! # Strict polynomial arithmetic

The coefficients of a polynomial are reduced in its own field, so an operation on two polynomials is
never stopped when both have the same field.  Splitting a product needs halves of the right size as
well, and long division a divisor other than zero; its remainder comes with the proof that it is
shorter than the divisor. -/

set_option autoImplicit false

namespace ZeroDim.Strict

open PrimeField

/-! ## Products -/

section Product
variable (F : PrimeField) (a b : Array UInt32)

def convolutionEntry (k : ℕ) : Strict UInt32 :=
  sumProducts F a.size (fun i => a.getD i 0) fun i => if i ≤ k then b.getD (k - i) 0 else 0

def convolution : Strict (Array UInt32) :=
  if a.isEmpty || b.isEmpty then .ok #[]
  else do collect (← subIndex (a.size + b.size) 1) (convolutionEntry F a b)

def sumEntries : Strict (Array UInt32) :=
  collect (min a.size b.size) fun i => do
    let x ← lift (entryAt a i)
    let y ← lift (entryAt b i)
    add F x y

/-- The low and the high product have to fit into the mixed one, and all three into the result. -/
def recombine (half : ℕ) (low high mixed : Array UInt32) : Strict (Array UInt32) := do
  let total ← subIndex (4 * half) 1
  let _ ← ensure (.fault .outOfRange) (low.size ≤ mixed.size ∧ high.size ≤ mixed.size ∧
    half + mixed.size ≤ total ∧ 2 * half + high.size ≤ total) ()
  collect total fun k => do
    let s ← if half ≤ k then do
        let i := k - half
        let m ← sub F (mixed.getD i 0) (low.getD i 0)
        add F (low.getD k 0) (← sub F m (high.getD i 0))
      else .ok (low.getD k 0)
    if 2 * half ≤ k then add F s (high.getD (k - 2 * half) 0) else .ok s

def splitProduct : ℕ → Array UInt32 → Array UInt32 → Strict (Array UInt32)
  | 0, a, b => convolution F a b
  | level + 1, a, b =>
    if 1 <<< (level + 1) < splittingLength then convolution F a b
    else do
      let half := 1 <<< level
      let low ← splitProduct level (padded a 0 half) (padded b 0 half)
      let high ← splitProduct level (padded a half half) (padded b half half)
      let a' ← sumEntries F (padded a 0 half) (padded a half half)
      let b' ← sumEntries F (padded b 0 half) (padded b half half)
      recombine F half low high (← splitProduct level a' b')

def product : Strict (Array UInt32) :=
  if a.size < splittingLength ∨ b.size < splittingLength then convolution F a b
  else do
    let cs ← splitProduct F (levelFor (max a.size b.size)) a b
    return cs.take (← subIndex (a.size + b.size) 1)

end Product

section Product
variable {F : PrimeField} {a b : Array UInt32}

theorem convolution_eq (ha : F.AllReduced a) (hb : F.AllReduced b) :
    convolution F a b = .ok (ZeroDim.convolution F a b) := by
  have hentry : ∀ k, convolutionEntry F a b k = .ok (ZeroDim.convolutionEntry F a b k) := by
    intro k
    apply sumProducts_eq fun i => ha.getD i
    intro i
    split
    · exact hb.getD _
    · exact F.reduced_zero
  rw [convolution, ZeroDim.convolution]
  split
  · rfl
  · rename_i hne
    have hpos : 1 ≤ a.size + b.size := by
      rw [Bool.or_eq_true, Array.isEmpty_iff_size_eq_zero] at hne
      omega
    rw [subIndex, ensure_eq hpos, ok_bind]
    exact collect_eq fun k _ => hentry k

theorem sumEntries_eq (ha : F.AllReduced a) (hb : F.AllReduced b) :
    sumEntries F a b = .ok (ZeroDim.sumEntries F a b) := by
  rw [sumEntries, collect_eq (g := fun i => F.add (a.getD i 0) (b.getD i 0))]
  · apply congrArg Except.ok
    apply Array.ext
    · rw [Array.size_ofFn, ZeroDim.sumEntries, Array.size_zipWith]
    · intro i hi _
      rw [Array.size_ofFn] at hi
      simp [ZeroDim.sumEntries, show i < a.size by omega, show i < b.size by omega]
  · intro i hi
    rw [lift_entryAt (by omega) 0, ok_bind, lift_entryAt (by omega) 0, ok_bind]
    exact add_eq (ha.getD i) (hb.getD i)

theorem recombine_eq {half : ℕ} {low high mixed : Array UInt32} (hhalf : 0 < half)
    (hl : F.AllReduced low) (hh : F.AllReduced high) (hm : F.AllReduced mixed)
    (sl : low.size = 2 * half - 1) (sh : high.size = 2 * half - 1) (sm : mixed.size = 2 * half - 1) :
    recombine F half low high mixed = .ok (ZeroDim.recombine F half low high mixed) := by
  rw [recombine, subIndex, ensure_eq (by omega), ok_bind, ensure_eq (by omega), ok_bind,
    ZeroDim.recombine]
  apply collect_eq (g := fun k =>
    let middle (i : ℕ) : UInt32 := F.sub (F.sub (mixed.getD i 0) (low.getD i 0)) (high.getD i 0)
    let s := if half ≤ k then F.add (low.getD k 0) (middle (k - half)) else low.getD k 0
    if 2 * half ≤ k then F.add s (high.getD (k - 2 * half) 0) else s)
  intro k _
  have hdifference := reduced_sub (hm.getD (k - half)) (hl.getD (k - half))
  have hmiddle := reduced_sub hdifference (hh.getD (k - half))
  dsimp only
  split
  · rw [sub_eq (hm.getD _) (hl.getD _), ok_bind, sub_eq hdifference (hh.getD _), ok_bind,
      add_eq (hl.getD _) hmiddle, ok_bind]
    split
    · exact add_eq (reduced_add (hl.getD _) hmiddle) (hh.getD _)
    · rfl
  · rw [ok_bind]
    split
    · exact add_eq (hl.getD _) (hh.getD _)
    · rfl

theorem size_sumEntries {n : ℕ} (ha : a.size = n) (hb : b.size = n) :
    (ZeroDim.sumEntries F a b).size = n := by
  rw [ZeroDim.sumEntries, Array.size_zipWith, ha, hb, Nat.min_self]

theorem size_padded (a : Array UInt32) (start n : ℕ) : (padded a start n).size = n :=
  Array.size_ofFn

theorem size_splitProduct_of_size (level : ℕ) {a b : Array UInt32} (ha : a.size = 2 ^ level)
    (hb : b.size = 2 ^ level) :
    (ZeroDim.splitProduct F level a b).size = 2 * 2 ^ level - 1 := by
  rcases Nat.lt_or_ge (2 ^ level) splittingLength with hlevel | hlevel
  · have hpos := Nat.two_pow_pos level
    rw [splitProduct_of_lt hlevel, size_convolution, if_neg, ha, hb, two_mul]
    rw [Bool.or_eq_true, Array.isEmpty_iff_size_eq_zero, Array.isEmpty_iff_size_eq_zero]
    omega
  · exact size_splitProduct hlevel a b

/-- All products below the top are of vectors of the same size, a power of two. -/
theorem splitProduct_eq (level : ℕ) : ∀ {a b : Array UInt32}, F.AllReduced a → F.AllReduced b →
    splitProduct F level a b = .ok (ZeroDim.splitProduct F level a b) := by
  induction level with
  | zero =>
    intro a b ha hb
    exact convolution_eq ha hb
  | succ level ih =>
    intro a b ha hb
    rw [splitProduct, ZeroDim.splitProduct]
    split
    · exact convolution_eq ha hb
    · rw [Nat.one_shiftLeft]
      dsimp only
      have la := allReduced_padded ha 0 (2 ^ level)
      have lb := allReduced_padded hb 0 (2 ^ level)
      have ua := allReduced_padded ha (2 ^ level) (2 ^ level)
      have ub := allReduced_padded hb (2 ^ level) (2 ^ level)
      have sa := allReduced_sumEntries la ua
      have sb := allReduced_sumEntries lb ub
      rw [ih la lb, ok_bind, ih ua ub, ok_bind, sumEntries_eq la ua, ok_bind, sumEntries_eq lb ub,
        ok_bind, ih sa sb, ok_bind]
      apply recombine_eq (Nat.two_pow_pos level)
      · exact (splitProduct_spec level _ _ la lb (size_padded _ _ _).le (size_padded _ _ _).le).2
      · exact (splitProduct_spec level _ _ ua ub (size_padded _ _ _).le (size_padded _ _ _).le).2
      · exact (splitProduct_spec level _ _ sa sb
          (size_sumEntries (size_padded _ _ _) (size_padded _ _ _)).le
          (size_sumEntries (size_padded _ _ _) (size_padded _ _ _)).le).2
      · exact size_splitProduct_of_size level (size_padded _ _ _) (size_padded _ _ _)
      · exact size_splitProduct_of_size level (size_padded _ _ _) (size_padded _ _ _)
      · exact size_splitProduct_of_size level
          (size_sumEntries (size_padded _ _ _) (size_padded _ _ _))
          (size_sumEntries (size_padded _ _ _) (size_padded _ _ _))

theorem product_eq (ha : F.AllReduced a) (hb : F.AllReduced b) :
    product F a b = .ok (ZeroDim.product F a b) := by
  rw [product, ZeroDim.product]
  split
  · exact convolution_eq ha hb
  · rename_i hlong
    have hpos : 1 ≤ a.size + b.size := by
      unfold splittingLength at hlong
      omega
    rw [splitProduct_eq _ ha hb, ok_bind, subIndex, ensure_eq hpos, ok_bind]
    rfl

end Product

/-! ## Ring operations -/

namespace Poly

def sub (a b : Poly) : Strict Poly := do
  let cs ← collect (max a.length b.length) fun i => Strict.sub a.field (a.coeff i) (b.coeff i)
  return .ofCoeffs a.field cs

def mul (a b : Poly) : Strict Poly := do
  return .ofCoeffs a.field (← product a.field a.coeffs b.coeffs)

def mulLow (a b : Poly) (n : ℕ) : Strict Poly := do
  let cs ← product a.field (a.coeffs.take n) (b.coeffs.take n)
  return .ofCoeffs a.field (cs.take n)

def scale (a : Poly) (c : UInt32) : Strict Poly := do
  let cs ← a.coeffs.toList.mapM fun d => Strict.mul a.field d c
  return .ofCoeffs a.field cs.toArray

def mirror (a : Poly) (n : ℕ) : Strict Poly := do
  let cs ← collect n fun i => do return a.coeff (← subIndex (← subIndex n 1) i)
  return .ofCoeffs a.field cs

def derivative (a : Poly) : Strict Poly := do
  let cs ← collect (a.length - 1) fun i =>
    Strict.mul a.field (a.coeff (i + 1)) (a.field.ofNat (i + 1))
  return .ofCoeffs a.field cs

def leadInverse (F : PrimeField) (c : UInt32) : Strict UInt32 := do
  return (← inv? F c).getD 0

def monic (a : Poly) : Strict Poly :=
  match a.leadingCoeff? with
  | none => .ok a
  | some lead => do
    match ← inv? a.field lead with
    | some c => scale a c
    | none => return a

variable {a b : Poly}

theorem sub_eq (h : a.field = b.field) : sub a b = .ok (a - b) := by
  rw [sub, collect_eq fun i _ => Strict.sub_eq (a.reduced_coeff i) (h ▸ b.reduced_coeff i), ok_bind]
  rfl

theorem mul_eq (h : a.field = b.field) : mul a b = .ok (a * b) := by
  have hb : a.field.AllReduced b.coeffs := h ▸ b.reduced
  rw [mul, product_eq a.reduced hb, ok_bind]
  rfl

theorem mulLow_eq (h : a.field = b.field) (n : ℕ) : mulLow a b n = .ok (a.mulLow b n) := by
  have ha : a.field.AllReduced (a.coeffs.take n) := by
    rw [Array.take_eq_extract]
    exact AllReduced.extract a.reduced _ _
  have hb : a.field.AllReduced (b.coeffs.take n) := by
    rw [Array.take_eq_extract, h]
    exact AllReduced.extract b.reduced _ _
  rw [mulLow, product_eq ha hb, ok_bind]
  rfl

theorem scale_eq (a : Poly) (c : UInt32) : scale a c = .ok (a.scale c) := by
  rw [scale, mapM_eq fun d _ => Strict.mul_eq a.field d c, ok_bind, ZeroDim.Poly.scale,
    ← Array.toList_map]
  rfl

theorem mirror_eq (a : Poly) (n : ℕ) : mirror a n = .ok (a.mirror n) := by
  rw [mirror, collect_eq (g := fun i => a.coeff (n - 1 - i)), ok_bind]
  · rfl
  · intro i hi
    rw [subIndex, ensure_eq (by omega), ok_bind, subIndex, ensure_eq (by omega), ok_bind]
    rfl

theorem derivative_eq (a : Poly) : derivative a = .ok a.derivative := by
  rw [derivative, collect_eq fun i _ => Strict.mul_eq a.field _ _, ok_bind]
  rfl

theorem leadInverse_eq (F : PrimeField) (c : UInt32) :
    leadInverse F c = .ok (ZeroDim.Poly.leadInverse F c) := by
  rw [leadInverse, inv?_eq, ok_bind]
  rfl

theorem monic_eq (a : Poly) : monic a = .ok a.monic := by
  rw [monic, ZeroDim.Poly.monic]
  cases a.leadingCoeff? with
  | none => rfl
  | some lead =>
    rw [Option.bind_some]
    dsimp only
    rw [inv?_eq, ok_bind]
    cases a.field.inv? lead with
    | none => rfl
    | some c => exact scale_eq a c

end Poly

/-! ## Division -/

section LongDivision
variable (F : PrimeField) (b : Array UInt32)

def cancel (position : ℕ) (q : UInt32) (r : Array UInt32) : Strict (Array UInt32) := do
  let _ ← ensure (.fault .outOfRange) (position + b.size ≤ r.size) ()
  collect r.size fun i =>
    if position ≤ i ∧ i < position + b.size then do
      sub F (r.getD i 0) (← mul F q (b.getD (i - position) 0))
    else .ok (r.getD i 0)

def longDivision (leadInv : UInt32) : ℕ → Array UInt32 → Strict (Array UInt32 × Array UInt32)
  | 0, r => .ok (#[], r)
  | n + 1, r => do
    let top ← lift (entryAt r (← subIndex (n + b.size) 1))
    let q ← mul F top leadInv
    let (quotient, r) ← longDivision leadInv n (← cancel F b n q r)
    return (quotient.push q, r)

variable {F} {b}

theorem cancel_eq {position : ℕ} {q : UInt32} {r : Array UInt32} (hr : F.AllReduced r)
    (hsize : position + b.size ≤ r.size) :
    cancel F b position q r = .ok (ZeroDim.cancel F b position q r) := by
  rw [cancel, ensure_eq hsize, ok_bind, collect_eq (g := fun i =>
    if position ≤ i ∧ i < position + b.size then
      F.sub (r.getD i 0) (F.mul q (b.getD (i - position) 0)) else r.getD i 0)]
  · apply congrArg Except.ok
    apply Array.ext
    · rw [Array.size_ofFn, size_cancel]
    · intro i _ _
      simp [ZeroDim.cancel]
  · intro i _
    by_cases hi : position ≤ i ∧ i < position + b.size
    · rw [if_pos hi, if_pos hi, mul_eq, ok_bind]
      exact sub_eq (hr.getD i) (F.reduced_mul _ _)
    · rw [if_neg hi, if_neg hi]

/-- The working remainder keeps its size, so that every position the division asks for is there. -/
theorem longDivision_eq (hb : 0 < b.size) (leadInv : UInt32) (n : ℕ) : ∀ {r : Array UInt32},
    F.AllReduced r → n + b.size ≤ r.size + 1 →
    longDivision F b leadInv n r = .ok (ZeroDim.longDivision F b leadInv n r) := by
  induction n with
  | zero =>
    intro r _ _
    rfl
  | succ n ih =>
    intro r hr hsize
    rw [longDivision, subIndex, ensure_eq (by omega), ok_bind, lift_entryAt (by omega) 0, ok_bind,
      mul_eq, ok_bind, cancel_eq hr (by omega), ok_bind, ih (allReduced_cancel hr n _)
        (by rw [size_cancel]; omega)]
    rfl

end LongDivision

namespace Poly

variable {a b : Poly}

theorem length_pos_of_leadingCoeff? {lead : UInt32} (h : b.leadingCoeff? = some lead) :
    0 < b.length := by
  by_contra hzero
  have hnil : b.coeffs = #[] := Array.size_eq_zero_iff.mp (Nat.eq_zero_of_not_pos hzero)
  rw [ZeroDim.Poly.leadingCoeff?, hnil] at h
  contradiction

theorem length_take_lt {lead : UInt32} (h : b.leadingCoeff? = some lead)
    (F : PrimeField) (r : Array UInt32) :
    (ZeroDim.Poly.ofCoeffs F (r.take (b.length - 1))).length < b.length := by
  have hpos := length_pos_of_leadingCoeff? h
  refine lt_of_le_of_lt (ZeroDim.Poly.length_ofCoeffs_le _ _) ?_
  rw [Array.take_eq_extract, Array.size_extract]
  omega

def divMod (a b : Poly) : Strict (Poly × { r : Poly // r.length < b.length }) :=
  match hlead : b.leadingCoeff? with
  | none => .error (.fault .zeroDivisor)
  | some lead =>
    if hlt : a.length < b.length then .ok (.zero a.field, ⟨a, hlt⟩)
    else do
      let leadInv ← leadInverse a.field lead
      let n ← subIndex a.length b.length
      let (quotient, r) ← longDivision a.field b.coeffs leadInv (n + 1) a.coeffs
      return (.ofCoeffs a.field quotient,
        ⟨.ofCoeffs a.field (r.take (b.length - 1)), length_take_lt hlead a.field r⟩)

def div (a b : Poly) : Strict Poly := do return (← divMod a b).1

def mod (a b : Poly) : Strict Poly := do return (← divMod a b).2

/-- A difference of the division has a coefficient of the dividend's field and a product in it, so
that the field of the divisor does not matter. -/
theorem divMod_eq (a : Poly) (hb : b.isZero = false) :
    divMod a b = .ok (a / b, ⟨a % b, ZeroDim.Poly.length_mod_lt a hb⟩) := by
  have hpair : ∀ {q r : Poly} (hr : r.length < b.length), ZeroDim.Poly.divMod a b = (q, r) →
      (.ok (q, ⟨r, hr⟩) : Strict (Poly × { r : Poly // r.length < b.length })) =
        .ok (a / b, ⟨a % b, ZeroDim.Poly.length_mod_lt a hb⟩) := by
    intro q r hr heq
    have hq : a / b = q := congrArg Prod.fst heq
    have hm : a % b = r := congrArg Prod.snd heq
    simp only [hq, hm]
  unfold divMod
  split
  · rename_i hlead
    rw [ZeroDim.Poly.leadingCoeff?, Array.back?_eq_none_iff] at hlead
    rw [ZeroDim.Poly.isZero, hlead] at hb
    contradiction
  · rename_i lead hlead
    have hpos := length_pos_of_leadingCoeff? hlead
    split
    · rename_i hlt
      apply hpair
      simp only [ZeroDim.Poly.divMod, hlead, if_pos hlt]
    · rename_i hlt
      have hdivision := longDivision_eq (F := a.field) (b := b.coeffs) hpos
        (ZeroDim.Poly.leadInverse a.field lead) (a.length - b.length + 1) (r := a.coeffs) a.reduced
        (by unfold ZeroDim.Poly.length at *; omega)
      rw [leadInverse_eq, ok_bind, subIndex, ensure_eq (by omega), ok_bind, hdivision, ok_bind]
      apply hpair
      rw [ZeroDim.Poly.divMod, hlead]
      exact if_neg hlt

theorem div_eq (a : Poly) (hb : b.isZero = false) : div a b = .ok (a / b) := by
  rw [div, divMod_eq a hb]
  rfl

theorem divMod_of_isZero (a : Poly) (hb : b.isZero = true) :
    divMod a b = .error (.fault .zeroDivisor) := by
  unfold divMod
  split
  · rfl
  · rename_i hlead
    have hpos := length_pos_of_leadingCoeff? hlead
    rw [ZeroDim.Poly.length_eq_zero_iff.mpr hb] at hpos
    contradiction

theorem mod_eq (a b : Poly) : mod a b = lift (a.mod? b) := by
  rw [mod, ZeroDim.Poly.mod?]
  cases hb : b.isZero with
  | true =>
    rw [divMod_of_isZero a hb]
    rfl
  | false =>
    rw [divMod_eq a hb]
    rfl

end Poly

end ZeroDim.Strict
