import Mathlib
import ZeroDim.Proofs.Strict.Poly

/-! # Long division in place

The working remainder is one vector that is written slot by slot, and the quotient one that starts
with zeros.  The quotient positions are taken from the highest one down; where the top of the
working remainder is zero already, the position is left out.

Subtracting a multiple of zero changes no reduced vector, so leaving a position out is a step as any
other, and both vectors end as those of `longDivision`.  Every step makes the top of what is left
zero; the slots from the divisor's leading one on, which are dropped unread, hold nothing but
zeros. -/

set_option autoImplicit false

namespace ZeroDim

open Polynomial PrimeField

/-! ## The two loops -/

namespace Strict

section InPlace
variable (F : PrimeField) (b : Array UInt32)

/-- One slot of the working remainder, less `q` times the coefficient of the divisor above it. -/
def cancelSlot (position : ℕ) (q : UInt32) (i : ℕ) (r : Array UInt32) : Strict (Array UInt32) := do
  let c ← lift (entryAt b i)
  let slot ← lift (entryAt r (position + i))
  lift (writeAt r (position + i) (← sub F slot (← mul F q c)))

def cancelBelow (position : ℕ) (q : UInt32) (k : ℕ) (r : Array UInt32) : Array UInt32 :=
  r.mapIdx fun i c =>
    if position ≤ i ∧ i < position + k then F.sub c (F.mul q (b.getD (i - position) 0)) else c

def divideInPlace (leadInv : UInt32) :
    ℕ → Array UInt32 → Array UInt32 → Strict (Array UInt32 × Array UInt32)
  | 0, quotient, r => .ok (quotient, r)
  | n + 1, quotient, r => do
    let top ← lift (entryAt r (← subIndex (n + b.size) 1))
    if top = 0 then divideInPlace leadInv n quotient r
    else do
      let q ← mul F top leadInv
      let quotient ← lift (writeAt quotient n q)
      let r ← foldBelow (cancelSlot F b n q) r b.size
      divideInPlace leadInv n quotient r

end InPlace

section InPlace
variable {F : PrimeField} {b : Array UInt32}

theorem cancelBelow_size (position : ℕ) (q : UInt32) (r : Array UInt32) :
    cancelBelow F b position q b.size r = ZeroDim.cancel F b position q r := rfl

theorem size_cancelBelow (position : ℕ) (q : UInt32) (k : ℕ) (r : Array UInt32) :
    (cancelBelow F b position q k r).size = r.size := by
  rw [cancelBelow, Array.size_mapIdx]

theorem getElem_cancelBelow {position k i : ℕ} {q : UInt32} {r : Array UInt32}
    (hi : i < (cancelBelow F b position q k r).size) :
    (cancelBelow F b position q k r)[i] =
      if position ≤ i ∧ i < position + k then
        F.sub (r.getD i 0) (F.mul q (b.getD (i - position) 0))
      else r.getD i 0 := by
  have hr : i < r.size := size_cancelBelow position q k r ▸ hi
  simp [cancelBelow, hr]

theorem cancelBelow_zero (position : ℕ) (q : UInt32) (r : Array UInt32) :
    cancelBelow F b position q 0 r = r := by
  apply Array.ext
  · exact size_cancelBelow position q 0 r
  · intro i _ hi
    rw [getElem_cancelBelow, if_neg (by omega)]
    simp [hi]

theorem cancelSlot_eq {position k : ℕ} {q : UInt32} {r : Array UInt32} (hr : F.AllReduced r)
    (hk : k < b.size) (hsize : position + b.size ≤ r.size) :
    cancelSlot F b position q k (cancelBelow F b position q k r) =
      .ok (cancelBelow F b position q (k + 1) r) := by
  have hslot : position + k < (cancelBelow F b position q k r).size := by
    rw [size_cancelBelow]
    omega
  have hbefore : (cancelBelow F b position q k r).getD (position + k) 0 =
      r.getD (position + k) 0 := by
    rw [Array.getD_eq_getD_getElem?, Array.getElem?_eq_getElem hslot, getElem_cancelBelow,
      if_neg (by omega)]
    simp [show position + k < r.size by omega]
  rw [cancelSlot, lift_entryAt hk 0, ok_bind, lift_entryAt hslot 0, ok_bind, mul_eq, ok_bind,
    hbefore, sub_eq (hr.getD _) (F.reduced_mul _ _), ok_bind, writeAt_eq_ok _ hslot, lift_ok]
  apply congrArg Except.ok
  apply Array.ext
  · rw [Array.size_set, size_cancelBelow, size_cancelBelow]
  · intro i hi _
    rw [Array.size_set, size_cancelBelow] at hi
    rw [Array.getElem_set, getElem_cancelBelow, getElem_cancelBelow]
    by_cases hcurrent : position + k = i
    · subst hcurrent
      rw [if_pos rfl, if_pos (by omega), Nat.add_sub_cancel_left]
    · simp only [if_neg hcurrent, show (i < position + (k + 1) ↔ i < position + k) by omega]

theorem foldBelow_cancelSlot {position k : ℕ} {q : UInt32} {r : Array UInt32}
    (hr : F.AllReduced r) (hk : k ≤ b.size) (hsize : position + b.size ≤ r.size) :
    foldBelow (cancelSlot F b position q) r k = .ok (cancelBelow F b position q k r) := by
  induction k with
  | zero => rw [foldBelow, cancelBelow_zero]
  | succ k ih => rw [foldBelow, ih (by omega), ok_bind, cancelSlot_eq hr hk hsize]

theorem mul_zero_word (F : PrimeField) (c : UInt32) : F.mul 0 c = 0 := by
  rw [← value_eq_zero_iff (F.reduced_mul 0 c), value_mul, value_zero, zero_mul]

/-- At a position that is left out, the step would change nothing. -/
theorem cancel_zero {r : Array UInt32} (hr : F.AllReduced r) (position : ℕ) :
    ZeroDim.cancel F b position 0 r = r := by
  apply Array.ext
  · rw [size_cancel]
  · intro i _ hi
    have hred := hr r[i] (Array.getElem_mem hi)
    simp only [ZeroDim.cancel, Array.getElem_mapIdx, mul_zero_word]
    split
    · apply eq_of_value_eq (reduced_sub hred F.reduced_zero) hred
      rw [value_sub hred F.reduced_zero, value_zero, sub_zero]
    · rfl

theorem replicate_succ_append (n : ℕ) (done : Array UInt32) :
    Array.replicate (n + 1) 0 ++ done = Array.replicate n 0 ++ (#[0] ++ done) := by
  rw [Array.replicate_succ, Array.push_eq_append, Array.append_assoc]

theorem writeAt_replicate_append (n : ℕ) (done : Array UInt32) (q : UInt32) :
    writeAt (Array.replicate (n + 1) 0 ++ done) n q =
      .ok (Array.replicate n 0 ++ (#[q] ++ done)) := by
  have hn : n < (Array.replicate (n + 1) 0 ++ done).size := by
    rw [Array.size_append, Array.size_replicate]
    omega
  rw [writeAt_eq_ok q hn]
  apply congrArg Except.ok
  apply Array.ext
  · simp
  · intro i _ _
    rw [Array.getElem_set]
    grind

/-- The quotient holds zeros below the current position and the digits found from there on. -/
theorem divideInPlace_eq (hb : 0 < b.size) (leadInv : UInt32) (n : ℕ) :
    ∀ {r : Array UInt32} (done : Array UInt32), F.AllReduced r → n + b.size ≤ r.size + 1 →
      divideInPlace F b leadInv n (Array.replicate n 0 ++ done) r =
        .ok ((ZeroDim.longDivision F b leadInv n r).1 ++ done,
          (ZeroDim.longDivision F b leadInv n r).2) := by
  induction n with
  | zero =>
    intro r done _ _
    simp [divideInPlace, ZeroDim.longDivision]
  | succ n ih =>
    intro r done hr hsize
    have hnext : ∀ q, n + b.size ≤ (ZeroDim.cancel F b n q r).size + 1 := by
      intro q
      rw [size_cancel]
      omega
    have hstep := fun q => ih (#[q] ++ done) (allReduced_cancel (b := b) hr n q) (hnext q)
    rw [divideInPlace, subIndex, ensure_eq (by omega), ok_bind, lift_entryAt (by omega) 0, ok_bind,
      ZeroDim.longDivision]
    simp only [Array.push_eq_append, Array.append_assoc]
    split
    · rename_i hzero
      have hskip := hstep 0
      rw [cancel_zero hr] at hskip
      rw [hzero, mul_zero_word, cancel_zero hr, replicate_succ_append, hskip]
    · rw [mul_eq, ok_bind, writeAt_replicate_append, lift_ok, ok_bind,
        foldBelow_cancelSlot hr le_rfl (by omega), ok_bind, cancelBelow_size, hstep]

end InPlace

/-! ## Division of polynomials -/

end Strict

theorem working_longDivision {F : PrimeField} {b : Array UInt32} (leadInv : UInt32) (n : ℕ) :
    ∀ r : Array UInt32, F.AllReduced r → (longDivision F b leadInv n r).2.size = r.size ∧
      F.AllReduced (longDivision F b leadInv n r).2 := by
  induction n with
  | zero =>
    intro r hr
    exact ⟨rfl, hr⟩
  | succ n ih =>
    intro r hr
    obtain ⟨hsize, hred⟩ :=
      ih _ (allReduced_cancel (b := b) hr n (F.mul (r.getD (n + b.size - 1) 0) leadInv))
    exact ⟨hsize.trans (size_cancel _ _ _), hred⟩

theorem Poly.divMod_of_lt {a b : Poly} (h : a.length < b.length) :
    divMod a b = (zero a.field, a) := by
  unfold divMod
  split
  · rfl
  · rw [if_pos h]

namespace Strict

namespace Poly

/-- The quotient and the working remainder, for a dividend that is not shorter than the divisor. -/
def workingDivision (a b : Poly) (lead : UInt32) : Strict (Array UInt32 × Array UInt32) := do
  let leadInv ← leadInverse a.field lead
  let n ← subIndex a.length b.length
  divideInPlace a.field b.coeffs leadInv (n + 1) (Array.replicate (n + 1) 0) a.coeffs

def divModInPlace (a b : Poly) : Strict (Poly × Poly) :=
  match b.leadingCoeff? with
  | none => .error (.fault .zeroDivisor)
  | some lead =>
    if a.length < b.length then .ok (.zero a.field, a)
    else do
      let (quotient, r) ← workingDivision a b lead
      let kept ← subIndex b.length 1
      return (.ofCoeffs a.field quotient, .ofCoeffs a.field (r.take kept))

def remainder (a b : Poly) : Strict Poly :=
  if a.length < b.length then .ok a else do return (← divModInPlace a b).2

variable {a b : Poly}

theorem workingDivision_eq {lead : UInt32} (hlead : b.leadingCoeff? = some lead)
    (hle : b.length ≤ a.length) :
    workingDivision a b lead = .ok (ZeroDim.longDivision a.field b.coeffs
      (ZeroDim.Poly.leadInverse a.field lead) (a.length - b.length + 1) a.coeffs) := by
  have hpos := length_pos_of_leadingCoeff? hlead
  have hsize : a.length - b.length + 1 + b.coeffs.size ≤ a.coeffs.size + 1 := by
    unfold ZeroDim.Poly.length at *
    omega
  have hdivide :=
    divideInPlace_eq hpos (ZeroDim.Poly.leadInverse a.field lead) _ #[] a.reduced hsize
  rw [Array.append_empty, Array.append_empty] at hdivide
  rw [workingDivision, leadInverse_eq, ok_bind, subIndex, ensure_eq hle, ok_bind, hdivide]

theorem divModInPlace_eq (a : Poly) (hb : b.isZero = false) :
    divModInPlace a b = .ok (ZeroDim.Poly.divMod a b) := by
  have hne := (ZeroDim.Poly.isZero_eq_false_iff rfl).mp hb
  obtain ⟨hlead, -⟩ := ZeroDim.Poly.leadingCoeff?_eq rfl hne
  have hkept : subIndex b.length 1 = .ok (b.length - 1) :=
    ensure_eq (length_pos_of_leadingCoeff? hlead) _
  rw [divModInPlace, ZeroDim.Poly.divMod, hlead]
  dsimp only
  by_cases hlt : a.length < b.length
  · rw [if_pos hlt, if_pos hlt]
  · rw [if_neg hlt, if_neg hlt, workingDivision_eq hlead (by omega), ok_bind]
    simp only [hkept, ok_bind]
    rfl

theorem remainder_eq (a : Poly) (hb : b.isZero = false) : remainder a b = .ok (a % b) := by
  rw [remainder]
  split
  · rename_i hlt
    change _ = Except.ok (ZeroDim.Poly.divMod a b).2
    rw [ZeroDim.Poly.divMod_of_lt hlt]
  · rw [divModInPlace_eq a hb]
    rfl

end Poly

end Strict

namespace Poly

variable {a b : Poly}

theorem eq_of_mul_add_eq {q q' r r' : Poly} (hb : b.isZero = false) (hq : q.field = b.field)
    (hq' : q'.field = b.field) (hr : r.field = b.field) (hr' : r'.field = b.field)
    (heq : q * b + r = q' * b + r') (hlt : r.length < b.length) (hlt' : r'.length < b.length) :
    q = q' ∧ r = r' := by
  have hne := (isZero_eq_false_iff (F := b.field) rfl).mp hb
  have hpoly := congrArg (toPolynomial b.field) heq
  rw [toPolynomial_add ((field_mul _ _).trans hq) hr,
    toPolynomial_add ((field_mul _ _).trans hq') hr', toPolynomial_mul hq rfl,
    toPolynomial_mul hq' rfl] at hpoly
  rw [length_lt_length_iff hr rfl hne] at hlt
  rw [length_lt_length_iff hr' rfl hne] at hlt'
  have hdvd : b.toPolynomial b.field ∣ r'.toPolynomial b.field - r.toPolynomial b.field :=
    ⟨q.toPolynomial b.field - q'.toPolynomial b.field, by linear_combination -hpoly⟩
  have hrem : r.toPolynomial b.field = r'.toPolynomial b.field := by
    have hzero := eq_zero_of_dvd_of_degree_lt hdvd ((degree_sub_le _ _).trans_lt (max_lt hlt' hlt))
    exact (sub_eq_zero.mp hzero).symm
  have hquotient : q.toPolynomial b.field = q'.toPolynomial b.field := by
    apply mul_right_cancel₀ hne
    linear_combination hpoly - hrem
  exact ⟨(toPolynomial_inj hq hq').mp hquotient, (toPolynomial_inj hr hr').mp hrem⟩

theorem workingDivision_top_eq_zero {lead : UInt32} (h : a.field = b.field)
    (hlead : b.leadingCoeff? = some lead) (hle : b.length ≤ a.length) :
    ∃ quotient r, Strict.Poly.workingDivision a b lead = .ok (quotient, r) ∧ r.size = a.length ∧
      ∀ i, b.length - 1 ≤ i → r.getD i 0 = 0 := by
  have hpos := Strict.Poly.length_pos_of_leadingCoeff? hlead
  have hne : b.toPolynomial a.field ≠ 0 := by
    rw [ne_eq, ← length_eq_zero_iff_toPolynomial h.symm]
    omega
  obtain ⟨hcoeff, -⟩ := leadingCoeff?_eq h.symm hne
  obtain rfl := Option.some.inj (hlead.symm.trans hcoeff)
  obtain ⟨-, hdeg⟩ := longDivision_coeffs rfl h.symm hne hle
  obtain ⟨hsize, hred⟩ := working_longDivision (b := b.coeffs)
    (leadInverse a.field (b.coeff (b.length - 1))) (a.length - b.length + 1) a.coeffs a.reduced
  refine ⟨_, _, Strict.Poly.workingDivision_eq hlead hle, hsize, fun i hi => ?_⟩
  have hzero := (degree_lt_iff_coeff_zero _ _).mp hdeg i hi
  rwa [coeff_polynomial, value_eq_zero_iff (hred.getD i)] at hzero

/-- Division in place is stopped by no divisor other than zero.  It gives the one quotient that
leaves a remainder shorter than the divisor, what it drops of the working remainder is zero, and
taking the remainder alone gives the same. -/
theorem divModInPlace_exact (h : a.field = b.field) (hb : b.isZero = false) :
    ∃ q r : Poly, divMod? a b = .ok (q, r) ∧ Strict.Poly.divModInPlace a b = .ok (q, r) ∧
      mod? a b = .ok r ∧ Strict.Poly.remainder a b = .ok r ∧
      q.field = a.field ∧ r.field = a.field ∧ a = q * b + r ∧ r.length < b.length ∧
      (∀ q' r' : Poly, q'.field = a.field → r'.field = a.field → a = q' * b + r' →
        r'.length < b.length → q' = q ∧ r' = r) ∧
      (∀ lead, b.leadingCoeff? = some lead → b.length ≤ a.length →
        ∃ quotient working, Strict.Poly.workingDivision a b lead = .ok (quotient, working) ∧
          working.size = a.length ∧ ∀ i, b.length - 1 ≤ i → working.getD i 0 = 0) ∧
      (a.length < b.length → q = zero a.field ∧ r = a) := by
  have hlt := length_mod_lt a hb
  have hqF := (field_div a b).trans h
  have hrF := (field_mod a b).trans h
  have heq : a = a / b * b + a % b := by
    obtain ⟨hpoly, -⟩ := divMod_spec (a := a) h rfl ((isZero_eq_false_iff rfl).mp hb)
    rw [← toPolynomial_inj h ((field_add _ _).trans ((field_mul _ _).trans hqF)),
      toPolynomial_add ((field_mul _ _).trans hqF) hrF, toPolynomial_mul hqF rfl]
    exact hpoly
  refine ⟨a / b, a % b, ?_, Strict.Poly.divModInPlace_eq a hb, ?_, Strict.Poly.remainder_eq a hb,
    field_div a b, field_mod a b, heq, hlt, ?_, ?_, ?_⟩
  · rw [divMod?, hb]
    rfl
  · exact mod?_eq_ok_iff.mpr ⟨hb, rfl⟩
  · intro q' r' hq' hr' heq' hlt'
    exact eq_of_mul_add_eq hb (hq'.trans h) hqF (hr'.trans h) hrF (heq'.symm.trans heq) hlt' hlt
  · intro lead hlead hle
    exact workingDivision_top_eq_zero h hlead hle
  · intro hshort
    have hdivision := divMod_of_lt hshort
    exact ⟨congrArg Prod.fst hdivision, congrArg Prod.snd hdivision⟩

/-- Over seven elements, `x ^ 5 + 2` by `x ^ 2 + x + 1`: two steps take the remainder to
`x ^ 2 + 2`, so that the third quotient position is left out. -/
theorem divModInPlace_exact_seven :
    ∃ (F : PrimeField) (a b : Poly), F.modulus = 7 ∧ a = ofCoeffs F #[2, 0, 0, 0, 0, 1] ∧
      b = ofCoeffs F #[1, 1, 1] ∧ a.field = b.field ∧ b.isZero = false ∧
      a / b = ofCoeffs F #[1, 0, 6, 1] ∧ a % b = ofCoeffs F #[1, 6] ∧
      Strict.Poly.divModInPlace a b = .ok (a / b, a % b) ∧
      (∀ q' r' : Poly, q'.field = F → r'.field = F → a = q' * b + r' → r'.length < b.length →
        q' = a / b ∧ r' = a % b) ∧
      ∃ quotient working, Strict.Poly.workingDivision a b 1 = .ok (quotient, working) ∧
        working.size = 6 ∧ ∀ i, 2 ≤ i → working.getD i 0 = 0 := by
  let F : PrimeField := ⟨7, by decide +kernel, by decide⟩
  let a := ofCoeffs F #[2, 0, 0, 0, 0, 1]
  let b := ofCoeffs F #[1, 1, 1]
  have hb : b.isZero = false := by decide +kernel
  have hlead : b.leadingCoeff? = some 1 := by decide +kernel
  have hla : a.length = 6 := by decide +kernel
  have hlb : b.length = 3 := by decide +kernel
  obtain ⟨q, r, hrun, hstrict, -, -, -, -, -, -, hunique, hdropped, -⟩ :=
    divModInPlace_exact (a := a) (b := b) rfl hb
  have hmodel : divMod? a b = .ok (a / b, a % b) := by
    rw [divMod?, hb]
    rfl
  obtain ⟨rfl, rfl⟩ := Prod.mk.inj (Except.ok.inj (hrun.symm.trans hmodel))
  refine ⟨F, a, b, rfl, rfl, rfl, rfl, hb, by decide +kernel, by decide +kernel, hstrict,
    hunique, ?_⟩
  simpa only [hla, hlb] using hdropped 1 hlead (by omega)

end Poly

end ZeroDim
