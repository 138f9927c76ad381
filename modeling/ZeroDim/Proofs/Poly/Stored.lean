import Mathlib
import ZeroDim.Proofs.Poly.Operations

/-! # Operations on stored coefficients

What the operations do to the vector of coefficients alone, trimming only where new zeros can come
up at the end.  Negation, both shifts and the reset leave out reducing and trimming; coefficients
are set and mirrored in place; powers are taken from the lowest bit of the exponent on.

On the coefficients of a polynomial each gives the coefficients of the result.  Those that do not
trim rely on the coefficients being reduced and the last one not being zero. -/

set_option autoImplicit false

namespace ZeroDim

open Polynomial PrimeField

theorem getD_setIfInBounds (cs : Array UInt32) (i j : ℕ) (c : UInt32) :
    (cs.setIfInBounds i c).getD j 0 = if i = j ∧ i < cs.size then c else cs.getD j 0 := by
  rw [Array.getD_eq_getD_getElem?, Array.getElem?_setIfInBounds, Array.getD_eq_getD_getElem?]
  by_cases hij : i = j
  · subst hij
    by_cases hi : i < cs.size
    · rw [if_pos rfl, if_pos hi, if_pos ⟨rfl, hi⟩, Option.getD_some]
    · rw [if_pos rfl, if_neg hi, if_neg fun h => hi h.2, Array.getElem?_eq_none (by omega)]
  · rw [if_neg hij, if_neg fun h => hij h.1]

theorem getD_append_replicate (cs : Array UInt32) (n i : ℕ) :
    (cs ++ Array.replicate n 0).getD i 0 = cs.getD i 0 := by
  rw [Array.getD_eq_getD_getElem?, Array.getElem?_append, Array.getD_eq_getD_getElem?]
  split
  · rfl
  · rename_i hi
    rw [Array.getElem?_replicate, Array.getElem?_eq_none (by omega : cs.size ≤ i)]
    split <;> rfl

namespace Stored

section Operations
variable (F : PrimeField) (a b : Array UInt32)

def normalize : Array UInt32 := trim (a.map F.residue)

def setCoeff (i : ℕ) (c : UInt32) : Array UInt32 :=
  if a.size ≤ i then
    if F.residue c = 0 then a
    else trim ((a ++ Array.replicate (i + 1 - a.size) 0).setIfInBounds i (F.residue c))
  else trim (a.setIfInBounds i (F.residue c))

def add : Array UInt32 :=
  normalize F (Array.ofFn fun i : Fin (max a.size b.size) => F.add (a.getD i 0) (b.getD i 0))

def sub : Array UInt32 :=
  normalize F (Array.ofFn fun i : Fin (max a.size b.size) => F.sub (a.getD i 0) (b.getD i 0))

def neg : Array UInt32 := a.map F.neg

def scale (c : UInt32) : Array UInt32 :=
  if c = 0 then #[] else normalize F (a.map fun d => F.mul d c)

def mul : Array UInt32 :=
  if a.isEmpty || b.isEmpty then #[] else normalize F (product F a b)

def mulLow (n : ℕ) : Array UInt32 :=
  if (a.take n).isEmpty || (b.take n).isEmpty then #[]
  else normalize F ((product F (a.take n) (b.take n)).take n)

def truncate (n : ℕ) : Array UInt32 := normalize F (a.take n)

def shiftUp (n : ℕ) : Array UInt32 :=
  if a.isEmpty || n == 0 then a else Array.replicate n 0 ++ a

def shiftDown (n : ℕ) : Array UInt32 := if a.size ≤ n then #[] else a.extract n a.size

def mirror (n : ℕ) : Array UInt32 :=
  normalize F ((min n a.size).fold (fun i _ out => out.setIfInBounds (n - 1 - i) (a.getD i 0))
    (Array.replicate n 0))

def derivative : Array UInt32 :=
  if a.size ≤ 1 then #[]
  else normalize F (Array.ofFn fun i : Fin (a.size - 1) =>
    F.mul (a.getD (i + 1) 0) (F.ofNat (i + 1)))

def monic : Array UInt32 :=
  match a.back?.bind F.inv? with
  | some c => scale F a c
  | none => a

/-- The product of `result` and a power of `base`.  The base is squared only if it is used again. -/
def powFrom (result base : Array UInt32) (n : ℕ) : Array UInt32 :=
  if n = 0 then result
  else
    let result := if n % 2 = 1 then mul F result base else result
    if n / 2 = 0 then result else powFrom result (mul F base base) (n / 2)
termination_by n

def pow (n : ℕ) : Array UInt32 := powFrom F (normalize F #[1]) a n

def frobeniusRoot : Array UInt32 :=
  let p := F.modulus.toNat
  normalize F (Array.ofFn fun i : Fin ((a.size + p - 1) / p) => a.getD (i * p) 0)

end Operations

/-! ## Agreement with the operations on polynomials -/

variable {F : PrimeField} {a b : Poly}

theorem back?_normalize (cs : Array UInt32) : (normalize F cs).back? ≠ some 0 := back?_trim_ne _

theorem getD_normalize (cs : Array UInt32) (i : ℕ) :
    (normalize F cs).getD i 0 = F.residue (cs.getD i 0) := Poly.coeff_ofCoeffs F cs i

theorem normalize_eq_self {cs : Array UInt32} (hcs : F.AllReduced cs) (hlast : cs.back? ≠ some 0) :
    normalize F cs = cs := by
  apply eq_of_getD_eq (back?_normalize cs) hlast
  intro i
  rw [getD_normalize, residue_of_reduced (hcs.getD i)]

theorem normalize_empty (F : PrimeField) : normalize F #[] = #[] :=
  normalize_eq_self (fun c hc => by simp at hc) (by simp)

theorem coeffs_setCoeff (a : Poly) (i : ℕ) (c : UInt32) :
    (a.setCoeff i c).coeffs = setCoeff a.field a.coeffs i c := by
  apply eq_of_getD_eq (a.setCoeff i c).trimmed
  · unfold setCoeff
    split
    · split
      · exact a.trimmed
      · exact back?_trim_ne _
    · exact back?_trim_ne _
  · intro j
    change (a.setCoeff i c).coeff j = _
    rw [Poly.coeff_setCoeff, setCoeff]
    by_cases hsize : a.coeffs.size ≤ i
    · rw [if_pos hsize]
      by_cases hzero : a.field.residue c = 0
      · rw [if_pos hzero, hzero]
        split
        · rw [getD_eq_zero_of_size_le (by omega)]
        · rfl
      · rw [if_neg hzero, getD_trim, getD_setIfInBounds, getD_append_replicate, Array.size_append,
          Array.size_replicate]
        by_cases hj : j = i
        · rw [if_pos hj, if_pos ⟨hj.symm, by omega⟩]
        · rw [if_neg hj, if_neg fun h => hj h.1.symm]
          rfl
    · rw [if_neg hsize, getD_trim, getD_setIfInBounds]
      by_cases hj : j = i
      · rw [if_pos hj, if_pos ⟨hj.symm, by omega⟩]
      · rw [if_neg hj, if_neg fun h => hj h.1.symm]
        rfl

theorem coeffs_neg (a : Poly) : (-a).coeffs = neg a.field a.coeffs := by
  apply normalize_eq_self
  · intro c hc
    obtain ⟨d, hd, rfl⟩ := Array.mem_map.mp hc
    exact reduced_neg (a.reduced d hd)
  · rw [Array.back?_map]
    intro h
    obtain ⟨d, hd, hzero⟩ := Option.map_eq_some_iff.mp h
    have hred := a.reduced d (Array.mem_of_back? hd)
    have hvalue := value_neg hred
    rw [hzero, value_zero, zero_eq_neg, value_eq_zero_iff hred] at hvalue
    exact a.trimmed (hvalue ▸ hd)

theorem coeffs_scale (a : Poly) (c : UInt32) :
    (a.scale c).coeffs = scale a.field a.coeffs c := by
  unfold scale
  split
  · rename_i hzero
    apply eq_of_getD_eq (a.scale c).trimmed (by simp)
    intro i
    change (a.scale c).coeff i = 0
    rw [Poly.coeff_scale, hzero, ← value_eq_zero_iff (a.field.reduced_mul _ _), value_mul,
      value_zero, mul_zero]
  · rfl

theorem product_of_isEmpty {cs ds : Array UInt32} (h : (cs.isEmpty || ds.isEmpty) = true) :
    product F cs ds = #[] := by
  have hsmall : cs.size < splittingLength ∨ ds.size < splittingLength := by
    rw [Bool.or_eq_true, Array.isEmpty_iff_size_eq_zero, Array.isEmpty_iff_size_eq_zero] at h
    unfold splittingLength
    omega
  rw [product, if_pos hsmall, convolution, if_pos h]

theorem coeffs_mul (a b : Poly) : (a * b).coeffs = mul a.field a.coeffs b.coeffs := by
  unfold mul
  split
  · rename_i h
    change normalize a.field (product a.field a.coeffs b.coeffs) = _
    rw [product_of_isEmpty h, normalize_empty]
  · rfl

theorem coeffs_mulLow (a b : Poly) (n : ℕ) :
    (a.mulLow b n).coeffs = mulLow a.field a.coeffs b.coeffs n := by
  unfold mulLow
  split
  · rename_i h
    change normalize a.field ((product a.field _ _).take n) = _
    rw [product_of_isEmpty h]
    simpa using normalize_empty a.field
  · rfl

theorem coeffs_shiftUp (a : Poly) (n : ℕ) : (a.shiftUp n).coeffs = shiftUp a.coeffs n := by
  unfold Poly.shiftUp shiftUp
  by_cases hzero : a.isZero = true
  · rw [if_pos hzero, if_pos (by rw [Bool.or_eq_true]; exact .inl hzero)]
  · have hkeep : normalize a.field (Array.replicate n 0 ++ a.coeffs) =
        Array.replicate n 0 ++ a.coeffs := by
      apply normalize_eq_self
      · intro c hc
        rcases Array.mem_append.mp hc with hc | hc
        · rw [(Array.mem_replicate.mp hc).2]
          exact a.field.reduced_zero
        · exact a.reduced c hc
      · rw [Array.back?_append]
        cases hlast : a.coeffs.back? with
        | none =>
          rw [Array.back?_eq_none_iff] at hlast
          rw [Poly.isZero, hlast] at hzero
          contradiction
        | some d =>
          rw [Option.some_or, ← hlast]
          exact a.trimmed
    rw [if_neg hzero]
    change normalize a.field (Array.replicate n 0 ++ a.coeffs) = _
    rw [hkeep]
    split
    · rename_i h
      have hn : n = 0 := by
        rcases Bool.or_eq_true_iff.mp h with h | h
        · exact absurd h hzero
        · exact beq_iff_eq.mp h
      rw [hn, Array.replicate_zero, Array.empty_append]
    · rfl

theorem coeffs_shiftDown (a : Poly) (n : ℕ) : (a.shiftDown n).coeffs = shiftDown a.coeffs n := by
  change normalize a.field (a.coeffs.extract n a.coeffs.size) = _
  unfold shiftDown
  split
  · rename_i hn
    rw [Array.extract_eq_empty_of_le (by omega), normalize_empty]
  · rename_i hn
    apply normalize_eq_self (AllReduced.extract a.reduced _ _)
    have hlast := a.trimmed
    rw [Array.back?_eq_getElem?] at hlast ⊢
    rw [Array.size_extract, Array.getElem?_extract, if_pos (by omega)]
    rwa [show n + (min a.coeffs.size a.coeffs.size - n - 1) = a.coeffs.size - 1 by omega]

/-- After `m` steps the first `m` coefficients are in their places, and the rest is zero. -/
theorem getD_mirror_fold (cs : Array UInt32) {n m : ℕ} (hm : m ≤ n) :
    (m.fold (fun i _ out => out.setIfInBounds (n - 1 - i) (cs.getD i 0))
        (Array.replicate n 0)).size = n ∧
      ∀ j, (m.fold (fun i _ out => out.setIfInBounds (n - 1 - i) (cs.getD i 0))
        (Array.replicate n 0)).getD j 0 = if j < n ∧ n ≤ j + m then cs.getD (n - 1 - j) 0 else 0 := by
  induction m with
  | zero =>
    refine ⟨Array.size_replicate, fun j => ?_⟩
    rw [if_neg (by omega), Nat.fold_zero, Array.getD_eq_getD_getElem?, Array.getElem?_replicate]
    split <;> rfl
  | succ m ih =>
    obtain ⟨hsize, hget⟩ := ih (by omega)
    rw [Nat.fold_succ]
    refine ⟨by rw [Array.size_setIfInBounds, hsize], fun j => ?_⟩
    rw [getD_setIfInBounds, hsize, hget]
    by_cases hj : n - 1 - m = j
    · rw [if_pos ⟨hj, by omega⟩, if_pos (by omega), show n - 1 - j = m by omega]
    · rw [if_neg fun h => hj h.1]
      by_cases hset : j < n ∧ n ≤ j + m
      · rw [if_pos hset, if_pos (by omega)]
      · rw [if_neg hset, if_neg (by omega)]

theorem coeffs_mirror (a : Poly) (n : ℕ) : (a.mirror n).coeffs = mirror a.field a.coeffs n := by
  refine eq_of_getD_eq (a.mirror n).trimmed (back?_normalize _) ?_
  intro j
  change (a.mirror n).coeff j = _
  rw [Poly.coeff_mirror, Stored.mirror, getD_normalize,
    (getD_mirror_fold a.coeffs (Nat.min_le_left n a.coeffs.size)).2]
  by_cases hj : j < n
  · rw [if_pos hj]
    split
    · exact (residue_of_reduced (a.reduced_coeff _)).symm
    · have hbeyond : a.length ≤ n - 1 - j := by
        unfold Poly.length
        omega
      rw [Poly.coeff_eq_zero_of_length_le hbeyond, residue_of_reduced a.field.reduced_zero]
  · rw [if_neg hj, if_neg fun h => hj h.1, residue_of_reduced a.field.reduced_zero]

theorem coeffs_derivative (a : Poly) : a.derivative.coeffs = derivative a.field a.coeffs := by
  unfold derivative
  split
  · rename_i hsize
    have hlen : a.derivative.length ≤ a.length - 1 := Poly.length_tabulate_le _ _ _
    apply Array.size_eq_zero_iff.mp
    unfold Poly.length at hlen
    omega
  · rfl

theorem coeffs_monic (a : Poly) : a.monic.coeffs = monic a.field a.coeffs := by
  unfold Poly.monic monic Poly.leadingCoeff?
  cases a.coeffs.back?.bind a.field.inv? with
  | none => rfl
  | some c => exact coeffs_scale a c

/-- Every step keeps the product of `result` and the power of `base` that is missing. -/
theorem powFrom_eq (n : ℕ) : ∀ r b : Poly, r.field = F → b.field = F →
    ∃ q : Poly, q.field = F ∧ powFrom F r.coeffs b.coeffs n = q.coeffs ∧
      q.toPolynomial F = r.toPolynomial F * b.toPolynomial F ^ n := by
  induction n using Nat.strong_induction_on with
  | _ n ih =>
    intro r b hr hb
    rw [powFrom]
    by_cases hn : n = 0
    · exact ⟨r, hr, if_pos hn, by rw [hn, pow_zero, mul_one]⟩
    rw [if_neg hn]
    have hsquare : (b * b).coeffs = mul F b.coeffs b.coeffs := hb ▸ coeffs_mul b b
    by_cases hodd : n % 2 = 1
    · have hproduct : (r * b).coeffs = mul F r.coeffs b.coeffs := hr ▸ coeffs_mul r b
      rw [if_pos hodd, ← hproduct, ← hsquare]
      by_cases hhalf : n / 2 = 0
      · refine ⟨r * b, hr, if_pos hhalf, ?_⟩
        rw [Poly.toPolynomial_mul hr hb, show n = 1 by omega, pow_one]
      · obtain ⟨q, hq, hrun, heq⟩ := ih (n / 2) (by omega) (r * b) (b * b) hr hb
        refine ⟨q, hq, (if_neg hhalf).trans hrun, ?_⟩
        rw [heq, Poly.toPolynomial_mul hr hb, Poly.toPolynomial_mul hb hb, ← pow_two, ← pow_mul,
          mul_assoc, ← pow_succ', show 2 * (n / 2) + 1 = n by omega]
    · rw [if_neg hodd, ← hsquare, if_neg (by omega)]
      obtain ⟨q, hq, hrun, heq⟩ := ih (n / 2) (by omega) r (b * b) hr hb
      refine ⟨q, hq, hrun, ?_⟩
      rw [heq, Poly.toPolynomial_mul hb hb, ← pow_two, ← pow_mul, show 2 * (n / 2) = n by omega]

theorem coeffs_pow (a : Poly) (n : ℕ) : (a ^ n).coeffs = pow a.field a.coeffs n := by
  obtain ⟨hfield, hpow⟩ := Poly.toPolynomial_pow (F := a.field) rfl n
  obtain ⟨q, hq, hrun, heq⟩ := powFrom_eq (F := a.field) n (Poly.one a.field) a rfl rfl
  rw [Poly.toPolynomial_one, one_mul, ← hpow, Poly.toPolynomial_inj hq hfield] at heq
  rw [← heq, ← hrun]
  rfl

theorem coeffs_frobeniusRoot (a : Poly) :
    a.frobeniusRoot.coeffs = frobeniusRoot a.field a.coeffs := rfl

end Stored

end ZeroDim
