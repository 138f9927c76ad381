import Mathlib
import ZeroDim.Poly.SquareFree
import ZeroDim.Proofs.Poly.Division
import ZeroDim.Proofs.Poly.Multiplicity

/-! # Square-free decompositions and radicals

Peeling is followed through the multiplicities `e` of the irreducible polynomials in the polynomial
at the start.  At multiplicity `i` the first polynomial has the irreducible polynomials with
`i ≤ e` once, for `e` not divisible by the characteristic `p`, and the second one has `e - i` of
them, and all `e` of the others.  What is left at the end is a `p`-th power. -/

set_option autoImplicit false

namespace ZeroDim

open Polynomial PrimeField

variable {F : PrimeField}

namespace Poly

variable {a b : Poly}

theorem monic_div (ha : a.field = F) (hb : b.field = F) (hma : (a.toPolynomial F).Monic)
    (hmb : (b.toPolynomial F).Monic) (hdvd : b.toPolynomial F ∣ a.toPolynomial F) :
    ((a / b).toPolynomial F).Monic := by
  rw [toPolynomial_div ha hb]
  obtain ⟨q, hq⟩ := hdvd
  rw [hq, mul_div_cancel_left₀ q hmb.ne_zero]
  rw [hq] at hma
  exact hmb.of_mul_monic_left hma

theorem length_le_one_iff_isUnit (ha : a.field = F) (hne : a.toPolynomial F ≠ 0) :
    a.length ≤ 1 ↔ IsUnit (a.toPolynomial F) := by
  rw [length_eq_natDegree_add_one ha hne, isUnit_iff_degree_eq_zero, degree_eq_natDegree hne]
  norm_cast
  omega

/-! ## Peeling -/

/-- The multiplicities in the two polynomials of `peel` at multiplicity `i`. -/
structure Peeling (F : PrimeField) (e : F.Element[X] → ℕ) (i : ℕ) (w c : Poly) : Prop where
  field_distinct : w.field = F
  field_rest : c.field = F
  monic_distinct : (w.toPolynomial F).Monic
  monic_rest : (c.toPolynomial F).Monic
  distinct : ∀ q, Irreducible q → multiplicity q (w.toPolynomial F) =
    if ¬F.modulus.toNat ∣ e q ∧ i ≤ e q then 1 else 0
  rest : ∀ q, Irreducible q → multiplicity q (c.toPolynomial F) =
    if F.modulus.toNat ∣ e q then e q else e q - i

theorem peeling_start {f : Poly} (hf : f.field = F) (hm : (f.toPolynomial F).Monic) :
    Peeling F (fun q => multiplicity q (f.toPolynomial F)) 1 (f / gcd f f.derivative)
      (gcd f f.derivative) := by
  have hd : f.derivative.field = F := hf
  have hg : (gcd f f.derivative).field = F := field_gcd hf hd
  have hmg := monic_gcd hf hd (.inl hm.ne_zero)
  have hdvd := (gcd_dvd hf hd).1
  have hmult : ∀ q, Irreducible q → multiplicity q ((gcd f f.derivative).toPolynomial F) =
      if F.modulus.toNat ∣ multiplicity q (f.toPolynomial F) then multiplicity q (f.toPolynomial F)
      else multiplicity q (f.toPolynomial F) - 1 := by
    intro q hq
    apply multiplicity_gcd_derivative hq hm.ne_zero
    intro r
    rw [dvd_gcd_iff hf hd, toPolynomial_derivative hf]
  refine ⟨(field_div _ _).trans hf, hg, monic_div hf hg hm hmg hdvd, hmg, ?_, hmult⟩
  intro q hq
  rw [toPolynomial_div hf hg, multiplicity_div hq hm.ne_zero hdvd, hmult q hq]
  have hzero : multiplicity q (f.toPolynomial F) = 0 →
      F.modulus.toNat ∣ multiplicity q (f.toPolynomial F) := fun h => h ▸ dvd_zero _
  by_cases hp : F.modulus.toNat ∣ multiplicity q (f.toPolynomial F)
  · rw [if_pos hp, if_neg fun h => h.1 hp, Nat.sub_self]
  · have hpos : multiplicity q (f.toPolynomial F) ≠ 0 := fun h => hp (hzero h)
    rw [if_neg hp, if_pos ⟨hp, by omega⟩]
    omega

namespace Peeling

variable {e : F.Element[X] → ℕ} {i : ℕ} {w c : Poly} (h : Peeling F e i w c)
include h

theorem field_common : (gcd w c).field = F := field_gcd h.field_distinct h.field_rest

theorem monic_common : ((gcd w c).toPolynomial F).Monic :=
  monic_gcd h.field_distinct h.field_rest (.inl h.monic_distinct.ne_zero)

theorem common_dvd : (gcd w c).toPolynomial F ∣ w.toPolynomial F ∧
    (gcd w c).toPolynomial F ∣ c.toPolynomial F :=
  gcd_dvd h.field_distinct h.field_rest

theorem common (q : F.Element[X]) (hq : Irreducible q) :
    multiplicity q ((gcd w c).toPolynomial F) =
      if ¬F.modulus.toNat ∣ e q ∧ i + 1 ≤ e q then 1 else 0 := by
  rw [multiplicity_eq_min hq h.monic_distinct.ne_zero h.monic_rest.ne_zero
    (dvd_gcd_iff h.field_distinct h.field_rest), h.distinct q hq, h.rest q hq]
  by_cases hp : F.modulus.toNat ∣ e q
  · simp only [hp, not_true_eq_false, false_and, if_false, Nat.zero_min]
  · simp only [hp, not_false_eq_true, true_and, if_false]
    split <;> split <;> omega

theorem next : Peeling F e (i + 1) (gcd w c) (c / gcd w c) := by
  refine ⟨h.field_common, (field_div _ _).trans h.field_rest, h.monic_common,
    monic_div h.field_rest h.field_common h.monic_rest h.monic_common h.common_dvd.2, h.common, ?_⟩
  intro q hq
  rw [toPolynomial_div h.field_rest h.field_common,
    multiplicity_div hq h.monic_rest.ne_zero h.common_dvd.2, h.rest q hq, h.common q hq]
  by_cases hp : F.modulus.toNat ∣ e q
  · simp only [hp, not_true_eq_false, false_and, if_false, if_true, Nat.sub_zero]
  · simp only [hp, not_false_eq_true, true_and, if_false]
    split <;> omega

theorem monic_split : ((w / gcd w c).toPolynomial F).Monic :=
  monic_div h.field_distinct h.field_common h.monic_distinct h.monic_common h.common_dvd.1

theorem split (q : F.Element[X]) (hq : Irreducible q) :
    multiplicity q ((w / gcd w c).toPolynomial F) =
      if ¬F.modulus.toNat ∣ e q ∧ e q = i then 1 else 0 := by
  rw [toPolynomial_div h.field_distinct h.field_common,
    multiplicity_div hq h.monic_distinct.ne_zero h.common_dvd.1, h.distinct q hq, h.common q hq]
  by_cases hp : F.modulus.toNat ∣ e q
  · simp only [hp, not_true_eq_false, false_and, if_false, Nat.sub_self]
  · simp only [hp, not_false_eq_true, true_and]
    split <;> split <;> split <;> omega

theorem length_next_lt (hlen : ¬w.length ≤ 1) :
    (gcd w c).length + (c / gcd w c).length < w.length + c.length := by
  have hw := length_eq_natDegree_add_one h.field_distinct h.monic_distinct.ne_zero
  have hc := length_eq_natDegree_add_one h.field_rest h.monic_rest.ne_zero
  have hy := length_eq_natDegree_add_one h.field_common h.monic_common.ne_zero
  have hc' := length_eq_natDegree_add_one h.next.field_rest h.next.monic_rest.ne_zero
  have hdeg := natDegree_mul h.monic_common.ne_zero h.next.monic_rest.ne_zero
  rw [toPolynomial_div h.field_rest h.field_common,
    EuclideanDomain.mul_div_cancel' h.monic_common.ne_zero h.common_dvd.2,
    ← toPolynomial_div h.field_rest h.field_common] at hdeg
  omega

end Peeling

noncomputable def factorMultiplicity (F : PrimeField) (q : F.Element[X])
    (factors : List SquareFreeFactor) : ℕ :=
  (factors.map fun s => multiplicity q (s.factor.toPolynomial F)).sum

/-- Peeling returns the factors with multiplicities from `i` on, and leaves the multiplicities that
the characteristic divides. -/
theorem peel_spec {e : F.Element[X] → ℕ} (scale i : ℕ) (w c : Poly) (h : Peeling F e i w c) :
    (∀ s ∈ (peel scale i w c).1, s.factor.field = F ∧ (s.factor.toPolynomial F).Monic) ∧
      (∀ q, Irreducible q → factorMultiplicity F q (peel scale i w c).1 =
        if ¬F.modulus.toNat ∣ e q ∧ i ≤ e q then 1 else 0) ∧
      (peel scale i w c).2.field = F ∧ ((peel scale i w c).2.toPolynomial F).Monic ∧
      ∀ q, Irreducible q → multiplicity q ((peel scale i w c).2.toPolynomial F) =
        if F.modulus.toNat ∣ e q then e q else 0 := by
  fun_induction peel scale i w c with
  | case1 i w c hlen =>
    have hunit := (length_le_one_iff_isUnit h.field_distinct h.monic_distinct.ne_zero).mp hlen
    have hnone : ∀ q, Irreducible q → ¬(¬F.modulus.toNat ∣ e q ∧ i ≤ e q) := by
      intro q hq hcase
      have := h.distinct q hq
      rw [multiplicity_eq_zero_of_isUnit hq hunit, if_pos hcase] at this
      contradiction
    refine ⟨?_, ?_, h.field_rest, h.monic_rest, ?_⟩
    · intro s hs
      contradiction
    · intro q hq
      rw [if_neg (hnone q hq)]
      rfl
    · intro q hq
      rw [h.rest q hq]
      by_cases hp : F.modulus.toNat ∣ e q
      · rw [if_pos hp, if_pos hp]
      · rw [if_neg hp, if_neg hp]
        have := hnone q hq
        omega
  | case2 i w c hlen y z c' factors rest hrec ih =>
    rw [dif_pos (h.length_next_lt hlen)] at hrec
    obtain ⟨hmonic, hfactors, hfield, hrest⟩ := ih (h.length_next_lt hlen) h.next
    rw [hrec] at hmonic hfactors hfield hrest
    have hsplit := h.split
    refine ⟨?_, ?_, hfield, hrest⟩
    · intro s hs
      dsimp only at hs
      split at hs
      · rcases List.mem_cons.mp hs with rfl | hs
        · exact ⟨(field_div _ _).trans h.field_distinct, h.monic_split⟩
        · exact hmonic s hs
      · exact hmonic s hs
    · intro q hq
      have hsum : factorMultiplicity F q
          (if 1 < z.length then ⟨z, i * scale⟩ :: factors else factors) =
          multiplicity q (z.toPolynomial F) + factorMultiplicity F q factors := by
        split
        · rfl
        · rename_i hz
          have hunit := (length_le_one_iff_isUnit ((field_div _ _).trans h.field_distinct)
            h.monic_split.ne_zero).mp (Nat.le_of_not_lt hz)
          rw [multiplicity_eq_zero_of_isUnit hq hunit, Nat.zero_add]
      rw [hsum, hfactors q hq, hsplit q hq]
      by_cases hp : F.modulus.toNat ∣ e q
      · simp only [hp, not_true_eq_false, false_and, if_false, Nat.add_zero]
      · simp only [hp, not_false_eq_true, true_and]
        split <;> split <;> split <;> omega

/-! ## Roots -/

theorem frobeniusRoot_pow {f : Poly} (hf : f.field = F) (hm : (f.toPolynomial F).Monic)
    (h : ∀ q, Irreducible q → F.modulus.toNat ∣ multiplicity q (f.toPolynomial F)) :
    f.frobeniusRoot.toPolynomial F ^ F.modulus.toNat = f.toPolynomial F := by
  rw [toPolynomial_frobeniusRoot hf, ← ZMod.expand_card,
    expand_contract _ _ F.modulus_prime.ne_zero]
  exact derivative_eq_zero_of_dvd_multiplicity hm.ne_zero h

theorem monic_frobeniusRoot {f : Poly} (hm : (f.toPolynomial F).Monic)
    (hroot : f.frobeniusRoot.toPolynomial F ^ F.modulus.toNat = f.toPolynomial F) :
    (f.frobeniusRoot.toPolynomial F).Monic := by
  have hlead := congrArg leadingCoeff hroot
  rw [leadingCoeff_pow, ZMod.pow_card, hm.leadingCoeff] at hlead
  exact hlead

theorem multiplicity_frobeniusRoot {f : Poly} (hm : (f.toPolynomial F).Monic)
    (hroot : f.frobeniusRoot.toPolynomial F ^ F.modulus.toNat = f.toPolynomial F)
    {q : F.Element[X]} (hq : Irreducible q) :
    multiplicity q (f.toPolynomial F) =
      F.modulus.toNat * multiplicity q (f.frobeniusRoot.toPolynomial F) := by
  rw [← hroot]
  exact (finiteMultiplicity hq (monic_frobeniusRoot hm hroot).ne_zero).multiplicity_pow hq.prime

theorem length_frobeniusRoot_lt {f g : Poly} (hf : f.field = F) (hg : g.field = F)
    (hm : (f.toPolynomial F).Monic) (hgne : g.toPolynomial F ≠ 0)
    (hroot : f.frobeniusRoot.toPolynomial F ^ F.modulus.toNat = f.toPolynomial F)
    (hdvd : f.toPolynomial F ∣ g.toPolynomial F) (hlen : ¬f.length ≤ 1) :
    f.frobeniusRoot.length < g.length := by
  have hfroot : f.frobeniusRoot.field = F := hf
  have h₁ := length_eq_natDegree_add_one hfroot (monic_frobeniusRoot hm hroot).ne_zero
  have h₂ := length_eq_natDegree_add_one hf hm.ne_zero
  have h₃ := length_eq_natDegree_add_one hg hgne
  have h₄ := natDegree_le_of_dvd hdvd hgne
  have h₅ := natDegree_pow (f.frobeniusRoot.toPolynomial F) F.modulus.toNat
  rw [hroot] at h₅
  have h₆ : (f.frobeniusRoot.toPolynomial F).natDegree <
      F.modulus.toNat * (f.frobeniusRoot.toPolynomial F).natDegree := by
    apply lt_mul_of_one_lt_left _ F.modulus_prime.one_lt
    by_contra hzero
    rw [Nat.eq_zero_of_not_pos hzero, Nat.mul_zero] at h₅
    omega
  omega

/-! ## Decompositions -/

theorem factorMultiplicity_append (q : F.Element[X]) (l₁ l₂ : List SquareFreeFactor) :
    factorMultiplicity F q (l₁ ++ l₂) = factorMultiplicity F q l₁ + factorMultiplicity F q l₂ := by
  rw [factorMultiplicity, List.map_append, List.sum_append, factorMultiplicity, factorMultiplicity]

theorem peel_start_spec (scale : ℕ) {f : Poly} (hf : f.field = F) (hm : (f.toPolynomial F).Monic)
    {factors : List SquareFreeFactor} {rest : Poly}
    (hpeel : peel scale 1 (f / gcd f f.derivative) (gcd f f.derivative) = (factors, rest)) :
    (∀ s ∈ factors, s.factor.field = F ∧ (s.factor.toPolynomial F).Monic) ∧
      (∀ q, Irreducible q → factorMultiplicity F q factors =
        if F.modulus.toNat ∣ multiplicity q (f.toPolynomial F) then 0 else 1) ∧
      rest.field = F ∧ (rest.toPolynomial F).Monic ∧
      (∀ q, Irreducible q → multiplicity q (rest.toPolynomial F) =
        if F.modulus.toNat ∣ multiplicity q (f.toPolynomial F) then multiplicity q (f.toPolynomial F)
        else 0) ∧
      rest.frobeniusRoot.toPolynomial F ^ F.modulus.toNat = rest.toPolynomial F := by
  obtain ⟨hmonic, hfactors, hfield, hmrest, hrest⟩ := peel_spec scale 1 _ _ (peeling_start hf hm)
  rw [hpeel] at hmonic hfactors hfield hmrest hrest
  refine ⟨hmonic, ?_, hfield, hmrest, hrest, ?_⟩
  · intro q hq
    rw [hfactors q hq]
    by_cases hp : F.modulus.toNat ∣ multiplicity q (f.toPolynomial F)
    · rw [if_pos hp, if_neg fun h => h.1 hp]
    · have hne : multiplicity q (f.toPolynomial F) ≠ 0 := fun h => hp (h ▸ dvd_zero _)
      rw [if_neg hp, if_pos ⟨hp, Nat.one_le_iff_ne_zero.mpr hne⟩]
  · apply frobeniusRoot_pow hfield hmrest
    intro q hq
    rw [hrest q hq]
    split
    · assumption
    · exact dvd_zero _

theorem length_root_lt {scale : ℕ} {f : Poly} (hf : f.field = F) (hm : (f.toPolynomial F).Monic)
    {factors : List SquareFreeFactor} {rest : Poly}
    (hpeel : peel scale 1 (f / gcd f f.derivative) (gcd f f.derivative) = (factors, rest))
    (hlen : ¬rest.length ≤ 1) : rest.frobeniusRoot.length < f.length := by
  obtain ⟨-, -, hfield, hmrest, hrest, hroot⟩ := peel_start_spec scale hf hm hpeel
  have hdvd : rest.toPolynomial F ∣ f.toPolynomial F := by
    apply dvd_of_multiplicity_le hmrest.ne_zero hm.ne_zero
    intro q hq
    rw [hrest q hq]
    split
    · exact le_rfl
    · exact Nat.zero_le _
  exact length_frobeniusRoot_lt hfield hf hmrest hm.ne_zero hroot hdvd hlen

theorem factorsFrom_spec (scale : ℕ) (f : Poly) (hf : f.field = F)
    (hm : (f.toPolynomial F).Monic) :
    (∀ s ∈ factorsFrom scale f, s.factor.field = F ∧ (s.factor.toPolynomial F).Monic) ∧
      ∀ q, Irreducible q → factorMultiplicity F q (factorsFrom scale f) =
        if 0 < multiplicity q (f.toPolynomial F) then 1 else 0 := by
  fun_induction factorsFrom scale f with
  | case1 scale f c factors rest hpeel hlen =>
    obtain ⟨hmonic, hfactors, hfield, hmrest, hrest, -⟩ := peel_start_spec scale hf hm hpeel
    refine ⟨hmonic, ?_⟩
    intro q hq
    have hunit := (length_le_one_iff_isUnit hfield hmrest.ne_zero).mp hlen
    have hzero := hrest q hq
    rw [multiplicity_eq_zero_of_isUnit hq hunit] at hzero
    rw [hfactors q hq]
    split at hzero
    · rw [← hzero, if_pos (dvd_zero _), if_neg (lt_irrefl 0)]
    · rename_i hp
      have hne : multiplicity q (f.toPolynomial F) ≠ 0 := fun h => hp (h ▸ dvd_zero _)
      rw [if_neg hp, if_pos (Nat.pos_of_ne_zero hne)]
  | case2 scale f c factors rest hpeel hlen root hshort ih =>
    obtain ⟨hmonic, hfactors, hfield, hmrest, hrest, hroot⟩ := peel_start_spec scale hf hm hpeel
    obtain ⟨hmonic', hfactors'⟩ := ih hfield (monic_frobeniusRoot hmrest hroot)
    constructor
    · intro s hs
      rcases List.mem_append.mp hs with hs | hs
      · exact hmonic s hs
      · exact hmonic' s hs
    · intro q hq
      have hmult := multiplicity_frobeniusRoot hmrest hroot hq
      have hpos := F.modulus_prime.pos
      rw [hrest q hq] at hmult
      rw [factorMultiplicity_append, hfactors q hq, hfactors' q hq]
      by_cases hp : F.modulus.toNat ∣ multiplicity q (f.toPolynomial F)
      · rw [if_pos hp] at hmult ⊢
        rw [Nat.zero_add, hmult]
        exact if_congr (Nat.mul_pos_iff_of_pos_left hpos).symm rfl rfl
      · have hne : multiplicity q (f.toPolynomial F) ≠ 0 := fun h => hp (h ▸ dvd_zero _)
        rw [if_neg hp] at hmult ⊢
        have hzero : multiplicity q (root.toPolynomial F) = 0 :=
          (Nat.mul_eq_zero.mp hmult.symm).resolve_left hpos.ne'
        rw [hzero, if_neg (lt_irrefl 0), if_pos (Nat.pos_of_ne_zero hne)]
  | case3 scale f c factors rest hpeel hlen root hshort =>
    exact absurd (length_root_lt hf hm hpeel hlen) hshort

end Poly

/-! ## Radicals -/

namespace SquareFreeDecomposition

theorem foldl_mul_spec (factors : List SquareFreeFactor)
    (h : ∀ s ∈ factors, s.factor.field = F ∧ (s.factor.toPolynomial F).Monic) (acc : Poly)
    (hacc : acc.field = F) (hm : (acc.toPolynomial F).Monic) :
    (factors.foldl (fun acc s => acc * s.factor) acc).field = F ∧
      ((factors.foldl (fun acc s => acc * s.factor) acc).toPolynomial F).Monic ∧
      ∀ q, Irreducible q →
        multiplicity q ((factors.foldl (fun acc s => acc * s.factor) acc).toPolynomial F) =
          multiplicity q (acc.toPolynomial F) + Poly.factorMultiplicity F q factors := by
  induction factors generalizing acc with
  | nil => exact ⟨hacc, hm, fun q _ => rfl⟩
  | cons s factors ih =>
    obtain ⟨hfield, hmonic⟩ := h s List.mem_cons_self
    have hprod : (acc * s.factor).toPolynomial F = acc.toPolynomial F * s.factor.toPolynomial F :=
      Poly.toPolynomial_mul hacc hfield
    obtain ⟨hf, hm', hmult⟩ := ih (fun t ht => h t (List.mem_cons_of_mem s ht)) (acc * s.factor) hacc
      (by rw [hprod]; exact hm.mul hmonic)
    refine ⟨hf, hm', ?_⟩
    intro q hq
    rw [List.foldl_cons, hmult q hq, hprod,
      multiplicity_mul_of_ne_zero hq hm.ne_zero hmonic.ne_zero, Nat.add_assoc]
    rfl

end SquareFreeDecomposition

theorem Poly.toPolynomial_radical {f : Poly} (hf : f.field = F) (hne : f.toPolynomial F ≠ 0) :
    f.radical.field = F ∧
      f.radical.toPolynomial F = UniqueFactorizationMonoid.radical (f.toPolynomial F) := by
  have hmonic := monic_toPolynomial_monic hf hne
  obtain ⟨hlead, -⟩ := leadingCoeff?_eq hf hne
  have hradical : f.radical = (if 1 < f.length then factorsFrom 1 f.monic else []).foldl
      (fun acc s => acc * s.factor) (one F) := by
    rw [radical, (isZero_eq_false_iff hf).mpr hne, squareFreeDecomposition, hlead, hf]
    rfl
  have hfactors : (∀ s ∈ if 1 < f.length then factorsFrom 1 f.monic else [],
      s.factor.field = F ∧ (s.factor.toPolynomial F).Monic) ∧ ∀ q, Irreducible q →
      factorMultiplicity F q (if 1 < f.length then factorsFrom 1 f.monic else []) =
        if 0 < multiplicity q (f.toPolynomial F) then 1 else 0 := by
    split
    · obtain ⟨hfields, hmult⟩ := factorsFrom_spec 1 f.monic ((field_monic f).trans hf) hmonic
      refine ⟨hfields, ?_⟩
      intro q hq
      rw [hmult q hq, multiplicity_eq_of_associated_right (associated_toPolynomial_monic hf)]
    · rename_i hlen
      have hunit := (length_le_one_iff_isUnit hf hne).mp (Nat.le_of_not_lt hlen)
      refine ⟨fun s hs => absurd hs List.not_mem_nil, ?_⟩
      intro q hq
      rw [multiplicity_eq_zero_of_isUnit hq hunit, if_neg (lt_irrefl 0)]
      rfl
  obtain ⟨hfield, hm, hmult⟩ := SquareFreeDecomposition.foldl_mul_spec _ hfactors.1 (one F) rfl
    (by rw [toPolynomial_one]; exact monic_one)
  rw [hradical]
  refine ⟨hfield, eq_radical_of_multiplicity hm hne ?_⟩
  intro q hq
  rw [hmult q hq, hfactors.2 q hq, toPolynomial_one,
    multiplicity_eq_zero_of_isUnit hq isUnit_one, Nat.zero_add]

theorem monic_radical {K : Type*} [Field K] [DecidableEq K] {P : K[X]} (hP : P ≠ 0) :
    (UniqueFactorizationMonoid.radical P).Monic := by
  apply monic_prod_of_monic
  intro q hq
  rw [UniqueFactorizationMonoid.mem_primeFactors, Polynomial.mem_normalizedFactors_iff hP] at hq
  exact hq.2.1

/-! ## The test -/

theorem Poly.isOne_gcd_derivative_iff {f : Poly} (hf : f.field = F) (hne : f.toPolynomial F ≠ 0) :
    (gcd f f.derivative).isOne = true ↔ (f.toPolynomial F).Separable := by
  have hd : f.derivative.field = F := hf
  rw [isOne_iff (field_gcd hf hd), separable_def, ← toPolynomial_derivative hf]
  constructor
  · intro hone
    apply isCoprime_of_dvd
    · rintro ⟨hz, -⟩
      exact hne hz
    · intro d hunit _ h₁ h₂
      have hdvd := (dvd_gcd_iff hf hd d).mpr ⟨h₁, h₂⟩
      rw [hone] at hdvd
      exact hunit (isUnit_of_dvd_one hdvd)
  · intro hco
    obtain ⟨h₁, h₂⟩ := gcd_dvd hf hd
    exact (monic_gcd hf hd (.inl hne)).eq_one_of_isUnit (hco.isUnit_of_dvd' h₁ h₂)

theorem Poly.isSquareFree_iff {f : Poly} (hf : f.field = F) (hne : f.toPolynomial F ≠ 0) :
    f.isSquareFree = true ↔ Squarefree (f.toPolynomial F) := by
  have hd : f.derivative.field = F := hf
  rw [isSquareFree, ← PerfectField.separable_iff_squarefree]
  split
  · rename_i hlen
    have hunit := (length_le_one_iff_isUnit hf hne).mp hlen
    exact iff_of_true rfl (PerfectField.separable_iff_squarefree.mpr hunit.squarefree)
  · rename_i hlen
    dsimp only
    split
    · rename_i hzero
      -- without derivative the polynomial would have to be a unit
      have hderivative := (isZero_iff hd).mp hzero
      rw [toPolynomial_derivative hf] at hderivative
      refine iff_of_false Bool.false_ne_true fun hsep => hlen ?_
      rw [separable_def, hderivative] at hsep
      exact (length_le_one_iff_isUnit hf hne).mpr (isCoprime_zero_right.mp hsep)
    · exact isOne_gcd_derivative_iff hf hne

end ZeroDim
