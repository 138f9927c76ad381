import Mathlib
import ZeroDim.Proofs.Poly.SquareFree

/-! # Square-free factors

The decomposition of a polynomial other than zero has monic, square-free factors that are not
constant and pairwise coprime, with positive and distinct multiplicities, and the product of their
powers is the polynomial.  What carries the proof is that a factor of multiplicity `m` collects the
irreducible polynomials of multiplicity `m`, once each.  The descent to a `p`-th root divides
multiplicities by `p` and multiplies the scale by `p`.

The tests on lengths that end the two loops are never needed: `Peels` and `Decomposes` are finite
runs of the loops without them, and the decomposition is the result of such a run. -/

set_option autoImplicit false

namespace ZeroDim

open Polynomial PrimeField

variable {F : PrimeField}

namespace Poly

/-! ## Runs -/

/-- A run of peeling that comes to its end, and divides by zero nowhere. -/
inductive Peels (scale : ℕ) : ℕ → Poly → Poly → List SquareFreeFactor → Poly → Prop
  | done {i : ℕ} {w c : Poly} (hlen : w.length ≤ 1) : Peels scale i w c [] c
  | step {i : ℕ} {w c rest : Poly} {factors : List SquareFreeFactor} (hlen : 1 < w.length)
      (hdivisor : (gcd w c).isZero = false)
      (next : Peels scale (i + 1) (gcd w c) (c / gcd w c) factors rest) :
      Peels scale i w c (if 1 < (w / gcd w c).length then ⟨w / gcd w c, i * scale⟩ :: factors
        else factors) rest

/-- A descent through `p`-th roots that comes to its end. -/
inductive Decomposes : ℕ → Poly → List SquareFreeFactor → Prop
  | last {scale : ℕ} {f rest : Poly} {factors : List SquareFreeFactor}
      (hdivisor : (gcd f f.derivative).isZero = false)
      (peels : Peels scale 1 (f / gcd f f.derivative) (gcd f f.derivative) factors rest)
      (hlen : rest.length ≤ 1) : Decomposes scale f factors
  | root {scale : ℕ} {f rest : Poly} {factors factors' : List SquareFreeFactor}
      (hdivisor : (gcd f f.derivative).isZero = false)
      (peels : Peels scale 1 (f / gcd f f.derivative) (gcd f f.derivative) factors rest)
      (hlen : 1 < rest.length)
      (next : Decomposes (scale * rest.field.modulus.toNat) rest.frobeniusRoot factors') :
      Decomposes scale f (factors ++ factors')

theorem peels_peel {e : F.Element[X] → ℕ} (scale i : ℕ) (w c : Poly) (h : Peeling F e i w c) :
    Peels scale i w c (peel scale i w c).1 (peel scale i w c).2 := by
  fun_induction peel scale i w c with
  | case1 i w c hlen => exact .done hlen
  | case2 i w c hlen y z c' factors rest hrec ih =>
    have hshort := h.length_next_lt hlen
    rw [dif_pos hshort] at hrec
    have hnext := ih hshort h.next
    rw [hrec] at hnext
    have hdivisor := (isZero_eq_false_iff h.field_common).mpr h.monic_common.ne_zero
    exact .step (Nat.lt_of_not_le hlen) hdivisor hnext

theorem peels_start {scale : ℕ} {f : Poly} (hf : f.field = F) (hm : (f.toPolynomial F).Monic)
    {factors : List SquareFreeFactor} {rest : Poly}
    (hpeel : peel scale 1 (f / gcd f f.derivative) (gcd f f.derivative) = (factors, rest)) :
    (gcd f f.derivative).isZero = false ∧
      Peels scale 1 (f / gcd f f.derivative) (gcd f f.derivative) factors rest := by
  have hstart := peeling_start hf hm
  have hpeels := peels_peel scale 1 _ _ hstart
  rw [hpeel] at hpeels
  exact ⟨(isZero_eq_false_iff hstart.field_rest).mpr hstart.monic_rest.ne_zero, hpeels⟩

theorem decomposes_factorsFrom (scale : ℕ) (f : Poly) (hf : f.field = F)
    (hm : (f.toPolynomial F).Monic) : Decomposes scale f (factorsFrom scale f) := by
  fun_induction factorsFrom scale f with
  | case1 scale f c factors rest hpeel hlen =>
    obtain ⟨hdivisor, hpeels⟩ := peels_start hf hm hpeel
    exact .last hdivisor hpeels hlen
  | case2 scale f c factors rest hpeel hlen root hshort ih =>
    obtain ⟨hdivisor, hpeels⟩ := peels_start hf hm hpeel
    obtain ⟨-, -, hfield, hmrest, -, hroot⟩ := peel_start_spec scale hf hm hpeel
    exact .root hdivisor hpeels (Nat.lt_of_not_le hlen)
      (ih hfield (monic_frobeniusRoot hmrest hroot))
  | case3 scale f c factors rest hpeel hlen root hshort =>
    exact absurd (length_root_lt hf hm hpeel hlen) hshort

/-! ## What a factor collects -/

/-- A factor that has, once each, the irreducible polynomials with a given multiplicity `e`: the
one that gives the multiplicity of the factor when counted in steps of `scale`. -/
structure Collects (F : PrimeField) (e : F.Element[X] → ℕ) (scale : ℕ)
    (s : SquareFreeFactor) : Prop where
  not_isUnit : ¬IsUnit (s.factor.toPolynomial F)
  multiplicity_eq : ∀ q, Irreducible q → multiplicity q (s.factor.toPolynomial F) =
    if 0 < e q ∧ e q * scale = s.multiplicity then 1 else 0

namespace Collects

variable {e : F.Element[X] → ℕ} {scale : ℕ} {s : SquareFreeFactor} (h : Collects F e scale s)
include h

theorem exists_irreducible (hne : s.factor.toPolynomial F ≠ 0) :
    ∃ q, Irreducible q ∧ 0 < e q ∧ e q * scale = s.multiplicity := by
  obtain ⟨q, hq, hdvd⟩ := WfDvdMonoid.exists_irreducible_factor h.not_isUnit hne
  have hpos := multiplicity_pos_of_dvd hdvd
  rw [h.multiplicity_eq q hq] at hpos
  split at hpos
  · rename_i hcase
    exact ⟨q, hq, hcase⟩
  · contradiction

theorem squarefree (hne : s.factor.toPolynomial F ≠ 0) :
    Squarefree (s.factor.toPolynomial F) := by
  rw [squarefree_iff_multiplicity_le_one hne]
  intro q hq
  rw [h.multiplicity_eq q hq]
  split
  · exact le_rfl
  · exact Nat.zero_le 1

theorem multiplicity_mul (q : F.Element[X]) (hq : Irreducible q) :
    s.multiplicity * multiplicity q (s.factor.toPolynomial F) =
      e q * scale * multiplicity q (s.factor.toPolynomial F) := by
  rw [h.multiplicity_eq q hq]
  split
  · rename_i hcase
    rw [hcase.2]
  · rfl

end Collects

theorem Peeling.collects_split {e : F.Element[X] → ℕ} {scale i : ℕ} {w c : Poly}
    (h : Peeling F e i w c) (hscale : 0 < scale) (hlen : 1 < (w / gcd w c).length) :
    Collects F e scale ⟨w / gcd w c, i * scale⟩ := by
  have hunit : ¬IsUnit ((w / gcd w c).toPolynomial F) := by
    rw [← length_le_one_iff_isUnit ((field_div _ _).trans h.field_distinct) h.monic_split.ne_zero]
    omega
  -- an irreducible divisor shows that the characteristic does not divide `i`
  have hi : ¬F.modulus.toNat ∣ i := by
    obtain ⟨q, hq, hdvd⟩ := WfDvdMonoid.exists_irreducible_factor hunit h.monic_split.ne_zero
    have hpos := multiplicity_pos_of_dvd hdvd
    rw [h.split q hq] at hpos
    split at hpos
    · rename_i hcase
      exact hcase.2 ▸ hcase.1
    · contradiction
  have hpos : 0 < i := Nat.pos_of_ne_zero fun hz => hi (hz ▸ dvd_zero _)
  refine ⟨hunit, fun q hq => ?_⟩
  rw [h.split q hq]
  refine if_congr ?_ rfl rfl
  constructor
  · rintro ⟨-, he⟩
    exact ⟨he ▸ hpos, by rw [he]⟩
  · rintro ⟨-, he⟩
    have he := Nat.eq_of_mul_eq_mul_right hscale he
    exact ⟨he ▸ hi, he⟩

theorem collects_peel {e : F.Element[X] → ℕ} {scale : ℕ} (hscale : 0 < scale) (i : ℕ) (w c : Poly)
    (h : Peeling F e i w c) : ∀ s ∈ (peel scale i w c).1, Collects F e scale s := by
  fun_induction peel scale i w c with
  | case1 i w c hlen =>
    intro s hs
    contradiction
  | case2 i w c hlen y z c' factors rest hrec ih =>
    have hshort := h.length_next_lt hlen
    rw [dif_pos hshort] at hrec
    have hnext := ih hshort h.next
    rw [hrec] at hnext
    intro s hs
    dsimp only at hs
    split at hs
    · rename_i hz
      rcases List.mem_cons.mp hs with rfl | hs
      · exact h.collects_split hscale hz
      · exact hnext s hs
    · exact hnext s hs

/-- What a factor collects from the root of what is left, it collects from the whole polynomial. -/
theorem collects_of_root {f rest : Poly} {scale : ℕ} (hscale : 0 < scale)
    (hmrest : (rest.toPolynomial F).Monic)
    (hrest : ∀ q, Irreducible q → multiplicity q (rest.toPolynomial F) =
      if F.modulus.toNat ∣ multiplicity q (f.toPolynomial F) then multiplicity q (f.toPolynomial F)
      else 0)
    (hroot : rest.frobeniusRoot.toPolynomial F ^ F.modulus.toNat = rest.toPolynomial F)
    {s : SquareFreeFactor} (hne : s.factor.toPolynomial F ≠ 0)
    (h : Collects F (fun q => multiplicity q (rest.frobeniusRoot.toPolynomial F))
      (scale * F.modulus.toNat) s) :
    Collects F (fun q => multiplicity q (f.toPolynomial F)) scale s := by
  refine ⟨h.not_isUnit, fun q hq => ?_⟩
  have hmult := multiplicity_frobeniusRoot hmrest hroot hq
  have hp := F.modulus_prime.pos
  rw [hrest q hq] at hmult
  rw [h.multiplicity_eq q hq]
  refine if_congr ?_ rfl rfl
  set m := multiplicity q (rest.frobeniusRoot.toPolynomial F)
  split at hmult
  · rw [hmult, Nat.mul_pos_iff_of_pos_left hp, show F.modulus.toNat * m * scale =
      m * (scale * F.modulus.toNat) by ring]
  · -- a multiplicity that the characteristic does not divide is none of the root's
    rename_i hdvd
    have hzero : m = 0 := (Nat.mul_eq_zero.mp hmult.symm).resolve_left hp.ne'
    refine iff_of_false (fun hcase => hcase.1.ne' hzero) ?_
    rintro ⟨-, he⟩
    obtain ⟨r, -, -, hr⟩ := h.exists_irreducible hne
    apply hdvd
    refine ⟨multiplicity r (rest.frobeniusRoot.toPolynomial F), ?_⟩
    apply Nat.eq_of_mul_eq_mul_right hscale
    rw [he, ← hr]
    ring

theorem collects_peel_start {scale : ℕ} {f : Poly} (hscale : 0 < scale) (hf : f.field = F)
    (hm : (f.toPolynomial F).Monic) {factors : List SquareFreeFactor} {rest : Poly}
    (hpeel : peel scale 1 (f / gcd f f.derivative) (gcd f f.derivative) = (factors, rest)) :
    ∀ s ∈ factors, Collects F (fun q => multiplicity q (f.toPolynomial F)) scale s := by
  have hcollects := collects_peel hscale 1 _ _ (peeling_start hf hm)
  rwa [hpeel] at hcollects

theorem collects_factorsFrom (scale : ℕ) (f : Poly) (hscale : 0 < scale) (hf : f.field = F)
    (hm : (f.toPolynomial F).Monic) : ∀ s ∈ factorsFrom scale f,
      Collects F (fun q => multiplicity q (f.toPolynomial F)) scale s := by
  fun_induction factorsFrom scale f with
  | case1 scale f c factors rest hpeel hlen => exact collects_peel_start hscale hf hm hpeel
  | case2 scale f c factors rest hpeel hlen root hshort ih =>
    obtain ⟨-, -, hfield, hmrest, hrest, hroot⟩ := peel_start_spec scale hf hm hpeel
    have hmroot := monic_frobeniusRoot hmrest hroot
    rw [hfield] at ih ⊢
    have hnext := ih (Nat.mul_pos hscale F.modulus_prime.pos) hfield hmroot
    obtain ⟨hmonic, -⟩ := factorsFrom_spec (scale * F.modulus.toNat) root hfield hmroot
    intro s hs
    rcases List.mem_append.mp hs with hs | hs
    · exact collects_peel_start hscale hf hm hpeel s hs
    · exact collects_of_root hscale hmrest hrest hroot (hmonic s hs).2.ne_zero (hnext s hs)
  | case3 scale f c factors rest hpeel hlen root hshort =>
    exact absurd (length_root_lt hf hm hpeel hlen) hshort

/-! ## Factors side by side -/

theorem pairwise_of_factorMultiplicity_le {l : List SquareFreeFactor}
    (h : ∀ q, Irreducible q → factorMultiplicity F q l ≤ 1) :
    l.Pairwise fun s t => ∀ q, Irreducible q →
      multiplicity q (s.factor.toPolynomial F) = 0 ∨ multiplicity q (t.factor.toPolynomial F) = 0 := by
  induction l with
  | nil => exact List.Pairwise.nil
  | cons s l ih =>
    have hcons : ∀ q, factorMultiplicity F q (s :: l) =
        multiplicity q (s.factor.toPolynomial F) + factorMultiplicity F q l := fun _ => rfl
    rw [List.pairwise_cons]
    constructor
    · intro t ht q hq
      have hle : multiplicity q (t.factor.toPolynomial F) ≤ factorMultiplicity F q l :=
        List.le_sum_of_mem (List.mem_map_of_mem ht)
      have := h q hq
      rw [hcons] at this
      omega
    · apply ih
      intro q hq
      have := h q hq
      rw [hcons] at this
      omega

noncomputable def factorProduct (F : PrimeField) (l : List SquareFreeFactor) : F.Element[X] :=
  (l.map fun s => s.factor.toPolynomial F ^ s.multiplicity).prod

theorem monic_factorProduct {l : List SquareFreeFactor}
    (h : ∀ s ∈ l, (s.factor.toPolynomial F).Monic) : (factorProduct F l).Monic := by
  induction l with
  | nil => exact monic_one
  | cons s l ih =>
    rw [factorProduct, List.map_cons, List.prod_cons]
    exact ((h s List.mem_cons_self).pow _).mul (ih fun t ht => h t (List.mem_cons_of_mem s ht))

/-- If every factor collects the irreducible divisors of its multiplicity, the product of the powers
has them with their multiplicities. -/
theorem multiplicity_factorProduct {e : F.Element[X] → ℕ} {l : List SquareFreeFactor}
    (hm : ∀ s ∈ l, (s.factor.toPolynomial F).Monic) (h : ∀ s ∈ l, Collects F e 1 s)
    {q : F.Element[X]} (hq : Irreducible q) :
    multiplicity q (factorProduct F l) = e q * factorMultiplicity F q l := by
  induction l with
  | nil => exact multiplicity_eq_zero_of_isUnit hq isUnit_one
  | cons s l ih =>
    have hms := hm s List.mem_cons_self
    have hml := fun t ht => hm t (List.mem_cons_of_mem s ht)
    have hpow : multiplicity q (s.factor.toPolynomial F ^ s.multiplicity) =
        s.multiplicity * multiplicity q (s.factor.toPolynomial F) :=
      (finiteMultiplicity hq hms.ne_zero).multiplicity_pow hq.prime
    have hprod : factorProduct F (s :: l) =
      s.factor.toPolynomial F ^ s.multiplicity * factorProduct F l := List.prod_cons
    have hsum : factorMultiplicity F q (s :: l) =
      multiplicity q (s.factor.toPolynomial F) + factorMultiplicity F q l := List.sum_cons
    rw [hprod, multiplicity_mul_of_ne_zero hq (hms.pow _).ne_zero (monic_factorProduct hml).ne_zero,
      hpow, (h s List.mem_cons_self).multiplicity_mul q hq,
      ih hml fun t ht => h t (List.mem_cons_of_mem s ht), hsum, Nat.mul_one, Nat.mul_add]

end Poly

/-! ## The decomposition -/

namespace SquareFreeDecomposition

theorem toPolynomial_toPoly {d : SquareFreeDecomposition}
    (hfield : ∀ s ∈ d.factors, s.factor.field = F) : (d.toPoly F).field = F ∧
      (d.toPoly F).toPolynomial F = C (F.value d.unit) * Poly.factorProduct F d.factors := by
  obtain ⟨unit, factors⟩ := d
  have hfold : ∀ acc : Poly, acc.field = F →
      (factors.foldl (fun acc s => acc * s.factor ^ s.multiplicity) acc).field = F ∧
        (factors.foldl (fun acc s => acc * s.factor ^ s.multiplicity) acc).toPolynomial F =
          acc.toPolynomial F * Poly.factorProduct F factors := by
    induction factors with
    | nil => exact fun acc hacc => ⟨hacc, (mul_one _).symm⟩
    | cons s factors ih =>
      intro acc hacc
      obtain ⟨hpow, heq⟩ := Poly.toPolynomial_pow (hfield s List.mem_cons_self) s.multiplicity
      have hprod : Poly.factorProduct F (s :: factors) =
        s.factor.toPolynomial F ^ s.multiplicity * Poly.factorProduct F factors := List.prod_cons
      obtain ⟨h₁, h₂⟩ := ih (fun t ht => hfield t (List.mem_cons_of_mem s ht))
        (acc * s.factor ^ s.multiplicity) hacc
      refine ⟨h₁, ?_⟩
      rw [List.foldl_cons, h₂, Poly.toPolynomial_mul hacc hpow, heq, hprod, mul_assoc]
  obtain ⟨h₁, h₂⟩ := hfold (.constant F unit) rfl
  exact ⟨h₁, by rw [toPoly, h₂, Poly.toPolynomial_constant]⟩

structure Proper (F : PrimeField) (d : SquareFreeDecomposition) : Prop where
  field : ∀ s ∈ d.factors, s.factor.field = F
  monic : ∀ s ∈ d.factors, (s.factor.toPolynomial F).Monic
  nonconstant : ∀ s ∈ d.factors, 0 < (s.factor.toPolynomial F).natDegree
  squarefree : ∀ s ∈ d.factors, Squarefree (s.factor.toPolynomial F)
  coprime : d.factors.Pairwise fun s t =>
    IsCoprime (s.factor.toPolynomial F) (t.factor.toPolynomial F)
  multiplicity_pos : ∀ s ∈ d.factors, 0 < s.multiplicity
  distinct : d.factors.Pairwise fun s t => s.multiplicity ≠ t.multiplicity

theorem proper_of_collects {e : F.Element[X] → ℕ} {d : SquareFreeDecomposition}
    (hfactors : ∀ s ∈ d.factors, s.factor.field = F ∧ (s.factor.toPolynomial F).Monic)
    (hcollects : ∀ s ∈ d.factors, Poly.Collects F e 1 s)
    (honce : ∀ q, Irreducible q → Poly.factorMultiplicity F q d.factors ≤ 1) : d.Proper F := by
  have hne : ∀ s ∈ d.factors, s.factor.toPolynomial F ≠ 0 := fun s hs => (hfactors s hs).2.ne_zero
  have hpairwise := Poly.pairwise_of_factorMultiplicity_le honce
  refine ⟨fun s hs => (hfactors s hs).1, fun s hs => (hfactors s hs).2, ?_, ?_, ?_, ?_, ?_⟩
  · intro s hs
    rw [Nat.pos_iff_ne_zero]
    intro hdegree
    apply (hcollects s hs).not_isUnit
    rw [(hfactors s hs).2.natDegree_eq_zero.mp hdegree]
    exact isUnit_one
  · intro s hs
    exact (hcollects s hs).squarefree (hne s hs)
  · apply hpairwise.imp_of_mem
    intro s t hs _ hst
    exact isCoprime_of_multiplicity (hne s hs) hst
  · intro s hs
    obtain ⟨q, -, hpos, he⟩ := (hcollects s hs).exists_irreducible (hne s hs)
    omega
  · -- with equal multiplicities both would collect the same irreducible polynomial
    apply hpairwise.imp_of_mem
    intro s t hs ht hst heq
    obtain ⟨q, hq, hpos, he⟩ := (hcollects s hs).exists_irreducible (hne s hs)
    have hs' := (hcollects s hs).multiplicity_eq q hq
    have ht' := (hcollects t ht).multiplicity_eq q hq
    rw [if_pos ⟨hpos, he⟩] at hs'
    rw [if_pos ⟨hpos, he.trans heq⟩] at ht'
    have := hst q hq
    omega

end SquareFreeDecomposition

namespace Poly

variable {f : Poly}

theorem squareFreeDecomposition_collects (hf : f.field = F) (hne : f.toPolynomial F ≠ 0) :
    (∀ s ∈ f.squareFreeDecomposition.factors,
      s.factor.field = F ∧ (s.factor.toPolynomial F).Monic) ∧
      (∀ s ∈ f.squareFreeDecomposition.factors,
        Collects F (fun q => multiplicity q (f.toPolynomial F)) 1 s) ∧
      ∀ q, Irreducible q → factorMultiplicity F q f.squareFreeDecomposition.factors =
        if 0 < multiplicity q (f.toPolynomial F) then 1 else 0 := by
  have hmonic := monic_toPolynomial_monic hf hne
  have hfield := (field_monic f).trans hf
  have hassociated : ∀ q, multiplicity q (f.monic.toPolynomial F) =
      multiplicity q (f.toPolynomial F) := fun q =>
    multiplicity_eq_of_associated_right (associated_toPolynomial_monic hf)
  rw [squareFreeDecomposition, (leadingCoeff?_eq hf hne).1]
  dsimp only
  split
  · obtain ⟨hfactors, honce⟩ := factorsFrom_spec 1 f.monic hfield hmonic
    have hcollects := collects_factorsFrom 1 f.monic one_pos hfield hmonic
    simp only [hassociated] at hcollects honce
    exact ⟨hfactors, hcollects, honce⟩
  · rename_i hlen
    have hunit := (length_le_one_iff_isUnit hf hne).mp (Nat.le_of_not_lt hlen)
    refine ⟨fun s hs => absurd hs List.not_mem_nil, fun s hs => absurd hs List.not_mem_nil, ?_⟩
    intro q hq
    rw [multiplicity_eq_zero_of_isUnit hq hunit, if_neg (lt_irrefl 0)]
    rfl

theorem factorProduct_squareFreeDecomposition (hf : f.field = F) (hne : f.toPolynomial F ≠ 0) :
    factorProduct F f.squareFreeDecomposition.factors = f.monic.toPolynomial F := by
  obtain ⟨hfactors, hcollects, honce⟩ := squareFreeDecomposition_collects hf hne
  have hmonic := fun s hs => (hfactors s hs).2
  apply eq_of_multiplicity_eq (monic_factorProduct hmonic) (monic_toPolynomial_monic hf hne)
  intro q hq
  rw [multiplicity_factorProduct hmonic hcollects hq, honce q hq,
    multiplicity_eq_of_associated_right (associated_toPolynomial_monic hf)]
  split <;> omega

/-- The square-free decomposition of a polynomial other than zero: both loops end, the factors are
as they should be, and unit and powers multiply to the polynomial. -/
theorem squareFreeDecomposition_complete (hf : f.field = F) (hne : f.toPolynomial F ≠ 0) :
    (1 < f.length → Decomposes 1 f.monic f.squareFreeDecomposition.factors) ∧
      (f.length ≤ 1 → f.squareFreeDecomposition.factors = []) ∧
      f.squareFreeDecomposition.unit = F.word (f.toPolynomial F).leadingCoeff ∧
      f.squareFreeDecomposition.Proper F ∧
      C (f.toPolynomial F).leadingCoeff * (f.squareFreeDecomposition.factors.map fun s =>
        s.factor.toPolynomial F ^ s.multiplicity).prod = f.toPolynomial F ∧
      f.squareFreeDecomposition.toPoly F = f := by
  obtain ⟨hlead, hval⟩ := leadingCoeff?_eq hf hne
  obtain ⟨hfactors, hcollects, honce⟩ := squareFreeDecomposition_collects hf hne
  have hunit : f.squareFreeDecomposition.unit = F.word (f.toPolynomial F).leadingCoeff := by
    rw [squareFreeDecomposition, hlead, ← hval, word_value (hf ▸ f.reduced_coeff _)]
  have hproduct : C (f.toPolynomial F).leadingCoeff *
      factorProduct F f.squareFreeDecomposition.factors = f.toPolynomial F := by
    rw [factorProduct_squareFreeDecomposition hf hne, toPolynomial_monic hf, mul_left_comm, ← C_mul,
      mul_inv_cancel₀ (leadingCoeff_ne_zero.mpr hne), C_1, mul_one]
  refine ⟨?_, ?_, hunit, ?_, hproduct, ?_⟩
  · intro hlen
    rw [squareFreeDecomposition, hlead]
    dsimp only
    rw [if_pos hlen]
    exact decomposes_factorsFrom 1 f.monic ((field_monic f).trans hf)
      (monic_toPolynomial_monic hf hne)
  · intro hlen
    rw [squareFreeDecomposition, hlead]
    dsimp only
    rw [if_neg (Nat.not_lt.mpr hlen)]
  · apply SquareFreeDecomposition.proper_of_collects hfactors hcollects
    intro q hq
    rw [honce q hq]
    split
    · exact le_rfl
    · exact Nat.zero_le 1
  · obtain ⟨hfield, htoPoly⟩ := SquareFreeDecomposition.toPolynomial_toPoly
      fun s hs => (hfactors s hs).1
    rw [← toPolynomial_inj hfield hf, htoPoly, hunit, value_word, hproduct]

/-- Over three elements, `2 (x + 2) x^2 (x + 1)^3` has a factor that its derivative does not see. -/
theorem squareFreeDecomposition_complete_cube :
    let F : PrimeField := ⟨3, by decide +kernel, by decide⟩
    let f := Poly.ofCoeffs F #[0, 0, 1, 2, 0, 1, 2]
    f.toPolynomial F ≠ 0 ∧
      f.squareFreeDecomposition = ⟨2, [⟨.ofCoeffs F #[2, 1], 1⟩, ⟨.ofCoeffs F #[0, 1], 2⟩,
        ⟨.ofCoeffs F #[1, 1], 3⟩]⟩ ∧
      Decomposes 1 f.monic f.squareFreeDecomposition.factors ∧
      f.squareFreeDecomposition.Proper F ∧ f.squareFreeDecomposition.toPoly F = f := by
  intro F f
  have hne : f.toPolynomial F ≠ 0 := (isZero_eq_false_iff (F := F) rfl).mp (by decide +kernel)
  obtain ⟨hends, -, -, hproper, -, heq⟩ := squareFreeDecomposition_complete (F := F) rfl hne
  exact ⟨hne, by decide +kernel, hends (by decide +kernel), hproper, heq⟩

end Poly

end ZeroDim
