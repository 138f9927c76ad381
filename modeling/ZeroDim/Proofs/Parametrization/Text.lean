import Mathlib
import ZeroDim.Parametrization.Text
import ZeroDim.Proofs.Field.Modulus
import ZeroDim.Proofs.Parametrization.Filling

/-! # Reading parametrizations back

Both formats list the prime, the number of variables and a block for each polynomial: its degree and
its coefficients.  A reader takes one piece after the other off the front of the text.  Numbers are
followed by a separator or a bracket, never by a digit, so that a run of digits is one number;
coefficients are followed by a comma or by a closing bracket, and blocks close their brackets.  So
each reader stops where the printer did, and what it reads is what was printed.

The degree and the coefficients of a block determine its polynomial, and the order of the blocks the
place of every polynomial: nothing of a parametrization over one field is lost. -/

set_option autoImplicit false

namespace ZeroDim

open Polynomial PrimeField

/-! ## Readers -/

namespace Reading

def literal (l : String) (cs : List Char) : Option (List Char) := cs.dropPrefix? l.toList

def number (cs : List Char) : Option (ℕ × List Char) :=
  let digits := cs.takeWhile Char.isDigit
  if digits.isEmpty then none
  else some (Nat.ofDigitChars 10 digits 0, cs.dropWhile Char.isDigit)

def integer (cs : List Char) : Option (ℤ × List Char) :=
  match literal "-" cs with
  | some rest => do
    let (n, rest) ← number rest
    return (-n, rest)
  | none => do
    let (n, rest) ← number cs
    return (n, rest)

def many {α : Type} (item : List Char → Option (α × List Char)) (cs : List Char) :
    List α × List Char :=
  match item cs with
  | some (a, rest) =>
    if rest.length < cs.length then
      let (as, rest) := many item rest
      (a :: as, rest)
    else ([], cs)
  | none => ([], cs)
termination_by cs.length

/-- What may follow a number. -/
def EndsNumber (rest : List Char) : Prop := ∀ c ∈ rest.head?, c.isDigit = false

theorem literal_append (l : String) (rest : List Char) :
    literal l (l.toList ++ rest) = some rest :=
  List.dropPrefix?_append_of_beq rest (BEq.rfl)

theorem isDigit_of_mem_repr {n : ℕ} {c : Char} (h : c ∈ n.repr.toList) : c.isDigit = true := by
  rw [Nat.toList_repr] at h
  exact Nat.isDigit_of_mem_toDigits (by decide) (by decide) h

theorem toList_repr_ne_nil (n : ℕ) : n.repr.toList ≠ [] := by
  rw [Nat.toList_repr]
  exact Nat.toDigits_ne_nil

/-- A number is read up to its last digit. -/
theorem number_append (n : ℕ) {rest : List Char} (h : EndsNumber rest) :
    number (n.repr.toList ++ rest) = some (n, rest) := by
  have hrest : rest.takeWhile Char.isDigit = [] ∧ rest.dropWhile Char.isDigit = rest := by
    cases rest with
    | nil => exact ⟨rfl, rfl⟩
    | cons c rest =>
      have hc : c.isDigit = false := h c rfl
      simp [hc]
  have hdigits : ∀ c ∈ n.repr.toList, c.isDigit = true := fun c hc => isDigit_of_mem_repr hc
  have hne := toList_repr_ne_nil n
  have hvalue : Nat.ofDigitChars 10 n.repr.toList 0 = n := by
    rw [Nat.toList_repr, Nat.ofDigitChars_ten_toDigits]
  rw [number, List.takeWhile_append_of_pos hdigits, List.dropWhile_append_of_pos hdigits, hrest.1,
    hrest.2, List.append_nil]
  simp only [List.isEmpty_iff, hne, if_false, hvalue]

theorem integer_append (z : ℤ) {rest : List Char} (h : EndsNumber rest) :
    integer ((toString z).toList ++ rest) = some (z, rest) := by
  cases z with
  | ofNat n =>
    -- a number does not begin with a sign
    have hsign : literal "-" (n.repr.toList ++ rest) = none := by
      rw [literal, Option.eq_none_iff_forall_ne_some]
      intro left hleft
      obtain ⟨sign, heq, hbeq⟩ := List.dropPrefix?_eq_some_iff.mp hleft
      obtain rfl : sign = ['-'] := eq_of_beq hbeq
      obtain ⟨c, digits, hdigits⟩ := List.exists_cons_of_ne_nil (toList_repr_ne_nil n)
      rw [hdigits] at heq
      obtain rfl : c = '-' := (List.cons.inj heq).1
      have hdigit : '-' ∈ n.repr.toList := hdigits ▸ List.mem_cons_self
      exact absurd (isDigit_of_mem_repr hdigit) (by decide)
    change integer (n.repr.toList ++ rest) = _
    rw [integer, hsign]
    simp only [number_append n h]
    rfl
  | negSucc n =>
    have hdrop : literal "-" ("-".toList ++ ((n + 1).repr.toList ++ rest)) =
        some ((n + 1).repr.toList ++ rest) := literal_append _ _
    have htext : (toString (Int.negSucc n)).toList = "-".toList ++ (n + 1).repr.toList :=
      String.toList_append
    rw [htext, List.append_assoc, integer, hdrop]
    simp only [number_append (n + 1) h]
    rfl

/-- All items are read, if what follows the last one is none. -/
theorem many_flatMap {α : Type} (Follows : List Char → Prop)
    {item : List Char → Option (α × List Char)} {chars : α → List Char} {rest : List Char}
    (hstop : item rest = none) (hrest : Follows rest) (hne : ∀ a, chars a ≠ [])
    (hfollows : ∀ a later, Follows (chars a ++ later)) (as : List α)
    (hitem : ∀ a ∈ as, ∀ later, Follows later → item (chars a ++ later) = some (a, later)) :
    many item (as.flatMap chars ++ rest) = (as, rest) := by
  induction as with
  | nil =>
    rw [List.flatMap_nil, List.nil_append, many.eq_def, hstop]
  | cons a as ih =>
    have hlater : Follows (as.flatMap chars ++ rest) := by
      cases as with
      | nil => exact hrest
      | cons b bs =>
        rw [List.flatMap_cons, List.append_assoc]
        exact hfollows b _
    have hlength : (as.flatMap chars ++ rest).length <
        (chars a ++ (as.flatMap chars ++ rest)).length := by
      have hpos := List.length_pos_iff.mpr (hne a)
      calc (as.flatMap chars ++ rest).length
          < (chars a).length + (as.flatMap chars ++ rest).length := Nat.lt_add_of_pos_left hpos
        _ = (chars a ++ (as.flatMap chars ++ rest)).length := List.length_append.symm
    rw [List.flatMap_cons, List.append_assoc, many.eq_def, hitem a List.mem_cons_self _ hlater]
    simp only [if_pos hlength]
    rw [ih fun b hb => hitem b (List.mem_cons_of_mem a hb)]

end Reading

/-! ## Blocks -/

/-- A polynomial as it is written: its degree and its coefficients, low degree first. -/
structure Block where
  degree : ℤ
  coefficients : List ℕ
deriving DecidableEq

namespace Block

open Reading

def text (b : Block) : String :=
  let coefficients := ", ".intercalate (b.coefficients.map Nat.repr)
  s!"[{b.degree},\n[{coefficients}]]"

def coefficient? (cs : List Char) : Option (ℕ × List Char) := do number (← literal ", " cs)

def ofChars? (cs : List Char) : Option (Block × List Char) := do
  let cs ← literal "[" cs
  let (degree, cs) ← integer cs
  let cs ← literal ",\n[" cs
  let (first, cs) ← number cs
  let (others, cs) := many coefficient? cs
  let cs ← literal "]]" cs
  return (⟨degree, first :: others⟩, cs)

theorem intercalate_cons {α : Type} (separator x : List α) (xs : List (List α)) :
    separator.intercalate (x :: xs) = x ++ xs.flatMap (separator ++ ·) := by
  induction xs generalizing x with
  | nil => simp
  | cons y ys ih => rw [List.intercalate_cons_cons, ih, List.flatMap_cons, List.append_assoc,
      List.append_assoc]

theorem toList_text (degree : ℤ) (first : ℕ) (others : List ℕ) :
    (text ⟨degree, first :: others⟩).toList = "[".toList ++ ((toString degree).toList ++
      (",\n[".toList ++ (first.repr.toList ++
        (others.flatMap (fun c => ", ".toList ++ c.repr.toList) ++ "]]".toList)))) := by
  have htext : text ⟨degree, first :: others⟩ = "[" ++ toString degree ++ ",\n[" ++
      ", ".intercalate ((first :: others).map Nat.repr) ++ "]]" := rfl
  rw [htext]
  simp only [String.toList_append, String.toList_intercalate, List.map_cons, List.map_map,
    intercalate_cons, List.flatMap_map, List.append_assoc, Function.comp_apply]

theorem many_coefficient? (cs : List ℕ) (rest : List Char) :
    many coefficient?
        (cs.flatMap (fun c => ", ".toList ++ c.repr.toList) ++ ("]]".toList ++ rest)) =
      (cs, "]]".toList ++ rest) := by
  have hbracket : EndsNumber ("]]".toList ++ rest) := by simp [EndsNumber]
  apply many_flatMap EndsNumber rfl hbracket
  · simp
  · intro c later
    simp [EndsNumber]
  · intro c _ later hlater
    rw [coefficient?, List.append_assoc, literal_append]
    exact number_append c hlater

/-- A block is read up to its second closing bracket, whatever follows. -/
theorem ofChars?_append (b : Block) (hne : b.coefficients ≠ []) (rest : List Char) :
    ofChars? (b.text.toList ++ rest) = some (b, rest) := by
  obtain ⟨degree, coefficients⟩ := b
  obtain ⟨first, others, rfl⟩ := List.exists_cons_of_ne_nil hne
  have hdegree : ∀ later, integer ((toString degree).toList ++ (",\n[".toList ++ later)) =
      some (degree, ",\n[".toList ++ later) :=
    fun later => integer_append degree (by simp [EndsNumber])
  -- a comma or a bracket ends the first coefficient
  have hends : EndsNumber (others.flatMap (fun c => ", ".toList ++ c.repr.toList) ++
      ("]]".toList ++ rest)) := by
    cases others <;> simp [EndsNumber]
  rw [toList_text]
  simp only [List.append_assoc]
  rw [ofChars?, literal_append]
  simp only [Option.bind_eq_bind, Option.bind_some, hdegree, literal_append,
    number_append first hends, many_coefficient?]
  rfl

end Block

/-! ## Listings -/

/-- What a parametrization is written as: the prime, the number of variables, and the blocks. -/
structure Listing where
  prime : ℕ
  variableCount : ℕ
  blocks : List Block
deriving DecidableEq

namespace Listing

open Reading

def text (l : Listing) : String :=
  s!"{l.prime}\n{l.variableCount}\n" ++ String.join (l.blocks.map fun b => b.text ++ "\n")

def mapleText (l : Listing) : String :=
  s!"[{l.prime}, \n{l.variableCount}" ++
    String.join (l.blocks.map fun b => ", \n" ++ b.text) ++ "]:\n"

def line? (cs : List Char) : Option (Block × List Char) := do
  let (b, cs) ← Block.ofChars? cs
  let cs ← literal "\n" cs
  return (b, cs)

def element? (cs : List Char) : Option (Block × List Char) := do
  Block.ofChars? (← literal ", \n" cs)

def ofText? (s : String) : Option Listing := do
  let (prime, cs) ← number s.toList
  let cs ← literal "\n" cs
  let (variableCount, cs) ← number cs
  let cs ← literal "\n" cs
  let (blocks, cs) := many line? cs
  if cs.isEmpty then return ⟨prime, variableCount, blocks⟩ else none

def ofMapleText? (s : String) : Option Listing := do
  let cs ← literal "[" s.toList
  let (prime, cs) ← number cs
  let cs ← literal ", \n" cs
  let (variableCount, cs) ← number cs
  let (blocks, cs) := many element? cs
  let cs ← literal "]:\n" cs
  if cs.isEmpty then return ⟨prime, variableCount, blocks⟩ else none

section Printed
variable {l : Listing} (h : ∀ b ∈ l.blocks, b.coefficients ≠ [])
include h

theorem many_line? :
    many line? (l.blocks.flatMap fun b => b.text.toList ++ "\n".toList) = (l.blocks, []) := by
  have hlines : many line? (l.blocks.flatMap (fun b => b.text.toList ++ "\n".toList) ++ []) =
      (l.blocks, []) := by
    apply many_flatMap (fun _ => True) rfl trivial (by simp) fun _ _ => trivial
    intro b hb later _
    rw [line?, List.append_assoc, Block.ofChars?_append b (h b hb)]
    simp only [Option.bind_eq_bind, Option.bind_some, literal_append]
    rfl
  rwa [List.append_nil] at hlines

theorem many_element? :
    many element? (l.blocks.flatMap (fun b => ", \n".toList ++ b.text.toList) ++ "]:\n".toList) =
      (l.blocks, "]:\n".toList) := by
  apply many_flatMap (fun _ => True) rfl trivial (by simp) fun _ _ => trivial
  intro b hb later _
  rw [element?, List.append_assoc, literal_append]
  exact Block.ofChars?_append b (h b hb) later

theorem ofText?_text : ofText? l.text = some l := by
  have hchars : l.text.toList = l.prime.repr.toList ++ ("\n".toList ++
      (l.variableCount.repr.toList ++ ("\n".toList ++
        l.blocks.flatMap fun b => b.text.toList ++ "\n".toList))) := by
    have htext : l.text = l.prime.repr ++ "\n" ++ l.variableCount.repr ++ "\n" ++
        String.join (l.blocks.map fun b => b.text ++ "\n") := rfl
    rw [htext]
    simp only [String.toList_append, String.toList_join, List.flatMap_map, List.append_assoc]
  have hnumber : ∀ n later, number (n.repr.toList ++ ("\n".toList ++ later)) =
      some (n, "\n".toList ++ later) := fun n later => number_append n (by simp [EndsNumber])
  rw [ofText?, hchars, hnumber]
  simp only [Option.bind_eq_bind, Option.bind_some, literal_append, hnumber, many_line? h]
  rfl

theorem ofMapleText?_mapleText : ofMapleText? l.mapleText = some l := by
  have hchars : l.mapleText.toList = "[".toList ++ (l.prime.repr.toList ++ (", \n".toList ++
      (l.variableCount.repr.toList ++ (l.blocks.flatMap (fun b => ", \n".toList ++ b.text.toList) ++
        "]:\n".toList)))) := by
    have htext : l.mapleText = "[" ++ l.prime.repr ++ ", \n" ++ l.variableCount.repr ++
        String.join (l.blocks.map fun b => ", \n" ++ b.text) ++ "]:\n" := rfl
    rw [htext]
    simp only [String.toList_append, String.toList_join, List.flatMap_map, List.append_assoc]
  have hprime : ∀ later, number (l.prime.repr.toList ++ (", \n".toList ++ later)) =
      some (l.prime, ", \n".toList ++ later) :=
    fun later => number_append l.prime (by simp [EndsNumber])
  have hends : EndsNumber (l.blocks.flatMap (fun b => ", \n".toList ++ b.text.toList) ++
      "]:\n".toList) := by
    cases l.blocks <;> simp [EndsNumber]
  rw [ofMapleText?, hchars, literal_append]
  simp only [Option.bind_eq_bind, Option.bind_some, hprime, literal_append,
    number_append l.variableCount hends, many_element? h]
  rfl

end Printed

end Listing

/-! ## Polynomials and their blocks -/

def Poly.block (a : Poly) : Block :=
  match a.degree? with
  | none => ⟨-1, [0]⟩
  | some degree => ⟨degree, a.coeffs.toList.map UInt32.toNat⟩

/-- A block with the degree of `f` and one number for each of its coefficients, and with `-1` and a
single zero for zero alone. -/
structure Block.Describes (F : PrimeField) (f : F.Element[X]) (b : Block) : Prop where
  degree_eq_neg_one : b.degree = -1 ↔ f = 0
  coefficients_zero : f = 0 → b.coefficients = [0]
  degree_eq : f ≠ 0 → b.degree = f.natDegree
  length_eq : f ≠ 0 → b.coefficients.length = f.natDegree + 1
  lt_modulus : ∀ c ∈ b.coefficients, c < F.modulus.toNat
  coefficient_eq : ∀ i, ((b.coefficients.getD i 0 : ℕ) : F.Element) = f.coeff i

namespace Poly

theorem blockText_eq (a : Poly) : a.blockText = a.block.text := by
  rw [blockText, block]
  cases a.degree? with
  | none => rfl
  | some degree =>
    have htext : Block.text ⟨degree, a.coeffs.toList.map UInt32.toNat⟩ = "[" ++ degree.repr ++
        ",\n[" ++ ", ".intercalate ((a.coeffs.toList.map UInt32.toNat).map Nat.repr) ++ "]]" := rfl
    rw [htext, List.map_map]
    rfl

theorem block_of_length_eq_zero {a : Poly} (h : a.length = 0) : a.block = ⟨-1, [0]⟩ := by
  rw [block, degree?, if_pos h]

theorem block_of_length_pos {a : Poly} (h : 0 < a.length) :
    a.block = ⟨(a.length - 1 : ℕ), a.coeffs.toList.map UInt32.toNat⟩ := by
  rw [block, degree?, if_neg (by omega)]

theorem coefficients_block_ne_nil (a : Poly) : a.block.coefficients ≠ [] := by
  rcases Nat.eq_zero_or_pos a.length with hzero | hpos
  · rw [block_of_length_eq_zero hzero]
    simp
  · rw [block_of_length_pos hpos]
    intro hnil
    rw [List.map_eq_nil_iff, Array.toList_eq_nil_iff] at hnil
    rw [length, hnil] at hpos
    contradiction

theorem describes_block {F : PrimeField} {a : Poly} (ha : a.field = F) :
    a.block.Describes F (a.toPolynomial F) := by
  by_cases hz : a.toPolynomial F = 0
  · rw [block_of_length_eq_zero ((length_eq_zero_iff_toPolynomial ha).mpr hz), hz]
    refine ⟨by simp, fun _ => rfl, by simp, by simp, ?_, ?_⟩
    · intro c hc
      rw [List.mem_singleton.mp hc]
      exact F.modulus_prime.pos
    · intro i
      cases i <;> simp
  · have hlength := length_eq_natDegree_add_one ha hz
    rw [block_of_length_pos (by omega)]
    refine ⟨by simp [hz], by simp [hz], fun _ => ?_, fun _ => ?_, ?_, ?_⟩
    · dsimp only
      rw [hlength, Nat.add_sub_cancel]
    · rw [List.length_map, Array.length_toList]
      exact hlength
    · intro c hc
      obtain ⟨d, hd, rfl⟩ := List.mem_map.mp hc
      exact reduced_iff.mp (ha ▸ a.reduced d (Array.mem_toList_iff.mp hd))
    · intro i
      have hread : (a.coeffs.toList.map UInt32.toNat).getD i 0 = (a.coeff i).toNat := by
        rw [coeff, Array.getD_eq_getD_getElem?, List.getD_eq_getElem?_getD, List.getElem?_map,
          Array.getElem?_toList]
        cases a.coeffs[i]? <;> rfl
      rw [coeff_toPolynomial, hread]
      rfl

end Poly

theorem Block.Describes.eq {F : PrimeField} {b : Block} {a a' : Poly} (ha : a.field = F)
    (ha' : a'.field = F) (h : b.Describes F (a.toPolynomial F))
    (h' : b.Describes F (a'.toPolynomial F)) : a = a' := by
  rw [← Poly.toPolynomial_inj ha ha']
  ext i
  rw [← h.coefficient_eq, ← h'.coefficient_eq]

/-! ## Parametrizations and their listings -/

def Listing.Shows (F : PrimeField) (k : ℕ) (a : Poly) (l : Listing) : Prop :=
  ∃ b, l.blocks[k]? = some b ∧ b.Describes F (a.toPolynomial F)

theorem Listing.Shows.eq {F : PrimeField} {k : ℕ} {a a' : Poly} {l : Listing} (ha : a.field = F)
    (ha' : a'.field = F) (h : l.Shows F k a) (h' : l.Shows F k a') : a = a' := by
  obtain ⟨b, hb, hdescribes⟩ := h
  obtain ⟨b', hb', hdescribes'⟩ := h'
  obtain rfl := Option.some.inj (hb.symm.trans hb')
  exact hdescribes.eq ha ha' hdescribes'

/-- A listing with the prime and the number of variables, and one block for each polynomial: the
eliminant, the denominator, and the coordinates from the last one down to the first. -/
structure Listing.Describes (p : Parametrization) (l : Listing) : Prop where
  prime_eq : l.prime = p.field.modulus.toNat
  variableCount_eq : l.variableCount = p.variableCount
  length_eq : l.blocks.length = p.variableCount - 1 + 2
  eliminant : l.Shows p.field 0 p.eliminant
  denominator : l.Shows p.field 1 p.denominator
  coordinate : ∀ i < p.variableCount - 1, ∃ a, p.coordinates[i]? = some a ∧
    l.Shows p.field (p.variableCount - i) a

namespace Parametrization

def Uniform (p : Parametrization) : Prop := ∀ a ∈ p.blocks, a.field = p.field

def listing (p : Parametrization) : Listing where
  prime := p.field.modulus.toNat
  variableCount := p.variableCount
  blocks := p.blocks.map Poly.block

variable {p q : Parametrization}

theorem text_eq (p : Parametrization) : p.text = p.listing.text := by
  have hblocks : (p.listing.blocks.map fun b => b.text ++ "\n") =
      p.blocks.map fun a => a.blockText ++ "\n" := by
    simp only [listing, List.map_map, Function.comp_def, Poly.blockText_eq]
  rw [text, Listing.text, hblocks]
  rfl

theorem mapleText_eq (p : Parametrization) : p.mapleText = p.listing.mapleText := by
  have hblocks : (p.listing.blocks.map fun b => ", \n" ++ b.text) =
      p.blocks.map fun a => ", \n" ++ a.blockText := by
    simp only [listing, List.map_map, Function.comp_def, Poly.blockText_eq]
  rw [mapleText, Listing.mapleText, hblocks]
  rfl

theorem coefficients_ne_nil_of_mem_listing {b : Block} (h : b ∈ p.listing.blocks) :
    b.coefficients ≠ [] := by
  obtain ⟨a, -, rfl⟩ := List.mem_map.mp h
  exact a.coefficients_block_ne_nil

theorem blocks_getElem?_coordinate {i : ℕ} (hi : i < p.variableCount - 1) :
    ∃ a, p.coordinates[i]? = some a ∧ p.blocks[p.variableCount - i]? = some a := by
  have hsize : i < p.coordinates.size := p.size_coordinates ▸ hi
  refine ⟨p.coordinates[i], Array.getElem?_eq_getElem hsize, ?_⟩
  have hlast : p.coordinates.size - 1 - (p.variableCount - 2 - i) = i := by
    rw [p.size_coordinates]
    omega
  rw [blocks, show p.variableCount - i = p.variableCount - 2 - i + 2 by omega,
    List.getElem?_cons_succ, List.getElem?_cons_succ, List.getElem?_reverse, Array.length_toList,
    hlast, Array.getElem?_toList, Array.getElem?_eq_getElem hsize]
  rw [Array.length_toList, p.size_coordinates]
  omega

theorem describes_listing (hp : p.Uniform) : p.listing.Describes p := by
  have hshows : ∀ {k : ℕ} {a : Poly}, p.blocks[k]? = some a → p.listing.Shows p.field k a := by
    intro k a ha
    refine ⟨a.block, ?_, Poly.describes_block (hp a (List.mem_of_getElem? ha))⟩
    rw [listing, List.getElem?_map, ha, Option.map_some]
  refine ⟨rfl, rfl, ?_, hshows rfl, hshows rfl, fun i hi => ?_⟩
  · rw [listing, List.length_map, blocks, List.length_cons, List.length_cons, List.length_reverse,
      Array.length_toList, p.size_coordinates]
  · obtain ⟨a, ha, hk⟩ := blocks_getElem?_coordinate hi
    exact ⟨a, ha, hshows hk⟩

theorem eq_of_sameFrame (h : p.SameFrame q) (hcoordinates : p.coordinates = q.coordinates) :
    p = q := by
  obtain ⟨hfield, hcount, heliminant, hdenominator⟩ := h
  cases p
  cases q
  simp only at hfield hcount heliminant hdenominator hcoordinates
  subst hfield hcount heliminant hdenominator hcoordinates
  rfl

theorem Uniform.field_coordinate (hp : p.Uniform) {i : ℕ} {a : Poly}
    (ha : p.coordinates[i]? = some a) : a.field = p.field :=
  hp a (mem_blocks.mpr (.inr (.inr (Array.mem_of_getElem? ha))))

theorem eq_of_describes (hp : p.Uniform) (hq : q.Uniform) {l : Listing} (h : l.Describes p)
    (h' : l.Describes q) : p = q := by
  have hfield : p.field = q.field :=
    PrimeField.eq_of_modulus_eq (h.prime_eq.symm.trans h'.prime_eq)
  have hcount : p.variableCount = q.variableCount :=
    h.variableCount_eq.symm.trans h'.variableCount_eq
  have heliminant : p.eliminant = q.eliminant :=
    Listing.Shows.eq (hp _ (mem_blocks.mpr (.inl rfl)))
      ((hq _ (mem_blocks.mpr (.inl rfl))).trans hfield.symm) h.eliminant (hfield ▸ h'.eliminant)
  have hdenominator : p.denominator = q.denominator :=
    Listing.Shows.eq (hp _ (mem_blocks.mpr (.inr (.inl rfl))))
      ((hq _ (mem_blocks.mpr (.inr (.inl rfl)))).trans hfield.symm) h.denominator
      (hfield ▸ h'.denominator)
  refine eq_of_sameFrame ⟨hfield, hcount, heliminant, hdenominator⟩ (Array.ext_getElem? fun i => ?_)
  by_cases hi : i < p.variableCount - 1
  · obtain ⟨a, ha, hshows⟩ := h.coordinate i hi
    obtain ⟨a', ha', hshows'⟩ := h'.coordinate i (hcount ▸ hi)
    rw [← hcount, ← hfield] at hshows'
    rw [ha, ha', Listing.Shows.eq (hp.field_coordinate ha)
      ((hq.field_coordinate ha').trans hfield.symm) hshows hshows']
  · rw [Array.getElem?_eq_none (by rw [p.size_coordinates]; omega),
      Array.getElem?_eq_none (by rw [q.size_coordinates]; omega)]

end Parametrization

end ZeroDim
