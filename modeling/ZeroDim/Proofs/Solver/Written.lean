import Mathlib
import ZeroDim.Proofs.Parametrization.Text
import ZeroDim.Proofs.Solver.WellFormed
import ZeroDim.Proofs.Strict.Coordinates

/-! # Written parametrizations

Every parametrization that a caller can hold is blank, the outcome of a call, or one of these moved
to another field, and all its polynomials are over its own field.  For an outcome this does not
depend on the operator: the eliminant is over the field of the key equation, and a coordinate is a
remainder of a polynomial over the same field, whatever vectors the operator gave.

Both texts of such a parametrization are therefore read back to one listing, which describes it and
no other. -/

set_option autoImplicit false

namespace ZeroDim

open Polynomial PrimeField

variable {F : PrimeField}

/-! ## Fields of an outcome -/

namespace KeyEquation

theorem field_of_attempt {key : KeyEquation} {w : Array UInt32} {d : ℕ} {level : Level}
    {inverse : HankelInverse} (h : (key.attempt w d level).1 = .inverted inverse) :
    inverse.field = key.field := by
  unfold attempt at h
  dsimp only at h
  split at h
  · contradiction
  · rename_i z1 hz1
    have hz1field : z1.field = key.field := by
      unfold generator? at hz1
      split at hz1
      · obtain ⟨c, -, rfl⟩ := Option.map_eq_some_iff.mp hz1
        exact (Strict.KeyEquation.descend_eq rfl rfl _ _).2.field_v1
      · contradiction
    split at h
    · contradiction
    · split at h
      · contradiction
      · rw [Attempt.inverted.injEq] at h
        rw [← h]
        exact hz1field

theorem field_of_invertAlong {sequence : Array UInt32} {d : ℕ} (levels : List Level)
    {key key' : KeyEquation} {inverse : HankelInverse}
    (h : key.invertAlong sequence d levels = .ok (some inverse, key')) :
    inverse.field = key.field := by
  induction levels generalizing key with
  | nil => cases (Prod.mk.inj (Except.ok.inj h)).1
  | cons level levels ih =>
    obtain ⟨w, key₁, -, hfield, ⟨found, hattempt, hsome, -⟩ | ⟨-, -, hnone, -⟩ | ⟨-, h⟩⟩ :=
      invertAlong_cons_eq_ok h
    · obtain rfl := Option.some.inj hsome
      exact field_of_attempt hattempt
    · contradiction
    · exact (ih h).trans hfield

end KeyEquation

namespace Parametrization

variable {p p' : Parametrization}

theorem Over.fillWith {ι : Type} {index : ι → ℕ} {f : Parametrization → ι → Checked Poly}
    (hf : ∀ q x a, q.Over F → f q x = .ok a → a.field = F) (xs : List ι) (hp : p.Over F)
    (h : fillWith index f xs p = .ok p') : p'.Over F :=
  fillWith_preserves (fun q x a _ hq ha hwrite => hq.withCoordinate (hf q x a hq ha) hwrite) xs hp h

theorem Over.substituteLinear {layout : VariableLayout} (hp : p.Over F)
    (h : p.substituteLinear layout = .ok p') : p'.Over F := by
  unfold Parametrization.substituteLinear at h
  split at h
  · obtain rfl := Except.ok.inj h
    exact hp
  · rw [fillLinear_eq] at h
    refine Over.fillWith ?_ _ hp h
    intro q x a hq ha
    obtain ⟨row, -, ha⟩ := bind_eq_ok.mp ha
    exact Strict.Parametrization.field_solveEquation hq ha

theorem Over.uniform (hp : p.Over F) (hdenominator : p.denominator.field = F) : p.Uniform := by
  intro a ha
  rw [hp.field_eq]
  rcases mem_blocks.mp ha with rfl | rfl | ha
  · exact hp.field_eliminant
  · exact hdenominator
  · exact hp.field_coordinates a ha

end Parametrization

namespace Session

variable {s : Session} {layout : VariableLayout}

theorem field_eliminant {key key' : KeyEquation} (hkey : key.field = F) {sequence : Array UInt32}
    {n : ℕ} {e : Elimination} (h : Elimination.ofSequence key sequence n layout = .ok (e, key')) :
    e.eliminant.field = F := by
  rcases ofSequence_cases hkey h with ⟨-, he, -⟩ | ⟨-, rfl, rfl⟩
  · obtain ⟨row, -, he⟩ := bind_eq_ok.mp he
    obtain ⟨constant, -, he⟩ := bind_eq_ok.mp he
    rw [← Except.ok.inj he]
    rfl
  · have hminimal := KeyEquation.field_minimalPolynomial (F := F)
      ((KeyEquation.empty F).addPoints sequence) rfl
    have hmonic := KeyEquation.monic_minimalPolynomial (F := F)
      ((KeyEquation.empty F).addPoints sequence) rfl
    rw [Elimination.ofMinimal]
    split
    · exact hminimal
    · exact (Poly.toPolynomial_radical hminimal hmonic.ne_zero).1

theorem over_of_coordinates {sequence : Array UInt32} {e : Elimination} {verify : Bool}
    {source source' : WordSource} {outcome : Outcome} {key : KeyEquation}
    (hkey : s.key.field = s.field) (he : e.eliminant.field = s.field)
    (h : s.coordinates layout sequence e verify source = .ok (.ok outcome, key, source')) :
    outcome.parametrization.Over s.field := by
  have hstart : (s.startOf layout e).Over s.field := by
    refine ⟨rfl, he, fun a ha => ?_⟩
    rw [(Array.mem_replicate.mp ha).2]
    rfl
  rcases coordinates_eq_ok h with ⟨-, -, -, hok⟩ | ⟨-, -, hok⟩ |
    ⟨-, inverse, p, hinvert, hfill, hok⟩ | ⟨-, -, hfill⟩
  · obtain rfl := Except.ok.inj hok
    exact hstart
  · contradiction
  · obtain rfl := Except.ok.inj hok
    have hfield := (KeyEquation.field_of_invertAlong _ hinvert).trans hkey
    rw [fillFromHankel_eq] at hfill
    refine Parametrization.Over.fillWith ?_ _ hstart hfill
    intro q x a _ ha
    obtain ⟨stream, -, ha⟩ := bind_eq_ok.mp ha
    obtain ⟨b, hb, ha⟩ := bind_eq_ok.mp ha
    obtain ⟨-, rfl⟩ := Poly.mod?_eq_ok_iff.mp ha
    exact (Poly.field_mod _ _).trans ((HankelInverse.field_solveStream hb).trans hfield)
  · obtain ⟨-, sequence, inverse, -, -, hfill⟩ := fillFromQuotients_eq_ok hfill
    rw [fillFromNumerators_eq] at hfill
    refine Parametrization.Over.fillWith ?_ _ hstart hfill
    intro q x a hq ha
    obtain ⟨stream, -, ha⟩ := bind_eq_ok.mp ha
    exact (field_numeratorQuotient ha).trans hq.field_eliminant

section Run
variable {α : Type} [LinearOperator α] {op : α} {probe : Array UInt32} {target : Option ℕ}
  {source : WordSource} {reply : Reply} {outcome : Outcome}

theorem uniform_of_run (hs : s.key.field = s.field)
    (h : s.run op layout probe target source = .ok reply) (hresult : reply.result = .ok outcome) :
    outcome.parametrization.Uniform := by
  obtain ⟨-, record, sequence, e, key, first, key', source', -, -, he, hcoordinates, hsubstitute,
    -⟩ := run_eq_ok_of_outcome h hresult
  have hkey : key.field = s.field := (field_ofSequence he).trans hs
  have hframe := sameFrame_of_substituteLinear hcoordinates hsubstitute
  have hfirst : first.parametrization.Over s.field :=
    over_of_coordinates (s := { s with record := record, key := key }) hkey (field_eliminant hs he)
      hcoordinates
  have hdenominator : outcome.parametrization.denominator = .one s.field := hframe.denominator_eq
  exact (hfirst.substituteLinear hsubstitute).uniform (hdenominator ▸ rfl)

end Run

end Session

/-! ## Parametrizations at hand -/

namespace Parametrization

/-- The parametrizations that a caller can come by. -/
inductive Obtainable : Parametrization → Prop
  | blank (F : PrimeField) (variableCount : ℕ) : Obtainable (.blank F variableCount)
  | solved {α : Type} [LinearOperator α] {op : α} {s : Session} {layout : VariableLayout}
      {reply : Reply} {outcome : Outcome} : s.Reachable → s.Answers op layout reply →
      reply.result = .ok outcome → Obtainable outcome.parametrization
  | moved {p : Parametrization} (F : PrimeField) : Obtainable p → Obtainable (p.moveTo F)

variable {p q : Parametrization}

theorem uniform_blank (F : PrimeField) (variableCount : ℕ) : (blank F variableCount).Uniform := by
  have hover : (blank F variableCount).Over F := by
    refine ⟨rfl, rfl, fun a ha => ?_⟩
    rw [(Array.mem_replicate.mp ha).2]
    rfl
  exact hover.uniform rfl

theorem uniform_moveTo (p : Parametrization) (F : PrimeField) : (p.moveTo F).Uniform := by
  have hover : (p.moveTo F).Over F := by
    refine ⟨rfl, rfl, fun a ha => ?_⟩
    obtain ⟨b, -, rfl⟩ := Array.mem_map.mp ha
    rfl
  exact hover.uniform rfl

theorem Obtainable.uniform (h : p.Obtainable) : p.Uniform := by
  cases h with
  | blank F variableCount => exact uniform_blank F variableCount
  | solved hs hanswers hresult =>
    obtain ⟨s', probe, target, source, hs', hrun⟩ := hanswers.exists_run hs hresult
    exact Session.uniform_of_run hs' hrun hresult
  | moved F _ => exact uniform_moveTo _ F

theorem exists_listing (hp : p.Uniform) : ∃ l, Listing.ofText? p.text = some l ∧
    Listing.ofMapleText? p.mapleText = some l ∧ l.Describes p := by
  have hne : ∀ b ∈ p.listing.blocks, b.coefficients ≠ [] :=
    fun _ => coefficients_ne_nil_of_mem_listing
  refine ⟨p.listing, ?_, ?_, describes_listing hp⟩
  · rw [text_eq, Listing.ofText?_text hne]
  · rw [mapleText_eq, Listing.ofMapleText?_mapleText hne]

/-- The texts lose nothing: parametrizations with equal texts are equal, and what is read from
either text describes the parametrization. -/
theorem Obtainable.text_faithful (hp : p.Obtainable) (hq : q.Obtainable) :
    (p.text = q.text → p = q) ∧ (p.mapleText = q.mapleText → p = q) ∧
      ∃ l, Listing.ofText? p.text = some l ∧ Listing.ofMapleText? p.mapleText = some l ∧
        l.Describes p := by
  obtain ⟨l, htext, hmaple, hdescribes⟩ := exists_listing hp.uniform
  obtain ⟨l', htext', hmaple', hdescribes'⟩ := exists_listing hq.uniform
  refine ⟨fun heq => ?_, fun heq => ?_, l, htext, hmaple, hdescribes⟩
  · rw [heq] at htext
    obtain rfl := Option.some.inj (htext.symm.trans htext')
    exact eq_of_describes hp.uniform hq.uniform hdescribes hdescribes'
  · rw [heq] at hmaple
    obtain rfl := Option.some.inj (hmaple.symm.trans hmaple')
    exact eq_of_describes hp.uniform hq.uniform hdescribes hdescribes'

/-- An outcome at another prime than the session was opened with: the coordinate of `x_1` is written
before that of `x_0`, and no other parametrization is written so. -/
theorem Obtainable.text_faithful_replay :
    ∃ (s : Session) (M : MultiplicationMatrix) (layout : VariableLayout) (reply : Reply)
      (outcome : Outcome), Session.open? 11 {} = .ok s ∧
      s.replay M 7 layout (.listed [613566757, 613566757, 613566757]) = .ok reply ∧
      reply.result = .ok outcome ∧ outcome.parametrization.Obtainable ∧
      outcome.parametrization.text =
        "7\n3\n[1,\n[6, 1]]\n[0,\n[1]]\n[0,\n[1]]\n[0,\n[5]]\n" ∧
      (∀ q : Parametrization, q.Obtainable →
        q.text = "7\n3\n[1,\n[6, 1]]\n[0,\n[1]]\n[0,\n[1]]\n[0,\n[5]]\n" →
        outcome.parametrization = q) ∧
      ∃ l : Listing, l.blocks = [⟨1, [6, 1]⟩, ⟨0, [1]⟩, ⟨0, [1]⟩, ⟨0, [5]⟩] ∧
        Listing.ofMapleText? outcome.parametrization.mapleText = some l ∧
        l.Describes outcome.parametrization := by
  let F : PrimeField := ⟨11, by decide +kernel, by decide⟩
  let F' : PrimeField := ⟨7, by decide +kernel, by decide⟩
  let M : MultiplicationMatrix := ⟨⟨3, #[6, 3, 6], #[0, 1], #[1, 2], #[2]⟩, by decide +kernel, 64⟩
  let layout : VariableLayout :=
    ⟨⟨3, 1, #[true, false], #[1, 2, 3, 4], #[none, none]⟩, by decide +kernel⟩
  let p : Parametrization := ⟨F', 3, .ofCoeffs F' #[6, 1], .one F',
    #[.ofCoeffs F' #[5], .ofCoeffs F' #[1]], rfl⟩
  have hopen : Session.open? 11 {} = .ok ⟨F, {}, .empty, .empty F, none⟩ := by decide +kernel
  have hrun : ((⟨F, {}, .empty, .empty F, none⟩ : Session).replay M 7 layout
      (.listed [613566757, 613566757, 613566757])).map Reply.result =
        .ok (.ok ⟨p, .verified⟩) := by
    decide +kernel
  have htext : p.text = "7\n3\n[1,\n[6, 1]]\n[0,\n[1]]\n[0,\n[1]]\n[0,\n[5]]\n" := by
    decide +kernel
  have hread : Listing.ofText? p.text =
      some ⟨7, 3, [⟨1, [6, 1]⟩, ⟨0, [1]⟩, ⟨0, [1]⟩, ⟨0, [5]⟩]⟩ := by
    rw [text_eq, Listing.ofText?_text fun _ => coefficients_ne_nil_of_mem_listing]
    decide +kernel
  obtain ⟨reply, hreply, hresult⟩ := map_eq_ok.mp hrun
  have hp : p.Obtainable := .solved (.opened hopen) (.replay hreply) hresult
  obtain ⟨-, -, l, hl, hmaple, hdescribes⟩ := text_faithful hp hp
  obtain rfl := Option.some.inj (hl.symm.trans hread)
  refine ⟨_, M, layout, reply, _, hopen, hreply, hresult, hp, htext, fun q hq heq => ?_, _, rfl,
    hmaple, hdescribes⟩
  exact (text_faithful hp hq).1 (htext.trans heq.symm)

end Parametrization

end ZeroDim
