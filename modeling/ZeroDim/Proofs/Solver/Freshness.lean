import Mathlib
import ZeroDim.Operator.Diagonal
import ZeroDim.Operator.Multiplication
import ZeroDim.Proofs.Field.Modulus
import ZeroDim.Proofs.Solver.ProbeInvariance

/-! # Sessions that were used before

A session answers as if it were new.  All that a run reads of its session is the field and the
configuration: the tables and both vectors are set to zero before the first step, and the key
equation is started anew.  Two things are handed on.  Scratch space is lent to the operator, whose
image must not depend on it, and the key equation stays as it is when every variable is linear,
where nothing reads it. -/

set_option autoImplicit false

namespace ZeroDim

/-! ## Two computations side by side -/

/-- Both computations meet the same fault, or they give related values. -/
inductive Alike {α β : Type} (R : α → β → Prop) : Checked α → Checked β → Prop
  | ok {a : α} {b : β} : R a b → Alike R (.ok a) (.ok b)
  | fault (fault : Fault) : Alike R (.error fault) (.error fault)

namespace Alike

variable {α β γ δ : Type} {R : α → β → Prop} {S : γ → δ → Prop}

theorem bind {x : Checked α} {y : Checked β} {f : α → Checked γ} {g : β → Checked δ}
    (h : Alike R x y) (hfg : ∀ a b, R a b → Alike S (f a) (g b)) : Alike S (x >>= f) (y >>= g) := by
  cases h with
  | ok hab => exact hfg _ _ hab
  | fault fault => exact .fault fault

theorem bind_same {x : Checked α} {f : α → Checked γ} {g : α → Checked δ}
    (hfg : ∀ a, Alike S (f a) (g a)) : Alike S (x >>= f) (x >>= g) := by
  cases x with
  | ok a => exact hfg a
  | error fault => exact .fault fault

theorem same {T : α → α → Prop} (hT : ∀ a, T a a) (x : Checked α) : Alike T x x := by
  cases x with
  | ok a => exact .ok (hT a)
  | error fault => exact .fault fault

theorem map_eq_iff {x y : Checked α} {f : α → β} :
    x.map f = y.map f ↔ Alike (fun a b => f a = f b) x y := by
  constructor
  · intro h
    cases x with
    | ok a =>
      cases y with
      | ok b => exact .ok (Except.ok.inj h)
      | error fault => contradiction
    | error fault =>
      cases y with
      | ok b => contradiction
      | error fault' =>
        obtain rfl := Except.error.inj h
        exact .fault fault
  · intro h
    cases h with
    | ok hab => exact congrArg Except.ok hab
    | fault fault => rfl

end Alike

/-! ## Scratch space -/

/-- The image does not depend on what the scratch space holds. -/
def LinearOperator.IgnoresScratch {α : Type} [LinearOperator α] (op : α) : Prop :=
  ∀ (F : PrimeField) (src dst scratch scratch' : Array UInt32),
    (applyWithScratch op F src dst scratch).map Prod.fst =
      (applyWithScratch op F src dst scratch').map Prod.fst

theorem MultiplicationMatrix.ignoresScratch (M : MultiplicationMatrix) :
    LinearOperator.IgnoresScratch M := by
  intro F src dst scratch scratch'
  rw [Alike.map_eq_iff]
  apply Alike.bind_same
  intro values
  apply Alike.bind_same
  intro dst
  dsimp only
  split
  · exact .ok rfl
  · split
    · exact Alike.bind_same fun _ => .ok rfl
    · exact Alike.bind_same fun _ => .ok rfl

theorem Diagonal.ignoresScratch (D : Diagonal) : LinearOperator.IgnoresScratch D := by
  intro F src dst scratch scratch'
  rw [Alike.map_eq_iff]
  exact Alike.bind_same fun _ => .ok rfl

namespace KrylovRecord

structure Similar (k k' : KrylovRecord) : Prop where
  current_eq : k.vectors.current = k'.vectors.current
  next_eq : k.vectors.next = k'.vectors.next
  terms_eq : k.terms = k'.terms
  squares_eq : k.squares = k'.squares
  dimension_eq : k.dimension = k'.dimension

variable {k k' : KrylovRecord} {tracked : List TrackedVariable}

theorem Similar.keep (h : Similar k k') (i : ℕ) :
    Alike Similar (k.keep tracked i) (k'.keep tracked i) := by
  rw [keep_eq, keep_eq, h.current_eq, h.terms_eq, h.squares_eq, h.dimension_eq]
  apply Alike.bind_same
  intro terms
  apply Alike.bind_same
  intro terms
  apply Alike.bind_same
  intro squares
  exact .ok ⟨h.current_eq, h.next_eq, rfl, rfl, rfl⟩

section Run
variable {α : Type} [LinearOperator α] {op : α} (hop : LinearOperator.IgnoresScratch op)
  (F : PrimeField)
include hop

theorem Similar.step (h : Similar k k') :
    Alike (fun v v' => Similar { k with vectors := v } { k' with vectors := v' })
      (k.vectors.step op F) (k'.vectors.step op F) := by
  rw [VectorPair.step, VectorPair.step, h.current_eq, h.next_eq]
  apply (Alike.map_eq_iff.mp (hop F _ _ k.vectors.scratch k'.vectors.scratch)).bind
  intro image image' himage
  exact .ok ⟨himage, rfl, h.terms_eq, h.squares_eq, h.dimension_eq⟩

theorem Similar.steps (n i : ℕ) (h : Similar k k') :
    Alike Similar (steps op F tracked n i k) (steps op F tracked n i k') := by
  induction n generalizing i k k' with
  | zero => exact .ok h
  | succ n ih =>
    rw [steps_succ, steps_succ]
    have hvectors : Alike (fun v v' => Similar { k with vectors := v } { k' with vectors := v' })
        (if i = 0 then pure k.vectors else k.vectors.step op F)
        (if i = 0 then pure k'.vectors else k'.vectors.step op F) := by
      split
      · exact .ok h
      · exact h.step hop F
    exact hvectors.bind fun v v' hv => (hv.keep i).bind fun _ _ hkeep => ih (i + 1) hkeep

theorem alike_generate (probe : Array UInt32) (withSquares : Bool) (k k' : KrylovRecord) :
    Alike Similar (k.generate op F tracked probe withSquares)
      (k'.generate op F tracked probe withSquares) := by
  rw [generate, generate]
  dsimp only
  split
  · exact Similar.steps hop F _ _ ⟨rfl, rfl, rfl, rfl, rfl⟩
  · exact .fault _

end Run

end KrylovRecord

/-! ## Stages -/

section Coordinates
variable {record record' : KrylovRecord} (h : record.Similar record') (minimal : Poly)
  (tracked : List TrackedVariable)
include h

theorem KrylovRecord.Similar.fillFromHankel (inverse : HankelInverse) (p : Parametrization) :
    fillFromHankel record inverse tracked p = fillFromHankel record' inverse tracked p := by
  rw [fillFromHankel_eq, fillFromHankel_eq, h.terms_eq, h.dimension_eq]

theorem KrylovRecord.Similar.fillFromNumerators (inverse : Poly) (p : Parametrization) :
    fillFromNumerators record minimal inverse tracked p =
      fillFromNumerators record' minimal inverse tracked p := by
  rw [fillFromNumerators_eq, fillFromNumerators_eq, h.terms_eq]

theorem KrylovRecord.Similar.scanCoordinates (p : Parametrization) (source : WordSource) :
    scanCoordinates record minimal p tracked source =
      scanCoordinates record' minimal p tracked source := by
  induction tracked generalizing source with
  | nil => rfl
  | cons x tracked ih => simp only [ZeroDim.scanCoordinates, h.terms_eq, h.squares_eq, ih]

theorem KrylovRecord.Similar.fillFromQuotients (verify : Bool) (p : Parametrization)
    (source : WordSource) :
    fillFromQuotients record minimal tracked verify p source =
      fillFromQuotients record' minimal tracked verify p source := by
  simp only [ZeroDim.fillFromQuotients, h.terms_eq, h.fillFromNumerators, h.scanCoordinates]

end Coordinates

namespace Session

variable {s s' : Session} {layout : VariableLayout}

/-- The coordinates depend on the session through its field, its record, and through its key
equation unless every variable is linear. -/
theorem alike_coordinates (s s' : Session) (hfield : s.field = s'.field) (hrecord : s.record.Similar s'.record)
    {e : Elimination} (hkey : s.key = s'.key ∨ layout.allLinear = true ∧ e.shapePosition = true)
    (sequence : Array UInt32) (verify : Bool) (source : WordSource) :
    Alike (fun a b => a.1 = b.1 ∧ a.2.2 = b.2.2) (s.coordinates layout sequence e verify source)
      (s'.coordinates layout sequence e verify source) := by
  rcases hkey with hkey | ⟨hlinear, hshape⟩
  · have heq : s.coordinates layout sequence e verify source =
        s'.coordinates layout sequence e verify source := by
      simp only [coordinates, hfield, hkey, hrecord.dimension_eq, hrecord.fillFromHankel,
        hrecord.fillFromQuotients]
    rw [heq]
    apply Alike.same
    intro a
    exact ⟨rfl, rfl⟩
  · rw [coordinates, coordinates, layout.tracked_eq_nil_of_allLinear hlinear, hfield]
    dsimp only
    rw [if_pos hshape, if_pos hshape, if_pos List.isEmpty_nil, if_pos List.isEmpty_nil]
    exact .ok ⟨rfl, rfl⟩

theorem alike_ofSequence {key key' : KeyEquation} (hkey : key.field = key'.field)
    (sequence : Array UInt32) (n : ℕ) :
    Alike (fun a b => a.1 = b.1 ∧
        (a.2 = b.2 ∨ layout.allLinear = true ∧ a.1.shapePosition = true))
      (Elimination.ofSequence key sequence n layout)
      (Elimination.ofSequence key' sequence n layout) := by
  rw [Elimination.ofSequence, Elimination.ofSequence]
  split
  · rename_i hlinear
    rw [hkey]
    cases he : Elimination.ofEquations key'.field layout with
    | ok e => exact .ok ⟨rfl, .inr ⟨hlinear, (Elimination.ofEquations_spec he).1⟩⟩
    | error fault => exact .fault fault
  · have hreset : key.reset = key'.reset := congrArg KeyEquation.empty hkey
    rw [hreset]
    exact .ok ⟨rfl, .inl rfl⟩

section Run
variable {α : Type} [LinearOperator α] {op : α}

/-- A run depends on the session through its field and its configuration only. -/
theorem alike_run (s s' : Session) (hop : LinearOperator.IgnoresScratch op)
    (hfield : s.field = s'.field) (hconfig : s.config = s'.config)
    (hkey : s.key.field = s'.key.field) (probe : Array UInt32) (target : Option ℕ)
    (source : WordSource) :
    Alike (fun r r' => (r.result, r.source) = (r'.result, r'.source))
      (s.run op layout probe target source) (s'.run op layout probe target source) := by
  obtain ⟨F, config, record₀, key₀, learned⟩ := s
  obtain ⟨F', config', record₀', key₀', learned'⟩ := s'
  dsimp only at hfield hconfig hkey
  subst hfield hconfig
  rw [run, run]
  dsimp only
  split
  · exact .ok rfl
  · rw [runStages, runStages]
    apply (KrylovRecord.alike_generate hop F probe _ record₀ record₀').bind
    intro record record' hrecord
    rw [KrylovRecord.sequence, KrylovRecord.sequence, hrecord.terms_eq]
    apply Alike.bind_same
    intro sequence
    apply (alike_ofSequence hkey sequence _).bind
    rintro ⟨e, key⟩ ⟨e', key'⟩ ⟨rfl, hkeys⟩
    dsimp only
    split
    · exact .ok rfl
    · apply (alike_coordinates ⟨F, config, record, key, learned⟩
        ⟨F, config, record', key', learned'⟩ rfl hrecord hkeys sequence _ source).bind
      rintro ⟨result, key₁, source₁⟩ ⟨result', key₁', source₁'⟩ ⟨rfl, rfl⟩
      cases result with
      | error error => exact .ok rfl
      | ok outcome => exact Alike.bind_same fun _ => .ok rfl

end Run

end Session

theorem PrimeField.ofModulus_modulus (F : PrimeField) : ofModulus F.modulus.toNat = .ok F :=
  ofModulus_eq_ok_iff.mpr rfl

namespace Session

variable {s : Session}

/-- A session that calls led to answers like one that is opened over the same field with the same
configuration, and leaves the random words at the same place. -/
theorem Reachable.solve_eq_opened (hs : s.Reachable) :
    s.key.field = s.field ∧ ∃ fresh, open? s.field.modulus.toNat s.config = .ok fresh ∧
      fresh.field = s.field ∧ fresh.config = s.config ∧
      ∀ (α : Type) [LinearOperator α] (op : α), LinearOperator.IgnoresScratch op →
        ∀ (layout : VariableLayout) (probe : Array UInt32) (source : WordSource),
          (s.solve op layout source).map (fun r => (r.result, r.source)) =
            (fresh.solve op layout source).map (fun r => (r.result, r.source)) ∧
          (s.solveFrom op layout probe source).map (fun r => (r.result, r.source)) =
            (fresh.solveFrom op layout probe source).map (fun r => (r.result, r.source)) := by
  let fresh : Session := ⟨s.field, s.config, .empty, .empty s.field, none⟩
  refine ⟨hs.field_key, fresh, ?_, rfl, rfl, ?_⟩
  · rw [open?, PrimeField.ofModulus_modulus]
  · intro α _ op hop layout probe source
    constructor
    · exact Alike.map_eq_iff.mpr (alike_run s fresh hop rfl rfl hs.field_key _ none _)
    · exact Alike.map_eq_iff.mpr (alike_run s fresh hop rfl rfl hs.field_key probe none source)

/-- A run that found no Hankel inverse leaves a used session, which solves the system from another
probe like a new one. -/
theorem Reachable.solve_eq_opened_afterFailure :
    ∃ (s : Session) (M : MultiplicationMatrix) (reply : Reply), open? 7 {} = .ok s ∧
      M.parts = ⟨3, #[5, 2, 1], #[0, 1], #[1, 2], #[2]⟩ ∧
      s.solveFrom M (.generic 2) #[1, 1, 0] (.ofSeed 42) = .ok reply ∧
      reply.result = .error (.singularHankel 3) ∧ reply.session.record.dimension = 3 ∧
      reply.session.key.field = reply.session.field ∧
      (reply.session.solveFrom M (.generic 2) #[1, 0, 0] (.ofSeed 42)).map
          (fun r => (r.result, r.source)) =
        (s.solveFrom M (.generic 2) #[1, 0, 0] (.ofSeed 42)).map
          (fun r => (r.result, r.source)) := by
  let F : PrimeField := ⟨7, by decide +kernel, by decide⟩
  let M : MultiplicationMatrix := ⟨⟨3, #[5, 2, 1], #[0, 1], #[1, 2], #[2]⟩, by decide +kernel, 64⟩
  have hopen : open? 7 {} = .ok ⟨F, {}, .empty, .empty F, none⟩ := by decide +kernel
  have hrun : ((⟨F, {}, .empty, .empty F, none⟩ : Session).solveFrom M (.generic 2) #[1, 1, 0]
      (.ofSeed 42)).map (fun r => (r.result, r.session.field, r.session.config,
        r.session.record.dimension)) = .ok (.error (.singularHankel 3), F, {}, 3) := by
    decide +kernel
  obtain ⟨reply, hreply, hafter⟩ := map_eq_ok.mp hrun
  obtain ⟨hresult, hafter⟩ := Prod.mk.inj hafter
  obtain ⟨hfield, hafter⟩ := Prod.mk.inj hafter
  obtain ⟨hconfig, hdimension⟩ := Prod.mk.inj hafter
  obtain ⟨hkey, fresh, hfresh, -, -, hsame⟩ := solve_eq_opened (.solvedFrom (.opened hopen) hreply)
  rw [hfield, hconfig] at hfresh
  obtain rfl := Except.ok.inj (hopen.symm.trans hfresh)
  exact ⟨_, M, reply, hopen, rfl, hreply, hresult, hdimension, hkey,
    (hsame _ M M.ignoresScratch (.generic 2) #[1, 0, 0] (.ofSeed 42)).2⟩

end Session

end ZeroDim
