import ZeroDim.Field.Basic
import ZeroDim.Random.ChaCha

/-! # Random words and uniform residues

A source of random words is a position in a keystream, or a list of words that is followed by
zeros.  A uniform number below `r` is the high half of `w * r` for the first word `w` whose low
half does not exceed a bound that makes all results equally likely.

A keystream repeats after its period, and a spent list gives zeros, which are always accepted.
A search that has not ended within the span of its source therefore never ends, and is cut
there.
-/

set_option autoImplicit false

namespace ZeroDim

inductive WordSource where
  /-- The keystream of `key`, from word `position` on. -/
  | keyed (key : ChaCha.Key) (position : Nat)
  /-- The listed words, then zeros. -/
  | listed (words : List UInt32)
deriving DecidableEq

namespace WordSource

def ofSeed (seed : UInt64) : WordSource := .keyed (ChaCha.keyOfSeed seed) 0

def next : WordSource → UInt32 × WordSource
  | .keyed key position => (ChaCha.word key position, .keyed key (position + 1))
  | .listed [] => (0, .listed [])
  | .listed (w :: ws) => (w, .listed ws)

/-- Words after which the source offers nothing new. -/
def span : WordSource → Nat
  | .keyed _ _ => ChaCha.period
  | .listed words => words.length + 1

/-- The largest low half of an accepted product. -/
def acceptanceBound (r : UInt32) : UInt32 := (r <<< (31 - r.log2)) - 1

/-- The first accepted word among the next `n`, scaled to a number below `r`. -/
def searchBelow (r : UInt32) : Nat → WordSource → UInt32 × WordSource
  | 0, source => (0, source)
  | n + 1, source =>
    let (w, rest) := source.next
    let product := w.toUInt64 * r.toUInt64
    if product.toUInt32 ≤ acceptanceBound r then ((product >>> 32).toUInt32, rest)
    else searchBelow r n rest

def below (r : UInt32) (source : WordSource) : UInt32 × WordSource :=
  searchBelow r source.span source

def residue (F : PrimeField) (source : WordSource) : UInt32 × WordSource :=
  source.below F.modulus

def nonzeroResidue (F : PrimeField) (source : WordSource) : UInt32 × WordSource :=
  let (a, rest) := source.below (F.modulus - 1)
  (1 + a, rest)

def many (draw : WordSource → UInt32 × WordSource) : Nat → WordSource → List UInt32 × WordSource
  | 0, source => ([], source)
  | n + 1, source =>
    let (a, source) := draw source
    let (as, source) := many draw n source
    (a :: as, source)

theorem length_many (draw : WordSource → UInt32 × WordSource) (n : Nat) (source : WordSource) :
    (many draw n source).1.length = n := by
  induction n generalizing source with
  | zero => rfl
  | succ n ih => simp [many, ih]

end WordSource

end ZeroDim
