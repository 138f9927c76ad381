import ZeroDim.Fault
import ZeroDim.Field.Basic

/-! # Windows of a sequence

The Hankel matrix of a sequence is formed from a window of its terms.  Should the direct window
not do, the same unknowns are found from the terms one step later, or from the differences of
neighbouring terms; the right-hand sides then go through the same window.
-/

set_option autoImplicit false

namespace ZeroDim

inductive Level where
  /-- `w_i = s_i`. -/
  | direct
  /-- `w_i = s_{i+1}`, the system multiplied by `t`. -/
  | shifted
  /-- `w_i = s_i - s_{i+1}`, the system multiplied by `1 - t`. -/
  | deflated
deriving DecidableEq, Repr

namespace Level

def name : Level → String
  | .direct => "Direct"
  | .shifted => "Shifted"
  | .deflated => "Deflated"

def onward : Level → List Level
  | .direct => [.direct, .shifted, .deflated]
  | .shifted => [.shifted, .deflated]
  | .deflated => [.deflated]

def next? (level : Level) : Option Level := level.onward.tail.head?

/-- The first `n` terms of the window; all levels but the direct one need `n + 1` terms of the
sequence. -/
def window (level : Level) (F : PrimeField) (stream : Array UInt32) (n : Nat) :
    Checked (Array UInt32) :=
  match level with
  | .direct => segment stream 0 n
  | .shifted => segment stream 1 (n + 1)
  | .deflated => do
    let terms ← segment stream 0 (n + 1)
    return Array.ofFn fun i : Fin n => F.sub (terms.getD i 0) (terms.getD (i + 1) 0)

end Level

end ZeroDim
