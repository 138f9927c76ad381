import ZeroDim.Operator.Basic

/-! # Diagonal operators

The operator that scales every coordinate.  It is usable over every field and needs no scratch
space, and its dimension may be zero.
-/

set_option autoImplicit false

namespace ZeroDim

structure Diagonal where
  entries : Array UInt32
deriving DecidableEq

def Diagonal.products (D : Diagonal) (F : PrimeField) (src : Array UInt32) :
    Checked (List (Nat × UInt32)) :=
  D.entries.toList.zipIdx.mapM fun (d, i) => do return (i, F.mul d (← entryAt src i))

instance : LinearOperator Diagonal where
  dimension D := D.entries.size
  apply D F src dst := do scatter (← D.products F src) dst

end ZeroDim
