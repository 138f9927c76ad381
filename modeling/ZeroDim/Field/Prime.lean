/-! # Primality by trial division

A number from 2 up is prime when no odd number from 3 up to its square root divides it and it
is odd or equal to 2.
-/

set_option autoImplicit false

namespace ZeroDim

/-- Whether `d`, `d + 2`, `d + 4`, ... up to the square root of `n` contains a divisor of `n`. -/
def hasDivisorFrom (n d : Nat) : Bool :=
  if d * d ≤ n then n % d == 0 || hasDivisorFrom n (d + 2) else false
termination_by n + 1 - d
decreasing_by
  rename_i h
  have := Nat.le_mul_self d
  omega

def isPrime (n : Nat) : Bool :=
  if n < 2 then false
  else if n % 2 = 0 then n == 2
  else !hasDivisorFrom n 3

theorem two_le_of_isPrime {n : Nat} (h : isPrime n = true) : 2 ≤ n := by
  unfold isPrime at h
  split at h
  · contradiction
  · omega

end ZeroDim
