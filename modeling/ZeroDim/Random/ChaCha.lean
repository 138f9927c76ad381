/-! # The ChaCha keystream with eight rounds

A key of eight words determines an endless sequence of 32-bit words, produced in blocks of
sixteen.  Block `n` is the permutation of the state made of four constants, the key, the 64-bit
counter `n` (low word first) and a zero stream number, added to that state.
-/

set_option autoImplicit false

namespace ZeroDim.ChaCha

abbrev Key := Vector UInt32 8

abbrev State := Vector UInt32 16

def rotateLeft (x k : UInt32) : UInt32 := (x <<< k) ||| (x >>> (32 - k))

def rotateRight (x k : UInt32) : UInt32 := (x >>> k) ||| (x <<< (32 - k))

def quarterRound (s : State) (i j k l : Fin 16) : State :=
  let a := s[i] + s[j]
  let d := rotateLeft (s[l] ^^^ a) 16
  let c := s[k] + d
  let b := rotateLeft (s[j] ^^^ c) 12
  let a := a + b
  let d := rotateLeft (d ^^^ a) 8
  let c := c + d
  let b := rotateLeft (b ^^^ c) 7
  (((s.set i a).set j b).set k c).set l d

def doubleRound (s : State) : State :=
  let s := quarterRound s 0 4 8 12
  let s := quarterRound s 1 5 9 13
  let s := quarterRound s 2 6 10 14
  let s := quarterRound s 3 7 11 15
  let s := quarterRound s 0 5 10 15
  let s := quarterRound s 1 6 11 12
  let s := quarterRound s 2 7 8 13
  quarterRound s 3 4 9 14

def constants : Vector UInt32 4 := #v[0x61707865, 0x3320646e, 0x79622d32, 0x6b206574]

def initialState (key : Key) (counter : UInt64) : State :=
  constants ++ key ++ #v[counter.toUInt32, (counter >>> 32).toUInt32, 0, 0]

def block (key : Key) (counter : UInt64) : State :=
  let start := initialState key counter
  start.zipWith (· + ·) (Nat.repeat doubleRound 4 start)

def word (key : Key) (i : Nat) : UInt32 :=
  (block key (UInt64.ofNat (i / 16))).get (Fin.ofNat 16 i)

/-- Words of the keystream before it starts again. -/
def period : Nat := 1 <<< 68

def seedStep (s : UInt64) : UInt64 := s * 6364136223846793005 + 11634580027462260723

def seedWord (s : UInt64) : UInt32 :=
  rotateRight (((s >>> 18) ^^^ s) >>> 27).toUInt32 (s >>> 59).toUInt32

def keyOfSeed (seed : UInt64) : Key :=
  Vector.ofFn fun i => seedWord (Nat.repeat seedStep (i + 1) seed)

end ZeroDim.ChaCha
