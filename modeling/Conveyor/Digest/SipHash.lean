/-
Conveyor.Digest.SipHash — the keyed hash SipHash-1-3 of a byte string:
one round per eight-byte word, three rounds at the end, and a 64-bit
digest. Channels are chosen with the key (0, 0).
-/

namespace Conveyor.SipHash

/-- The four words that the hash works on. -/
structure State where
  v0 : UInt64
  v1 : UInt64
  v2 : UInt64
  v3 : UInt64

/-- Rotation to the left by `n` bits, for `0 < n < 64`. -/
def rotate (x : UInt64) (n : UInt64) : UInt64 := (x <<< n) ||| (x >>> (64 - n))

/-- The state before any input, for a key of two words. -/
def State.ofKey (k0 k1 : UInt64) : State where
  v0 := k0 ^^^ 0x736f6d6570736575
  v1 := k1 ^^^ 0x646f72616e646f6d
  v2 := k0 ^^^ 0x6c7967656e657261
  v3 := k1 ^^^ 0x7465646279746573

/-- One round. -/
def State.round (s : State) : State :=
  let a := s.v0 + s.v1
  let b := rotate s.v1 13 ^^^ a
  let a := rotate a 32
  let c := s.v2 + s.v3
  let d := rotate s.v3 16 ^^^ c
  let a := a + d
  let d := rotate d 21 ^^^ a
  let c := c + b
  let b := rotate b 17 ^^^ c
  let c := rotate c 32
  { v0 := a, v1 := b, v2 := c, v3 := d }

/-- Takes in one word, with a single round. -/
def State.absorb (s : State) (w : UInt64) : State :=
  let s := { s with v3 := s.v3 ^^^ w }.round
  { s with v0 := s.v0 ^^^ w }

/-- The digest, after three more rounds. -/
def State.finish (s : State) : UInt64 :=
  let s := { s with v2 := s.v2 ^^^ 0xff }.round.round.round
  s.v0 ^^^ s.v1 ^^^ s.v2 ^^^ s.v3

/-- The word with these bytes, the lowest first. -/
def wordOfBytes (bytes : List UInt8) : UInt64 :=
  bytes.foldr (fun b w => (w <<< 8) ||| b.toUInt64) 0

/-- Takes in all whole words of the input and returns the bytes left over. -/
def State.absorbWords (s : State) : List UInt8 → State × List UInt8
  | b0 :: b1 :: b2 :: b3 :: b4 :: b5 :: b6 :: b7 :: rest =>
      (s.absorb (wordOfBytes [b0, b1, b2, b3, b4, b5, b6, b7])).absorbWords rest
  | rest => (s, rest)

/-- The last word: the bytes left over, and the length of the whole input
in the highest byte. -/
def lastWord (length : Nat) (rest : List UInt8) : UInt64 :=
  wordOfBytes rest ||| (UInt64.ofNat (length % 256) <<< 56)

/-- The digest of a byte string under the key (0, 0). -/
def digest (bytes : List UInt8) : UInt64 :=
  let (s, rest) := (State.ofKey 0 0).absorbWords bytes
  (s.absorb (lastWord bytes.length rest)).finish

end Conveyor.SipHash
