/-
Conveyor.Digest.Key — the keys by which items are spread over channels,
and the bytes that stand for a key in a hash.

A number is written in its own width, lowest byte first, negative ones
as two's complement. A text ends with a byte that no text contains, and
a block of bytes begins with its length, so that two keys side by side
cannot be mistaken for two others.
-/
import Conveyor.Digest.SipHash

namespace Conveyor

/-- A key. -/
inductive Key where
  /-- A whole number in so many bytes. -/
  | number (width : Nat) (value : Int)
  | flag (b : Bool)
  | letter (c : Char)
  | text (s : String)
  | block (bytes : List UInt8)
  | unit
  | absent
  | present (k : Key)
  | pair (first second : Key)

namespace Key

/-- The lowest `width` bytes of a natural number, the lowest first. -/
def littleEndian : Nat → Nat → List UInt8
  | 0, _ => []
  | width + 1, n => UInt8.ofNat (n % 256) :: littleEndian width (n / 256)

theorem length_littleEndian (width n : Nat) : (littleEndian width n).length = width := by
  induction width generalizing n with
  | zero => rfl
  | succ width ih => simp [littleEndian, ih]

/-- The bytes that stand for a key. -/
def bytes : Key → List UInt8
  | number width value => littleEndian width (value % 256 ^ width).toNat
  | flag b => [if b then 1 else 0]
  | letter c => littleEndian 4 c.toNat
  | text s => s.toUTF8.toList ++ [0xff]
  | block bs => littleEndian 8 bs.length ++ bs
  | unit => []
  | absent => littleEndian 8 0
  | present k => littleEndian 8 1 ++ k.bytes
  | pair first second => first.bytes ++ second.bytes

/-- The hash of a key. -/
def digest (k : Key) : UInt64 := SipHash.digest k.bytes

end Key

end Conveyor
