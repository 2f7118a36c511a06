/-
Conveyor.Json.Basic — a JSON text as a tree, with nothing thrown away
that a reader of settings may ask about.

Members of an object keep their order and their repetitions. A numeral
keeps its sign and whether it was written with a point or an exponent,
since only a plain one can be a size. A string is a list of pieces: an
escape by code unit may name half of a character, so not every string
is a text, and `Json.text?` says which text it is.
-/

namespace Conveyor

/-- A numeral. -/
structure Numeral where
  negative : Bool
  /-- The digits before the point. -/
  whole : Nat
  /-- Whether there is neither a point nor an exponent. -/
  plain : Bool
  deriving DecidableEq, Repr

/-- The value of a numeral that stands for a natural number up to `bound`.
A sign makes it none, even before a zero. -/
def Numeral.nat? (n : Numeral) (bound : Nat) : Option Nat :=
  if n.plain ∧ ¬ n.negative ∧ n.whole ≤ bound then some n.whole else none

/-- What stands between the quotes of a string. -/
inductive Piece where
  /-- A character, as it is or behind a backslash. -/
  | char (c : Char)
  /-- A 16-bit code unit in hexadecimal. -/
  | unit (n : Nat)
  deriving DecidableEq, Repr

/-- Whether a code unit is the first half of a character. -/
def isHighHalf (n : Nat) : Bool := 0xd800 ≤ n ∧ n < 0xdc00

/-- Whether a code unit is the second half of a character. -/
def isLowHalf (n : Nat) : Bool := 0xdc00 ≤ n ∧ n < 0xe000

/-- The character whose halves these are. -/
def joinHalves (high low : Nat) : Char :=
  Char.ofNat (0x10000 + (high - 0xd800) * 0x400 + (low - 0xdc00))

/-- The characters that the pieces spell. Halves must stand in pairs. -/
def Piece.chars? : List Piece → Option (List Char)
  | [] => some []
  | .char c :: rest => (chars? rest).map (c :: ·)
  | .unit high :: .unit low :: rest =>
      if isHighHalf high then
        if isLowHalf low then (chars? rest).map (joinHalves high low :: ·) else none
      else if isLowHalf high then none
      else (chars? (.unit low :: rest)).map (Char.ofNat high :: ·)
  | .unit n :: rest =>
      if isHighHalf n || isLowHalf n then none else (chars? rest).map (Char.ofNat n :: ·)

/-- A JSON value. -/
inductive Json where
  | null
  | bool (b : Bool)
  | number (n : Numeral)
  | string (pieces : List Piece)
  | array (items : List Json)
  | object (members : List (List Piece × Json))

namespace Json

/-- The text of a string of pieces. -/
def textOf? (pieces : List Piece) : Option String := (Piece.chars? pieces).map String.ofList

/-- The text of a value that is a string and spells one. -/
def text? : Json → Option String
  | string pieces => textOf? pieces
  | _ => none

/-- The value of a number that is a natural number up to `bound`. -/
def nat? (bound : Nat) : Json → Option Nat
  | number n => n.nat? bound
  | _ => none

/-- The value of a number that is a 64-bit word. -/
def word? (j : Json) : Option UInt64 := (j.nat? (UInt64.size - 1)).map UInt64.ofNat

end Json

end Conveyor
