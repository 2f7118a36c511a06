/-
Conveyor.Json.Reader — reading a JSON text.

The reader works on the list of characters and returns what it read
together with the rest. Values nest without limit: each call spends one
unit of `fuel`, and `Json.read` gives two units per character, since no
two calls in a row can leave the text as it is.
-/
import Conveyor.Json.Basic

namespace Conveyor.Json

/-- Whether a character may stand between any two tokens. -/
def isBlank (c : Char) : Bool := c = ' ' || c = '\t' || c = '\n' || c = '\r'

/-- The text from the first character on that is not blank. -/
def skipBlanks (cs : List Char) : List Char := cs.dropWhile isBlank

/-- The value of a decimal digit. -/
def digitValue (c : Char) : Nat := c.toNat - '0'.toNat

/-- The number that a row of digits stands for. -/
def natOfDigits (ds : List Char) : Nat := ds.foldl (fun n d => 10 * n + digitValue d) 0

/-- A row of digits, of which there must be one. -/
def readDigits (cs : List Char) : Option (List Char × List Char) :=
  match cs.takeWhile Char.isDigit with
  | [] => none
  | ds => some (ds, cs.dropWhile Char.isDigit)

/-- The digits before the point: a zero alone, or a row without a leading
zero. -/
def readWhole : List Char → Option (Nat × List Char)
  | '0' :: cs => some (0, cs)
  | cs => (readDigits cs).map fun (ds, rest) => (natOfDigits ds, rest)

/-- What follows the digits before the point, and whether there is nothing. -/
def readFraction : List Char → Option (Bool × List Char)
  | '.' :: cs => (readDigits cs).map fun (_, rest) => (false, rest)
  | cs => some (true, cs)

/-- The text behind the sign of an exponent, if it has one. -/
def skipSign : List Char → List Char
  | '+' :: cs => cs
  | '-' :: cs => cs
  | cs => cs

/-- The exponent, and whether there is none. -/
def readExponent : List Char → Option (Bool × List Char)
  | 'e' :: cs => (readDigits (skipSign cs)).map fun (_, rest) => (false, rest)
  | 'E' :: cs => (readDigits (skipSign cs)).map fun (_, rest) => (false, rest)
  | cs => some (true, cs)

/-- A numeral without its sign. -/
def readUnsigned (negative : Bool) (cs : List Char) : Option (Numeral × List Char) := do
  let (whole, cs) ← readWhole cs
  let (noPoint, cs) ← readFraction cs
  let (noExponent, cs) ← readExponent cs
  return ({ negative, whole, plain := noPoint && noExponent }, cs)

/-- A numeral. -/
def readNumeral : List Char → Option (Numeral × List Char)
  | '-' :: cs => readUnsigned true cs
  | cs => readUnsigned false cs

/-- The value of a hexadecimal digit. -/
def hexValue? (c : Char) : Option Nat :=
  if c.isDigit then some (digitValue c)
  else if 'a' ≤ c ∧ c ≤ 'f' then some (c.toNat - 'a'.toNat + 10)
  else if 'A' ≤ c ∧ c ≤ 'F' then some (c.toNat - 'A'.toNat + 10)
  else none

/-- What a backslash before this character stands for, if it is a short
escape. -/
def shortEscape? : Char → Option Char
  | '"' => some '"'
  | '\\' => some '\\'
  | '/' => some '/'
  | 'b' => some '\x08'
  | 'f' => some '\x0c'
  | 'n' => some '\n'
  | 'r' => some '\r'
  | 't' => some '\t'
  | _ => none

/-- The pieces up to the closing quote. -/
def readPieces : List Char → Option (List Piece × List Char)
  | [] => none
  | '"' :: cs => some ([], cs)
  | '\\' :: 'u' :: a :: b :: c :: d :: cs => do
      let unit := ((← hexValue? a) * 16 + (← hexValue? b)) * 256
        + ((← hexValue? c) * 16 + (← hexValue? d))
      let (pieces, rest) ← readPieces cs
      return (.unit unit :: pieces, rest)
  | '\\' :: c :: cs => do
      let piece ← shortEscape? c
      let (pieces, rest) ← readPieces cs
      return (.char piece :: pieces, rest)
  | c :: cs => do
      if c = '\\' ∨ c.toNat < 0x20 then none
      let (pieces, rest) ← readPieces cs
      return (.char c :: pieces, rest)

mutual

/-- A value, behind any blanks. -/
def readValue : Nat → List Char → Option (Json × List Char)
  | 0, _ => none
  | fuel + 1, cs =>
    match skipBlanks cs with
    | 'n' :: 'u' :: 'l' :: 'l' :: rest => some (.null, rest)
    | 't' :: 'r' :: 'u' :: 'e' :: rest => some (.bool true, rest)
    | 'f' :: 'a' :: 'l' :: 's' :: 'e' :: rest => some (.bool false, rest)
    | '"' :: rest => (readPieces rest).map fun (pieces, rest) => (.string pieces, rest)
    | '[' :: rest =>
      match skipBlanks rest with
      | ']' :: rest => some (.array [], rest)
      | rest => (readItems fuel rest).map fun (items, rest) => (.array items, rest)
    | '{' :: rest =>
      match skipBlanks rest with
      | '}' :: rest => some (.object [], rest)
      | rest => (readMembers fuel rest).map fun (members, rest) => (.object members, rest)
    | rest => (readNumeral rest).map fun (n, rest) => (.number n, rest)

/-- The items of an array and its closing bracket. -/
def readItems : Nat → List Char → Option (List Json × List Char)
  | 0, _ => none
  | fuel + 1, cs => do
    let (item, rest) ← readValue fuel cs
    match skipBlanks rest with
    | ']' :: rest => return ([item], rest)
    | ',' :: rest =>
      let (items, rest) ← readItems fuel rest
      return (item :: items, rest)
    | _ => none

/-- The members of an object and its closing brace. -/
def readMembers : Nat → List Char → Option (List (List Piece × Json) × List Char)
  | 0, _ => none
  | fuel + 1, cs => do
    match skipBlanks cs with
    | '"' :: rest =>
      let (name, rest) ← readPieces rest
      match skipBlanks rest with
      | ':' :: rest =>
        let (item, rest) ← readValue fuel rest
        match skipBlanks rest with
        | '}' :: rest => return ([(name, item)], rest)
        | ',' :: rest =>
          let (members, rest) ← readMembers fuel rest
          return ((name, item) :: members, rest)
        | _ => none
      | _ => none
    | _ => none

end

/-- The value that a whole text stands for, blanks around it apart. -/
def ofChars? (cs : List Char) : Option Json := do
  let (json, rest) ← readValue (2 * cs.length + 2) cs
  if (skipBlanks rest).isEmpty then some json else none

/-- The value that a text stands for. -/
def read? (text : String) : Option Json := ofChars? text.toList

end Conveyor.Json
