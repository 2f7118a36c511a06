/-
Conveyor.Json.Grammar — which texts spell which JSON value.

The grammar says nothing of a reader. Each rule joins what a part of a value is
spelled with to the signs around it; blanks may stand wherever a value, a name
or a comma ends (`IsBlanks`), and nowhere else. `Json.Spelled` is a value
without blanks around it, `Json.Padded` one with any blanks. That the reader
accepts exactly these texts is proved in `Conveyor.Proofs.Grammar`.

A member of an object may have any name, and the same name as another; a string
may be written with any mixture of plain characters and escapes.
-/
import Conveyor.Json.Reader

namespace Conveyor

/-! ## Strings and numerals -/

/-- The characters between two quotes that spell these pieces. -/
inductive Piece.Spelled : List Piece → List Char → Prop
  | nil : Spelled [] []
  | plain {c : Char} {ps : List Piece} {cs : List Char} :
      c ≠ '"' → c ≠ '\\' → 0x20 ≤ c.toNat → Spelled ps cs → Spelled (.char c :: ps) (c :: cs)
  | escape {c d : Char} {ps : List Piece} {cs : List Char} :
      Json.shortEscape? c = some d → Spelled ps cs → Spelled (.char d :: ps) ('\\' :: c :: cs)
  | unit {a b c d : Char} {i j k l : Nat} {ps : List Piece} {cs : List Char} :
      Json.hexValue? a = some i → Json.hexValue? b = some j → Json.hexValue? c = some k →
      Json.hexValue? d = some l → Spelled ps cs →
      Spelled (.unit ((i * 16 + j) * 256 + (k * 16 + l)) :: ps)
        ('\\' :: 'u' :: a :: b :: c :: d :: cs)

/-- The pieces of a text of plain characters. -/
def Piece.ofText (text : String) : List Piece := text.toList.map .char

namespace Json

/-- One digit or more. -/
def IsDigits (ds : List Char) : Prop := ds ≠ [] ∧ ∀ d ∈ ds, d.isDigit = true

/-- The digits before the point. -/
inductive Whole : Nat → List Char → Prop
  | zero : Whole 0 ['0']
  | digits {d : Char} {ds : List Char} :
      d ≠ '0' → IsDigits (d :: ds) → Whole (natOfDigits (d :: ds)) (d :: ds)

/-- The point and the digits behind it, or that there are none. -/
inductive Fraction : Bool → List Char → Prop
  | absent : Fraction true []
  | present {ds : List Char} : IsDigits ds → Fraction false ('.' :: ds)

/-- The exponent, with or without a sign, or that there is none. -/
inductive Exponent : Bool → List Char → Prop
  | absent : Exponent true []
  | present {e : Char} {sign ds : List Char} : e = 'e' ∨ e = 'E' →
      sign = [] ∨ sign = ['+'] ∨ sign = ['-'] → IsDigits ds → Exponent false (e :: (sign ++ ds))

end Json

/-- The characters that spell a numeral, behind its sign. -/
inductive Numeral.Unsigned (negative : Bool) : Numeral → List Char → Prop
  | mk {whole : Nat} {noPoint noExponent : Bool} {ws fs es : List Char} :
      Json.Whole whole ws → Json.Fraction noPoint fs → Json.Exponent noExponent es →
      Unsigned negative ⟨negative, whole, noPoint && noExponent⟩ (ws ++ (fs ++ es))

/-- The characters that spell a numeral. -/
inductive Numeral.Spelled : Numeral → List Char → Prop
  | positive {n : Numeral} {cs : List Char} : Unsigned false n cs → Spelled n cs
  | negative {n : Numeral} {cs : List Char} : Unsigned true n cs → Spelled n ('-' :: cs)

/-! ## Values -/

namespace Json

/-- Blanks, or nothing. -/
def IsBlanks (cs : List Char) : Prop := ∀ c ∈ cs, isBlank c = true

/-- A name and a value, as an object has them. -/
abbrev Entry := List Piece × Json

mutual

/-- The characters that spell a value, from the first to the last that is no blank. -/
inductive Spelled : Json → List Char → Prop
  | null : Spelled .null ['n', 'u', 'l', 'l']
  | yes : Spelled (.bool true) ['t', 'r', 'u', 'e']
  | no : Spelled (.bool false) ['f', 'a', 'l', 's', 'e']
  | number {n : Numeral} {cs : List Char} : n.Spelled cs → Spelled (.number n) cs
  | string {ps : List Piece} {cs : List Char} :
      Piece.Spelled ps cs → Spelled (.string ps) ('"' :: (cs ++ ['"']))
  | emptyArray {bs : List Char} : IsBlanks bs → Spelled (.array []) ('[' :: (bs ++ [']']))
  | array {items : List Json} {cs : List Char} :
      ItemsSpelled items cs → Spelled (.array items) ('[' :: (cs ++ [']']))
  | emptyObject {bs : List Char} : IsBlanks bs → Spelled (.object []) ('{' :: (bs ++ ['}']))
  | object {entries : List Entry} {cs : List Char} :
      EntriesSpelled entries cs → Spelled (.object entries) ('{' :: (cs ++ ['}']))

/-- The characters that spell a value, with any blanks around it. -/
inductive Padded : Json → List Char → Prop
  | mk {j : Json} {bs cs bs' : List Char} :
      IsBlanks bs → Spelled j cs → IsBlanks bs' → Padded j (bs ++ (cs ++ bs'))

/-- The characters between the brackets of an array that is not empty. -/
inductive ItemsSpelled : List Json → List Char → Prop
  | last {j : Json} {cs : List Char} : Padded j cs → ItemsSpelled [j] cs
  | cons {j : Json} {items : List Json} {cs ds : List Char} :
      Padded j cs → ItemsSpelled items ds → ItemsSpelled (j :: items) (cs ++ ',' :: ds)

/-- The characters that spell a name and its value. -/
inductive EntrySpelled : Entry → List Char → Prop
  | mk {name : List Piece} {j : Json} {bs ns bs' cs : List Char} :
      IsBlanks bs → Piece.Spelled name ns → IsBlanks bs' → Padded j cs →
      EntrySpelled (name, j) (bs ++ '"' :: (ns ++ '"' :: (bs' ++ ':' :: cs)))

/-- The characters between the braces of an object that is not empty. -/
inductive EntriesSpelled : List Entry → List Char → Prop
  | last {e : Entry} {cs : List Char} : EntrySpelled e cs → EntriesSpelled [e] cs
  | cons {e : Entry} {entries : List Entry} {cs ds : List Char} :
      EntrySpelled e cs → EntriesSpelled entries ds →
      EntriesSpelled (e :: entries) (cs ++ ',' :: ds)

end

end Json

end Conveyor
