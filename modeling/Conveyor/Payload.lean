/-
Conveyor.Payload — items whose content is only known at run time. A
carrier never looks into an item; routers that are asked to do.
-/

namespace Conveyor

/-- An item. -/
inductive Payload where
  | number (n : Int)
  | text (s : String)
  | flag (b : Bool)
  | nothing
  | many (items : List Payload)

namespace Payload

/-- The item as a word, if it is a number in the range of one. -/
def word? : Payload → Option UInt64
  | number n => if 0 ≤ n ∧ n.toNat < UInt64.size then some (.ofNat n.toNat) else none
  | _ => none

/-- The item as a word, and zero for all that is none. -/
def word (p : Payload) : UInt64 := p.word?.getD 0

/-- The text of an item that is a text, and no text otherwise. -/
def textD : Payload → String
  | text s => s
  | _ => ""

end Payload

end Conveyor
