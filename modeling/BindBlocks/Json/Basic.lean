import BindBlocks.Json.Numeral

/-! JSON values. A number is an `int` when it is spelled with digits alone and perhaps a minus sign;
any other spelling, and minus zero, is a `real`. The members of an object have distinct names. -/

namespace BindBlocks

inductive Json where
  | null
  | bool (b : Bool)
  | int (n : Int)
  | real (numeral : Json.Numeral)
  | str (s : String)
  | arr (items : List Json)
  | obj (members : List (String × Json))

namespace Json

/-- Gives a member a value, in its old place if the name is taken. -/
def setMember (name : String) (value : Json) : List (String × Json) → List (String × Json)
  | [] => [(name, value)]
  | (other, old) :: rest =>
    if other = name then (name, value) :: rest else (other, old) :: setMember name value rest

/-- The values of the named fields of a record. A record is an object, whose other members are
passed over, or an array of the values in the order of the fields, which may end early. -/
def record? (names : List String) : Json → Option (List (Option Json))
  | .obj members => some (names.map fun name => List.lookup name members)
  | .arr items =>
    if items.length ≤ names.length then
      some (items.map some ++ List.replicate (names.length - items.length) none)
    else none
  | _ => none

def bool? : Json → Option Bool
  | .bool b => some b
  | _ => none

def str? : Json → Option String
  | .str s => some s
  | _ => none

/-- A whole number from zero up to, and without, `bound`. -/
def below? (bound : Nat) : Json → Option Nat
  | .int n => if 0 ≤ n ∧ n < bound then some n.toNat else none
  | _ => none

/-- Reads `null` as the absence of a value. -/
def nullable? {α : Type} (read : Json → Option α) : Json → Option (Option α)
  | .null => some none
  | value => (read value).map some

end Json

end BindBlocks
