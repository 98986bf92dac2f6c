import BindBlocks.Json.Basic

/-! The compact written form of a JSON value: no blanks, members in order. In a string the quote,
the backslash and the control characters below the space are escaped, and nothing else is. -/

namespace BindBlocks

namespace Json

def decimalDigit (n : Nat) : Char := Char.ofNat (48 + n)

def decimal (n : Nat) : Text :=
  if n < 10 then [decimalDigit n] else decimal (n / 10) ++ [decimalDigit (n % 10)]
termination_by n

def writeInt (n : Int) : Text :=
  if n < 0 then '-' :: decimal n.natAbs else decimal n.natAbs

/-- A digit below sixteen, in lower case. -/
def hexDigit (n : Nat) : Char := if n < 10 then Char.ofNat (48 + n) else Char.ofNat (87 + n)

/-- The character as it stands inside a string. -/
def escape (c : Char) : Text :=
  if c = '\x22' then ['\\', '\x22']
  else if c = '\\' then ['\\', '\\']
  else if c = '\x08' then ['\\', 'b']
  else if c = '\t' then ['\\', 't']
  else if c = '\n' then ['\\', 'n']
  else if c = '\x0c' then ['\\', 'f']
  else if c = '\r' then ['\\', 'r']
  else if c.toNat < 32 then
    ['\\', 'u', '0', '0', hexDigit (c.toNat / 16), hexDigit (c.toNat % 16)]
  else [c]

def writeString (s : String) : Text := '\x22' :: s.toList.flatMap escape ++ ['\x22']

mutual

def write : Json → Text
  | .null => ['n', 'u', 'l', 'l']
  | .bool true => ['t', 'r', 'u', 'e']
  | .bool false => ['f', 'a', 'l', 's', 'e']
  | .int n => writeInt n
  | .real numeral => numeral.write
  | .str s => writeString s
  | .arr [] => ['[', ']']
  | .arr (item :: items) => '[' :: write item ++ writeItems items
  | .obj [] => ['{', '}']
  | .obj ((name, value) :: members) =>
    '{' :: writeString name ++ ':' :: write value ++ writeMembers members

/-- The items after the first, and the bracket that closes them. -/
def writeItems : List Json → Text
  | [] => [']']
  | item :: items => ',' :: write item ++ writeItems items

/-- The members after the first, and the brace that closes them. -/
def writeMembers : List (String × Json) → Text
  | [] => ['}']
  | (name, value) :: members =>
    ',' :: writeString name ++ ':' :: write value ++ writeMembers members

end

def render (value : Json) : String := String.ofList (write value)

end Json

end BindBlocks
