import BindBlocks.Text.Basic

/-! A numeral is the spelling of a JSON number. Its magnitude is taken as a significand of 64 bits
times a power of ten, and is too large when that product rounds past the largest binary number of 64
bits. -/

namespace BindBlocks

namespace Json

structure Numeral where
  negative : Bool
  whole : Text
  fraction : Option Text
  /-- The digits after the exponent mark, with their sign if there is one. -/
  exponent : Option Text
  deriving DecidableEq, Repr

def digitValue (c : Char) : Nat := c.toNat - 48

def digitsValue (ds : Text) : Nat := ds.foldl (fun n d => 10 * n + digitValue d) 0

/-- Appends digits to a significand as long as it stays in 64 bits. Gives the significand and the
number of digits left over. -/
def absorb (significand : Nat) : Text → Nat × Nat
  | [] => (significand, 0)
  | d :: ds =>
    let next := 10 * significand + digitValue d
    if next < 1 <<< 64 then absorb next ds else (significand, ds.length + 1)

/-- The nearest number with 53 significant bits; a half goes to the even neighbour. -/
def roundBinary (n : Nat) : Nat :=
  if n < 1 <<< 53 then n
  else
    let unit := 1 <<< (n.log2 - 52)
    let below := n / unit
    let rest := 2 * (n % unit)
    if rest < unit ∨ rest = unit ∧ below % 2 = 0 then below * unit else (below + 1) * unit

namespace Numeral

def power (n : Numeral) : Int :=
  match n.exponent with
  | none => 0
  | some ('-' :: ds) => -digitsValue ds
  | some ('+' :: ds) => digitsValue ds
  | some ds => digitsValue ds

/-- The significand and the power of ten that scales it. -/
def magnitude (n : Numeral) : Nat × Int :=
  let fraction := n.fraction.getD []
  let (s, dropped) := absorb 0 n.whole
  let (s, left) := absorb s fraction
  (s, dropped - (fraction.length - left : Nat) + n.power)

def tooLarge (n : Numeral) : Bool :=
  let (s, power) := n.magnitude
  s != 0 && 0 ≤ power && (308 < power ||
    1 <<< 1024 - 1 <<< 970 ≤ roundBinary s * roundBinary (Nat.pow 10 power.toNat))

/-- The integer that the numeral spells; one with a fraction or an exponent spells none, and minus
zero neither. -/
def int? (n : Numeral) : Option Int :=
  if n.fraction.isSome || n.exponent.isSome then none
  else
    let value := digitsValue n.whole
    if n.negative then if value = 0 then none else some (-value) else some value

def write (n : Numeral) : Text :=
  (if n.negative then ['-'] else []) ++ n.whole ++
    (n.fraction.elim [] ('.' :: ·)) ++ (n.exponent.elim [] ('e' :: ·))

end Numeral

end Json

end BindBlocks
