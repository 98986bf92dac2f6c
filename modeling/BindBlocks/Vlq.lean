import BindBlocks.Text.Basic

/-! Signed 64-bit numbers as variable-length base-64 digits. The lowest bit of the written word is
the sign and the rest the magnitude; a digit carries five bits of the word, lowest first, and its
sixth bit says that another digit follows. A segment is several numbers written one after the other.
-/

namespace BindBlocks

namespace Vlq

def alphabet : Text :=
  "ABCDEFGHIJKLMNOPQRSTUVWXYZabcdefghijklmnopqrstuvwxyz0123456789+/".toList

def digit (n : Nat) : Char := alphabet.getD n 'A'

def digitValue? (c : Char) : Option Nat := alphabet.idxOf? c

/-- The 64-bit word of a number; the bit that doubling pushes out is lost. -/
def word (n : Int) : Nat := 2 * n.natAbs % 1 <<< 64 + if n < 0 then 1 else 0

/-- The number that a word stands for. -/
def ofWord (w : Nat) : Int := if w % 2 = 1 then -(w / 2 : Nat) else (w / 2 : Nat)

def digits (w : Nat) : Text :=
  if w < 32 then [digit w] else digit (w % 32 + 32) :: digits (w / 32)
termination_by w

def encode (n : Int) : Text := digits (word n)

/-- Reads the numbers of a segment whose current number has so far the low bits `w`, `shift` of
them. Bits from the 64th on are lost, and a number has at most 13 digits. -/
def decodeFrom (w shift : Nat) : Text → Option (List Int)
  | [] => if shift = 0 then some [] else none
  | c :: t =>
    match digitValue? c with
    | none => none
    | some d =>
      if 60 < shift then none
      else
        let w := (w + (d % 32) <<< shift) % 1 <<< 64
        if 32 ≤ d then decodeFrom w (shift + 5) t
        else (decodeFrom 0 0 t).map (ofWord w :: ·)

def decode? (segment : Text) : Option (List Int) := decodeFrom 0 0 segment

end Vlq

end BindBlocks
