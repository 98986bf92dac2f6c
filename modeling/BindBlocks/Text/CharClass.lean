/-! Classes of characters. Spaces and tabs are the gaps within a line of code, line feeds and
carriage returns end it, and both are white space. -/

namespace BindBlocks

namespace Text

/-- The white space of Unicode. -/
def isWhiteSpace (c : Char) : Bool :=
  let n := c.toNat
  (0x09 ≤ n && n ≤ 0x0d) || n == 0x20 || n == 0x85 || n == 0xa0 || n == 0x1680 ||
    (0x2000 ≤ n && n ≤ 0x200a) || n == 0x2028 || n == 0x2029 || n == 0x202f || n == 0x205f ||
    n == 0x3000

/-- A space or a tab. -/
def isGap (c : Char) : Bool := c = ' ' || c = '\t'

/-- A line feed or a carriage return. -/
def isLineEnd (c : Char) : Bool := c = '\n' || c = '\r'

/-- A decimal digit; those of other scripts do not count. -/
def isDigit (c : Char) : Bool := '0' ≤ c && c ≤ '9'

theorem isWhiteSpace_of_isGap {c : Char} (h : isGap c = true) : isWhiteSpace c = true := by
  simp only [isGap, Bool.or_eq_true, decide_eq_true_eq] at h
  rcases h with rfl | rfl <;> decide

theorem isWhiteSpace_of_isLineEnd {c : Char} (h : isLineEnd c = true) :
    isWhiteSpace c = true := by
  simp only [isLineEnd, Bool.or_eq_true, decide_eq_true_eq] at h
  rcases h with rfl | rfl <;> decide

end Text

end BindBlocks
