import BindBlocks.Json.Reader.Basic

/-! The characters of a JSON string, read up to the closing quote. -/

namespace BindBlocks

namespace Json

def hexValue? (c : Char) : Option Nat :=
  if '0' ≤ c ∧ c ≤ '9' then some (c.toNat - 48)
  else if 'a' ≤ c ∧ c ≤ 'f' then some (c.toNat - 87)
  else if 'A' ≤ c ∧ c ≤ 'F' then some (c.toNat - 55)
  else none

/-- Four hexadecimal digits. The text counts as cut short if fewer than four bytes are left. -/
def codeUnit : Reader Nat
  | a :: b :: c :: d :: t =>
    match hexValue? a, hexValue? b, hexValue? c, hexValue? d with
    | some a, some b, some c, some d => .ok (((a * 16 + b) * 16 + c) * 16 + d, t)
    | _, _, _, _ => .error .malformed
  | t => .error (if Text.size t < 4 then .truncated else .malformed)

def isLeading (unit : Nat) : Bool := 0xD800 ≤ unit && unit ≤ 0xDBFF

def isTrailing (unit : Nat) : Bool := 0xDC00 ≤ unit && unit ≤ 0xDFFF

/-- The character of a surrogate pair. -/
def ofPair (leading trailing : Nat) : Char :=
  Char.ofNat (0x10000 + (leading - 0xD800) * 0x400 + (trailing - 0xDC00))

/-- The second half of a surrogate pair, with the escape that introduces it. -/
def trailingUnit : Reader Nat
  | [] => .error .truncated
  | ['\\'] => .error .truncated
  | '\\' :: 'u' :: t =>
    match codeUnit t with
    | .error fault => .error fault
    | .ok (unit, t) => if isTrailing unit then .ok (unit, t) else .error .malformed
  | _ => .error .malformed

/-- The character of an escape by code unit. -/
def unitEscape (care : Care) : Reader Char := fun t =>
  match codeUnit t with
  | .error fault => .error fault
  | .ok (unit, t) =>
    if isLeading unit || isTrailing unit then
      match care with
      | .passedOver => .ok (Char.ofNat 0xFFFD, t)
      | .kept =>
        if isTrailing unit then .error .malformed
        else
          match trailingUnit t with
          | .error fault => .error fault
          | .ok (trailing, t) => .ok (ofPair unit trailing, t)
    else .ok (Char.ofNat unit, t)

def shortEscape? (c : Char) : Option Char :=
  if c = '\x22' ∨ c = '\\' ∨ c = '/' then some c
  else if c = 'b' then some '\x08'
  else if c = 'f' then some '\x0c'
  else if c = 'n' then some '\n'
  else if c = 'r' then some '\r'
  else if c = 't' then some '\t'
  else none

/-- The character of an escape, read after its backslash. -/
def escaped (care : Care) : Reader Char
  | [] => .error .truncated
  | c :: t =>
    if c = 'u' then unitEscape care t
    else
      match shortEscape? c with
      | some d => .ok (d, t)
      | none => .error .malformed

theorem codeUnit_shorter {t rest : Text} {unit : Nat} (h : codeUnit t = .ok (unit, rest)) :
    rest.length < t.length := by
  unfold codeUnit at h
  split at h
  · split at h
    · cases h
      simp only [List.length_cons]
      omega
    · simp at h
  · simp at h

theorem trailingUnit_shorter {t rest : Text} {unit : Nat}
    (h : trailingUnit t = .ok (unit, rest)) : rest.length < t.length := by
  unfold trailingUnit at h
  split at h
  · simp at h
  · simp at h
  · split at h
    · simp at h
    · rename_i hunit
      have := codeUnit_shorter hunit
      split at h
      · cases h
        simp only [List.length_cons]
        omega
      · simp at h
  · simp at h

theorem unitEscape_shorter {care : Care} {t rest : Text} {c : Char}
    (h : unitEscape care t = .ok (c, rest)) : rest.length < t.length := by
  unfold unitEscape at h
  split at h
  · simp at h
  · rename_i hunit
    have short := codeUnit_shorter hunit
    split at h
    · split at h
      · simp only [Except.ok.injEq, Prod.mk.injEq] at h
        rw [← h.2]
        exact short
      · split at h
        · simp at h
        · split at h
          · simp at h
          · rename_i htrail
            have := trailingUnit_shorter htrail
            simp only [Except.ok.injEq, Prod.mk.injEq] at h
            rw [← h.2]
            omega
    · simp only [Except.ok.injEq, Prod.mk.injEq] at h
      rw [← h.2]
      exact short

theorem escaped_shorter {care : Care} {t rest : Text} {c : Char}
    (h : escaped care t = .ok (c, rest)) : rest.length < t.length := by
  unfold escaped at h
  split at h
  · simp at h
  · split at h
    · have := unitEscape_shorter h
      simp only [List.length_cons]
      omega
    · split at h
      · cases h; simp
      · simp at h

/-- The characters up to the closing quote. -/
def quoted (care : Care) (t : Text) : Except ReadFault (Text × Text) :=
  match t with
  | [] => .error .truncated
  | c :: t =>
    if c = '\x22' then .ok ([], t)
    else if c = '\\' then
      match h : escaped care t with
      | .error fault => .error fault
      | .ok (d, rest) =>
        have := escaped_shorter h
        (quoted care rest).map fun (s, rest) => (d :: s, rest)
    else if c.toNat < 32 then .error .malformed
    else (quoted care t).map fun (s, rest) => (c :: s, rest)
termination_by t.length

end Json

end BindBlocks
