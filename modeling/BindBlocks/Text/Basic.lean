import BindBlocks.Offset

/-! A text is its list of characters, and is measured in UTF-8 bytes. An offset is a boundary of a
text when some number of its first characters fill exactly that many bytes; a text can be cut,
sliced and spliced at boundaries only. -/

namespace BindBlocks

abbrev Text := List Char

namespace Text

/-- The length in bytes. -/
def size : Text → Nat
  | [] => 0
  | c :: t => c.utf8Size + size t

@[simp]
theorem size_nil : size [] = 0 := rfl

@[simp]
theorem size_cons (c : Char) (t : Text) : size (c :: t) = c.utf8Size + size t := rfl

@[simp]
theorem size_append (s t : Text) : size (s ++ t) = size s + size t := by
  induction s with
  | nil => simp
  | cons c s ih => simp [ih, Nat.add_assoc]

theorem size_eq_utf8ByteSize (t : Text) : size t = (String.ofList t).utf8ByteSize := by
  induction t with
  | nil => simp
  | cons c t ih =>
    have split : String.ofList (c :: t) = String.singleton c ++ String.ofList t := by
      rw [String.singleton_eq_ofList, ← String.ofList_append]
      rfl
    rw [size_cons, ih, split, String.utf8ByteSize_append, String.utf8ByteSize_singleton]

theorem length_le_size (t : Text) : t.length ≤ size t := by
  induction t with
  | nil => simp
  | cons c t ih =>
    have := c.utf8Size_pos
    simp only [size_cons, List.length_cons]
    omega

/-- The characters before and after `offset`, or `none` if `offset` is no boundary. -/
def cut? : Nat → Text → Option (Text × Text)
  | offset, [] => if offset = 0 then some ([], []) else none
  | offset, c :: t =>
    if offset = 0 then some ([], c :: t)
    else if c.utf8Size ≤ offset then
      (cut? (offset - c.utf8Size) t).map fun (front, back) => (c :: front, back)
    else none

def isBoundary (t : Text) (offset : Nat) : Bool := (cut? offset t).isSome

@[simp]
theorem cut?_zero (t : Text) : cut? 0 t = some ([], t) := by
  cases t <;> simp [cut?]

theorem cut?_cons {c : Char} {offset : Nat} (h : c.utf8Size ≤ offset) (t : Text) :
    cut? offset (c :: t) =
      (cut? (offset - c.utf8Size) t).map fun (front, back) => (c :: front, back) := by
  have := c.utf8Size_pos
  simp [cut?, h, show offset ≠ 0 by omega]

@[simp]
theorem cut?_size_append (front back : Text) :
    cut? (size front) (front ++ back) = some (front, back) := by
  induction front with
  | nil => simp
  | cons c front ih => simp [cut?_cons, ih]

/-- Cutting loses nothing, and the first part fills the bytes before the cut. -/
theorem eq_append_of_cut? {t : Text} {offset : Nat} {front back : Text}
    (h : cut? offset t = some (front, back)) : t = front ++ back ∧ size front = offset := by
  induction t generalizing offset front with
  | nil =>
    simp only [cut?] at h
    split at h <;> simp_all
  | cons c t ih =>
    simp only [cut?] at h
    split at h
    · simp_all
    · split at h
      · obtain ⟨⟨front', back'⟩, hcut, heq⟩ := Option.map_eq_some_iff.1 h
        cases heq
        obtain ⟨rfl, hsize⟩ := ih hcut
        refine ⟨rfl, ?_⟩
        rw [size_cons, hsize]
        omega
      · simp at h

/-- The greatest boundary at or below `offset`. -/
def floor : Nat → Text → Nat
  | _, [] => 0
  | offset, c :: t =>
    if c.utf8Size ≤ offset then c.utf8Size + floor (offset - c.utf8Size) t else 0

/-- The characters between two boundaries. -/
def slice (t : Text) (start stop : Nat) : Except Fault Text :=
  if start ≤ stop then
    match cut? stop t with
    | none => .error .badRange
    | some (front, _) =>
      match cut? start front with
      | none => .error .badRange
      | some (_, middle) => .ok middle
  else .error .badRange

/-- Puts `new` in place of the characters between two boundaries. -/
def splice (t : Text) (start stop : Nat) (new : Text) : Except Fault Text :=
  if start ≤ stop then
    match cut? stop t with
    | none => .error .badRange
    | some (front, back) =>
      match cut? start front with
      | none => .error .badRange
      | some (before, _) => .ok (before ++ new ++ back)
  else .error .badRange

end Text

end BindBlocks
