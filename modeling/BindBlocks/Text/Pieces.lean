import BindBlocks.Text.Basic

/-! Ways to take a text apart: at separators, into lines, and without the characters at its end. -/

namespace BindBlocks

namespace Text

/-- The pieces between the separators: one more than there are separators. -/
def splitOn (separator : Char) : Text → List Text
  | [] => [[]]
  | c :: t =>
    if c = separator then [] :: splitOn separator t
    else
      match splitOn separator t with
      | [] => [[c]]
      | piece :: pieces => (c :: piece) :: pieces

theorem splitOn_ne_nil (separator : Char) (t : Text) : splitOn separator t ≠ [] := by
  cases t with
  | nil => simp [splitOn]
  | cons c t =>
    rw [splitOn]
    split
    · simp
    · split <;> simp

theorem splitOn_separator (separator : Char) (t : Text) :
    splitOn separator (separator :: t) = [] :: splitOn separator t := by
  rw [splitOn, if_pos rfl]

theorem splitOn_append {separator : Char} {front t piece : Text} {pieces : List Text}
    (hFront : ∀ c ∈ front, c ≠ separator) (h : splitOn separator t = piece :: pieces) :
    splitOn separator (front ++ t) = (front ++ piece) :: pieces := by
  induction front with
  | nil => exact h
  | cons c front ih =>
    rw [List.cons_append, splitOn, if_neg (hFront c List.mem_cons_self),
      ih fun d hd => hFront d (List.mem_cons_of_mem c hd)]
    rfl

theorem splitOn_eq_singleton {separator : Char} {t : Text} (h : ∀ c ∈ t, c ≠ separator) :
    splitOn separator t = [t] := by
  have hsplit := splitOn_append (t := []) h rfl
  rwa [List.append_nil] at hsplit

/-- The lines, each with the line feed that ends it. -/
def lines : Text → List Text
  | [] => []
  | c :: t =>
    if c = '\n' then [c] :: lines t
    else
      match lines t with
      | [] => [[c]]
      | line :: rest => (c :: line) :: rest

@[simp]
theorem flatten_lines (t : Text) : (lines t).flatten = t := by
  induction t with
  | nil => rfl
  | cons c t ih =>
    rw [lines]
    split
    · simp [ih]
    · split <;> simp_all

/-- Drops the characters at the end that satisfy `p`. -/
def trimEnd (p : Char → Bool) : Text → Text
  | [] => []
  | c :: t =>
    match trimEnd p t with
    | [] => if p c then [] else [c]
    | rest => c :: rest

end Text

end BindBlocks
