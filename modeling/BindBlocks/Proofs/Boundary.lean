import BindBlocks.Text.Basic

/-! The boundaries of a text as the ways to write it as two parts. A boundary determines its parts,
so cutting, slicing and splicing are read off any such decomposition, and of two boundaries the
earlier one cuts the front of the later one. -/

namespace BindBlocks

namespace Text

theorem size_eq_zero {t : Text} : size t = 0 ↔ t = [] := by
  constructor
  · intro h
    have := length_le_size t
    exact List.eq_nil_of_length_eq_zero (by omega)
  · rintro rfl
    rfl

theorem cut?_eq_some_iff {t : Text} {offset : Nat} {front back : Text} :
    cut? offset t = some (front, back) ↔ t = front ++ back ∧ size front = offset := by
  constructor
  · exact eq_append_of_cut?
  · rintro ⟨rfl, rfl⟩
    exact cut?_size_append front back

theorem isBoundary_iff {t : Text} {offset : Nat} :
    isBoundary t offset = true ↔ ∃ front back, t = front ++ back ∧ size front = offset := by
  rw [isBoundary, Option.isSome_iff_exists]
  constructor
  · rintro ⟨⟨front, back⟩, h⟩
    exact ⟨front, back, cut?_eq_some_iff.1 h⟩
  · rintro ⟨front, back, h⟩
    exact ⟨(front, back), cut?_eq_some_iff.2 h⟩

/-- A boundary determines the parts. -/
theorem append_inj_of_size {a b c d : Text} (h : a ++ b = c ++ d) (hSize : size a = size c) :
    a = c ∧ b = d := by
  have hcut := cut?_size_append a b
  rw [h, hSize, cut?_size_append c d] at hcut
  simp only [Option.some.injEq, Prod.mk.injEq] at hcut
  exact ⟨hcut.1.symm, hcut.2.symm⟩

/-- Of two boundaries the earlier one cuts the front of the later one. -/
theorem exists_middle {a b c d : Text} (h : a ++ b = c ++ d) (hSize : size a ≤ size c) :
    ∃ m, c = a ++ m ∧ b = m ++ d := by
  rcases List.append_eq_append_iff.1 h with ⟨m, hc, hb⟩ | ⟨m, ha, hd⟩
  · exact ⟨m, hc, hb⟩
  · have hm : m = [] := by
      apply size_eq_zero.1
      rw [ha, size_append] at hSize
      omega
    subst hm
    exact ⟨[], by simpa using ha.symm, by simpa using hd.symm⟩

theorem slice_append (a b c : Text) : slice (a ++ b ++ c) (size a) (size a + size b) = .ok b := by
  have hcut : cut? (size a + size b) (a ++ b ++ c) = some (a ++ b, c) := by
    rw [← size_append, cut?_size_append]
  simp only [slice, Nat.le_add_right, if_true, hcut, cut?_size_append]

theorem splice_append (a b c new : Text) :
    splice (a ++ b ++ c) (size a) (size a + size b) new = .ok (a ++ new ++ c) := by
  have hcut : cut? (size a + size b) (a ++ b ++ c) = some (a ++ b, c) := by
    rw [← size_append, cut?_size_append]
  simp only [splice, Nat.le_add_right, if_true, hcut, cut?_size_append]

/-- A slice is the middle of a decomposition into three parts. -/
theorem slice_eq_ok_iff {t s : Text} {start stop : Nat} :
    slice t start stop = .ok s ↔
      ∃ front back, t = front ++ s ++ back ∧ size front = start ∧ start + size s = stop := by
  constructor
  · intro h
    unfold slice at h
    split at h
    · split at h
      · simp at h
      · rename_i front back hstop
        split at h
        · simp at h
        · rename_i first middle hstart
          obtain rfl : middle = s := by simpa using h
          obtain ⟨rfl, hsize⟩ := cut?_eq_some_iff.1 hstop
          obtain ⟨rfl, rfl⟩ := cut?_eq_some_iff.1 hstart
          exact ⟨first, back, rfl, rfl, by rw [← hsize, size_append]⟩
    · simp at h
  · rintro ⟨front, back, rfl, rfl, rfl⟩
    exact slice_append front s back

/-- Every offset falls back to a boundary. -/
theorem floor_boundary (offset : Nat) (t : Text) :
    ∃ front back, t = front ++ back ∧ size front = floor offset t := by
  induction t generalizing offset with
  | nil => exact ⟨[], [], rfl, rfl⟩
  | cons c t ih =>
    rw [floor]
    split
    · obtain ⟨front, back, hsplit, hsize⟩ := ih (offset - c.utf8Size)
      exact ⟨c :: front, back, by rw [hsplit]; rfl, by rw [size_cons, hsize]⟩
    · exact ⟨[], c :: t, rfl, rfl⟩

theorem floor_size_append (front back : Text) :
    floor (size front) (front ++ back) = size front := by
  induction front with
  | nil =>
    cases back with
    | nil => rfl
    | cons c back =>
      have := c.utf8Size_pos
      simp [floor, show c.utf8Size ≠ 0 by omega]
  | cons c front ih => simp [floor, ih]

/-- The boundaries of a text that starts at `offset`. -/
def boundariesFrom (offset : Nat) : Text → List Nat
  | [] => [offset]
  | c :: t => offset :: boundariesFrom (offset + c.utf8Size) t

/-- The boundaries of a text in order. -/
def boundaries (t : Text) : List Nat := boundariesFrom 0 t

theorem mem_boundariesFrom {t : Text} {offset o : Nat} :
    o ∈ boundariesFrom offset t ↔ ∃ front back, t = front ++ back ∧ o = offset + size front := by
  induction t generalizing offset with
  | nil => simp [boundariesFrom]
  | cons c t ih =>
    rw [boundariesFrom, List.mem_cons, ih]
    constructor
    · rintro (rfl | ⟨front, back, rfl, rfl⟩)
      · exact ⟨[], c :: t, rfl, rfl⟩
      · exact ⟨c :: front, back, rfl, by rw [size_cons, Nat.add_assoc]⟩
    · rintro ⟨front, back, hsplit, rfl⟩
      cases front with
      | nil => exact .inl rfl
      | cons d front =>
        obtain ⟨rfl, rfl⟩ := List.cons.inj hsplit
        exact .inr ⟨front, back, rfl, by rw [size_cons, Nat.add_assoc]⟩

theorem mem_boundaries {t : Text} {o : Nat} :
    o ∈ boundaries t ↔ ∃ front back, t = front ++ back ∧ o = size front := by
  rw [boundaries, mem_boundariesFrom]
  simp

theorem boundariesFrom_sorted (offset : Nat) (t : Text) :
    (boundariesFrom offset t).Pairwise (· < ·) := by
  induction t generalizing offset with
  | nil => simp [boundariesFrom]
  | cons c t ih =>
    refine List.Pairwise.cons ?_ (ih _)
    intro o ho
    obtain ⟨front, back, -, rfl⟩ := mem_boundariesFrom.1 ho
    have := c.utf8Size_pos
    omega

end Text

end BindBlocks
