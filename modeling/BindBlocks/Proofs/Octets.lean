import BindBlocks.Proofs.BlockContent
import BindBlocks.Proofs.Positions

/-! Comments and numbers, read byte by byte. The characters that end or continue them have one byte,
and all bytes of longer characters are high, so what is counted among the bytes is the size of what
is counted among the characters. -/

namespace BindBlocks

namespace Text

/-- The bytes of a text, each as the character with its number. -/
def octets (t : Text) : Text := (bytes t).map fun b => Char.ofNat b.toNat

theorem toNat_ofNat_octet (b : UInt8) : (Char.ofNat b.toNat).toNat = b.toNat := by
  have hlt := b.toNat_lt
  have hvalid : b.toNat.isValidChar := .inl (by omega)
  rw [Char.ofNat, dif_pos hvalid]
  rfl

theorem octets_cons {c : Char} (hAscii : c.toNat < 128) (t : Text) :
    octets (c :: t) = c :: octets t := by
  have hbyte : (UInt8.ofNat c.toNat).toNat = c.toNat := by
    rw [UInt8.toNat_ofNat']
    omega
  rw [octets, bytes_cons, utf8EncodeChar_of_lt hAscii, List.singleton_append, List.map_cons, hbyte,
    Char.ofNat_toNat]
  rfl

/-- A longer character is read as so many high ones. -/
theorem exists_octets_cons {c : Char} (hHigh : ¬ c.toNat < 128) (t : Text) :
    ∃ front, octets (c :: t) = front ++ octets t ∧ front.length = c.utf8Size ∧
      ∀ d ∈ front, ¬ d.toNat < 128 := by
  refine ⟨(String.utf8EncodeChar c).map fun b => Char.ofNat b.toNat, ?_, ?_, fun d hd => ?_⟩
  · rw [octets, bytes_cons, List.map_append, octets]
  · rw [List.length_map, String.length_utf8EncodeChar]
  · obtain ⟨b, hb, rfl⟩ := List.mem_map.1 hd
    rw [toNat_ofNat_octet]
    exact high_of_mem_utf8EncodeChar hHigh hb

/-- A text starts with a character of one byte exactly if its bytes do. -/
theorem head?_octets {c : Char} (hAscii : c.toNat < 128) (t : Text) :
    (octets t).head? = some c ↔ t.head? = some c := by
  cases t with
  | nil => rfl
  | cons d t =>
    by_cases hd : d.toNat < 128
    · rw [octets_cons hd]
      rfl
    · obtain ⟨front, hfront, hlength, hhigh⟩ := exists_octets_cons hd t
      obtain ⟨e, rest, rfl⟩ := List.exists_cons_of_length_pos (hlength ▸ d.utf8Size_pos)
      have he := hhigh e List.mem_cons_self
      rw [hfront, List.cons_append, List.head?_cons, List.head?_cons]
      refine iff_of_false ?_ ?_ <;> rintro ⟨⟩
      · exact he hAscii
      · exact hd hAscii

theorem octets_append {z : Text} (hAscii : ∀ c ∈ z, c.toNat < 128) (y : Text) :
    octets (z ++ y) = z ++ octets y := by
  induction z with
  | nil => rfl
  | cons c z ih =>
    rw [List.cons_append, octets_cons (hAscii c List.mem_cons_self),
      ih fun d hd => hAscii d (List.mem_cons_of_mem c hd), List.cons_append]

theorem utf8Size_of_lt {c : Char} (h : c.toNat < 128) : c.utf8Size = 1 :=
  Char.utf8Size_eq_one_iff.2 (UInt32.le_iff_toNat_le.2 (Nat.le_of_lt_succ h))

theorem size_eq_length {t : Text} (hAscii : ∀ c ∈ t, c.toNat < 128) : size t = t.length := by
  induction t with
  | nil => rfl
  | cons c t ih =>
    rw [size_cons, utf8Size_of_lt (hAscii c List.mem_cons_self),
      ih fun d hd => hAscii d (List.mem_cons_of_mem c hd), List.length_cons, Nat.add_comm]

/-- A text up to its first character of more than one byte. -/
theorem exists_ascii_append (t : Text) :
    ∃ z y, t = z ++ y ∧ (∀ c ∈ z, c.toNat < 128) ∧ ∀ c u, y = c :: u → ¬ c.toNat < 128 := by
  induction t with
  | nil => exact ⟨[], [], rfl, by simp, by simp⟩
  | cons c t ih =>
    by_cases hc : c.toNat < 128
    · obtain ⟨z, y, rfl, hascii, hhigh⟩ := ih
      exact ⟨c :: z, y, rfl, List.forall_mem_cons.2 ⟨hc, hascii⟩, hhigh⟩
    · refine ⟨[], c :: t, rfl, by simp, fun d u hcons => ?_⟩
      rwa [← (List.cons.inj hcons).1]

end Text

namespace Literal

theorem toNat_lt_of_isNumberChar {c : Char} (h : isNumberChar c = true) : c.toNat < 128 := by
  simp only [isNumberChar, isNumberPart, isExponentMark, isSign, Text.isDigit, Bool.or_eq_true,
    Bool.and_eq_true, decide_eq_true_eq] at h
  rcases h with ((((⟨-, h⟩ | rfl) | rfl) | (rfl | rfl)) | (rfl | rfl)) | rfl
  · exact Nat.lt_of_le_of_lt (show c.toNat ≤ '9'.toNat from h) (by decide)
  all_goals decide

theorem numberLength_le (t : Text) : numberLength t ≤ t.length := by
  fun_induction numberLength t <;> simp only [List.length_cons, List.length_nil] at * <;> omega

/-- A number ends before a character of more than one byte. -/
theorem numberLength_append_high {z y : Text} (hHigh : ∀ c u, y = c :: u → ¬ c.toNat < 128) :
    numberLength (z ++ y) = numberLength z := by
  cases y with
  | nil => rw [List.append_nil]
  | cons c u =>
    have hshort : numberLength (z ++ c :: u) ≤ z.length := by
      by_contra hlong
      have hmem : c ∈ (z ++ c :: u).take (numberLength (z ++ c :: u)) := by
        obtain ⟨n, hn⟩ := Nat.exists_eq_add_of_lt (Nat.lt_of_not_le hlong)
        rw [hn, Nat.add_assoc, List.take_length_add_append]
        simp
      exact hHigh c u rfl (toNat_lt_of_isNumberChar (isNumberChar_of_mem _ hmem))
    rw [← numberLength_congr (.inl rfl) u z hshort, List.append_nil]

/-- A number has as many bytes as characters. -/
theorem numberSize_eq (t : Text) : numberSize t = numberLength t := by
  have hascii : ∀ c ∈ t.take (numberLength t), c.toNat < 128 := fun c hc =>
    toNat_lt_of_isNumberChar (isNumberChar_of_mem t hc)
  rw [numberSize, Text.size_eq_length hascii, List.length_take, Nat.min_eq_left (numberLength_le t)]

/-- Read byte by byte, a number has the size of its characters. -/
theorem numberLength_octets (t : Text) : numberLength (Text.octets t) = numberSize t := by
  obtain ⟨z, y, rfl, hascii, hhigh⟩ := Text.exists_ascii_append t
  have hoctets : ∀ c u, Text.octets y = c :: u → ¬ c.toNat < 128 := by
    intro c u hcons hc
    have hhead := (Text.head?_octets hc y).1 (by rw [hcons]; rfl)
    obtain ⟨v, hv⟩ := List.head?_eq_some_iff.1 hhead
    exact hhigh c v hv hc
  rw [numberSize_eq, Text.octets_append hascii, numberLength_append_high hoctets,
    numberLength_append_high hhigh]

theorem blockCommentLength_cons {c : Char} {t : Text} (h : ¬ (c = '*' ∧ t.head? = some '/')) :
    blockCommentLength (c :: t) = 1 + blockCommentLength t := by
  rw [blockCommentLength]
  rintro u rfl rfl
  exact h ⟨rfl, rfl⟩

theorem blockCommentLength_append {front : Text} (h : '*' ∉ front) (t : Text) :
    blockCommentLength (front ++ t) = front.length + blockCommentLength t := by
  induction front with
  | nil => rw [List.nil_append, List.length_nil, Nat.zero_add]
  | cons c front ih =>
    have hc := List.ne_of_not_mem_cons h
    rw [List.cons_append, blockCommentLength_cons fun hclose => hc hclose.1.symm,
      ih (List.not_mem_of_not_mem_cons h), List.length_cons]
    omega

/-- Read byte by byte, a block comment has the size of its characters. -/
theorem blockCommentLength_octets (t : Text) :
    blockCommentLength (Text.octets t) = blockCommentSize t := by
  induction t with
  | nil => rfl
  | cons c t ih =>
    by_cases hclose : c = '*' ∧ t.head? = some '/'
    · obtain ⟨rfl, hhead⟩ := hclose
      obtain ⟨u, rfl⟩ := List.head?_eq_some_iff.1 hhead
      rw [Text.octets_cons (by decide), Text.octets_cons (by decide)]
      rfl
    · have hsize : blockCommentSize (c :: t) = c.utf8Size + blockCommentSize t := by
        rw [blockCommentSize, blockCommentLength_cons hclose, Nat.add_comm, List.take_succ_cons]
        rfl
      rw [hsize, ← ih]
      by_cases hc : c.toNat < 128
      · rw [Text.octets_cons hc, Text.utf8Size_of_lt hc, blockCommentLength_cons]
        rwa [Text.head?_octets (by decide)]
      · obtain ⟨front, hfront, hlength, hhigh⟩ := Text.exists_octets_cons hc t
        rw [hfront, ← hlength]
        exact blockCommentLength_append (fun hmem => hhigh '*' hmem (by decide)) _

theorem toNat_lt_of_isLineEnd {c : Char} (h : Text.isLineEnd c = true) : c.toNat < 128 := by
  simp only [Text.isLineEnd, Bool.or_eq_true, decide_eq_true_eq] at h
  rcases h with rfl | rfl <;> decide

theorem lineCommentLength_append (front : Text) (h : ∀ c ∈ front, Text.isLineEnd c = false)
    (t : Text) : lineCommentLength (front ++ t) = front.length + lineCommentLength t := by
  rw [lineCommentLength, List.takeWhile_append_of_pos fun c hc => by rw [h c hc]; rfl,
    List.length_append, lineCommentLength]

/-- Read byte by byte, a line comment has the size of its characters. -/
theorem lineCommentLength_octets (t : Text) :
    lineCommentLength (Text.octets t) = lineCommentSize t := by
  induction t with
  | nil => rfl
  | cons c t ih =>
    by_cases hend : Text.isLineEnd c = true
    · rw [Text.octets_cons (toNat_lt_of_isLineEnd hend)]
      simp [lineCommentSize, lineCommentLength, hend]
    · have hsingle := lineCommentLength_append [c] (by simpa using hend)
      have hsize : lineCommentSize (c :: t) = c.utf8Size + lineCommentSize t := by
        rw [lineCommentSize, ← List.singleton_append, hsingle, List.take_length_add_append]
        rfl
      rw [hsize, ← ih]
      by_cases hc : c.toNat < 128
      · rw [Text.octets_cons hc, Text.utf8Size_of_lt hc]
        exact hsingle _
      · obtain ⟨front, hfront, hlength, hhigh⟩ := Text.exists_octets_cons hc t
        rw [hfront, ← hlength]
        refine lineCommentLength_append front (fun d hd => ?_) _
        exact Bool.eq_false_iff.2 fun hline => hhigh d hd (toNat_lt_of_isLineEnd hline)

end Literal

end BindBlocks
