import BindBlocks.Proofs.Blocks
import Mathlib.Data.List.Find
import Mathlib.Data.List.TakeWhile

/-! How far the division into tokens looks ahead. A token that ends before a character which no
operator holds does not depend on what follows that character, and a literal or a block comment that
is closed does not depend on what follows it at all. -/

namespace BindBlocks

namespace Text

/-- A space, a tab, a line feed or a carriage return. -/
def isBlank (c : Char) : Bool := isGap c || isLineEnd c

theorem isBlank_cases {c : Char} (h : isBlank c = true) :
    c = ' ' ∨ c = '\t' ∨ c = '\n' ∨ c = '\r' := by
  simpa [isBlank, isGap, isLineEnd, or_assoc] using h

/-- The text is empty or starts with the character. -/
def Meets (b : Char) (t : Text) : Prop := t = [] ∨ ∃ u, t = b :: u

theorem meets_cons (b : Char) (u : Text) : Meets b (b :: u) := .inr ⟨u, rfl⟩

/-- A run that ends before a character does not depend on what follows that character, nor on
whether anything does. -/
theorem takeWhile_congr {p : Char → Bool} {z v next : Text} {b : Char}
    (h : ((z ++ b :: v).takeWhile p).length ≤ z.length) (hNext : Meets b next) :
    (z ++ next).takeWhile p = (z ++ b :: v).takeWhile p := by
  rw [List.takeWhile_append] at h ⊢
  rw [List.takeWhile_append]
  split
  · rename_i hall
    rw [if_pos hall, List.length_append, List.takeWhile_cons] at h
    have hb : p b = false := by
      by_contra hb
      rw [if_pos (by simpa using hb), List.length_cons] at h
      omega
    rw [List.takeWhile_cons_of_neg (by simp [hb])]
    rcases hNext with rfl | ⟨u, rfl⟩
    · rfl
    · rw [List.takeWhile_cons_of_neg (by simp [hb])]
  · rfl

theorem length_takeWhile_ne {p : Char → Bool} {b : Char} (hb : p b = true) (z v : Text) :
    ((z ++ b :: v).takeWhile p).length ≠ z.length := by
  rw [List.takeWhile_append]
  split
  · simp [hb]
  · assumption

/-- A run ends where its class ends. -/
theorem takeWhile_append_stop {p : Char → Bool} {z rest : Text} (hz : ∀ c ∈ z, p c = true)
    (hRest : ∀ d u, rest = d :: u → p d = false) : (z ++ rest).takeWhile p = z := by
  rw [List.takeWhile_append_of_pos hz]
  cases rest with
  | nil => simp
  | cons d u => rw [List.takeWhile_cons_of_neg (by simp [hRest d u rfl]), List.append_nil]

/-- A run that ends between two texts ends there too if another text follows that it does not go on
with. -/
theorem length_takeWhile_congr {p : Char → Bool} {x y : Char} {z v : Text}
    (h : ((z ++ x :: v).takeWhile p).length = z.length) (hy : p y = false) (v' : Text) :
    ((z ++ y :: v').takeWhile p).length = z.length := by
  rw [List.takeWhile_append] at h ⊢
  split at h
  · simp [*]
  · contradiction

theorem take_length_takeWhile (p : Char → Bool) (t : Text) :
    t.take (t.takeWhile p).length = t.takeWhile p :=
  (List.prefix_iff_eq_take.1 (List.takeWhile_prefix p)).symm

end Text

namespace Opener

/-- What is open after a character, or nothing if it closes the outermost opener. -/
def step? (top : Opener) (below : List Opener) (c : Char) : Option (Opener × List Opener) :=
  match top.move c, below with
  | .stay, _ => some (top, below)
  | .enter inner, _ => some (inner, top :: below)
  | .leave, [] => none
  | .leave, outer :: rest => some (outer, rest)

/-- Apart from escapes and the openings of template expressions, one character is read at a time. -/
theorem bodyLength_cons {top : Opener} {below : List Opener} {c : Char} {t : Text}
    (hEscape : c ≠ '\\') (hBrace : ∀ u, top = .template → c = '$' → t = '{' :: u → False) :
    bodyLength top below (c :: t) =
      (step? top below c).elim 0 fun s => 1 + bodyLength s.1 s.2 t := by
  have hend : c = '\\' → t = [] → False := fun h => absurd h hEscape
  have hpair : ∀ d u, c = '\\' → t = d :: u → False := fun _ _ h => absurd h hEscape
  unfold step?
  cases below with
  | nil =>
    rw [bodyLength]
    · cases top.move c <;> rfl
    · exact hend
    · exact hpair
    · exact hBrace
  | cons outer rest =>
    rw [bodyLength]
    · cases top.move c <;> rfl
    · exact hend
    · exact hpair
    · exact hBrace

/-- A body that ends before a text does not depend on it. -/
theorem bodyLength_congr {top : Opener} {below : List Opener} {z y : Text}
    (h : bodyLength top below (z ++ y) < z.length) (y' : Text) :
    bodyLength top below (z ++ y') = bodyLength top below (z ++ y) := by
  induction hn : z.length using Nat.strongRecOn generalizing top below z with
  | ind n ih =>
    subst hn
    cases z with
    | nil => exact absurd h (by simp)
    | cons c z =>
      simp only [List.cons_append, List.length_cons] at h ih ⊢
      by_cases hescape : c = '\\'
      · subst hescape
        cases z with
        | nil => cases y <;> simp [bodyLength] at h
        | cons d z =>
          simp only [List.cons_append, List.length_cons, bodyLength] at h ih ⊢
          rw [ih z.length (by omega) (by omega) rfl]
      · by_cases hbrace : top = .template ∧ c = '$' ∧ ∃ u, z ++ y = '{' :: u
        · obtain ⟨rfl, rfl, u, hu⟩ := hbrace
          cases z with
          | nil =>
            rw [List.nil_append] at hu
            simp [hu, bodyLength] at h
          | cons d z =>
            obtain rfl : d = '{' := (List.cons.inj hu).1
            simp only [List.cons_append, List.length_cons, bodyLength] at h ih ⊢
            rw [ih z.length (by omega) (by omega) rfl]
        · have hplain : ∀ u, top = .template → c = '$' → z ++ y = '{' :: u → False :=
            fun u htop hc hu => hbrace ⟨htop, hc, u, hu⟩
          rw [bodyLength_cons hescape hplain] at h ⊢
          have hplain' : ∀ u, top = .template → c = '$' → z ++ y' = '{' :: u → False := by
            rintro u rfl rfl hu
            cases z with
            | nil => simp [step?, move] at h
            | cons d z =>
              exact hplain (z ++ y) rfl rfl (by rw [List.cons_append, (List.cons.inj hu).1])
          rw [bodyLength_cons hescape hplain']
          cases hstep : step? top below c with
          | none => rfl
          | some s =>
            rw [hstep, Option.elim_some] at h
            rw [Option.elim_some, Option.elim_some, ih z.length (by omega) (by omega) rfl]

/-- A literal that is closed before a text does not depend on it. -/
theorem literalLength_congr {o : Opener} {z y : Text} (hy : y ≠ [])
    (h : o.literalLength (z ++ y) ≤ z.length) (y' : Text) :
    o.literalLength (z ++ y') = o.literalLength (z ++ y) := by
  have hpos := List.length_pos_iff.2 hy
  simp only [literalLength, List.length_append] at h ⊢
  have hbody : bodyLength o [] (z ++ y) < z.length := by omega
  rw [bodyLength_congr hbody y']
  omega

end Opener

namespace Literal

theorem lineCommentLength_congr {z v next : Text} {b : Char}
    (h : lineCommentLength (z ++ b :: v) ≤ z.length) (hNext : Text.Meets b next) :
    lineCommentLength (z ++ next) = lineCommentLength (z ++ b :: v) := by
  rw [lineCommentLength, Text.takeWhile_congr h hNext]
  rfl

theorem blockCommentLength_pos {t : Text} (h : t ≠ []) : 0 < blockCommentLength t := by
  unfold blockCommentLength
  split
  · exact absurd rfl h
  · decide
  · omega

/-- A block comment that is closed before a text does not depend on it. -/
theorem blockCommentLength_congr {z y : Text} (hy : y ≠ [])
    (h : blockCommentLength (z ++ y) ≤ z.length) (y' : Text) :
    blockCommentLength (z ++ y') = blockCommentLength (z ++ y) := by
  have hpos := blockCommentLength_pos hy
  induction z with
  | nil => exact absurd h (Nat.not_le.2 hpos)
  | cons c z ih =>
    by_cases hclose : c = '*' ∧ ∃ u, z ++ y = '/' :: u
    · obtain ⟨rfl, u, hu⟩ := hclose
      cases z with
      | nil =>
        rw [List.nil_append] at hu
        simp [hu, blockCommentLength] at h
      | cons d z =>
        obtain rfl : d = '/' := (List.cons.inj hu).1
        rfl
    · have hopen : ∀ u, c = '*' → z ++ y = '/' :: u → False := fun u hc hu => hclose ⟨hc, u, hu⟩
      have hrest := blockCommentLength.eq_3 c (z ++ y) hopen
      rw [List.cons_append, hrest, List.length_cons] at h
      have hopen' : ∀ u, c = '*' → z ++ y' = '/' :: u → False := by
        rintro u rfl hu
        cases z with
        | nil =>
          rw [List.nil_append, List.length_nil] at h
          omega
        | cons d z =>
          exact hopen (z ++ y) rfl (by rw [List.cons_append, (List.cons.inj hu).1])
      rw [List.cons_append, List.cons_append, hrest, blockCommentLength.eq_3 c (z ++ y') hopen',
        ih (by omega)]

/-- Digits, and what stands among them. -/
def isNumberPart (c : Char) : Bool := Text.isDigit c || c = '.' || c = '_'

def isExponentMark (c : Char) : Bool := c = 'e' || c = 'E'

def isSign (c : Char) : Bool := c = '+' || c = '-'

theorem numberLength_cons_cons (c d : Char) (t : Text) :
    numberLength (c :: d :: t) =
      if isNumberPart c then 1 + numberLength (d :: t)
      else if isExponentMark c then
        if isSign d then 2 + numberLength t else 1 + numberLength (d :: t)
      else if c = 'n' then 1 else 0 := by
  rw [numberLength]
  rfl

theorem numberLength_singleton (c : Char) :
    numberLength [c] =
      if isNumberPart c then 1 else if isExponentMark c then 1 else if c = 'n' then 1 else 0 := by
  rw [numberLength]
  rfl

theorem numberLength_eq_zero {c : Char} {t : Text} :
    numberLength (c :: t) = 0 ↔ isNumberPart c = false ∧ isExponentMark c = false ∧ c ≠ 'n' := by
  cases t with
  | nil =>
    rw [numberLength_singleton]
    split <;> (try split) <;> simp_all
  | cons d t =>
    rw [numberLength_cons_cons]
    split <;> (try split) <;> (try split) <;> simp_all

/-- A number that ends before a character does not depend on what follows that character, nor on
whether anything does. -/
theorem numberLength_congr {b : Char} {next : Text} (hNext : Text.Meets b next) (v : Text) :
    ∀ z : Text, numberLength (z ++ b :: v) ≤ z.length →
      numberLength (z ++ next) = numberLength (z ++ b :: v)
  | [], h => by
    have hzero : numberLength (b :: v) = 0 := Nat.le_zero.1 h
    rw [List.nil_append, List.nil_append, hzero]
    rcases hNext with rfl | ⟨u, rfl⟩
    · rfl
    · exact numberLength_eq_zero.2 (numberLength_eq_zero.1 hzero)
  | [c], h => by
    have hrest := numberLength_congr hNext v []
    rcases hNext with rfl | ⟨u, rfl⟩ <;>
      simp only [List.cons_append, List.nil_append, List.length_cons, List.length_nil,
        numberLength_cons_cons, numberLength_singleton] at h hrest ⊢ <;>
      split_ifs at h ⊢ <;> omega
  | c :: d :: z, h => by
    have hone := numberLength_congr hNext v (d :: z)
    have htwo := numberLength_congr hNext v z
    simp only [List.cons_append, List.length_cons, numberLength_cons_cons c] at h hone ⊢
    split_ifs at h ⊢
    · rw [hone (by omega)]
    · rw [htwo (by omega)]
    · rw [hone (by omega)]
    · rfl
    · rfl

def isNumberChar (c : Char) : Bool :=
  isNumberPart c || isExponentMark c || isSign c || c = 'n'

theorem isNumberChar_of_mem {x : Char} :
    ∀ t : Text, x ∈ t.take (numberLength t) → isNumberChar x = true
  | [], h => absurd h (by simp)
  | [c], h => by
    rw [numberLength_singleton] at h
    split_ifs at h <;> simp_all [isNumberChar]
  | c :: d :: t, h => by
    rw [numberLength_cons_cons] at h
    split_ifs at h with hc he hs hn
    · rw [Nat.add_comm, List.take_succ_cons, List.mem_cons] at h
      rcases h with rfl | h
      · simp [isNumberChar, hc]
      · exact isNumberChar_of_mem (d :: t) h
    · rw [Nat.add_comm, List.take_succ_cons, List.take_succ_cons, List.mem_cons,
        List.mem_cons] at h
      rcases h with rfl | rfl | h
      · simp [isNumberChar, he]
      · simp [isNumberChar, hs]
      · exact isNumberChar_of_mem t h
    · rw [Nat.add_comm, List.take_succ_cons, List.mem_cons] at h
      rcases h with rfl | h
      · simp [isNumberChar, he]
      · exact isNumberChar_of_mem (d :: t) h
    · obtain rfl : x = c := by simpa using h
      simp [isNumberChar, hn]
    · exact absurd h (by simp)

end Literal

namespace Token

/-- No operator holds the character. -/
def Fence (b : Char) : Prop := b ∉ operators.flatten

theorem Fence.not_mem {b : Char} (hb : Fence b) {operator : Text} (h : operator ∈ operators) :
    b ∉ operator := fun hmem => hb (List.mem_flatten_of_mem h hmem)

/-- An operator does not reach past a character that no operator holds. -/
theorem isPrefixOf_congr {operator : Text} {b : Char} (hb : b ∉ operator) (z v : Text) :
    operator.isPrefixOf (z ++ b :: v) = operator.isPrefixOf z := by
  induction operator generalizing z with
  | nil => simp
  | cons c operator ih =>
    simp only [List.mem_cons, not_or] at hb
    cases z with
    | nil => simp [List.isPrefixOf, Ne.symm hb.1]
    | cons d z => simp [List.isPrefixOf, ih hb.2]

/-- The marks that are tokens by themselves. -/
def brackets : Text := ['{', '}', '(', ')', '[', ']', ',', ';']

/-- The two marks that start a comment. -/
def commentPairs : List (Char × Char) := [('/', '/'), ('/', '*')]

/-- Two marks that start a token which is no operator. -/
def pairs : List (Char × Char) := [('=', '>'), ('<', '-')] ++ commentPairs

def operatorLexeme (t : Text) : Kind × Nat :=
  (operators.find? fun operator => operator.isPrefixOf t).elim (.other, 0) fun operator =>
    (.operator, operator.length - 1)

theorem markLexeme_bracket {c : Char} (hc : c ∈ brackets) (t u : Text) :
    markLexeme c t = markLexeme c u := by
  simp only [brackets, List.mem_cons, List.not_mem_nil, or_false] at hc
  rcases hc with rfl | rfl | rfl | rfl | rfl | rfl | rfl | rfl <;> rfl

theorem markLexeme_plain {c : Char} {t : Text} (hc : c ∉ brackets)
    (hPair : ∀ d u, t = d :: u → (c, d) ∉ pairs) : markLexeme c t = operatorLexeme (c :: t) := by
  unfold markLexeme
  split
  case h_1 | h_2 | h_3 | h_4 | h_5 | h_6 | h_7 | h_8 => exact absurd (by decide) hc
  case h_9 | h_10 | h_11 | h_12 => exact absurd (by decide) (hPair _ _ rfl)
  case h_13 =>
    rw [operatorLexeme]
    generalize List.find? _ operators = found
    cases found <;> rfl

/-- The marks that start a token whose inside is no code start a comment. -/
theorem markLexeme_code {c : Char} {t : Text} (hCode : ∀ d u, t = d :: u → (c, d) ∉ commentPairs) :
    (markLexeme c t).1.isVerbatim = false := by
  unfold markLexeme
  split
  case h_11 | h_12 => exact absurd (by decide) (hCode _ _ rfl)
  case h_13 => split <;> rfl
  all_goals rfl

/-- Without a comment, a mark is read as if the text ended before a fence. -/
theorem markLexeme_fence {c b : Char} {z : Text} (hb : Fence b)
    (hCode : ∀ d u, z = d :: u → (c, d) ∉ commentPairs) (v : Text) :
    markLexeme c (z ++ b :: v) = markLexeme c z := by
  by_cases hc : c ∈ brackets
  · exact markLexeme_bracket hc _ _
  · by_cases hpair : ∃ d u, z = d :: u ∧ (c, d) ∈ pairs
    · obtain ⟨d, u, rfl, hmem⟩ := hpair
      rcases List.mem_append.1 hmem with harrow | hcomment
      · simp only [List.mem_cons, Prod.mk.injEq, List.not_mem_nil, or_false] at harrow
        rcases harrow with ⟨rfl, rfl⟩ | ⟨rfl, rfl⟩ <;> rfl
      · exact absurd hcomment (hCode d u rfl)
    · have hz : ∀ d u, z = d :: u → (c, d) ∉ pairs := fun d u hu hmem => hpair ⟨d, u, hu, hmem⟩
      have hlong : ∀ d u, z ++ b :: v = d :: u → (c, d) ∉ pairs := by
        intro d u hu
        cases z with
        | nil =>
          obtain rfl : b = d := (List.cons.inj hu).1
          intro hmem
          have hoperator : [b] ∈ operators := by
            simp only [pairs, commentPairs, List.cons_append, List.nil_append, List.mem_cons,
              Prod.mk.injEq, List.not_mem_nil, or_false] at hmem
            rcases hmem with ⟨-, rfl⟩ | ⟨-, rfl⟩ | ⟨-, rfl⟩ | ⟨-, rfl⟩ <;> decide
          exact hb.not_mem hoperator (List.mem_singleton_self b)
        | cons e z => exact (List.cons.inj hu).1 ▸ hz e z rfl
      have hfind : operators.find? (fun operator => operator.isPrefixOf (c :: (z ++ b :: v))) =
          operators.find? fun operator => operator.isPrefixOf (c :: z) :=
        List.find?_congr fun operator hmem => isPrefixOf_congr (hb.not_mem hmem) (c :: z) v
      rw [markLexeme_plain hc hlong, markLexeme_plain hc hz, operatorLexeme, operatorLexeme, hfind]

theorem markLexeme_congr {c b : Char} {z v next : Text} (hb : Fence b)
    (h : (markLexeme c (z ++ b :: v)).2 ≤ z.length) (hNext : Text.Meets b next) :
    markLexeme c (z ++ next) = markLexeme c (z ++ b :: v) := by
  by_cases hcomment : ∃ d u, z = d :: u ∧ (c, d) ∈ commentPairs
  · obtain ⟨d, u, rfl, hmem⟩ := hcomment
    simp only [commentPairs, List.mem_cons, Prod.mk.injEq, List.not_mem_nil, or_false] at hmem
    rcases hmem with ⟨rfl, rfl⟩ | ⟨rfl, rfl⟩
    · have hlength : 1 + Literal.lineCommentLength (u ++ b :: v) ≤ u.length + 1 := h
      show (Kind.lineComment, 1 + Literal.lineCommentLength (u ++ next)) =
        (Kind.lineComment, 1 + Literal.lineCommentLength (u ++ b :: v))
      have hrest : Literal.lineCommentLength (u ++ b :: v) ≤ u.length := by omega
      rw [Literal.lineCommentLength_congr hrest hNext]
    · have hlength : 1 + Literal.blockCommentLength (u ++ b :: v) ≤ u.length + 1 := h
      show (Kind.blockComment, 1 + Literal.blockCommentLength (u ++ next)) =
        (Kind.blockComment, 1 + Literal.blockCommentLength (u ++ b :: v))
      rw [Literal.blockCommentLength_congr (List.cons_ne_nil b v) (by omega)]
  · have hcode : ∀ d u, z = d :: u → (c, d) ∉ commentPairs :=
      fun d u hu hmem => hcomment ⟨d, u, hu, hmem⟩
    rw [markLexeme_fence hb hcode]
    rcases hNext with rfl | ⟨u, rfl⟩
    · rw [List.append_nil]
    · exact markLexeme_fence hb hcode u

/-- A token that ends before a fence does not depend on what follows the fence, nor on whether
anything does. -/
theorem lexeme_congr {c b : Char} {z v next : Text} (hb : Fence b)
    (h : (lexeme c (z ++ b :: v)).2 ≤ z.length) (hNext : Text.Meets b next) :
    lexeme c (z ++ next) = lexeme c (z ++ b :: v) := by
  unfold lexeme at h ⊢
  split_ifs at h ⊢
  · rw [Text.takeWhile_congr h hNext]
  · rw [Text.takeWhile_congr h hNext]
  · simp only [Text.takeWhile_congr h hNext]
  · rw [Literal.numberLength_congr hNext v z h]
  · rw [Opener.literalLength_congr (List.cons_ne_nil b v) h]
  · rw [Opener.literalLength_congr (List.cons_ne_nil b v) h]
  · exact markLexeme_congr hb h hNext

theorem nameKind_code (name : Text) : (nameKind name).isVerbatim = false := by
  unfold nameKind
  split
  · rfl
  · split <;> rfl

/-- The characters that start a token whose inside is no code, or an operator. -/
def verbatimStarts : Text := ['\x27', '\x22', '\x60', '/']

theorem lexeme_code {c : Char} (hc : c ∉ verbatimStarts) (t : Text) :
    (lexeme c t).1.isVerbatim = false := by
  unfold lexeme
  split_ifs with hgap hend hname hdigit hquote htemplate
  · rfl
  · rfl
  · exact nameKind_code _
  · rfl
  · rcases hquote with rfl | rfl <;> exact absurd (by decide) hc
  · subst htemplate
    exact absurd (by decide) hc
  · apply markLexeme_code
    rintro d u rfl hmem
    simp only [commentPairs, List.mem_cons, Prod.mk.injEq, List.not_mem_nil, or_false] at hmem
    rcases hmem with ⟨rfl, -⟩ | ⟨rfl, -⟩ <;> exact absurd (by decide) hc

/-- A comment that ends before a character on its line is a block comment. -/
theorem blockComment_of_verbatim {c x : Char} {z v : Text} (hx : Text.isLineEnd x = false)
    (hLength : (markLexeme c (z ++ x :: v)).2 = z.length)
    (hk : (markLexeme c (z ++ x :: v)).1.isVerbatim = true) :
    ∃ u, c = '/' ∧ z = '*' :: u ∧ Literal.blockCommentLength (u ++ x :: v) = u.length := by
  obtain ⟨d, w, hw, hmem⟩ : ∃ d w, z ++ x :: v = d :: w ∧ (c, d) ∈ commentPairs := by
    by_contra hcode
    rw [markLexeme_code fun d w hw hmem => hcode ⟨d, w, hw, hmem⟩] at hk
    exact absurd hk (by decide)
  rw [hw] at hLength
  simp only [commentPairs, List.mem_cons, Prod.mk.injEq, List.not_mem_nil, or_false] at hmem
  cases z with
  | nil =>
    rcases hmem with ⟨rfl, rfl⟩ | ⟨rfl, rfl⟩
    · exact absurd (show 1 + Literal.lineCommentLength w = 0 from hLength) (by omega)
    · exact absurd (show 1 + Literal.blockCommentLength w = 0 from hLength) (by omega)
  | cons e u =>
    obtain ⟨rfl, rfl⟩ := List.cons.inj hw
    rw [List.length_cons, Nat.add_comm] at hLength
    rcases hmem with ⟨rfl, rfl⟩ | ⟨rfl, rfl⟩
    · have hrun : Literal.lineCommentLength (u ++ x :: v) = u.length := Nat.add_left_cancel hLength
      exact absurd hrun (Text.length_takeWhile_ne (by simp [hx]) u v)
    · exact ⟨u, rfl, rfl, Nat.add_left_cancel hLength⟩

theorem markLexeme_congr_of_verbatim {c x : Char} {z v : Text} {k : Kind}
    (h : markLexeme c (z ++ x :: v) = (k, z.length)) (hk : k.isVerbatim = true)
    (hx : Text.isLineEnd x = false) (y : Text) : markLexeme c (z ++ y) = (k, z.length) := by
  obtain ⟨u, rfl, rfl, hlength⟩ :=
    blockComment_of_verbatim hx (congrArg Prod.snd h) (by rw [h]; exact hk)
  have hkind : Kind.blockComment = k := congrArg Prod.fst h
  show (Kind.blockComment, 1 + Literal.blockCommentLength (u ++ y)) = _
  rw [Literal.blockCommentLength_congr (List.cons_ne_nil x v) (Nat.le_of_eq hlength), hlength,
    hkind, List.length_cons, Nat.add_comm]

/-- A string, a template or a comment that ends before a character on its line does not depend on
what follows it. -/
theorem lexeme_congr_of_verbatim {c x : Char} {z v : Text} {k : Kind}
    (h : lexeme c (z ++ x :: v) = (k, z.length)) (hk : k.isVerbatim = true)
    (hx : Text.isLineEnd x = false) (y : Text) : lexeme c (z ++ y) = (k, z.length) := by
  unfold lexeme at h ⊢
  split_ifs at h ⊢
  · obtain ⟨rfl, -⟩ := Prod.mk.inj h
    exact absurd hk (by decide)
  · obtain ⟨rfl, -⟩ := Prod.mk.inj h
    exact absurd hk (by decide)
  · obtain ⟨rfl, -⟩ := Prod.mk.inj h
    rw [nameKind_code] at hk
    exact absurd hk (by decide)
  · obtain ⟨rfl, -⟩ := Prod.mk.inj h
    exact absurd hk (by decide)
  · obtain ⟨rfl, hlength⟩ := Prod.mk.inj h
    rw [Opener.literalLength_congr (List.cons_ne_nil x v) (Nat.le_of_eq hlength), hlength]
  · obtain ⟨rfl, hlength⟩ := Prod.mk.inj h
    rw [Opener.literalLength_congr (List.cons_ne_nil x v) (Nat.le_of_eq hlength), hlength]
  · exact markLexeme_congr_of_verbatim h hk hx y

theorem fence_of_isBlank {b : Char} (h : Text.isBlank b = true) : Fence b := by
  rcases Text.isBlank_cases h with rfl | rfl | rfl | rfl <;> (unfold Fence; decide +kernel)

theorem isNamePart_of_isBlank {b : Char} (h : Text.isBlank b = true) : isNamePart b = false := by
  rcases Text.isBlank_cases h with rfl | rfl | rfl | rfl <;> decide

theorem isNamePart_or_mem_operators {c : Char} (h : Literal.isNumberChar c = true) :
    isNamePart c = true ∨ c ∈ operators.flatten := by
  simp only [Literal.isNumberChar, Literal.isNumberPart, Literal.isExponentMark, Literal.isSign,
    Bool.or_eq_true, decide_eq_true_eq] at h
  rcases h with ((((hdigit | rfl) | rfl) | rfl | rfl) | rfl | rfl) | rfl
  · exact .inl (by simp [isNamePart, hdigit])
  · exact .inr (by decide +kernel)
  · exact .inl (by decide)
  · exact .inl (by decide)
  · exact .inl (by decide)
  · exact .inr (by decide +kernel)
  · exact .inr (by decide +kernel)
  · exact .inl (by decide)

theorem mem_operators_of_operatorLexeme {c x : Char} {t : Text}
    (hx : x ∈ t.take (operatorLexeme (c :: t)).2) : x ∈ operators.flatten := by
  rw [operatorLexeme] at hx
  cases hfind : operators.find? fun operator => operator.isPrefixOf (c :: t) with
  | none => simp [hfind] at hx
  | some operator =>
    rw [hfind, Option.elim_some] at hx
    refine List.mem_flatten_of_mem (List.mem_of_find?_eq_some hfind) ?_
    have hstart := List.find?_some hfind
    obtain ⟨back, hback⟩ := List.isPrefixOf_iff_prefix.1 hstart
    cases operator with
    | nil => simp at hx
    | cons d operator =>
      obtain ⟨rfl, rfl⟩ := List.cons.inj hback
      exact List.mem_cons_of_mem d (by simpa using hx)

/-- The characters of a mark that starts code belong to operators. -/
theorem mem_operators_of_markLexeme {c x : Char} {t : Text}
    (hk : (markLexeme c t).1.isVerbatim = false) (hx : x ∈ t.take (markLexeme c t).2) :
    x ∈ operators.flatten := by
  by_cases hc : c ∈ brackets
  · simp only [brackets, List.mem_cons, List.not_mem_nil, or_false] at hc
    rcases hc with rfl | rfl | rfl | rfl | rfl | rfl | rfl | rfl <;>
      exact absurd hx (by simp [markLexeme])
  · by_cases hpair : ∃ d u, t = d :: u ∧ (c, d) ∈ pairs
    · obtain ⟨d, u, rfl, hmem⟩ := hpair
      simp only [pairs, commentPairs, List.cons_append, List.nil_append, List.mem_cons,
        Prod.mk.injEq, List.not_mem_nil, or_false] at hmem
      rcases hmem with ⟨rfl, rfl⟩ | ⟨rfl, rfl⟩ | ⟨rfl, rfl⟩ | ⟨rfl, rfl⟩
      · obtain rfl : x = '>' := by simpa [markLexeme] using hx
        decide +kernel
      · obtain rfl : x = '-' := by simpa [markLexeme] using hx
        decide +kernel
      · exact absurd hk (by simp [markLexeme, Kind.isVerbatim])
      · exact absurd hk (by simp [markLexeme, Kind.isVerbatim])
    · rw [markLexeme_plain hc fun d u hu hmem => hpair ⟨d, u, hu, hmem⟩] at hx
      exact mem_operators_of_operatorLexeme hx

/-- A token of code consists of blanks of one kind, or it starts with another character and goes on
with parts of names and characters of operators. -/
theorem lexeme_class {c : Char} {t : Text} (hk : (lexeme c t).1.isVerbatim = false) :
    (Text.isGap c = true ∧ ∀ x ∈ t.take (lexeme c t).2, Text.isGap x = true) ∨
      (Text.isLineEnd c = true ∧ ∀ x ∈ t.take (lexeme c t).2, Text.isLineEnd x = true) ∨
      (Text.isBlank c = false ∧
        ∀ x ∈ t.take (lexeme c t).2, isNamePart x = true ∨ x ∈ operators.flatten) := by
  have hrun : ∀ {p : Char → Bool} {x : Char}, x ∈ t.take (t.takeWhile p).length → p x = true := by
    intro p x hx
    rw [Text.take_length_takeWhile] at hx
    exact List.mem_takeWhile_imp hx
  unfold lexeme at hk ⊢
  split_ifs at hk ⊢ with hgap hend
  · exact .inl ⟨hgap, fun x hx => hrun hx⟩
  · exact .inr (.inl ⟨hend, fun x hx => hrun hx⟩)
  all_goals have hblank : Text.isBlank c = false := by simp [Text.isBlank, hgap, hend]
  · exact .inr (.inr ⟨hblank, fun x hx => .inl (hrun hx)⟩)
  · exact .inr (.inr ⟨hblank, fun x hx =>
      isNamePart_or_mem_operators (Literal.isNumberChar_of_mem t hx)⟩)
  · exact absurd hk (by simp [Kind.isVerbatim])
  · exact absurd hk (by simp [Kind.isVerbatim])
  · exact .inr (.inr ⟨hblank, fun x hx => .inr (mem_operators_of_markLexeme hk hx)⟩)

/-- A token of code with a blank in it consists of blanks. -/
theorem isBlank_of_mem_lexeme {c w x : Char} {t : Text} (hk : (lexeme c t).1.isVerbatim = false)
    (hw : w ∈ c :: t.take (lexeme c t).2) (hBlank : Text.isBlank w = true)
    (hx : x ∈ c :: t.take (lexeme c t).2) : Text.isBlank x = true := by
  rcases lexeme_class hk with ⟨hc, hrun⟩ | ⟨hc, hrun⟩ | ⟨hc, hrun⟩
  · have hgap : Text.isGap x = true := by
      rcases List.mem_cons.1 hx with rfl | hx
      · exact hc
      · exact hrun x hx
    simp [Text.isBlank, hgap]
  · have hend : Text.isLineEnd x = true := by
      rcases List.mem_cons.1 hx with rfl | hx
      · exact hc
      · exact hrun x hx
    simp [Text.isBlank, hend]
  · exfalso
    rcases List.mem_cons.1 hw with rfl | hw
    · rw [hBlank] at hc
      exact absurd hc (by decide)
    · rcases hrun w hw with hname | hoperator
      · rw [isNamePart_of_isBlank hBlank] at hname
        exact absurd hname (by decide)
      · exact fence_of_isBlank hBlank hoperator

/-- A token of code does not reach past a fence that is neither a blank nor part of a name. -/
theorem lexeme_le {c b : Char} {z v : Text} (hb : Fence b) (hBlank : Text.isBlank b = false)
    (hName : isNamePart b = false) (hk : (lexeme c (z ++ b :: v)).1.isVerbatim = false) :
    (lexeme c (z ++ b :: v)).2 ≤ z.length := by
  by_contra hlt
  have hmem : b ∈ (z ++ b :: v).take (lexeme c (z ++ b :: v)).2 := by
    obtain ⟨n, hn⟩ := Nat.exists_eq_add_of_lt (Nat.lt_of_not_le hlt)
    rw [hn, Nat.add_assoc, List.take_length_add_append, List.take_succ_cons]
    simp
  rcases lexeme_class hk with ⟨-, hrun⟩ | ⟨-, hrun⟩ | ⟨-, hrun⟩
  · simp [Text.isBlank, hrun b hmem] at hBlank
  · simp [Text.isBlank, hrun b hmem] at hBlank
  · rcases hrun b hmem with hname | hoperator
    · rw [hName] at hname
      exact absurd hname (by decide)
    · exact hb hoperator

/-- A token with a blank in it that ends between a blank and another character does not depend on
that character. -/
theorem lexeme_congr_of_isBlank {c w x y : Char} {z v : Text} {k : Kind}
    (h : lexeme c (z ++ x :: v) = (k, z.length)) (hw : w ∈ c :: z) (hBlank : Text.isBlank w = true)
    (hx : Text.isBlank x = false) (hy : Text.isBlank y = false) (v' : Text) :
    lexeme c (z ++ y :: v') = (k, z.length) := by
  simp only [Text.isBlank, Bool.or_eq_false_iff] at hx hy
  cases hk : k.isVerbatim with
  | true => exact lexeme_congr_of_verbatim h hk hx.2 _
  | false =>
    have hcode : (lexeme c (z ++ x :: v)).1.isVerbatim = false := by rw [h, hk]
    have hc : Text.isBlank c = true :=
      isBlank_of_mem_lexeme hcode (by rw [h]; simpa using hw) hBlank List.mem_cons_self
    unfold lexeme at h ⊢
    split_ifs at h ⊢ with hgap hend
    · obtain ⟨rfl, hlength⟩ := Prod.mk.inj h
      rw [Text.length_takeWhile_congr hlength hy.1]
    · obtain ⟨rfl, hlength⟩ := Prod.mk.inj h
      rw [Text.length_takeWhile_congr hlength hy.2]
    all_goals exact absurd hc (by simp [Text.isBlank, hgap, hend])

end Token

end BindBlocks
