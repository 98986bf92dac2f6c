import BindBlocks.Proofs.Lexing

/-! The tokens of a text that is made of parts. `Fill` says that a row of tokens fills a text in
front of another one. What fills a text that ends in a blank does not depend on the other text, as
long as that starts with no blank. The lexemes of a text are the kinds and the characters of its
tokens without blanks and comments. -/

namespace BindBlocks

namespace Token

/-- The kind and the characters of the tokens that are neither blanks nor comments. -/
def visible (ts : List Token) : List (Kind × Text) :=
  (ts.filter fun t => !t.kind.isTrivia).map fun t => (t.kind, t.text)

def lexemes (t : Text) : List (Kind × Text) := visible (ofText t)

theorem visible_map_narrow (ts : List Token) : visible (ts.map narrow) = visible ts := by
  rw [visible, List.filter_map, List.map_map]
  rfl

@[simp]
theorem visible_append (ts us : List Token) : visible (ts ++ us) = visible ts ++ visible us := by
  simp [visible]

theorem visible_cons (t : Token) (ts : List Token) :
    visible (t :: ts) = (if t.kind.isTrivia then [] else [(t.kind, t.text)]) ++ visible ts := by
  cases h : t.kind.isTrivia <;> simp [visible, h]

/-- One token is read off a text. -/
theorem ofTextAt_cons {c : Char} {z y : Text} {k : Kind} (h : lexeme c (z ++ y) = (k, z.length))
    (offset : Nat) :
    ofTextAt offset (c :: (z ++ y)) =
      ⟨k, c :: z, ⟨offset, offset + Text.size (c :: z)⟩⟩ ::
        ofTextAt (offset + Text.size (c :: z)) y := by
  rw [ofTextAt]
  simp [h]

/-- No two tokens of a text start at the same place. -/
theorem eq_of_start_eq {offset : Nat} {t : Text} {token other : Token}
    (h : token ∈ ofTextAt offset t) (hOther : other ∈ ofTextAt offset t)
    (hStart : token.span.start = other.span.start) : token = other := by
  fun_induction ofTextAt offset t with
  | case1 offset => exact absurd h (by simp)
  | case2 offset c t kind length hlexeme text stop ih =>
    have hlt : ∀ u ∈ ofTextAt stop (t.drop length), offset < u.span.start := by
      intro u hu
      have := c.utf8Size_pos
      have hle := (ofTextAt_within hu).1
      simp only [stop, text, Text.size_cons] at hle
      omega
    rcases List.mem_cons.1 h with rfl | h
    · rcases List.mem_cons.1 hOther with rfl | hOther
      · rfl
      · exact absurd hStart (Nat.ne_of_lt (hlt other hOther))
    · rcases List.mem_cons.1 hOther with rfl | hOther
      · exact absurd hStart (Nat.ne_of_gt (hlt token h))
      · exact ih h hOther

/-- The lexemes do not depend on where the text starts. -/
theorem visible_ofTextAt (offset : Nat) (t : Text) : visible (ofTextAt offset t) = lexemes t := by
  suffices h : ∀ start, visible (ofTextAt start t) = visible (ofTextAt offset t) from
    (h 0).symm.trans (visible_map_narrow _).symm
  fun_induction ofTextAt offset t with
  | case1 offset => intro start; simp [ofTextAt]
  | case2 offset c t kind length hlexeme text stop ih =>
    intro start
    rw [ofTextAt]
    simp only [hlexeme, visible_cons, ih]
    rfl

theorem lexemes_cons {c : Char} {z y : Text} {k : Kind} (h : lexeme c (z ++ y) = (k, z.length)) :
    lexemes (c :: (z ++ y)) = (if k.isTrivia then [] else [(k, c :: z)]) ++ lexemes y := by
  rw [← visible_ofTextAt 0, ofTextAt_cons h, visible_cons, visible_ofTextAt]

/-- Runs of a class of characters that are read as one token of trivia add no lexemes. -/
theorem lexemes_run {p : Char → Bool} {k : Kind} (hk : k.isTrivia = true)
    (hRun : ∀ b t, p b = true → lexeme b t = (k, (t.takeWhile p).length)) {b : Char}
    (hb : p b = true) (t : Text) : lexemes (b :: t) = lexemes t := by
  have hdrop : ∀ {b : Char} (t : Text), p b = true →
      lexemes (b :: t) = lexemes (t.dropWhile p) := by
    intro b t hb
    have hlexeme : lexeme b (t.takeWhile p ++ t.dropWhile p) = (k, (t.takeWhile p).length) := by
      rw [List.takeWhile_append_dropWhile, hRun b t hb]
    have hcons := lexemes_cons hlexeme
    rwa [List.takeWhile_append_dropWhile, if_pos hk, List.nil_append] at hcons
  rw [hdrop t hb]
  cases t with
  | nil => rfl
  | cons c t =>
    cases hc : p c with
    | true => rw [List.dropWhile_cons_of_pos hc, hdrop t hc]
    | false => rw [List.dropWhile_cons_of_neg (by simp [hc])]

/-- A blank in front of a text adds no lexeme to it. -/
theorem lexemes_blank {b : Char} (h : Text.isBlank b = true) (t : Text) :
    lexemes (b :: t) = lexemes t := by
  rcases Bool.or_eq_true_iff.1 h with hgap | hend
  · apply lexemes_run (k := .gap) rfl _ hgap
    intro c u hc
    rw [lexeme, if_pos hc]
  · apply lexemes_run (k := .lineEnd) rfl _ hend
    intro c u hc
    have hgap : Text.isGap c = false := by
      simp only [Text.isLineEnd, Bool.or_eq_true, decide_eq_true_eq] at hc
      rcases hc with rfl | rfl <;> decide
    rw [lexeme, if_neg (by simp [hgap]), if_pos hc]

theorem lexemes_blanks {g : Text} (h : ∀ b ∈ g, Text.isBlank b = true) (t : Text) :
    lexemes (g ++ t) = lexemes t := by
  induction g with
  | nil => rfl
  | cons b g ih =>
    rw [List.cons_append, lexemes_blank (h b List.mem_cons_self)]
    exact ih fun c hc => h c (List.mem_cons_of_mem b hc)

/-- A token of code with a blank in it consists of blanks. -/
theorem isBlank_of_mem_text {offset : Nat} {t : Text} {token : Token} {w x : Char}
    (h : token ∈ ofTextAt offset t) (hk : token.kind.isVerbatim = false) (hw : w ∈ token.text)
    (hBlank : Text.isBlank w = true) (hx : x ∈ token.text) : Text.isBlank x = true := by
  obtain ⟨front, c, rest, -, rfl⟩ := eq_first_of_mem h
  exact isBlank_of_mem_lexeme hk hw hBlank hx

/-- The tokens fill the first text, which starts at `offset`, if the second one follows it. -/
inductive Fill : Nat → Text → Text → List Token → Prop
  | nil (offset : Nat) (rest : Text) : Fill offset [] rest []
  | cons {offset : Nat} {c : Char} {z t rest : Text} {k : Kind} {ts : List Token} :
      lexeme c (z ++ (t ++ rest)) = (k, z.length) →
      Fill (offset + Text.size (c :: z)) t rest ts →
      Fill offset (c :: (z ++ t)) rest (⟨k, c :: z, ⟨offset, offset + Text.size (c :: z)⟩⟩ :: ts)

namespace Fill

variable {offset : Nat} {t u rest : Text} {ts us : List Token}

theorem single {c : Char} {z : Text} {k : Kind} (h : lexeme c (z ++ rest) = (k, z.length))
    (offset : Nat) :
    Fill offset (c :: z) rest [⟨k, c :: z, ⟨offset, offset + Text.size (c :: z)⟩⟩] := by
  have hfill := Fill.cons (t := []) h (.nil (offset + Text.size (c :: z)) rest)
  rwa [List.append_nil] at hfill

theorem ofTextAt_eq (h : Fill offset t rest ts) :
    ofTextAt offset (t ++ rest) = ts ++ ofTextAt (offset + Text.size t) rest := by
  induction h with
  | nil => rfl
  | @cons offset c z t rest k ts hlexeme _ ih =>
    rw [List.cons_append, List.append_assoc, ofTextAt_cons hlexeme, ih, List.cons_append]
    simp [Nat.add_assoc]

theorem lexemes_eq (h : Fill offset t rest ts) :
    lexemes (t ++ rest) = visible ts ++ lexemes rest := by
  rw [← visible_ofTextAt offset, h.ofTextAt_eq, visible_append, visible_ofTextAt]

theorem append (h : Fill offset t (u ++ rest) ts) (h' : Fill (offset + Text.size t) u rest us) :
    Fill offset (t ++ u) rest (ts ++ us) := by
  generalize hnext : u ++ rest = next at h
  induction h with
  | nil => exact h'
  | @cons offset c z t next k ts hlexeme _ ih =>
    subst hnext
    have hrest := ih (by simpa [Nat.add_assoc] using h') rfl
    have hfill := Fill.cons (by rwa [List.append_assoc]) hrest
    simpa only [List.cons_append, List.append_assoc] using hfill

theorem start_bounds (h : Fill offset t rest ts) :
    ∀ token ∈ ts, offset ≤ token.span.start ∧ token.span.start < offset + Text.size t := by
  induction h with
  | nil => simp
  | @cons offset c z t rest k ts _ _ ih =>
    have := c.utf8Size_pos
    intro token htoken
    simp only [Text.size_cons, Text.size_append] at ih ⊢
    rcases List.mem_cons.1 htoken with rfl | htoken
    · exact ⟨Nat.le_refl _, by simp only; omega⟩
    · have := ih token htoken
      omega

theorem pairwise_start (h : Fill offset t rest ts) :
    ts.Pairwise fun token later => token.span.start < later.span.start := by
  induction h with
  | nil => exact .nil
  | @cons offset c z t rest k ts _ hfill ih =>
    refine .cons (fun later hlater => ?_) ih
    have := c.utf8Size_pos
    have hstart := (hfill.start_bounds later hlater).1
    rw [Text.size_cons] at hstart
    simp only
    omega

/-- The tokens of a text, cut where the first ones fill its first part. -/
theorem of_ofTextAt (hRest : rest ≠ []) (h : ofTextAt offset (t ++ rest) = ts ++ us)
    (ht : ts.flatMap (·.text) = t) :
    Fill offset t rest ts ∧ us = ofTextAt (offset + Text.size t) rest := by
  induction ts generalizing offset t with
  | nil =>
    obtain rfl : [] = t := ht
    exact ⟨.nil offset rest, h.symm⟩
  | cons token ts ih =>
    rw [List.flatMap_cons] at ht
    cases hall : t ++ rest with
    | nil => exact absurd (List.append_eq_nil_iff.1 hall).2 hRest
    | cons c s =>
      rw [hall, ofTextAt] at h
      obtain ⟨k, n, hlexeme⟩ : ∃ k n, lexeme c s = (k, n) := ⟨_, _, rfl⟩
      simp only [hlexeme, List.cons_append] at h
      obtain ⟨rfl, htail⟩ := List.cons.inj h
      rw [← ht, List.cons_append, List.cons_append, List.append_assoc] at hall
      obtain ⟨-, hs⟩ := List.cons.inj hall
      have hlength : (s.take n).length = n := by
        rw [List.length_take, Nat.min_eq_left]
        by_contra hlong
        rw [List.take_of_length_le (by omega), List.append_right_eq_self] at hs
        exact hRest (List.append_eq_nil_iff.1 hs).2
      have hdrop : s.drop n = ts.flatMap (·.text) ++ rest :=
        List.append_cancel_left ((List.take_append_drop n s).trans hs.symm)
      rw [hdrop] at htail
      obtain ⟨hfill, hus⟩ := ih htail rfl
      have hlexeme' : lexeme c (s.take n ++ (ts.flatMap (·.text) ++ rest)) =
          (k, (s.take n).length) := by rw [hs, hlength, hlexeme]
      subst ht
      exact ⟨.cons hlexeme' hfill, by simpa [Nat.add_assoc] using hus⟩

/-- Between two cuts of the tokens of a text, the part between them is filled. -/
theorem of_cuts {front : Text} {done : List Token} (hRest : rest ≠ [])
    (hFront : ofTextAt 0 (front ++ (t ++ rest)) = ts ++ ofTextAt (Text.size front) (t ++ rest))
    (hDone : ofTextAt 0 (front ++ (t ++ rest)) = done ++ us)
    (hText : done.flatMap (·.text) = front ++ t) : ∃ vs, Fill (Text.size front) t rest vs := by
  have hts : ts.flatMap (·.text) = front := by
    have hwhole := (ofTextAt_tiled 0 (front ++ (t ++ rest))).2
    rw [hFront, List.flatMap_append, (ofTextAt_tiled _ _).2] at hwhole
    exact List.append_cancel_right hwhole
  rcases List.append_eq_append_iff.1 (hDone.symm.trans hFront) with ⟨vs, rfl, -⟩ | ⟨vs, rfl, hvs⟩
  · rw [List.flatMap_append, hText, List.append_assoc, List.append_right_eq_self] at hts
    rw [(List.append_eq_nil_iff.1 hts).1]
    exact ⟨[], .nil _ _⟩
  · rw [List.flatMap_append, hts] at hText
    exact ⟨vs, (of_ofTextAt hRest hvs (List.append_cancel_left hText)).1⟩

/-- What fills a text does not depend on what follows, if this is so for the token at its end and
that token ends with a fence. -/
theorem congr {b : Char} {next : Text} (hb : Fence b) (h : Fill offset (t ++ [b]) rest ts)
    (hLast : ∀ c z k, b ∈ c :: z → lexeme c (z ++ rest) = (k, z.length) →
      lexeme c (z ++ next) = (k, z.length)) : Fill offset (t ++ [b]) next ts := by
  generalize hwhole : t ++ [b] = whole at h ⊢
  induction h generalizing t with
  | nil => exact absurd hwhole (by simp)
  | @cons offset c z u rest k ts hlexeme hfill ih =>
    rcases List.eq_nil_or_concat u with rfl | ⟨u, d, rfl⟩
    · cases hfill
      refine .cons ?_ (.nil _ _)
      apply hLast c z k _ hlexeme
      have hmem : b ∈ t ++ [b] := by simp
      rwa [hwhole, List.append_nil] at hmem
    · rw [List.concat_eq_append, ← List.append_assoc, ← List.cons_append] at hwhole
      obtain ⟨rfl, hd⟩ := List.append_inj' hwhole rfl
      obtain rfl : b = d := (List.cons.inj hd).1
      rw [List.concat_eq_append] at *
      refine .cons ?_ (ih hLast rfl)
      rw [← List.append_assoc, ← List.append_assoc, List.append_assoc _ [b],
        List.singleton_append] at hlexeme ⊢
      rw [lexeme_congr hb _ (Text.meets_cons b next), hlexeme]
      rw [hlexeme, List.length_append]
      exact Nat.le_add_right _ _

/-- What fills a text that ends in a blank does not depend on what follows, as long as that starts
with no blank. -/
theorem congr_of_isBlank {b x y : Char} {v v' : Text} (hb : Text.isBlank b = true)
    (hx : Text.isBlank x = false) (hy : Text.isBlank y = false)
    (h : Fill offset (t ++ [b]) (x :: v) ts) : Fill offset (t ++ [b]) (y :: v') ts := by
  apply h.congr (fence_of_isBlank hb)
  intro c z k hmem hlexeme
  exact lexeme_congr_of_isBlank hlexeme hmem hb hx hy v'

end Fill

end Token

end BindBlocks
