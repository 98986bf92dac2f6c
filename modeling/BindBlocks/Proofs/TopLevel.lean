import BindBlocks.Proofs.BlockContent

/-! Which blocks are found. A keyword is matched if a brace follows it, perhaps behind blanks and
comments, and that brace is closed. The blocks are those of the matched keywords that lie inside no
block before them: a keyword that is not matched is passed over alone, so a block inside the braces
that follow it is found, and a block hides the keywords inside it. -/

namespace BindBlocks

namespace Block

open Token (Balanced count)

theorem opened_of_closeIndex? {depth : Nat} {ts : List Token} (h : closeIndex? depth ts = none)
    (n : Nat) : count .rightBrace (ts.take n) ≤ count .leftBrace (ts.take n) + depth := by
  fun_induction closeIndex? depth ts generalizing n with
  | case1 => simp [count]
  | case2 t ts hkind => exact absurd h (by simp)
  | case3 t ts depth hkind ih =>
    exact Token.opened_cons (ih (Option.map_eq_none_iff.1 h)) (by simp [count, hkind]) n
  | case4 t ts depth hkind ih =>
    exact Token.opened_cons (ih (Option.map_eq_none_iff.1 h)) (by simp [count, hkind]) n
  | case5 t ts depth hzero hsucc hleft ih =>
    have hright : t.kind ≠ .rightBrace := by
      intro hkind
      cases depth with
      | zero => exact hzero hkind rfl
      | succ depth => exact hsucc depth hkind rfl
    have hleft : t.kind ≠ .leftBrace := hleft
    exact Token.opened_cons (ih (Option.map_eq_none_iff.1 h)) (by simp [count, hright, hleft]) n

/-- The brace that closes `depth + 1` braces is the first token up to which so many more braces are
closed than opened. -/
structure Closes (depth : Nat) (ts : List Token) (n : Nat) : Prop where
  lt : n < ts.length
  closed : count .rightBrace (ts.take (n + 1)) = count .leftBrace (ts.take (n + 1)) + depth + 1
  first : ∀ i, i < n →
    count .rightBrace (ts.take (i + 1)) ≠ count .leftBrace (ts.take (i + 1)) + depth + 1

theorem Closes.unique {depth m n : Nat} {ts : List Token} (hm : Closes depth ts m)
    (hn : Closes depth ts n) : m = n := by
  rcases Nat.lt_trichotomy m n with hlt | heq | hlt
  · exact absurd hm.closed (hn.first m hlt)
  · exact heq
  · exact absurd hn.closed (hm.first n hlt)

theorem closeIndex?_eq_some_iff {depth n : Nat} {ts : List Token} :
    closeIndex? depth ts = some n ↔ Closes depth ts n := by
  have hcloses : ∀ m, closeIndex? depth ts = some m → Closes depth ts m := by
    intro m h
    obtain ⟨close, rest, hdrop, hkind⟩ := drop_closeIndex? h
    obtain ⟨hopened, hclosed⟩ := balanced_closeIndex? h
    have hlt : m < ts.length := by
      have hlength := congrArg List.length hdrop
      rw [List.length_drop, List.length_cons] at hlength
      omega
    have htake : ts.take (m + 1) = ts.take m ++ [close] := by
      rw [List.take_add_one, ← List.head?_drop, hdrop]
      rfl
    refine ⟨hlt, ?_, fun i hi => ?_⟩
    · simp only [htake, count, List.countP_append] at hclosed ⊢
      simp [hkind]
      omega
    · have := hopened (i + 1)
      rw [List.take_take, Nat.min_eq_left (by omega)] at this
      omega
  constructor
  · exact hcloses n
  · intro h
    cases hindex : closeIndex? depth ts with
    | none =>
      have := opened_of_closeIndex? hindex (n + 1)
      have := h.closed
      omega
    | some m => rw [(hcloses m hindex).unique h]

/-- The indices of a keyword, of the brace behind it and of the brace that closes that one. -/
structure Match where
  keyword : Nat
  opening : Nat
  closing : Nat
  deriving DecidableEq, Repr

/-- From one index to another, both included, as many braces are closed as opened. -/
def Even (ts : List Token) (first last : Nat) : Prop :=
  count .rightBrace ((ts.drop first).take (last + 1 - first)) =
    count .leftBrace ((ts.drop first).take (last + 1 - first))

/-- The keyword is matched: the first token behind it that is neither blank nor a comment is a
brace, and the closing index is the first one behind the brace up to which its braces are even. -/
structure Match.Of (m : Match) (ts : List Token) : Prop where
  keyword : ts[m.keyword]?.map (·.kind) = some .gen
  opening : ts[m.opening]?.map (·.kind) = some .leftBrace
  behind : m.keyword < m.opening
  trivia : ∀ i, m.keyword < i → i < m.opening → ∀ t, ts[i]? = some t → t.kind.isTrivia = true
  inside : m.opening < m.closing ∧ m.closing < ts.length
  closed : Even ts m.opening m.closing
  first : ∀ i, m.opening < i → i < m.closing → ¬ Even ts m.opening i

/-- The matches of the outermost blocks, from left to right: every match is listed whose keyword
does not lie between the keyword and the closing brace of one that is listed before it. -/
structure TopLevel (ts : List Token) (ms : List Match) : Prop where
  rising : ms.Pairwise fun m n => m.keyword < n.keyword
  mem_iff : ∀ m, m ∈ ms ↔
    m.Of ts ∧ ∀ n ∈ ms, ¬ (n.keyword < m.keyword ∧ m.keyword ≤ n.closing)

/-- The block of a match starts with the keyword, opens at the brace and stops behind the closing
brace. -/
structure Match.Marks (m : Match) (ts : List Token) (b : Block) : Prop where
  start : ts[m.keyword]?.map (·.span.start) = some b.start
  opening : ts[m.opening]?.map (·.span.start) = some b.opening
  stop : ts[m.closing]?.map (·.span.stop) = some b.stop

/-- The tokens of a match are those of the frame. -/
structure Match.Delimits (m : Match) (ts : List Token) (f : Frame) : Prop where
  keyword : ts[m.keyword]? = some f.keyword
  opening : ts[m.opening]? = some f.opening
  closing : ts[m.closing]? = some f.closing

section Matches

variable {m n : Match} {ts pre u : List Token} {brace : Token}

/-- A keyword has one match. -/
theorem Match.Of.unique (hm : m.Of ts) (hn : n.Of ts) (hSame : m.keyword = n.keyword) : m = n := by
  have hnot : ∀ {m n : Match}, m.Of ts → n.Of ts → m.keyword = n.keyword →
      ¬ m.opening < n.opening := by
    intro m n hm hn hsame hlt
    obtain ⟨t, ht, hkind⟩ := Option.map_eq_some_iff.1 hm.opening
    have hbehind := hm.behind
    have htrivia := hn.trivia m.opening (by omega) hlt t ht
    rw [hkind] at htrivia
    exact absurd htrivia (by simp [Token.Kind.isTrivia])
  have hopening : m.opening = n.opening :=
    Nat.le_antisymm (Nat.le_of_not_lt (hnot hn hm hSame.symm)) (Nat.le_of_not_lt (hnot hm hn hSame))
  have hclosing : m.closing = n.closing := by
    have hmclosed := hm.closed
    have hnclosed := hn.closed
    rcases Nat.lt_trichotomy m.closing n.closing with hlt | heq | hlt
    · rw [hopening] at hmclosed
      exact absurd hmclosed (hn.first _ (hopening ▸ hm.inside.1) hlt)
    · exact heq
    · rw [← hopening] at hnclosed
      exact absurd hnclosed (hm.first _ (hopening ▸ hn.inside.1) hlt)
  cases m
  cases n
  simp_all

/-- The match moved on behind other tokens. -/
def Match.move (distance : Nat) (m : Match) : Match :=
  ⟨m.keyword + distance, m.opening + distance, m.closing + distance⟩

theorem getElem?_move (pre ts : List Token) (i : Nat) : (pre ++ ts)[i + pre.length]? = ts[i]? := by
  rw [List.getElem?_append_right (Nat.le_add_left _ _), Nat.add_sub_cancel]

theorem even_move (pre ts : List Token) (first last : Nat) :
    Even (pre ++ ts) (first + pre.length) (last + pre.length) ↔ Even ts first last := by
  have hdrop : (pre ++ ts).drop (first + pre.length) = ts.drop first := by
    rw [Nat.add_comm, ← List.drop_drop, List.drop_left]
  have hlength : last + pre.length + 1 - (first + pre.length) = last + 1 - first := by omega
  rw [Even, Even, hdrop, hlength]

theorem Match.Of.move (h : m.Of ts) (pre : List Token) : (m.move pre.length).Of (pre ++ ts) := by
  have hbehind := h.behind
  have hinside := h.inside
  refine ⟨(getElem?_move pre ts m.keyword).symm ▸ h.keyword,
    (getElem?_move pre ts m.opening).symm ▸ h.opening, Nat.add_lt_add_right hbehind _,
    fun i hlow hhigh t ht => ?_, ?_, (even_move pre ts _ _).2 h.closed, fun i hlow hhigh => ?_⟩
  · simp only [Match.move] at hlow hhigh
    obtain ⟨j, rfl⟩ := Nat.exists_eq_add_of_le' (show pre.length ≤ i by omega)
    rw [getElem?_move] at ht
    exact h.trivia j (by omega) (by omega) t ht
  · simp only [Match.move, List.length_append]
    omega
  · simp only [Match.move] at hlow hhigh ⊢
    obtain ⟨j, rfl⟩ := Nat.exists_eq_add_of_le' (show pre.length ≤ i by omega)
    rw [even_move]
    exact h.first j (by omega) (by omega)

/-- A match behind other tokens is one of the tokens behind them. -/
theorem Match.Of.exists_move (h : m.Of (pre ++ ts)) (hle : pre.length ≤ m.keyword) :
    ∃ n : Match, m = n.move pre.length ∧ n.Of ts := by
  obtain ⟨keyword, opening, closing⟩ := m
  have hbehind := h.behind
  have hinside := h.inside
  simp only [List.length_append] at hle hbehind hinside
  obtain ⟨k, rfl⟩ := Nat.exists_eq_add_of_le' hle
  obtain ⟨o, rfl⟩ := Nat.exists_eq_add_of_le' (show pre.length ≤ opening by omega)
  obtain ⟨c, rfl⟩ := Nat.exists_eq_add_of_le' (show pre.length ≤ closing by omega)
  refine ⟨⟨k, o, c⟩, rfl, getElem?_move pre ts k ▸ h.keyword, getElem?_move pre ts o ▸ h.opening,
    show k < o by omega, fun i hlow hhigh t ht => ?_, show o < c ∧ c < ts.length by omega,
    (even_move pre ts _ _).1 h.closed, fun i hlow hhigh => ?_⟩
  · rw [← getElem?_move pre] at ht
    exact h.trivia _ (Nat.add_lt_add_right hlow _) (Nat.add_lt_add_right hhigh _) t ht
  · rw [← even_move pre]
    exact h.first _ (Nat.add_lt_add_right hlow _) (Nat.add_lt_add_right hhigh _)

theorem Match.Delimits.move {f : Frame} (h : m.Delimits ts f) (pre : List Token) :
    (m.move pre.length).Delimits (pre ++ ts) f :=
  ⟨(getElem?_move pre ts m.keyword).trans h.keyword,
    (getElem?_move pre ts m.opening).trans h.opening,
    (getElem?_move pre ts m.closing).trans h.closing⟩

theorem Match.Delimits.marks {f : Frame} {t : Text} {b : Block} (h : m.Delimits ts f)
    (hb : f.block t = .ok b) : m.Marks ts b := by
  obtain ⟨content, -, hcontent⟩ := Fault.bind_eq_ok_iff.1 hb
  obtain rfl := Except.ok.inj hcontent
  exact ⟨congrArg (Option.map (·.span.start)) h.keyword,
    congrArg (Option.map (·.span.start)) h.opening, congrArg (Option.map (·.span.stop)) h.closing⟩

end Matches

namespace TopLevel

variable {ts : List Token} {ms ms' : List Match} {m : Match}

theorem nil : TopLevel [] [] :=
  ⟨.nil, fun _ => iff_of_false (by simp) fun h => absurd h.1.inside.2 (Nat.not_lt_zero _)⟩

theorem keyword_of_mem_move {distance : Nat} (h : m ∈ ms.map (Match.move distance)) :
    distance ≤ m.keyword := by
  obtain ⟨n, -, rfl⟩ := List.mem_map.1 h
  exact Nat.le_add_left _ _

/-- Behind other tokens, the matches that are listed are those of the tokens behind them. -/
theorem mem_move_iff (pre : List Token) (h : TopLevel ts ms) (hle : pre.length ≤ m.keyword) :
    m ∈ ms.map (Match.move pre.length) ↔
      m.Of (pre ++ ts) ∧ ∀ n ∈ ms.map (Match.move pre.length),
        ¬ (n.keyword < m.keyword ∧ m.keyword ≤ n.closing) := by
  constructor
  · intro hmem
    obtain ⟨n, hn, rfl⟩ := List.mem_map.1 hmem
    obtain ⟨hof, houtside⟩ := (h.mem_iff n).1 hn
    refine ⟨hof.move pre, fun x hx hinside => ?_⟩
    obtain ⟨y, hy, rfl⟩ := List.mem_map.1 hx
    simp only [Match.move] at hinside
    exact houtside y hy (by omega)
  · rintro ⟨hof, houtside⟩
    obtain ⟨n, rfl, hn⟩ := hof.exists_move hle
    refine List.mem_map_of_mem ((h.mem_iff n).2 ⟨hn, fun x hx hinside => ?_⟩)
    refine houtside _ (List.mem_map_of_mem hx) ?_
    simp only [Match.move]
    omega

theorem rising_move (h : TopLevel ts ms) (distance : Nat) :
    (ms.map (Match.move distance)).Pairwise fun m n => m.keyword < n.keyword :=
  List.pairwise_map.2 (h.rising.imp fun hlt => Nat.add_lt_add_right hlt distance)

/-- A token that starts no match is passed over. -/
theorem skip {t : Token} (h : TopLevel ts ms)
    (hNone : ∀ m : Match, m.keyword = 0 → ¬ m.Of (t :: ts)) :
    TopLevel (t :: ts) (ms.map (Match.move 1)) := by
  refine ⟨h.rising_move 1, fun m => ?_⟩
  by_cases hkeyword : m.keyword = 0
  · refine iff_of_false (fun hmem => ?_) fun hof => hNone m hkeyword hof.1
    have := keyword_of_mem_move hmem
    omega
  · exact h.mem_move_iff [t] (Nat.pos_of_ne_zero hkeyword)

/-- A match hides the matches inside of it. -/
theorem cons {block rest : List Token} (h : TopLevel rest ms) (hm : m.Of (block ++ rest))
    (hKeyword : m.keyword = 0) (hLength : block.length = m.closing + 1) :
    TopLevel (block ++ rest) (m :: ms.map (Match.move block.length)) := by
  have hlater : ∀ n ∈ ms.map (Match.move block.length), m.closing < n.keyword := by
    intro n hn
    have := keyword_of_mem_move hn
    omega
  refine ⟨List.pairwise_cons.2 ⟨fun n hn => ?_, h.rising_move _⟩, fun n => ?_⟩
  · have := hlater n hn
    omega
  · rw [List.mem_cons, List.forall_mem_cons]
    by_cases hinside : n.keyword ≤ m.closing
    · constructor
      · rintro (rfl | hn)
        · refine ⟨hm, fun hlt => absurd hlt.1 (Nat.lt_irrefl _), fun x hx hlt => ?_⟩
          have := hlater x hx
          omega
        · have := hlater n hn
          omega
      · rintro ⟨hof, houtside, -⟩
        exact .inl (hof.unique hm (by omega))
    · rw [or_iff_right, h.mem_move_iff block (by omega)]
      · refine and_congr_right fun _ => ?_
        rw [and_iff_right]
        omega
      · rintro rfl
        omega

/-- Whether a match is listed depends only on the matches before it. -/
theorem mem_of_agree (h : TopLevel ts ms) (h' : TopLevel ts ms')
    (hAgree : ∀ n : Match, n.keyword < m.keyword → (n ∈ ms ↔ n ∈ ms')) (hm : m ∈ ms) : m ∈ ms' := by
  obtain ⟨hof, houtside⟩ := (h.mem_iff m).1 hm
  refine (h'.mem_iff m).2 ⟨hof, fun n hn hinside => ?_⟩
  exact houtside n ((hAgree n hinside.1).2 hn) hinside

theorem unique (h : TopLevel ts ms) (h' : TopLevel ts ms') : ms = ms' := by
  have hmem : ∀ k, ∀ m : Match, m.keyword = k → (m ∈ ms ↔ m ∈ ms') := by
    intro k
    induction k using Nat.strong_induction_on with
    | _ k ih =>
      rintro m rfl
      have hagree := fun (n : Match) hlt => ih n.keyword hlt n rfl
      exact ⟨h.mem_of_agree h' hagree, h'.mem_of_agree h fun n hlt => (hagree n hlt).symm⟩
  have hnodup : ∀ {ms : List Match}, TopLevel ts ms → ms.Nodup := fun h =>
    h.rising.imp fun hlt heq => absurd (congrArg Match.keyword heq) (Nat.ne_of_lt hlt)
  have hperm : ms.Perm ms' :=
    (List.perm_ext_iff_of_nodup (hnodup h) (hnodup h')).2 fun m => hmem _ m rfl
  exact hperm.eq_of_pairwise (fun m n _ _ hmn hnm => absurd hmn (Nat.lt_asymm hnm)) h.rising
    h'.rising

end TopLevel

theorem Laid.apart {offset : Nat} {bs : List Block} {t : Text} (h : Laid offset bs t) :
    bs.Pairwise fun b c => b.stop ≤ c.start := by
  induction h with
  | rest => exact .nil
  | block _ _ _ h ih =>
    refine .cons (fun c hc => ?_) ih
    obtain ⟨front, -, -, -, hstart, -⟩ := h.exists_split hc
    rw [hstart]
    exact Nat.le_add_right _ _

end Block

end BindBlocks
