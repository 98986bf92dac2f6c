import BindBlocks.Proofs.Tiling

/-! The grammar of literals that nest. `Body` says what may stand between an opener and the
character that closes it: a template holds expressions in braces, and an expression holds braces,
templates and quotes of its own. A scan with other openers still to close reads one body for each of
them (`Bodies`), so the first body that is closed is the one that is measured, and a text without
one is measured whole. -/

namespace BindBlocks

namespace Opener

/-- What stands between an opener and the character that closes it. -/
inductive Body : Opener → Text → Prop
  | nil (o : Opener) : Body o []
  | escape {o : Opener} {t : Text} (c : Char) : Body o t → Body o ('\\' :: c :: t)
  | quoted {close c : Char} {t : Text} : c ≠ '\\' → c ≠ close → Body (.quote close) t →
      Body (.quote close) (c :: t)
  | embedded {e t : Text} : Body .brace e → Body .template t →
      Body .template ('$' :: '{' :: (e ++ '}' :: t))
  | plain {c : Char} {t : Text} : c ≠ '\\' → c ≠ '\x60' → (c = '$' → t.head? ≠ some '{') →
      Body .template t → Body .template (c :: t)
  | braces {e t : Text} : Body .brace e → Body .brace t → Body .brace ('{' :: (e ++ '}' :: t))
  | template {b t : Text} : Body .template b → Body .brace t →
      Body .brace ('\x60' :: (b ++ '\x60' :: t))
  | string {quote : Char} {u t : Text} : quote ∈ ['\x27', '\x22'] → Body (.quote quote) u →
      Body .brace t → Body .brace (quote :: (u ++ quote :: t))
  | code {c : Char} {t : Text} : c ∉ ['{', '}', '\x60', '\x27', '\x22', '\\'] → Body .brace t →
      Body .brace (c :: t)

/-- Bodies of several openers from the innermost one outwards, each closed but the outermost. -/
def Bodies : Opener → List Opener → Text → Prop
  | top, [], t => Body top t
  | top, outer :: rest, t => ∃ b u, t = b ++ top.close :: u ∧ Body top b ∧ Bodies outer rest u

/-- A size is that of the first body that is closed, with a byte for the character that closes it;
and that of the whole text if there is none. -/
structure Measures (o : Opener) (s : Text) (size : Nat) : Prop where
  closed : ∀ b t, o.Body b → s = b ++ o.close :: t → size = Text.size b + 1
  unclosed : (∀ b t, o.Body b → s ≠ b ++ o.close :: t) → size = Text.size s

theorem move_close (o : Opener) : o.move o.close = .leave := by
  cases o with
  | quote close => exact if_pos rfl
  | template => rfl
  | brace => rfl

theorem move_brace_eq_stay_iff {c : Char} :
    Opener.brace.move c = .stay ↔ c ∉ ['{', '}', '\x60', '\x27', '\x22'] := by
  simp only [move]
  split_ifs <;> simp_all

section Scan

variable {o : Opener} {below : List Opener}

/-- The character that closes an opener is neither an escape nor part of an opening. -/
theorem bodyLength_close_eq (hClose : o.close ≠ '\\') (t : Text) :
    bodyLength o below (o.close :: t) =
      (step? o below o.close).elim 0 fun s => 1 + bodyLength s.1 s.2 t := by
  refine bodyLength_cons hClose ?_
  rintro u rfl hdollar
  exact absurd hdollar (by decide)

theorem bodyLength_close (hClose : o.close ≠ '\\') (t : Text) :
    bodyLength o [] (o.close :: t) = 0 := by
  rw [bodyLength_close_eq hClose]
  simp only [step?, move_close, Option.elim_none]

theorem bodyLength_close_cons (hClose : o.close ≠ '\\') (outer : Opener) (t : Text) :
    bodyLength o (outer :: below) (o.close :: t) = 1 + bodyLength outer below t := by
  rw [bodyLength_close_eq hClose]
  simp only [step?, move_close, Option.elim_some]

theorem bodyLength_stay {c : Char} {t : Text} (hMove : o.move c = .stay) (hEscape : c ≠ '\\')
    (hDollar : o = .template → c = '$' → t.head? ≠ some '{') :
    bodyLength o below (c :: t) = 1 + bodyLength o below t := by
  rw [bodyLength_cons hEscape]
  · simp only [step?, hMove, Option.elim_some]
  · rintro u ho hc rfl
    exact hDollar ho hc rfl

/-- A text is counted in full, whatever follows it. -/
def Passed (o : Opener) (front : Text) : Prop :=
  ∀ below t, bodyLength o below (front ++ t) = front.length + bodyLength o below t

/-- A text is counted in full before the character that closes the opener. -/
def Counted (o : Opener) (b : Text) : Prop :=
  ∀ below t, bodyLength o below (b ++ o.close :: t) = b.length + bodyLength o below (o.close :: t)

theorem Passed.append {front b : Text} (h : Passed o front) (hb : Counted o b) :
    Counted o (front ++ b) := by
  intro below t
  rw [List.append_assoc, h, hb, List.length_append, Nat.add_assoc]

theorem passed_escape (o : Opener) (c : Char) : Passed o ['\\', c] := fun _ _ => by
  rw [List.cons_append, List.singleton_append, bodyLength]
  rfl

theorem passed_stay {c : Char} (hMove : o.move c = .stay) (hEscape : c ≠ '\\')
    (hTemplate : o ≠ .template) : Passed o [c] := fun _ _ =>
  bodyLength_stay hMove hEscape fun ho => absurd ho hTemplate

theorem Counted.leave {b : Text} (h : Counted o b) (hClose : o.close ≠ '\\') (outer : Opener)
    (below : List Opener) (t : Text) :
    bodyLength o (outer :: below) (b ++ o.close :: t) =
      b.length + 1 + bodyLength outer below t := by
  rw [h, bodyLength_close_cons hClose, Nat.add_assoc]

theorem Counted.embedded {e : Text} (h : Counted .brace e) :
    Passed .template ('$' :: '{' :: (e ++ ['}'])) := by
  intro below t
  have hinner := h.leave (by decide) .template below t
  simp only [List.cons_append, List.append_assoc, List.nil_append, List.length_cons,
    List.length_append, List.length_nil, bodyLength]
  rw [show '}' = Opener.brace.close from rfl, hinner]
  omega

/-- A body inside an expression is passed with the characters that open and close it. -/
theorem Counted.nested {inner : Opener} {b : Text} {c : Char} (h : Counted inner b)
    (hClose : inner.close ≠ '\\') (hMove : Opener.brace.move c = .enter inner)
    (hEscape : c ≠ '\\') : Passed .brace (c :: (b ++ [inner.close])) := by
  intro below t
  simp only [List.cons_append, List.append_assoc, List.nil_append, List.length_cons,
    List.length_append, List.length_nil]
  rw [bodyLength_cons hEscape (by simp)]
  simp only [step?, hMove, Option.elim_some]
  rw [h.leave hClose]
  omega

theorem move_quote {quote : Char} (h : quote ∈ ['\x27', '\x22']) :
    Opener.brace.move quote = .enter (.quote quote) ∧ quote ≠ '\\' := by
  simp only [List.mem_cons, List.not_mem_nil, or_false] at h
  rcases h with rfl | rfl <;> decide

/-- A body is counted in full. -/
theorem Body.counted {b : Text} (h : o.Body b) (hClose : o.close ≠ '\\') : Counted o b := by
  induction h with
  | nil o => exact fun below t => by simp
  | escape c _ ih => exact (passed_escape _ c).append (ih hClose)
  | quoted hescape hquote _ ih =>
    exact (passed_stay (by simp [move, hquote]) hescape (by simp)).append (ih hClose)
  | embedded _ _ ihe ih =>
    simpa using (ihe (by decide)).embedded.append (ih hClose)
  | @plain c t hescape hclose hdollar _ ih =>
    intro below u
    rw [List.cons_append, bodyLength_stay (by simp [move, hclose]) hescape, ih hClose]
    · simp only [List.length_cons]
      omega
    · intro _ hc
      cases t with
      | nil => simp [close]
      | cons d t => exact hdollar hc
  | braces _ _ ihe ih =>
    have hfront := (ihe (by decide)).nested (by decide) (c := '{') rfl (by decide)
    simpa [close] using hfront.append (ih hClose)
  | template _ _ ihb ih =>
    have hfront := (ihb (by decide)).nested (by decide) (c := '\x60') rfl (by decide)
    simpa [close] using hfront.append (ih hClose)
  | string hquote _ _ ihu ih =>
    obtain ⟨hmove, hescape⟩ := move_quote hquote
    have hfront := (ihu hescape).nested hescape hmove hescape
    simpa [close] using hfront.append (ih hClose)
  | @code c t hplain _ ih =>
    obtain ⟨hescape, hmove⟩ : c ≠ '\\' ∧ Opener.brace.move c = .stay := by
      rw [move_brace_eq_stay_iff]
      simp_all
    exact (passed_stay hmove hescape (by simp)).append (ih hClose)

end Scan

section Parse

/-- What a body may be preceded by, the bodies of several openers may be preceded by. -/
theorem Bodies.prepend {top : Opener} {below : List Opener} {t : Text} (h : Bodies top below t)
    (front : Text) (hFront : ∀ b, b <+: t → top.Body b → top.Body (front ++ b)) :
    Bodies top below (front ++ t) := by
  cases below with
  | nil => exact hFront t (List.prefix_refl t) h
  | cons outer rest =>
    obtain ⟨b, u, rfl, hb, hu⟩ := h
    exact ⟨front ++ b, u, by simp, hFront b (List.prefix_append b _) hb, hu⟩

theorem Body.stay {o : Opener} {b : Text} {c : Char} (h : o.Body b) (hMove : o.move c = .stay)
    (hEscape : c ≠ '\\') (hDollar : o = .template → c = '$' → b.head? ≠ some '{') :
    o.Body (c :: b) := by
  cases o with
  | quote close =>
    refine .quoted hEscape (fun hclose => ?_) h
    simp [move, hclose] at hMove
  | template =>
    refine .plain hEscape (fun hclose => ?_) (hDollar rfl) h
    simp [move, hclose] at hMove
  | brace =>
    have hplain := move_brace_eq_stay_iff.1 hMove
    exact .code (by simp_all) h

theorem Body.enter {o inner : Opener} {b t : Text} {c : Char} (hMove : o.move c = .enter inner)
    (hb : inner.Body b) (ht : o.Body t) : o.Body (c :: (b ++ inner.close :: t)) := by
  cases o with
  | quote | template =>
    simp only [move] at hMove
    split_ifs at hMove
  | brace =>
    simp only [move] at hMove
    split_ifs at hMove with hopen _ htick hquote
    · obtain rfl := hopen
      obtain rfl := Move.enter.inj hMove
      exact .braces hb ht
    · obtain rfl := htick
      obtain rfl := Move.enter.inj hMove
      exact .template hb ht
    · obtain rfl := Move.enter.inj hMove
      exact .string (by simpa using hquote) hb ht

/-- What a scan counts before it closes the outermost opener is a body for each opener. -/
theorem bodies_take {top : Opener} {below : List Opener} {t : Text}
    (h : bodyLength top below t < t.length) :
    Bodies top below (t.take (bodyLength top below t)) := by
  fun_induction bodyLength top below t with
  | case1 => exact absurd h (by simp)
  | case2 => exact absurd h (by simp)
  | case3 top below c t ih =>
    have hrest := ih (by simp only [List.length_cons] at h; omega)
    rw [Nat.add_comm, List.take_succ_cons, List.take_succ_cons]
    exact hrest.prepend ['\\', c] fun b _ hb => .escape c hb
  | case4 below t ih =>
    obtain ⟨e, u, htake, he, hu⟩ := ih (by simp only [List.length_cons] at h; omega)
    rw [Nat.add_comm, List.take_succ_cons, List.take_succ_cons, htake]
    have hfront := hu.prepend ('$' :: '{' :: (e ++ ['}'])) fun b _ hb => by
      simpa using Body.embedded he hb
    simpa [close] using hfront
  | case5 top below c t hend hpair hdollar hmove ih =>
    have hrest := ih (by simp only [List.length_cons] at h; omega)
    have hescape : c ≠ '\\' := by
      rintro rfl
      cases t with
      | nil => exact hend rfl rfl
      | cons d t => exact hpair d t rfl rfl
    rw [Nat.add_comm, List.take_succ_cons]
    refine hrest.prepend [c] fun b hprefix hb => hb.stay hmove hescape ?_
    intro htop hc hhead
    obtain ⟨w, hw⟩ := hprefix.trans (List.take_prefix _ t)
    obtain ⟨b, rfl⟩ := List.head?_eq_some_iff.1 hhead
    exact hdollar (b ++ w) htop hc hw.symm
  | case6 top below c t hend hpair hdollar inner hmove ih =>
    obtain ⟨b, u, htake, hb, hu⟩ := ih (by simp only [List.length_cons] at h; omega)
    rw [Nat.add_comm, List.take_succ_cons, htake]
    have hfront := hu.prepend (c :: (b ++ [inner.close])) fun b' _ hb' => by
      simpa using Body.enter hmove hb hb'
    simpa using hfront
  | case7 top c t hend hpair hdollar hmove => exact .nil top
  | case8 top c t hend hpair hdollar hmove outer rest ih =>
    have hrest := ih (by simp only [List.length_cons] at h; omega)
    rw [Nat.add_comm, List.take_succ_cons, eq_close_of_move hmove]
    exact ⟨[], _, rfl, .nil top, hrest⟩

end Parse

/-- A literal has the size that the grammar says, if its opener is not closed by the escape. -/
theorem literalSize_measures {o : Opener} (hClose : o.close ≠ '\\') (s : Text) :
    o.Measures s (o.literalSize s) where
  closed := by
    rintro b t hb rfl
    have hbody : bodyLength o [] (b ++ o.close :: t) = b.length := by
      rw [hb.counted hClose, bodyLength_close hClose, Nat.add_zero]
    rw [literalSize, hbody, List.take_left, if_pos (by simp)]
  unclosed := by
    intro hnone
    have hbody : bodyLength o [] s = s.length := by
      rcases bodyLength_ends o [] s with hall | ⟨front, rest, hsplit, hlength⟩
      · exact hall
      · rw [List.getLastD_nil] at hsplit
        have hfront : s.take (bodyLength o [] s) = front := by
          rw [← hlength, hsplit, List.take_left]
        have hparsed : Bodies o [] front := by
          rw [← hfront]
          exact bodies_take (by rw [← hlength, hsplit]; simp)
        exact absurd hsplit (hnone front rest hparsed)
    rw [literalSize, hbody, List.take_length, if_neg (Nat.lt_irrefl _), Nat.add_zero]

/-- Templates and template expressions are measured by their grammar: up to and with the character
that closes the first body, and to the end of the text if no body is closed. -/
theorem template_sizes (s : Text) :
    Opener.template.Measures s (Opener.template.literalSize s) ∧
      Opener.brace.Measures s (Opener.brace.literalSize s) :=
  ⟨literalSize_measures (by decide) s, literalSize_measures (by decide) s⟩

/-- An expression is not closed by the braces of a string and of a template inside it. -/
theorem template_sizes_nested :
    let b := ['a', '$', '{', '\x27', '}', '\x27', '\x60', '}', '\x60', '}', 'b']
    Body .template b ∧ Opener.template.literalSize (b ++ '\x60' :: ['c']) = 12 := by
  intro b
  have hstring : Body (.quote '\x27') ['}'] := .quoted (by decide) (by decide) (.nil _)
  have htemplate : Body .template ['}'] := .plain (by decide) (by decide) (by decide) (.nil _)
  have hinside := Body.string (by decide) hstring (.template htemplate (.nil _))
  have hbehind : Body .template ['b'] := .plain (by decide) (by decide) (by decide) (.nil _)
  have hbody : Body .template b :=
    .plain (by decide) (by decide) (by decide) (.embedded hinside hbehind)
  exact ⟨hbody, (template_sizes _).1.closed b ['c'] hbody rfl⟩

end Opener

end BindBlocks
