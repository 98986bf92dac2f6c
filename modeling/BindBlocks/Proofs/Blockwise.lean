import BindBlocks.Expansion.Basic
import BindBlocks.Proofs.Anchors
import BindBlocks.Proofs.Bindings
import BindBlocks.Proofs.Blocks
import Mathlib.Data.List.Perm.Basic

/-! The expansion of a file, block by block. All edits of a file are made at once; the edits of a
block are those of its content, moved, and those of its wrapping. They are spaced, so the file can
be expanded, and its code is the text between the blocks with each block rendered by itself. -/

namespace BindBlocks

namespace Edit

/-- The edit in a text that starts `distance` later. -/
def move (distance : Nat) : Edit → Edit
  | replace span text => replace ⟨span.start + distance, span.stop + distance⟩ text
  | insertLeft offset text => insertLeft (offset + distance) text
  | insertRight offset text => insertRight (offset + distance) text

variable {e : Edit} {es : List Edit} {offset distance : Nat} {t result : Text}

@[simp]
theorem start_move (distance : Nat) (e : Edit) : (e.move distance).start = e.start + distance := by
  cases e <;> rfl

@[simp]
theorem stop_move (distance : Nat) (e : Edit) : (e.move distance).stop = e.stop + distance := by
  cases e <;> rfl

@[simp]
theorem text_move (distance : Nat) (e : Edit) : (e.move distance).text = e.text := by
  cases e <;> rfl

@[simp]
theorem isReplace_move (distance : Nat) (e : Edit) : (e.move distance).isReplace = e.isReplace := by
  cases e <;> rfl

theorem shift_eq_move (hStart : e.start + distance < Offset.bound)
    (hStop : e.stop + distance < Offset.bound) : e.shift distance = .ok (e.move distance) := by
  cases e with
  | replace span text =>
    simp only [start, stop] at hStart hStop
    simp only [shift, Span.shift, Offset.add, if_pos hStart, if_pos hStop]
    rfl
  | insertLeft o text | insertRight o text =>
    simp only [start] at hStart
    simp only [shift, Offset.add, if_pos hStart]
    rfl

theorem Woven.move (h : Woven offset es t result) (distance : Nat) :
    Woven (offset + distance) (es.map (Edit.move distance)) t result := by
  induction h with
  | rest offset t => exact .rest (offset + distance) t
  | @edit offset e es kept gone t result fair hStart hStop _ ih =>
    have hfair : (e.move distance).Fair := by
      intro hreplace
      have := fair (by simpa using hreplace)
      simp only [start_move, stop_move]
      omega
    have hstart : (e.move distance).start = offset + distance + Text.size kept := by
      rw [start_move]
      omega
    have hstop : (e.move distance).stop = (e.move distance).start + Text.size gone := by
      rw [start_move, stop_move]
      omega
    rw [← stop_move] at ih
    have hwoven := Woven.edit hfair hstart hstop ih
    rwa [text_move] at hwoven

theorem Spaced.move (h : Spaced offset es t result) (distance : Nat) :
    Spaced (offset + distance) (es.map (Edit.move distance)) t result := by
  refine ⟨h.woven.move distance, ?_, ?_⟩
  · rw [List.pairwise_map]
    refine h.rising.imp fun hlt => ?_
    simp only [start_move]
    omega
  · intro e he
    obtain ⟨f, hf, rfl⟩ := List.mem_map.1 he
    have := h.before f hf
    rw [start_move]
    omega

theorem KeepsLines.move (h : e.KeepsLines offset t) (distance : Nat) :
    (e.move distance).KeepsLines (offset + distance) t := by
  obtain ⟨front, gone, back, rfl, hstart, hstop, hgone⟩ := h
  refine ⟨front, gone, back, rfl, ?_, ?_, hgone⟩
  · rw [start_move]
    omega
  · rw [start_move, stop_move]
    omega

end Edit

namespace Block

open Edit

/-- The edits for the content of a block, as edits of the text around it. -/
def innerEdits (b : Block) : List Edit :=
  (Content.edits b.content).map (Edit.move (b.opening + 1))

/-- The edits for a block from left to right. -/
def editsInOrder (b : Block) : Option Wrapping → List Edit
  | none => b.innerEdits
  | some w =>
    [.replace ⟨b.start, b.opening + 1⟩ w.opening.toList] ++ b.innerEdits ++
      [.replace ⟨b.closing, b.stop⟩ w.closing.toList]

/-- A block whose inside has ends of 32 bits is edited there. -/
theorem edits_eq {b : Block} (wrapping : Option Wrapping) (hInside : b.checkedInside = .ok b.inside)
    (hFits : b.opening + 1 + Text.size b.content < Offset.bound) :
    b.edits wrapping = .ok (b.innerEdits ++ wrapping.elim [] b.wrappingEdits) := by
  have hspaced := (Content.edits_spaced (show Text.size b.content < Offset.bound by omega)).1
  have hinner : (Content.edits b.content).mapM (Edit.shift b.inside.start) =
      .ok b.innerEdits := by
    refine mapM_eq_ok fun e he => ?_
    obtain ⟨⟨front, back, hsplit, hstart⟩, ⟨front', back', hsplit', hstop⟩⟩ :=
      hspaced.woven.ends e he
    have hsize := congrArg Text.size hsplit
    have hsize' := congrArg Text.size hsplit'
    rw [Text.size_append] at hsize hsize'
    have hinside : b.inside.start = b.opening + 1 := rfl
    exact shift_eq_move (by omega) (by omega)
  simp only [edits, hInside, bind, Except.bind, hinner]
  rfl

theorem editsInOrder_perm (b : Block) (wrapping : Option Wrapping) :
    (b.editsInOrder wrapping).Perm (b.innerEdits ++ wrapping.elim [] b.wrappingEdits) := by
  cases wrapping with
  | none => rw [editsInOrder, Option.elim_none, List.append_nil]
  | some w =>
    rw [editsInOrder, Option.elim_some, wrappingEdits, List.append_assoc, List.singleton_append]
    exact List.perm_middle.symm

/-- A block by itself: the texts of its wrapping, or else its own keyword and braces, around its
expanded content. -/
def render (b : Block) (source : Text) (wrapping : Option Wrapping) : Except Fault Text := do
  let head ← match wrapping with
    | some w => .ok w.opening.toList
    | none => Text.slice source b.start (b.opening + 1)
  let inner ← Content.expand b.content
  return head ++ inner ++ wrapping.elim ['}'] fun w => w.closing.toList

/-- The edits for a block lead to the rendered block. -/
theorem render_spaced {b : Block} {source front middle back : Text} (wrapping : Option Wrapping)
    (hSource : source =
      front ++ (['g', 'e', 'n'] ++ middle ++ ['{'] ++ b.content ++ ['}']) ++ back)
    (hStart : b.start = Text.size front)
    (hOpening : b.opening = b.start + Text.size (['g', 'e', 'n'] ++ middle))
    (hStop : b.stop = b.opening + 1 + Text.size b.content + 1)
    (hFits : Text.size b.content < Offset.bound) :
    ∃ rendered, b.render source wrapping = .ok rendered ∧
      Spaced b.start (b.editsInOrder wrapping)
        (['g', 'e', 'n'] ++ middle ++ ['{'] ++ b.content ++ ['}']) rendered := by
  have hexpand := Content.expand_eq hFits
  generalize hplain : (Content.lines b.content).flatMap Content.Line.plain = inner at hexpand
  have hinner : Spaced (b.opening + 1) b.innerEdits b.content inner := by
    have hmoved := (Content.edits_spaced hFits).1.move (b.opening + 1)
    rwa [Nat.zero_add, hplain] at hmoved
  have hhead : b.opening + 1 = b.start + Text.size (['g', 'e', 'n'] ++ middle ++ ['{']) := by
    rw [hOpening, Text.size_append _ ['{'], Nat.add_assoc]
    rfl
  have hclosing : b.closing = b.opening + 1 + Text.size b.content := by
    rw [closing]
    omega
  have hbody : b.closing =
      b.start + Text.size (['g', 'e', 'n'] ++ middle ++ ['{'] ++ b.content) := by
    rw [hclosing, hhead, Text.size_append _ b.content, Nat.add_assoc]
  cases wrapping with
  | none =>
    have hslice : Text.slice source b.start (b.opening + 1) =
        .ok (['g', 'e', 'n'] ++ middle ++ ['{']) := by
      rw [Text.slice_eq_ok_iff]
      refine ⟨front, b.content ++ ['}'] ++ back, ?_, hStart.symm, hhead.symm⟩
      rw [hSource]
      simp only [List.append_assoc]
    refine ⟨['g', 'e', 'n'] ++ middle ++ ['{'] ++ inner ++ ['}'], ?_, ?_⟩
    · rw [render, hslice, hexpand]
      rfl
    · have hspaced := ((Spaced.rest b.start _).append hhead hinner).append hbody (.rest _ ['}'])
      rwa [List.append_nil] at hspaced
  | some w =>
    refine ⟨w.opening.toList ++ inner ++ w.closing.toList, ?_, ?_⟩
    · rw [render, hexpand]
      rfl
    · have hopen := Spaced.replace b.start w.opening.toList
        (show ['g', 'e', 'n'] ++ middle ++ ['{'] ≠ [] by simp)
      have hclose := Spaced.replace b.closing w.closing.toList (show ['}'] ≠ [] by simp)
      have hstop : b.closing + Text.size ['}'] = b.stop := by
        rw [hclosing, hStop]
        rfl
      rw [← hhead] at hopen
      rw [hstop] at hclose
      exact (hopen.append hhead hinner).append hbody hclose

end Block

namespace Expansion

open Edit

/-- The text from `offset` on, with each of the blocks rendered by itself. -/
def blockwise (source : Text) (wrapping : Option Wrapping) (offset : Nat) :
    List Block → Except Fault Text
  | [] => Text.slice source offset (Text.size source)
  | b :: bs => do
    let before ← Text.slice source offset b.start
    let rendered ← b.render source wrapping
    let after ← blockwise source wrapping b.stop bs
    return before ++ rendered ++ after

theorem blockwise_spaced {source front t : Text} {offset : Nat} {bs : List Block}
    (wrapping : Option Wrapping) (hLaid : Block.Laid offset bs t) (hSource : source = front ++ t)
    (hFront : offset = Text.size front) (hFits : Text.size source < Offset.bound) :
    ∃ result, blockwise source wrapping offset bs = .ok result ∧
      Spaced offset (bs.flatMap (·.editsInOrder wrapping)) t result := by
  induction hLaid generalizing front with
  | rest offset t =>
    refine ⟨t, ?_, .rest offset t⟩
    rw [blockwise, Text.slice_eq_ok_iff]
    refine ⟨front, [], by rw [hSource, List.append_nil], hFront.symm, ?_⟩
    rw [hSource, Text.size_append, hFront]
  | @block offset b bs before middle t hStart hOpening hStop _ ih =>
    have hfront : b.start = Text.size (front ++ before) := by
      rw [hStart, hFront, Text.size_append]
    have hsize : b.stop = b.start +
        Text.size (['g', 'e', 'n'] ++ middle ++ ['{'] ++ b.content ++ ['}']) := by
      rw [hStop, hOpening]
      simp only [Text.size_append, Nat.add_assoc]
      rfl
    have hsplit : source = front ++ before ++
        (['g', 'e', 'n'] ++ middle ++ ['{'] ++ b.content ++ ['}']) ++ t := by
      rw [hSource]
      simp only [List.append_assoc]
    have hcontent : Text.size b.content < Offset.bound := by
      have hwhole := congrArg Text.size hsplit
      simp only [Text.size_append] at hwhole
      omega
    obtain ⟨rendered, hrender, hspaced⟩ :=
      Block.render_spaced wrapping hsplit hfront hOpening hStop hcontent
    generalize ['g', 'e', 'n'] ++ middle ++ ['{'] ++ b.content ++ ['}'] = block at *
    obtain ⟨after, hafter, hrest⟩ := ih hsplit (by rw [hsize, hfront, Text.size_append _ block])
    have hbefore : Text.slice source offset b.start = .ok before := by
      rw [Text.slice_eq_ok_iff]
      exact ⟨front, block ++ t, by rw [hSource]; simp only [List.append_assoc], hFront.symm,
        hStart.symm⟩
    refine ⟨before ++ rendered ++ after, ?_, ?_⟩
    · rw [blockwise, hbefore, hrender, hafter]
      rfl
    · rw [List.flatMap_cons]
      refine ((Spaced.rest offset before).append hStart hspaced).append ?_ hrest
      rw [hsize, hStart, Text.size_append, Nat.add_assoc]

/-- The revision that the code of an expansion comes from. -/
def revision (source : Text) (wrapping : Option Wrapping) : Except Fault Revision := do
  let blocks ← blocksOf source
  let edits ← blocks.mapM (Block.edits · wrapping)
  ((Draft.ofText source).pushAll edits.flatten).commit

/-- The edits of a file with the blocks, from left to right. -/
def editsInOrder (bs : List Block) (wrapping : Option Wrapping) : List Edit :=
  bs.flatMap (·.editsInOrder wrapping)

/-- The blocks stand in a file whose offsets have 32 bits, and its revision comes from their edits,
made from left to right or block by block. -/
structure Revised (source : Text) (wrapping : Option Wrapping) (bs : List Block) (r : Revision) :
    Prop where
  fits : Text.size source < Offset.bound
  blocks_eq : blocksOf source = .ok bs
  laid : Block.Laid 0 bs source
  revision_eq : revision source wrapping = .ok r
  source_eq : r.source = source
  isWeave : r.IsWeave (editsInOrder bs wrapping)
  spaced : Spaced 0 (editsInOrder bs wrapping) source r.text
  blockwise_eq : blockwise source wrapping 0 bs = .ok r.text

theorem blocksOf_laid {source : Text} (hFits : Text.size source < Offset.bound) :
    ∃ bs, blocksOf source = .ok bs ∧ Block.Laid 0 bs source := by
  unfold blocksOf
  split
  · exact Block.ofText_laid hFits
  · exact ⟨[], rfl, .rest 0 source⟩

/-- All edits of a file whose offsets have 32 bits can be made at once. -/
theorem exists_revised {source : Text} (wrapping : Option Wrapping)
    (hFits : Text.size source < Offset.bound) : ∃ bs r, Revised source wrapping bs r := by
  obtain ⟨bs, hblocks, hlaid⟩ := blocksOf_laid hFits
  obtain ⟨result, hblockwise, hspaced⟩ :=
    blockwise_spaced wrapping hlaid (List.nil_append _).symm rfl hFits
  have hedits : bs.mapM (Block.edits · wrapping) =
      .ok (bs.map fun b => b.innerEdits ++ wrapping.elim [] b.wrappingEdits) := by
    refine mapM_eq_ok fun b hb => ?_
    obtain ⟨hinside, hcontent⟩ := hlaid.checkedInside_eq hFits hb
    exact Block.edits_eq wrapping hinside hcontent
  have hperm : (editsInOrder bs wrapping).Perm
      (bs.map fun b => b.innerEdits ++ wrapping.elim [] b.wrappingEdits).flatten := by
    rw [← List.flatMap_def]
    apply List.Perm.flatMap_left
    intro b _
    exact b.editsInOrder_perm wrapping
  obtain ⟨r, hcommit, hsource, rfl, hweave⟩ := Draft.commit_spaced hspaced hperm
  refine ⟨bs, r, hFits, hblocks, hlaid, ?_, hsource, hweave, hspaced, hblockwise⟩
  simp only [revision, hblocks, bind, Except.bind, hedits]
  exact hcommit

theorem Revised.content_lt {source : Text} {wrapping : Option Wrapping} {bs : List Block}
    {r : Revision} (h : Revised source wrapping bs r) {b : Block} (hb : b ∈ bs) :
    Text.size b.content < Offset.bound := by
  have hcontent := (h.laid.checkedInside_eq h.fits hb).2
  omega

theorem Revised.ofText_eq {source : Text} {bs : List Block} {r : Revision} (settings : Settings)
    (h : Revised source settings.wrapping bs r) :
    ofText source settings = .ok
      (let table := if settings.mapped then r.table else []
      ⟨r.text, MapDocument.ofTable table source settings.header, table, bs⟩) := by
  have hrevision := h.revision_eq
  simp only [revision, h.blocks_eq, bind, Except.bind] at hrevision
  simp only [ofText, h.blocks_eq, bind, Except.bind]
  cases hedits : bs.mapM (Block.edits · settings.wrapping) with
  | error fault => exact absurd hrevision (by simp [hedits])
  | ok edits =>
    simp only [hedits] at hrevision ⊢
    rw [hrevision]
    rfl

/-- A file can be made block by block, and it is expanded to the same text if the lines of both have
numbers of 32 bits. -/
theorem code_eq_blockwise (source : Text) (settings : Settings) (hSource : source.Addressable) :
    ∃ bs code, blocksOf source = .ok bs ∧ blockwise source settings.wrapping 0 bs = .ok code ∧
      ((LineTable.ofText code).count < Offset.bound →
        ∃ x, ofText source settings = .ok x ∧ x.blocks = bs ∧ x.code = code) := by
  obtain ⟨bs, r, hrevised⟩ := exists_revised settings.wrapping hSource.size
  exact ⟨bs, r.text, hrevised.blocks_eq, hrevised.blockwise_eq,
    fun _ => ⟨_, hrevised.ofText_eq settings, rfl, rfl⟩⟩

/-- Two blocks that touch, the first with a binding, both with their delimiters replaced. -/
theorem code_eq_blockwise_touching :
    blocksOf "gen\x7bx<-f\x7dgen\x7b\x7d".toList =
        .ok [⟨0, 3, 9, "x<-f".toList⟩, ⟨9, 12, 14, []⟩] ∧
      ∃ x, ofText "gen\x7bx<-f\x7dgen\x7b\x7d".toList { wrapping := some ⟨"run(", ")"⟩ } = .ok x ∧
        x.code = "run(const x = yield* f)run()".toList := by
  have hblocks : blocksOf "gen\x7bx<-f\x7dgen\x7b\x7d".toList =
      .ok [⟨0, 3, 9, "x<-f".toList⟩, ⟨9, 12, 14, []⟩] := by decide +kernel
  have hfirst : Content.expand "x<-f".toList = .ok "const x = yield* f".toList := by
    rw [Content.expand_eq (by decide)]
    decide +kernel
  have hsecond : Content.expand [] = .ok [] := Content.expand_eq (by decide)
  have hmade : blockwise "gen\x7bx<-f\x7dgen\x7b\x7d".toList (some ⟨"run(", ")"⟩) 0
      [⟨0, 3, 9, "x<-f".toList⟩, ⟨9, 12, 14, []⟩] =
        .ok "run(const x = yield* f)run()".toList := by
    simp only [blockwise, Block.render, hfirst, hsecond]
    decide +kernel
  obtain ⟨bs, code, hbs, hcode, hx⟩ := code_eq_blockwise "gen\x7bx<-f\x7dgen\x7b\x7d".toList
    { wrapping := some ⟨"run(", ")"⟩ } (Text.addressable_of_size (by decide))
  obtain rfl := Except.ok.inj (hbs.symm.trans hblocks)
  obtain rfl := Except.ok.inj (hcode.symm.trans hmade)
  obtain ⟨x, hx, -, hcode⟩ := hx (by decide +kernel)
  exact ⟨hblocks, x, hx, hcode⟩

end Expansion

end BindBlocks
