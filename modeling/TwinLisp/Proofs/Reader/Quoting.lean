import Mathlib.Logic.Relation
import TwinLisp.Proofs.Reader.Alike
import TwinLisp.Proofs.Reader.Answered
import TwinLisp.Proofs.Reader.Layout
import TwinLisp.Proofs.Reader.Printed
import TwinLisp.Reader.Respelling

/-!
Quoting does not depend on how a tree was read: the text of an expression, quoted as it stands, yields
the data that its tree is quoted as, and so does every other spelling of the quotations in it.
-/

namespace TwinLisp

open Layout Scan

namespace Layout

variable {gap gap' trailing : List Char} {pieces : List Piece}

/-- Pieces that are placed elsewhere are the same lexemes. -/
theorem displaced_place (pieces : List Piece) (span span' : Nat → Nat → Span) (offset offset' : Nat) :
    Reader.Displaced (place span offset pieces) (place span' offset' pieces) := by
  induction pieces generalizing offset offset' with
  | nil => exact .nil
  | cons p ps ih => exact .cons rfl (ih _ _)

/-- Pieces in a `quote` list, with a blank before the first of them. -/
def quoteList (gap : List Char) (skipped : Gap gap) (inner : List Piece) (gap' : List Char)
    (skipped' : Gap gap') : List Piece :=
  .of gap skipped .openParen trivial :: .of [] .nil (.ident "quote") Reader.writable_quote ::
    (indent [' '] gap_space inner ++ [.of gap' skipped' .closeParen trivial])

theorem text_quoteList (skipped : Gap gap) (skipped' : Gap gap') (nonempty : pieces ≠ []) :
    text (quoteList gap skipped pieces gap' skipped')
      = gap ++ "(quote ".toList ++ text pieces ++ gap' ++ ")".toList := by
  unfold quoteList
  rw [text_cons, text_cons, text_append, text_indent _ nonempty]
  simp [Piece.of, Lexeme.written, text]

/-- Behind a gap, a character that is in no word does not continue one either. -/
theorem ends_of_gap (skipped : Gap gap) {c : Char} (special : isWordChar c = false) (rest : List Char) :
    ∀ c' ∈ (gap ++ c :: rest).head?, isWordChar c' = false := by
  intro c' first
  cases gap with
  | nil =>
    cases first
    exact special
  | cons _ _ => exact head_gap skipped first

/-- The tokens of a `quote` list are as long as can be if those in it are. -/
theorem maximal_quoteList (skipped : Gap gap) (skipped' : Gap gap') (nonempty : pieces ≠ [])
    (maximal : Maximal pieces trailing) (rest : List Char) :
    Maximal (quoteList gap skipped pieces gap' skipped') rest := by
  let head : List Piece :=
    [.of gap skipped .openParen trivial, .of [] .nil (.ident "quote") Reader.writable_quote]
  let close : Piece := .of gap' skipped' .closeParen trivial
  -- a parenthesis ends with itself, and the blank behind `quote` ends that word
  have front : Maximal head [] := by
    refine maximal_of_apart ?_ (.gap .nil)
    exact .cons_cons (.inr (.inl Reader.special_openParen)) (.singleton _)
  have back : Maximal [close] rest := by
    refine maximal_cons.mpr ⟨fun taken => length_le_of_spells close.spelled fun chars => ?_, maximal_nil⟩
    exact absurd chars Reader.special_closeParen
  -- where the datum ends, the gap or the parenthesis behind it ends the last word
  have inner : Maximal (indent [' '] gap_space pieces) (text [close] ++ rest) := by
    refine (maximal_indent gap_space).mpr (maximal.follow ?_)
    have closing : text [close] ++ rest = gap' ++ ')' :: rest := by
      simp [close, text, Piece.of, Lexeme.written]
    rw [closing]
    exact ends_of_gap skipped' (by decide) rest
  have whole : Maximal (head ++ (indent [' '] gap_space pieces ++ [close])) rest := by
    refine maximal_append.mpr ⟨front.follow fun c first => ?_, maximal_append.mpr ⟨inner, back⟩⟩
    rw [text_append, text_indent gap_space nonempty] at first
    cases first
    decide
  exact whole

theorem place_quoteList (skipped : Gap gap) (skipped' : Gap gap') (pieces : List Piece)
    (span : Nat → Nat → Span) (offset : Nat) :
    ∃ (opening word closing : Token) (inside : Nat), opening.lexeme = .openParen ∧
      word.lexeme = .ident "quote" ∧ closing.lexeme = .closeParen ∧
      place span offset (quoteList gap skipped pieces gap' skipped')
        = opening :: (word :: place span inside pieces) ++ [closing] := by
  unfold quoteList
  simp only [place, place_append, place_indent]
  exact ⟨⟨.openParen, _⟩, ⟨.ident "quote", _⟩, ⟨.closeParen, _⟩, _, rfl, rfl, rfl, rfl⟩

end Layout

namespace Reader

variable {source source' : String} {program : List Expr} {e : Expr}

/-- The apostrophe is the one spelling of its lexeme. -/
theorem word_of_quoteMark {lexeme : Lexeme} {word : List Char} (spelled : lexeme.Spells word)
    (quotes : lexeme = .quoteMark) : word = [apostrophe] := by
  subst quotes
  cases spelled
  rfl

theorem pieces_ne_nil {pieces : List Piece} {mode : Mode} {span : Nat → Nat → Span} {offset : Nat}
    (h : Derives mode (place span offset pieces) e) : pieces ≠ [] := by
  rintro rfl
  exact h.ne_nil rfl

/-- The tokens of the datum, and those around the quotation, are as long as can be in either spelling. -/
theorem maximal_respelled {before datum after : List Piece} {mark : Piece} {trailing : List Char}
    (nonempty : datum ≠ []) (maximal : Maximal (before ++ mark :: datum ++ after) trailing) :
    Maximal (before ++ (quoteList mark.gap mark.skipped datum [] .nil ++ after)) trailing := by
  obtain ⟨front, back⟩ := maximal_append.mp maximal
  obtain ⟨front, middle⟩ := maximal_append.mp front
  have inner := maximal_quoteList mark.skipped .nil nonempty (maximal_cons.mp middle).2
  refine maximal_append.mpr ⟨front.follow ?_, maximal_append.mpr ⟨inner _, back⟩⟩
  have opened : text (quoteList mark.gap mark.skipped datum [] .nil ++ after) ++ trailing
      = mark.gap ++ '(' :: ("quote ".toList ++ text datum ++ [')'] ++ text after ++ trailing) := by
    rw [text_append, text_quoteList mark.skipped .nil nonempty]
    simp
  rw [opened]
  exact ends_of_gap mark.skipped (by decide) _

/-- Every apostrophe of a program can be written out. -/
theorem exists_respelled (h : read source = .ok program) {before rest : List Piece} {mark : Piece}
    {trailing : List Char} (split : source.toList = text (before ++ mark :: rest) ++ trailing)
    (ended : Trailing trailing) (maximal : Maximal (before ++ mark :: rest) trailing)
    (quotes : mark.lexeme = .quoteMark) : ∃ datum after, rest = datum ++ after ∧
      Respelled source (writtenOut before mark datum after trailing) := by
  -- what is read behind the mark is the datum that belongs to it
  rw [read_of_layout split ended maximal, place_append] at h
  obtain ⟨zs, us, d, behind, datum⟩ := (derives_of_readTokens h).answered _ _ _ rfl quotes
  obtain ⟨ps, qs, rfl, rfl⟩ := place_eq_append behind
  have maximal : Maximal (before ++ mark :: ps ++ qs) trailing := by simpa using maximal
  have respelled := Respelled.intro ended maximal quotes _ datum
  have whole : source = String.ofList
      (text before ++ mark.gap ++ [apostrophe] ++ text ps ++ text qs ++ trailing) := by
    apply String.toList_injective
    simp [split, text_append, text_cons, word_of_quoteMark mark.spelled quotes]
  rw [whole]
  exact ⟨ps, qs, rfl, respelled⟩

/-- A program is the same data, however its quotations are spelled. -/
theorem read_of_respelled (respelled : Respelled source source') (h : read source = .ok program) :
    ∃ program', read source' = .ok program' ∧
      Value.quotedAll program' = Value.quotedAll program := by
  obtain @⟨before, mark, datum, after, trailing, ended, maximal, quotes, offset, d, derived⟩ := respelled
  have nonempty := pieces_ne_nil derived
  have shortSplit : (String.ofList (text before ++ mark.gap ++ [apostrophe] ++ text datum ++ text after
      ++ trailing)).toList = text (before ++ mark :: datum ++ after) ++ trailing := by
    simp [text_append, text_cons, word_of_quoteMark mark.spelled quotes]
  have longSplit : (writtenOut before mark datum after trailing).toList
      = text (before ++ (quoteList mark.gap mark.skipped datum [] .nil ++ after)) ++ trailing := by
    simp [writtenOut, text_append, text_quoteList mark.skipped .nil nonempty]
  -- both texts are read by their pieces; only the spans and the tokens of the quotation differ
  rw [read_of_layout shortSplit ended maximal, place_append, place_append, List.append_assoc] at h
  rw [read_of_layout longSplit ended (maximal_respelled nonempty maximal), place_append, place_append]
  obtain ⟨opening, word, closing, inside, opened, named, closed, placed⟩ := place_quoteList
    mark.skipped .nil datum .ofOffsets (0 + width (text before))
  obtain ⟨d', derived', -⟩ := derived.as_datum (displaced_place datum _ .ofOffsets _ _)
  rw [placed]
  exact readTokens_respelled quotes derived' (displaced_place datum _ _ _ _) opened named closed
    (displaced_place after _ _ _ _) h _

theorem DerivesAll.of_singleton {mode : Mode} {ts : List Token} (h : DerivesAll mode ts [e]) :
    Derives mode ts e := by
  cases h with
  | cons first rest =>
    cases rest
    rwa [List.append_nil]

/-- A text that is read as one expression consists of pieces that derive it. -/
theorem derives_of_read (h : read source = .ok [e]) : ∃ pieces trailing,
    source.toList = text pieces ++ trailing ∧ Trailing trailing ∧ Maximal pieces trailing ∧
      Derives .code (place .ofOffsets 0 pieces) e := by
  obtain ⟨pieces, trailing, split, ended, maximal⟩ := layout_of_read h
  rw [read_of_layout split ended maximal] at h
  exact ⟨pieces, trailing, split, ended, maximal, DerivesAll.of_singleton (derives_of_readTokens h)⟩

/-- Behind an apostrophe the text of an expression is read as a datum. -/
theorem read_apostrophe (h : read source = .ok [e]) : ∃ d span,
    read ("'" ++ source) = .ok [.quote d .short span] ∧ Value.quoted d = Value.quoted e := by
  obtain ⟨pieces, trailing, split, ended, maximal, derived⟩ := derives_of_read h
  -- the mark needs no gap: it ends no word, and no word can begin with it
  let mark : Piece := .of [] .nil .quoteMark trivial
  have shortSplit : ("'" ++ source).toList = text (mark :: pieces) ++ trailing := by
    simp [text_cons, split, mark, Piece.of, Lexeme.written, apostrophe]
  have shortMaximal : Maximal (mark :: pieces) trailing := by
    refine maximal_cons.mpr ⟨fun taken => length_le_of_spells mark.spelled fun chars => ?_, maximal⟩
    exact absurd chars special_quoteMark
  obtain ⟨d, datum, equal⟩ := derived.as_datum
    (displaced_place pieces _ .ofOffsets _ (0 + width mark.gap + width mark.word))
  rw [read_of_layout shortSplit ended shortMaximal]
  exact ⟨d, _, readTokens_of_derives (.singleton (.quoted rfl datum)) _, equal⟩

/-- In a `quote` list the text of an expression is read as a datum; the end of the line is for a
comment that may be at the end of that text. -/
theorem read_quoteList (h : read source = .ok [e]) : ∃ d span,
    read ("(quote " ++ source ++ "\n)") = .ok [.quote d .long span] ∧
      Value.quoted d = Value.quoted e := by
  obtain ⟨pieces, trailing, split, ended, maximal, derived⟩ := derives_of_read h
  have nonempty := pieces_ne_nil derived
  have longSplit : ("(quote " ++ source ++ "\n)").toList
      = text (quoteList [] .nil pieces (trailing ++ ['\n']) ended.newline) ++ [] := by
    rw [text_quoteList .nil ended.newline nonempty]
    simp [split]
  have longMaximal := maximal_quoteList .nil ended.newline nonempty maximal []
  obtain ⟨opening, word, closing, inside, opened, named, closed, placed⟩ :=
    place_quoteList .nil ended.newline pieces .ofOffsets 0
  obtain ⟨d, datum, equal⟩ := derived.as_datum (displaced_place pieces _ .ofOffsets _ inside)
  rw [read_of_layout longSplit (.gap .nil) longMaximal, placed]
  exact ⟨d, _, readTokens_of_derives (.singleton (.longQuoted opened named datum closed)) _, equal⟩

end Reader

namespace Eval

/-- **Quoting does not depend on how the tree was read.** A text that is one expression, behind an
apostrophe or in a `quote` list, is read as data and yields what the tree of that expression is quoted
as. It is the same for every text that has apostrophes of the first one written out, and that can be
done with each of them: behind it there is a datum. -/
theorem quoted_of_read {source : String} {e : Expr} (read : Reader.read source = .ok [e]) :
    (∀ source' ∈ ["'" ++ source, "(quote " ++ source ++ "\n)"], ∃ d style span,
      Reader.read source' = .ok [.quote d style span] ∧ ∀ config w,
        eval config (.quote d style span) w = .ok (.quoted e) w ∧
          Ends config [.quote d style span] w (.ok (.quoted e) w)) ∧
    (∀ source', Relation.ReflTransGen Reader.Respelled source source' →
      ∃ e', Reader.read source' = .ok [e'] ∧ Value.quoted e' = Value.quoted e) ∧
    ∀ before mark rest trailing, source.toList = text (before ++ mark :: rest) ++ trailing →
      Trailing trailing → Layout.Maximal (before ++ mark :: rest) trailing → mark.lexeme = .quoteMark →
        ∃ datum after, rest = datum ++ after ∧
          Reader.Respelled source (Reader.writtenOut before mark datum after trailing) := by
  refine ⟨?_, ?_, fun _ _ _ _ split ended maximal quotes =>
    Reader.exists_respelled read split ended maximal quotes⟩
  · -- evaluating a quotation changes nothing, so only what is quoted is left to compare
    have yields {source' : String} {style : QuoteStyle} (read' : ∃ d span,
        Reader.read source' = .ok [.quote d style span] ∧ Value.quoted d = Value.quoted e) :
        ∃ d style span, Reader.read source' = .ok [.quote d style span] ∧ ∀ config w,
          eval config (.quote d style span) w = .ok (.quoted e) w ∧
            Ends config [.quote d style span] w (.ok (.quoted e) w) := by
      obtain ⟨d, span, read', equal⟩ := read'
      rw [← equal]
      exact ⟨d, style, span, read', fun config w =>
        ⟨eval_quote config d style span w, ends_quote config d style span w⟩⟩
    intro source' mem
    rcases List.mem_pair.mp mem with rfl | rfl
    · exact yields (Reader.read_apostrophe read)
    · exact yields (Reader.read_quoteList read)
  · intro source' respelled
    induction respelled with
    | refl => exact ⟨e, read, rfl⟩
    | tail _ once ih =>
      obtain ⟨e', read', equal⟩ := ih
      obtain ⟨program, read'', same⟩ := Reader.read_of_respelled once read'
      obtain ⟨e'', rfl, equal'⟩ := Value.eq_singleton_of_quotedAll same
      exact ⟨e'', read'', equal'.trans equal⟩

/-- The tokens of `(let () 'a)` before the apostrophe. -/
def beforeQuote : List Piece := [
  .of [] .nil .openParen trivial,
  .of [] .nil (.ident "let") (Lexeme.writable_ident (by decide) rfl rfl),
  .of [' '] gap_space .openParen trivial,
  .of [] .nil .closeParen trivial]

/-- The apostrophe, behind a blank. -/
def quoteMark : Piece := .of [' '] gap_space .quoteMark trivial

def quotedName : Piece := .of [] .nil (.ident "a") (Lexeme.writable_ident (by decide) rfl rfl)

def closing : Piece := .of [] .nil .closeParen trivial

theorem respelled_let : Reader.Respelled "(let () 'a)" "(let () (quote a))" := by
  have apart : (beforeQuote ++ quoteMark :: [quotedName] ++ [closing]).IsChain Apart := by
    refine .cons_cons (.inr (.inl Reader.special_openParen)) ?_
    refine .cons_cons (.inl (List.cons_ne_nil _ _)) ?_
    refine .cons_cons (.inr (.inl Reader.special_openParen)) ?_
    refine .cons_cons (.inl (List.cons_ne_nil _ _)) ?_
    refine .cons_cons (.inr (.inl Reader.special_quoteMark)) ?_
    refine .cons_cons (.inr (.inr Reader.special_closeParen)) ?_
    exact .singleton _
  exact @Reader.Respelled.intro beforeQuote quoteMark [quotedName] [closing] [] (.gap .nil)
    (maximal_of_apart apart (.gap .nil)) rfl 0 _ (.ident rfl)

theorem quoted_of_read_let : ∃ e, Reader.read "(let () 'a)" = .ok [e] ∧
    (∃ d style span, Reader.read "'(let () 'a)" = .ok [.quote d style span] ∧
      eval {} (.quote d style span) (.initial .buffer) = .ok (.quoted e) (.initial .buffer)) ∧
    ∃ e', Reader.read "(let () (quote a))" = .ok [e'] ∧ Value.quoted e' = Value.quoted e := by
  let e : Expr := .letIn [] [.quote (.ident "a" ⟨9, 10⟩) .short ⟨8, 10⟩] ⟨0, 11⟩
  have read : Reader.read "(let () 'a)" = .ok [e] := by rfl
  obtain ⟨d, style, span, read', yields⟩ := (quoted_of_read read).1 _ List.mem_cons_self
  have respelled := (quoted_of_read read).2.1 _ (.single respelled_let)
  exact ⟨e, read, ⟨d, style, span, read', (yields {} (.initial .buffer)).1⟩, respelled⟩

end Eval

end TwinLisp
