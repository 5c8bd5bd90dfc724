import Mathlib.Data.String.Basic
import TwinLisp.Proofs.Token.Layout

/-! Scanning undoes layout: the tokens of a text, their places, and what stands between them. -/

namespace TwinLisp

open Text

/-- What is written spells the lexeme it was written for. -/
theorem Lexeme.spells_written {lexeme : Lexeme} (writable : lexeme.Writable) :
    lexeme.Spells lexeme.written := by
  cases lexeme with
  | openParen => exact .openParen
  | closeParen => exact .closeParen
  | quoteMark => exact .quoteMark
  | int n => exact .int (Decimal.spells_text n)
  -- what is left is a quoted text and a name, whose characters were restricted
  | str text =>
    have spelled := Lexeme.Spells.str writable
    rwa [String.ofList_toList] at spelled
  | ident name =>
    obtain ⟨nonempty, chars, noNumber⟩ := writable
    have spelled := Lexeme.Spells.ident nonempty chars noNumber
    rwa [String.ofList_toList] at spelled

theorem Lexeme.writable_ident {name : String} (nonempty : name.toList ≠ [])
    (chars : name.toList.all Scan.isWordChar = true)
    (noNumber : Decimal.isLiteral name.toList = false) : (Lexeme.ident name).Writable :=
  ⟨nonempty, List.all_eq_true.mp chars, Decimal.not_spells_of_not_literal noNumber⟩

namespace Layout

variable {offset : Nat} {pieces : List Piece} {trailing : List Char}

/-- The width of a text is its size in bytes. -/
theorem width_eq_utf8Len (cs : List Char) : width cs = String.utf8Len cs := by
  induction cs with
  | nil => rfl
  | cons c cs ih => rw [width_cons, String.utf8Len_cons, ih, Nat.add_comm]

theorem width_toList (s : String) : width s.toList = s.utf8ByteSize := by
  rw [width_eq_utf8Len, String.utf8Len_toList]

theorem utf8ByteSize_ofList (cs : List Char) : (String.ofList cs).utf8ByteSize = width cs := by
  rw [← width_toList, String.toList_ofList]

theorem width_pos {word : List Char} (nonempty : word ≠ []) : 0 < width word := by
  obtain ⟨c, cs, rfl⟩ := List.exists_cons_of_ne_nil nonempty
  exact Nat.add_pos_left c.utf8Size_pos _

/-- Places that a span can record are recorded as they are. -/
theorem place_exact (inRange : offset + width (text pieces) < 2 ^ 32) :
    place .ofOffsets offset pieces = place .mk offset pieces := by
  induction pieces generalizing offset with
  | nil => rfl
  | cons p pieces ih =>
    rw [text_cons, width_append, width_append] at inRange
    -- an offset below the limit is not reduced
    have here : Span.ofOffsets (offset + width p.gap) (offset + width p.gap + width p.word)
        = ⟨offset + width p.gap, offset + width p.gap + width p.word⟩ := by
      unfold Span.ofOffsets Span.maxOffset
      rw [Nat.min_eq_left (by omega), Nat.min_eq_left (by omega)]
    simp only [place]
    rw [here, ih (by omega)]

/-- No token begins before the text of its piece does. -/
theorem start_of_mem_place {t : Token} (mem : t ∈ place .ofOffsets offset pieces) :
    min offset Span.maxOffset ≤ t.span.start := by
  induction pieces generalizing offset with
  | nil => cases mem
  | cons p pieces ih =>
    rcases List.mem_cons.mp mem with rfl | mem
    · simp only [Span.ofOffsets]
      omega
    · -- later pieces begin behind this one
      have := ih mem
      omega

/-- Tokens are in order, and none overlaps another one. -/
theorem pairwise_place :
    (place .ofOffsets offset pieces).Pairwise fun a b => a.span.stop ≤ b.span.start := by
  induction pieces generalizing offset with
  | nil => exact .nil
  | cons p pieces ih => exact .cons (fun t mem => start_of_mem_place mem) ih

theorem start_lt_stop {t : Token} (mem : t ∈ place .mk offset pieces) : t.span.start < t.span.stop := by
  induction pieces generalizing offset with
  | nil => cases mem
  | cons p pieces ih =>
    rcases List.mem_cons.mp mem with rfl | mem
    · exact Nat.lt_add_of_pos_right (width_pos (spells_ne_nil p.spelled))
    · exact ih mem

/-- Words with gaps between them do not run into each other. -/
theorem apart_of_gaps (gaps : ∀ p ∈ pieces.tail, p.gap ≠ []) : pieces.IsChain Apart := by
  induction pieces with
  | nil => exact .nil
  | cons p pieces ih =>
    cases pieces with
    | nil => exact .singleton p
    | cons q pieces =>
      refine .cons_cons (.inl (gaps q List.mem_cons_self)) (ih fun r mem => ?_)
      exact gaps r (List.mem_cons_of_mem q mem)

/-- In a text of less than 4 GiB no offset is cut off. -/
theorem inRange_of_size {source : String} (split : source.toList = text pieces ++ trailing)
    (small : source.utf8ByteSize < 2 ^ 32) : 0 + width (text pieces) < 2 ^ 32 := by
  rw [← width_toList, split, width_append] at small
  omega

/-- Scanning and layout are inverse. Every lexeme that can be written has a text; the texts of any
tokens, with gaps between them, are scanned into these tokens at their places. And a text that is
scanned successfully is a layout of its tokens: they are in order and do not overlap, each is the one
that its text says, only gaps are outside of them, and no token could be longer. -/
theorem scan_layout :
    (∀ lexeme : Lexeme, lexeme.Writable → lexeme.Spells lexeme.written) ∧
    (∀ pieces trailing, Trailing trailing → (∀ p ∈ pieces.tail, p.gap ≠ []) →
      (String.ofList (text pieces ++ trailing)).utf8ByteSize < 2 ^ 32 →
      Scan.tokens (String.ofList (text pieces ++ trailing)) = .ok (place .mk 0 pieces)) ∧
    ∀ source ts, Scan.tokens source = .ok ts →
      ts.Pairwise (fun a b => a.span.stop ≤ b.span.start) ∧
      ∃ pieces trailing, source = String.ofList (text pieces ++ trailing) ∧ Trailing trailing ∧
        Maximal pieces trailing ∧ ts = place .ofOffsets 0 pieces ∧
        (source.utf8ByteSize < 2 ^ 32 →
          ts = place .mk 0 pieces ∧ ∀ t ∈ ts, t.span.start < t.span.stop) := by
  refine ⟨fun lexeme => lexeme.spells_written, ?_, ?_⟩
  · intro pieces trailing ended gaps small
    rw [tokens_of_apart (apart_of_gaps gaps) ended,
      place_exact (inRange_of_size String.toList_ofList small)]
  · intro source ts scanned
    obtain ⟨pieces, trailing, split, ended, maximal, rfl⟩ := tokens_ok_iff.mp scanned
    refine ⟨pairwise_place, pieces, trailing, ?_, ended, maximal, rfl, fun small => ?_⟩
    · rw [← split, String.ofList_toList]
    · have exact_ := place_exact (inRange_of_size split small)
      rw [exact_]
      exact ⟨rfl, fun t => start_lt_stop⟩

/-- A lexeme behind a gap, in its own text. -/
def Piece.of (gap : List Char) (skipped : Gap gap) (lexeme : Lexeme) (writable : lexeme.Writable) :
    Piece :=
  ⟨gap, lexeme.written, lexeme, skipped, lexeme.spells_written writable⟩

/-- A name of two bytes, and an integer behind a comment. -/
def lambdaPieces : List Piece := [
  .of [] .nil .openParen trivial,
  .of [' '] (.blank rfl .nil) (.ident "λ") (Lexeme.writable_ident (by decide) rfl rfl),
  .of [';', 'c', '\n'] (.comment (by decide : '\n' ∉ ['c']) .nil) (.int (-7)) trivial,
  .of [' '] (.blank rfl .nil) .closeParen trivial]

theorem scan_layout_lambda :
    let ts : List Token := [
      ⟨.openParen, ⟨0, 1⟩⟩, ⟨.ident "λ", ⟨2, 4⟩⟩, ⟨.int (-7), ⟨7, 9⟩⟩, ⟨.closeParen, ⟨10, 11⟩⟩]
    Scan.tokens "( λ;c\n-7 )" = .ok ts ∧ ts.Pairwise fun a b => a.span.stop ≤ b.span.start := by
  have scanned := scan_layout.2.1 lambdaPieces [] (.gap .nil) (by decide) (by decide)
  exact ⟨scanned, (scan_layout.2.2 _ _ scanned).1⟩

end Layout

end TwinLisp
