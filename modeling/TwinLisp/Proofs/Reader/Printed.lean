import TwinLisp.Datum
import TwinLisp.Eval.Ends
import TwinLisp.Proofs.Reader.Complete
import TwinLisp.Proofs.Token.Inverse

/-!
Printed data reads back: the text of a value that is made of integers, symbols and lists is a layout
of tokens that derive a datum, and this datum is quoted as the value.
-/

namespace TwinLisp

namespace Layout

variable {p q : Piece} {pieces ps qs : List Piece} {gap gap' cs ds : List Char} {lexeme : Lexeme}

/-- The pieces are a layout of the text behind a gap, with tokens that are apart. -/
structure Lays (pieces : List Piece) (gap cs : List Char) : Prop where
  text_eq : text pieces = gap ++ cs
  first : ∃ p ps, pieces = p :: ps ∧ p.gap = gap
  apart : pieces.IsChain Apart

theorem lays_of (skipped : Gap gap) (lexeme : Lexeme) (writable : lexeme.Writable) :
    Lays [.of gap skipped lexeme writable] gap lexeme.written where
  text_eq := List.append_nil _
  first := ⟨_, [], rfl, rfl⟩
  apart := .singleton _

/-- Pieces can stand behind each other if no word runs into the next one. -/
theorem Lays.append (first : Lays ps gap cs) (rest : Lays qs gap' ds)
    (meet : ∀ p ∈ ps.getLast?, ∀ q ∈ qs.head?, Apart p q) :
    Lays (ps ++ qs) gap (cs ++ gap' ++ ds) where
  text_eq := by simp [text_append, first.text_eq, rest.text_eq]
  first := by
    obtain ⟨p, others, rfl, leading⟩ := first.first
    exact ⟨p, others ++ qs, rfl, leading⟩
  apart := List.isChain_append.mpr ⟨first.apart, rest.apart, meet⟩

/-- A gap keeps tokens apart. -/
theorem Lays.appendGap (first : Lays ps gap cs) (rest : Lays qs gap' ds) (nonempty : gap' ≠ []) :
    Lays (ps ++ qs) gap (cs ++ gap' ++ ds) := by
  refine first.append rest fun p _ q mem => .inl ?_
  obtain ⟨q', others, rfl, leading⟩ := rest.first
  cases mem
  rwa [leading]

/-- A token that is no word needs no gap behind it. -/
theorem Lays.cons (skipped : Gap gap) (lexeme : Lexeme) (writable : lexeme.Writable)
    (special : ¬∀ c ∈ lexeme.written, Scan.isWordChar c) (rest : Lays qs gap' ds) :
    Lays (.of gap skipped lexeme writable :: qs) gap (lexeme.written ++ gap' ++ ds) := by
  refine (lays_of skipped lexeme writable).append rest fun p mem q _ => .inr (.inl ?_)
  cases mem
  exact special

/-- A token that is no word needs no gap before it. -/
theorem Lays.concat (first : Lays ps gap cs) (skipped : Gap gap') (lexeme : Lexeme)
    (writable : lexeme.Writable) (special : ¬∀ c ∈ lexeme.written, Scan.isWordChar c) :
    Lays (ps ++ [.of gap' skipped lexeme writable]) gap (cs ++ gap' ++ lexeme.written) := by
  refine first.append (lays_of skipped lexeme writable) fun p _ q mem => .inr (.inr ?_)
  cases mem
  exact special

end Layout

open Layout

namespace Reader

variable {v u : Value} {vs : List Value} {gap : List Char} {ps qs : List Piece}

/-- The pieces are a layout of a value, and they are read as a datum that is this value. -/
structure Displays (v : Value) (gap : List Char) (pieces : List Piece) : Prop
    extends Lays pieces gap v.text.toList where
  derives : ∀ span offset, ∃ e, Derives .datum (place span offset pieces) e ∧ Value.quoted e = v

/-- The pieces are a layout of values with blanks between them. -/
structure DisplaysAll (vs : List Value) (gap : List Char) (pieces : List Piece) : Prop
    extends Lays pieces gap (" ".intercalate (Value.texts vs)).toList where
  derives : ∀ span offset,
    ∃ es, DerivesAll .datum (place span offset pieces) es ∧ Value.quotedAll es = vs

theorem displays_int (n : Int64) (skipped : Gap gap) :
    Displays (.int n) gap [.of gap skipped (.int n) trivial] :=
  { lays_of skipped (.int n) trivial with derives := fun _ _ => ⟨_, .int rfl, rfl⟩ }

theorem displays_sym {name : String} (writable : (Lexeme.ident name).Writable) (skipped : Gap gap) :
    Displays (.sym name) gap [.of gap skipped (.ident name) writable] :=
  { lays_of skipped (.ident name) writable with derives := fun _ _ => ⟨_, .ident rfl, rfl⟩ }

theorem displaysAll_singleton (h : Displays v gap ps) : DisplaysAll [v] gap ps where
  toLays := h.toLays
  derives span offset := by
    obtain ⟨e, derived, rfl⟩ := h.derives span offset
    refine ⟨[e], ?_, rfl⟩
    rw [← List.append_nil (place span offset ps)]
    exact .cons derived .nil

theorem intercalate_cons_cons (s t : String) (ts : List String) :
    (" ".intercalate (s :: t :: ts)).toList = s.toList ++ [' '] ++ (" ".intercalate (t :: ts)).toList := by
  rw [String.toList_intercalate, String.toList_intercalate]
  exact List.intercalate_cons_cons

theorem displaysAll_cons (first : Displays v gap ps) (rest : DisplaysAll (u :: vs) [' '] qs) :
    DisplaysAll (v :: u :: vs) gap (ps ++ qs) where
  toLays := by
    have lays := first.toLays.appendGap rest.toLays (List.cons_ne_nil _ _)
    rw [Value.texts, Value.texts, intercalate_cons_cons]
    exact lays
  derives span offset := by
    obtain ⟨e, derived, here⟩ := first.derives span offset
    -- the other elements begin where the first one ends
    obtain ⟨es, derivedAll, others⟩ := rest.derives span (offset + width (text ps))
    refine ⟨e :: es, ?_, ?_⟩
    · rw [place_append]
      exact .cons derived derivedAll
    · rw [Value.quotedAll, here, others]

theorem special_openParen : ¬∀ c ∈ Lexeme.openParen.written, Scan.isWordChar c := fun chars =>
  absurd (chars _ (List.mem_singleton_self _)) (by decide)

theorem special_closeParen : ¬∀ c ∈ Lexeme.closeParen.written, Scan.isWordChar c := fun chars =>
  absurd (chars _ (List.mem_singleton_self _)) (by decide)

theorem special_quoteMark : ¬∀ c ∈ Lexeme.quoteMark.written, Scan.isWordChar c := fun chars =>
  absurd (chars _ (List.mem_singleton_self _)) (by decide)

/-- A list is written in parentheses, its elements one blank apart. -/
theorem text_list (vs : List Value) : (Value.list vs).text.toList
    = '(' :: (" ".intercalate (Value.texts vs)).toList ++ [')'] := by
  rw [Value.text, String.toList_append, String.toList_append]
  rfl

/-- Pieces between parentheses. -/
def parens (gap : List Char) (skipped : Gap gap) (inner : List Piece) : List Piece :=
  .of gap skipped .openParen trivial :: (inner ++ [.of [] .nil .closeParen trivial])

theorem place_parens (skipped : Gap gap) (inner : List Piece) (span : Nat → Nat → Span)
    (offset : Nat) : ∃ opening closing : Token, opening.lexeme = .openParen ∧
      closing.lexeme = .closeParen ∧ place span offset (parens gap skipped inner)
        = opening :: place span (offset + width gap + 1) inner ++ [closing] := by
  let start := offset + width gap
  let stop := start + 1 + width (text inner)
  refine ⟨⟨.openParen, span start (start + 1)⟩, ⟨.closeParen, span stop (stop + 1)⟩, rfl, rfl, ?_⟩
  unfold parens
  rw [place, place_append]
  rfl

theorem derives_parens (skipped : Gap gap) (inner : List Piece) {es : List Expr}
    (span : Nat → Nat → Span) (offset : Nat)
    (items : DerivesAll .datum (place span (offset + width gap + 1) inner) es) :
    ∃ place', Derives .datum (place span offset (parens gap skipped inner)) (.list es place') := by
  obtain ⟨opening, closing, opened, closed, placed⟩ := place_parens skipped inner span offset
  refine ⟨opening.span.merge closing.span, ?_⟩
  rw [placed]
  exact .list opened (fun code => nomatch code) items closed

theorem displays_nil (skipped : Gap gap) : Displays (.list []) gap (parens gap skipped []) where
  toLays := Lays.cons skipped .openParen trivial special_openParen (lays_of .nil .closeParen trivial)
  derives span offset := by
    obtain ⟨place', derived⟩ := derives_parens skipped [] span offset .nil
    exact ⟨_, derived, rfl⟩

/-- The elements of a list are displayed within its parentheses. -/
theorem displays_list (skipped : Gap gap) (items : DisplaysAll (v :: vs) [] ps) :
    Displays (.list (v :: vs)) gap (parens gap skipped ps) where
  toLays := by
    have closed := items.toLays.concat .nil .closeParen trivial special_closeParen
    have lays := Lays.cons skipped .openParen trivial special_openParen closed
    rw [text_list]
    unfold parens
    simpa [Lexeme.written] using lays
  derives span offset := by
    obtain ⟨es, derived, quoted⟩ := items.derives span (offset + width gap + 1)
    obtain ⟨place', derived⟩ := derives_parens skipped ps span offset derived
    exact ⟨_, derived, congrArg Value.list quoted⟩

/-- Every datum is displayed behind any gap. -/
theorem exists_displays (datum : v.IsDatum) :
    ∀ {gap : List Char}, Gap gap → ∃ pieces, Displays v gap pieces := by
  induction datum with
  | int n => exact fun skipped => ⟨_, displays_int n skipped⟩
  | sym writable => exact fun skipped => ⟨_, displays_sym writable skipped⟩
  | @list items each ih =>
    intro gap skipped
    cases items with
    | nil => exact ⟨_, displays_nil skipped⟩
    | cons v vs =>
      -- the elements are displayed behind one another, by induction on how many there are
      suffices items : ∀ gap, Gap gap → ∃ pieces, DisplaysAll (v :: vs) gap pieces by
        obtain ⟨pieces, items⟩ := items [] .nil
        exact ⟨_, displays_list skipped items⟩
      clear skipped each
      induction vs generalizing v with
      | nil =>
        intro gap skipped
        obtain ⟨pieces, first⟩ := ih v List.mem_cons_self skipped
        exact ⟨pieces, displaysAll_singleton first⟩
      | cons u vs others =>
        intro gap skipped
        obtain ⟨pieces, first⟩ := ih v List.mem_cons_self skipped
        obtain ⟨more, rest⟩ := others u (fun v mem => ih v (List.mem_cons_of_mem _ mem)) [' ']
          (.blank rfl .nil)
        exact ⟨_, displaysAll_cons first rest⟩

/-- A layout of one expression is read as it. -/
theorem read_of_lays {cs : List Char} (lays : Lays ps [] cs) {e : Expr}
    (derived : Derives .code (place .ofOffsets 0 ps) e) : read (String.ofList cs) = .ok [e] := by
  have program : DerivesProgram (place .ofOffsets 0 ps) [e] := by
    rw [← List.append_nil (place .ofOffsets 0 ps)]
    exact .cons derived .nil
  -- tokens that are apart are scanned as they were laid out
  have scanned := tokens_of_apart lays.apart (.gap .nil)
  rw [List.append_nil, lays.text_eq, List.nil_append] at scanned
  unfold read
  rw [scanned]
  exact readTokens_of_derives program _

theorem writable_quote : (Lexeme.ident "quote").Writable :=
  Lexeme.writable_ident (by decide) rfl rfl

/-- Behind an apostrophe the text of a datum is read as that datum. -/
theorem read_short (displayed : Displays v [] ps) :
    ∃ e place', read ("'" ++ v.text) = .ok [.quote e .short place'] ∧ Value.quoted e = v := by
  obtain ⟨e, derived, quoted⟩ := displayed.derives .ofOffsets (0 + 1)
  have lays := Lays.cons .nil .quoteMark trivial special_quoteMark displayed.toLays
  obtain ⟨place', derived⟩ : ∃ place', Derives .code
      (place .ofOffsets 0 (.of [] .nil .quoteMark trivial :: ps)) (.quote e .short place') :=
    ⟨_, .quoted rfl derived⟩
  have whole : String.ofList (Lexeme.quoteMark.written ++ [] ++ v.text.toList) = "'" ++ v.text := by
    rw [String.ofList_append, String.ofList_toList]
    rfl
  exact ⟨e, place', whole ▸ read_of_lays lays derived, quoted⟩

/-- In a `quote` list the text of a datum is read as that datum. -/
theorem read_long (displayed : Displays v [' '] ps) :
    ∃ e place', read ("(quote " ++ v.text ++ ")") = .ok [.quote e .long place'] ∧
      Value.quoted e = v := by
  let head : Piece := .of [] .nil (.ident "quote") writable_quote
  obtain ⟨e, derived, quoted⟩ := displayed.derives .ofOffsets (0 + width [] + 1 + width head.word)
  -- the word and the datum are kept apart by the blank, parentheses need none
  have words := (lays_of .nil (.ident "quote") writable_quote).appendGap displayed.toLays
    (List.cons_ne_nil _ _)
  have closed := words.concat .nil .closeParen trivial special_closeParen
  have lays := Lays.cons .nil .openParen trivial special_openParen closed
  obtain ⟨opening, closing, opened, closed, placed⟩ := place_parens .nil (head :: ps) .ofOffsets 0
  obtain ⟨place', derived⟩ : ∃ place', Derives .code
      (place .ofOffsets 0 (parens [] .nil (head :: ps))) (.quote e .long place') := by
    refine ⟨opening.span.merge closing.span, ?_⟩
    rw [placed]
    exact .longQuoted opened rfl derived closed
  have whole : String.ofList (Lexeme.openParen.written ++ [] ++ ((Lexeme.ident "quote").written ++ [' ']
      ++ v.text.toList ++ [] ++ Lexeme.closeParen.written)) = "(quote " ++ v.text ++ ")" := by
    apply String.toList_injective
    simp [Lexeme.written]
  exact ⟨e, place', whole ▸ read_of_lays lays derived, quoted⟩

end Reader

namespace Eval

/-- Quoted data is what it is, in one step. -/
theorem eval_quote (config : Config) (e : Expr) (style : QuoteStyle) (span : Span) (w : World) :
    eval config (.quote e style span) w = .ok (.quoted e) w :=
  rfl

/-- A quotation is evaluated without a step of anything else. -/
theorem ends_quote (config : Config) (e : Expr) (style : QuoteStyle) (span : Span) (w : World) :
    Ends config [.quote e style span] w (.ok (.quoted e) w) :=
  ⟨nofun, 1, rfl⟩

/-- Printed data reads back: quoted in either way, the text of a datum is read as one expression, and
that yields the datum and changes nothing. -/
theorem reads_back {v : Value} (datum : v.IsDatum) :
    ∀ source ∈ ["'" ++ v.text, "(quote " ++ v.text ++ ")"], ∃ e, Reader.read source = .ok [e] ∧
      ∀ config w, eval config e w = .ok v w ∧ Ends config [e] w (.ok v w) := by
  -- a quotation yields what it quotes, in any world
  have yields {source : String} {style : QuoteStyle}
      (read : ∃ e span, Reader.read source = .ok [.quote e style span] ∧ Value.quoted e = v) :
      ∃ e, Reader.read source = .ok [e] ∧
        ∀ config w, eval config e w = .ok v w ∧ Ends config [e] w (.ok v w) := by
    obtain ⟨e, span, read, rfl⟩ := read
    exact ⟨_, read, fun config w =>
      ⟨eval_quote config e style span w, ends_quote config e style span w⟩⟩
  obtain ⟨pieces, short⟩ := Reader.exists_displays datum .nil
  obtain ⟨pieces', long⟩ := Reader.exists_displays datum (.blank (c := ' ') rfl .nil)
  intro source mem
  rcases List.mem_pair.mp mem with rfl | rfl
  · exact yields (Reader.read_short short)
  · exact yields (Reader.read_long long)

/-- `(let () (quote -9223372036854775808))` as data. -/
def letDatum : Value :=
  .list [.sym "let", .list [], .list [.sym "quote", .int Int64.minValue]]

theorem reads_back_letDatum : letDatum.IsDatum ∧
    letDatum.text = "(let () (quote -9223372036854775808))" ∧
    ∃ e, Reader.read "'(let () (quote -9223372036854775808))" = .ok [e] ∧
      eval {} e (.initial .buffer) = .ok letDatum (.initial .buffer) := by
  have word : (Lexeme.ident "let").Writable := Lexeme.writable_ident (by decide) rfl rfl
  have datum : letDatum.IsDatum :=
    .list (by simp [Value.IsDatum.sym word, Value.IsDatum.sym Reader.writable_quote, Value.IsDatum.int,
      Value.IsDatum.list])
  obtain ⟨e, read, yields⟩ := reads_back datum _ List.mem_cons_self
  exact ⟨datum, rfl, e, read, (yields {} (.initial .buffer)).1⟩

end Eval

end TwinLisp
