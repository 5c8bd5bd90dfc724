import Mathlib.Data.List.Chain
import TwinLisp.Proofs.Token.Scan

/-!
Scanning and layout are inverse: a text is scanned into exactly the tokens that it is a layout of, if
no token of the layout could be longer.
-/

namespace TwinLisp

open Text Scan

namespace Layout

variable {offset : Nat} {acc ts : List Token} {cs gap word trailing taken : List Char} {p : Piece}
  {pieces : List Piece} {lexeme : Lexeme}

theorem Gap.append (first : Gap gap) (rest : Gap cs) : Gap (gap ++ cs) := by
  induction first with
  | nil => exact rest
  | blank blank _ ih => exact .blank blank ih
  | comment line _ ih =>
    rw [List.append_assoc]
    exact .comment line ih

theorem gap_space : Gap [' '] :=
  .blank rfl .nil

theorem Trailing.prepend (first : Gap gap) (rest : Trailing cs) : Trailing (gap ++ cs) := by
  cases rest with
  | gap rest => exact .gap (first.append rest)
  | comment rest line =>
    rw [← List.append_assoc]
    exact .comment (first.append rest) line

theorem text_cons : text (p :: pieces) = p.gap ++ p.word ++ text pieces := rfl

/-- What makes the first token no longer than it is, and the other ones. -/
theorem maximal_cons : Maximal (p :: pieces) trailing ↔
    (∀ taken, taken <+: p.word ++ (text pieces ++ trailing) → Lexical taken →
      taken.length ≤ p.word.length) ∧ Maximal pieces trailing := by
  constructor
  · intro h
    refine ⟨h [] p pieces rfl, fun before q after split => ?_⟩
    exact h (p :: before) q after (congrArg (p :: ·) split)
  · rintro ⟨here, others⟩ before q after split
    cases before with
    | nil =>
      obtain ⟨rfl, rfl⟩ := List.cons.inj split
      exact here
    | cons q' before => exact others before q after (List.cons.inj split).2

theorem maximal_nil : Maximal [] trailing := by
  intro before p after split
  exact absurd split (by simp)

/-- What a rule takes is one character, a string that may lack its end, or a word. -/
theorem lexical_cases (h : Lexical taken) :
    taken.length = 1 ∨
      (∃ body close, taken = '"' :: (body ++ close) ∧ '"' ∉ body ∧ close.length ≤ 1) ∨
      taken ≠ [] ∧ ∀ c ∈ taken, isWordChar c := by
  cases h with
  | openParen => exact .inl rfl
  | closeParen => exact .inl rfl
  | quoteMark => exact .inl rfl
  | int number => exact .inr (.inr (word_of_spells number))
  | str plain => exact .inr (.inl ⟨_, ['"'], rfl, plain, Nat.le_refl 1⟩)
  | openStr plain => exact .inr (.inl ⟨_, [], by rw [List.append_nil], plain, Nat.zero_le 1⟩)
  | ident nonempty chars => exact .inr (.inr ⟨nonempty, chars⟩)

/-- A string is no longer than up to its second double quote. -/
theorem length_le_of_str {body : List Char}
    (begins : taken <+: '"' :: body ++ ['"'] ++ cs) (lexical : Lexical taken) :
    taken.length ≤ ('"' :: body ++ ['"']).length := by
  rcases lexical_cases lexical with single | ⟨body', close, rfl, plain', short⟩ | ⟨nonempty, chars⟩
  · rw [single]
    exact Nat.succ_le_of_lt (Nat.succ_pos _)
  · -- a longer string would contain the quotation mark that ends this one
    refine Nat.le_of_not_lt fun longer => plain' ?_
    have begins := (List.cons_prefix_cons.mp begins).2
    have inside : body ++ ['"'] <+: body' := by
      refine List.prefix_of_prefix_length_le (List.prefix_append _ cs)
        ((List.prefix_append body' close).trans begins) ?_
      simp only [List.length_append, List.length_cons, List.length_nil] at longer ⊢
      omega
    exact inside.subset (List.mem_append_right body (List.mem_singleton_self _))
  · -- no word begins with a quotation mark
    obtain ⟨c, rest, rfl⟩ := List.exists_cons_of_ne_nil nonempty
    obtain ⟨rfl, -⟩ := List.cons_prefix_cons.mp begins
    exact absurd (chars _ List.mem_cons_self) (by decide)

/-- A word is no longer than its characters go on. -/
theorem length_le_of_word (nonempty : word ≠ []) (chars : ∀ c ∈ word, isWordChar c)
    (ends : ∀ c ∈ cs.head?, isWordChar c = false) (begins : taken <+: word ++ cs)
    (lexical : Lexical taken) : taken.length ≤ word.length := by
  rcases lexical_cases lexical with single | ⟨body, close, rfl, -, -⟩ | ⟨-, chars'⟩
  · rw [single]
    exact List.length_pos_iff.mpr nonempty
  · obtain ⟨c, rest, rfl⟩ := List.exists_cons_of_ne_nil nonempty
    obtain ⟨rfl, -⟩ := List.cons_prefix_cons.mp begins
    exact absurd (chars _ List.mem_cons_self) (by decide)
  · -- a longer word would go on with the character behind this one
    refine Nat.le_of_not_lt fun longer => ?_
    obtain ⟨more, rfl⟩ := List.prefix_of_prefix_length_le (List.prefix_append word cs) begins
      (Nat.le_of_lt longer)
    have begins := (List.prefix_append_right_inj word).mp begins
    cases more with
    | nil => simp at longer
    | cons c more =>
      obtain ⟨rest, rfl⟩ := begins
      have next := ends c rfl
      rw [chars' c (List.mem_append_right word List.mem_cons_self)] at next
      cases next

/-- No token that begins with this character takes more than it. -/
theorem length_le_of_single {c : Char} (special : isWordChar c = false) (other : c ≠ '"')
    (begins : taken <+: [c] ++ cs) (lexical : Lexical taken) : taken.length ≤ 1 := by
  rcases lexical_cases lexical with single | ⟨body, close, rfl, -, -⟩ | ⟨nonempty, chars⟩
  · exact Nat.le_of_eq single
  · exact absurd (List.cons_prefix_cons.mp begins).1.symm other
  · obtain ⟨c', rest, rfl⟩ := List.exists_cons_of_ne_nil nonempty
    obtain ⟨rfl, -⟩ := List.cons_prefix_cons.mp begins
    rw [chars _ List.mem_cons_self] at special
    cases special

/-- A token takes as much as it can, unless it is a word that goes on. -/
theorem length_le_of_spells (spelled : lexeme.Spells word)
    (ends : (∀ c ∈ word, isWordChar c) → ∀ c ∈ cs.head?, isWordChar c = false)
    (begins : taken <+: word ++ cs) (lexical : Lexical taken) : taken.length ≤ word.length := by
  cases spelled with
  | openParen => exact length_le_of_single (by decide) (by decide) begins lexical
  | closeParen => exact length_le_of_single (by decide) (by decide) begins lexical
  | quoteMark => exact length_le_of_single (by decide) (by decide) begins lexical
  | str _ => exact length_le_of_str begins lexical
  | int number =>
    obtain ⟨nonempty, chars⟩ := word_of_spells number
    exact length_le_of_word nonempty chars (ends chars) begins lexical
  | ident nonempty chars _ => exact length_le_of_word nonempty chars (ends chars) begins lexical

/-- The pieces with more of a gap before the first one. -/
def indent (gap : List Char) (skipped : Gap gap) : List Piece → List Piece
  | [] => []
  | p :: ps => { p with gap := gap ++ p.gap, skipped := skipped.append p.skipped } :: ps

theorem text_indent (skipped : Gap gap) (nonempty : pieces ≠ []) :
    text (indent gap skipped pieces) = gap ++ text pieces := by
  obtain ⟨p, ps, rfl⟩ := List.exists_cons_of_ne_nil nonempty
  simp [indent, text_cons]

/-- A gap in front does not change which words could be longer. -/
theorem maximal_indent (skipped : Gap gap) :
    Maximal (indent gap skipped pieces) trailing ↔ Maximal pieces trailing := by
  cases pieces with
  | nil => exact Iff.rfl
  | cons p ps => exact maximal_cons.trans (maximal_cons (p := p)).symm

theorem place_indent (skipped : Gap gap) (span : Nat → Nat → Span) (offset : Nat) :
    place span offset (indent gap skipped pieces) = place span (offset + width gap) pieces := by
  cases pieces with
  | nil => rfl
  | cons p ps => simp [indent, place, Nat.add_assoc]

/-- A layout of the text, whose tokens come after those before it. -/
def Laid (offset : Nat) (acc : List Token) (cs : List Char) (ts : List Token) : Prop :=
  ∃ pieces trailing, cs = text pieces ++ trailing ∧ Trailing trailing ∧ Maximal pieces trailing ∧
    ts = acc.reverse ++ place .ofOffsets offset pieces

theorem laid_trailing (trailing : Trailing cs) : Laid offset acc cs acc.reverse :=
  ⟨[], cs, rfl, trailing, maximal_nil, (List.append_nil _).symm⟩

/-- A gap belongs to the token behind it, or to what is trailing. -/
theorem Laid.afterGap (skipped : Gap gap) (rest : Laid (offset + width gap) acc cs ts) :
    Laid offset acc (gap ++ cs) ts := by
  obtain ⟨pieces, trailing, rfl, ended, maximal, rfl⟩ := rest
  -- the gap goes before the first token, or it trails
  cases pieces with
  | nil => exact ⟨[], gap ++ trailing, rfl, ended.prepend skipped, maximal_nil, rfl⟩
  | cons p pieces =>
    refine ⟨indent gap skipped (p :: pieces), trailing, ?_, ended, ?_, ?_⟩
    · rw [text_indent skipped (List.cons_ne_nil p pieces), List.append_assoc]
    · exact (maximal_indent skipped).mpr maximal
    · rw [place_indent]

/-- A token is laid where it stands, if its word ends there. -/
theorem Laid.afterToken (spelled : lexeme.Spells word)
    (ends : (∀ c ∈ word, isWordChar c) → ∀ c ∈ cs.head?, isWordChar c = false)
    (rest : Laid (offset + width word)
      (⟨lexeme, .ofOffsets offset (offset + width word)⟩ :: acc) cs ts) :
    Laid offset acc (word ++ cs) ts := by
  obtain ⟨pieces, trailing, rfl, ended, maximal, rfl⟩ := rest
  refine ⟨⟨[], word, lexeme, .nil, spelled⟩ :: pieces, trailing, ?_, ended, maximal_cons.mpr ⟨?_, maximal⟩, ?_⟩
  · simp [text_cons]
  · exact fun taken begins lexical => length_le_of_spells spelled ends begins lexical
  · simp [place]

theorem spells_ne_nil (spelled : lexeme.Spells word) : word ≠ [] := by
  cases spelled with
  | int number => exact (word_of_spells number).1
  | ident nonempty _ _ => exact nonempty
  | _ => exact List.cons_ne_nil _ _

/-- How far a word goes. -/
theorem word_split (cs : List Char) : ∃ body rest, cs = body ++ rest ∧
    (∀ c ∈ body, isWordChar c) ∧ ∀ c ∈ rest.head?, isWordChar c = false := by
  induction cs with
  | nil => exact ⟨[], [], rfl, nofun, nofun⟩
  | cons c cs ih =>
    by_cases word : isWordChar c
    · obtain ⟨body, rest, rfl, chars, ends⟩ := ih
      exact ⟨c :: body, rest, rfl, List.forall_mem_cons.mpr ⟨word, chars⟩, ends⟩
    · exact ⟨[], c :: cs, rfl, nofun, by simpa using word⟩

/-- A character that no word has begins no word. -/
theorem ends_of_special {c : Char} (special : isWordChar c = false) (body : List Char)
    (chars : ∀ c' ∈ c :: body, isWordChar c') (c' : Char) (_ : c' ∈ cs.head?) :
    isWordChar c' = false := by
  rw [chars c List.mem_cons_self] at special
  cases special

/-- What is scanned successfully is laid out. By induction on how much of the text is left. -/
theorem laid_of_scan (run : (State.between offset acc).scan cs = .ok ts) :
    Laid offset acc cs ts := by
  induction size : cs.length using Nat.strongRecOn generalizing offset acc cs with
  | ind size ih =>
  subst size
  -- behind a gap or a token less of the text is left
  have gap {gap rest : List Char} (skipped : Gap gap) (nonempty : gap ≠ []) (split : cs = gap ++ rest) :
      Laid offset acc cs ts := by
    subst split
    rw [State.scan_gap skipped] at run
    refine .afterGap skipped (ih _ ?_ run rfl)
    rw [List.length_append]
    exact Nat.lt_add_of_pos_left (List.length_pos_iff.mpr nonempty)
  have token {lexeme : Lexeme} {word rest : List Char} (spelled : lexeme.Spells word)
      (ends : (∀ c ∈ word, isWordChar c) → ∀ c ∈ rest.head?, isWordChar c = false)
      (split : cs = word ++ rest) : Laid offset acc cs ts := by
    subst split
    rw [State.scan_token spelled ends] at run
    refine .afterToken spelled ends (ih _ ?_ run rfl)
    rw [List.length_append]
    exact Nat.lt_add_of_pos_left (List.length_pos_iff.mpr (spells_ne_nil spelled))
  -- the scan would have failed
  have refused (failed : ∃ e, (State.between offset acc).scan cs = .error e) : Laid offset acc cs ts := by
    obtain ⟨e, failed⟩ := failed
    cases failed.symm.trans run
  cases cs with
  | nil =>
    cases run
    exact laid_trailing (.gap .nil)
  | cons c cs =>
    -- the first character says what begins here
    rcases State.start_cases c with blank | rfl | rfl | rfl | rfl | rfl | word | bad
    · exact gap (.blank blank .nil) (List.cons_ne_nil c []) rfl
    · by_cases line : '\n' ∈ cs
      · obtain ⟨body, rest, rfl, inside⟩ := List.eq_append_cons_of_mem line
        have split : ';' :: (body ++ '\n' :: rest) = ';' :: body ++ ['\n'] ++ rest := by simp
        exact gap (.comment inside .nil) (List.cons_ne_nil _ _) split
      · rw [State.scan_semicolon, State.scan_openComment line] at run
        cases run
        exact laid_trailing (.comment .nil line)
    · exact token .openParen (ends_of_special (by decide) []) rfl
    · exact token .closeParen (ends_of_special (by decide) []) rfl
    · exact token .quoteMark (ends_of_special (by decide) []) rfl
    · by_cases closed : '"' ∈ cs
      · obtain ⟨body, rest, rfl, plain⟩ := List.eq_append_cons_of_mem closed
        have split : '"' :: (body ++ '"' :: rest) = '"' :: body ++ ['"'] ++ rest := by simp
        exact token (.str plain) (ends_of_special (by decide) _) split
      · exact refused (State.scan_openString offset acc closed)
    · obtain ⟨body, rest, rfl, chars, ends⟩ := word_split cs
      have all : ∀ c' ∈ c :: body, isWordChar c' := List.forall_mem_cons.mpr ⟨word, chars⟩
      cases meaning : Lexeme.ofWord? (c :: body) with
      | some lexeme =>
        have spelled := (ofWord?_eq_some_iff (List.cons_ne_nil c body) all).mp meaning
        exact token spelled (fun _ => ends) rfl
      | none => exact refused (State.scan_refuseWord offset acc all meaning ends)
    · exact refused (State.scan_refuse offset acc cs bad)

theorem scan_trailing (ended : Trailing trailing) :
    (State.between offset acc).scan trailing = .ok acc.reverse := by
  cases ended with
  | gap gap =>
    rw [← List.append_nil trailing, State.scan_gap gap]
    rfl
  | comment gap line =>
    rw [State.scan_gap gap, State.scan_semicolon, State.scan_openComment line]

/-- A word that is as long as can be ends where its characters do. -/
theorem ends_of_maximal (maximal : ∀ taken, taken <+: word ++ cs →
      Lexical taken → taken.length ≤ word.length)
    (chars : ∀ c ∈ word, isWordChar c) (c : Char) (next : c ∈ cs.head?) : isWordChar c = false := by
  obtain ⟨rest, rfl⟩ := List.head?_eq_some_iff.mp next
  rw [← Bool.not_eq_true]
  intro more
  -- with the next character it would be a longer word
  have longer : Lexical (word ++ [c]) := by
    refine .ident (by simp) fun c' mem => ?_
    rcases List.mem_append.mp mem with mem | mem
    · exact chars c' mem
    · rwa [List.mem_singleton.mp mem]
  have begins : word ++ [c] <+: word ++ c :: rest := ⟨rest, by simp⟩
  have := maximal _ begins longer
  rw [List.length_append, List.length_singleton] at this
  omega

/-- What is laid out is scanned, if each token is as long as can be. -/
theorem scan_of_maximal (maximal : Maximal pieces trailing) (ended : Trailing trailing) :
    (State.between offset acc).scan (text pieces ++ trailing)
      = .ok (acc.reverse ++ place .ofOffsets offset pieces) := by
  induction pieces generalizing offset acc with
  | nil => exact (scan_trailing ended).trans (congrArg Except.ok (List.append_nil _).symm)
  | cons p pieces ih =>
    obtain ⟨here, others⟩ := maximal_cons.mp maximal
    have ends := ends_of_maximal here
    rw [text_cons, List.append_assoc, List.append_assoc, State.scan_gap p.skipped,
      State.scan_token p.spelled ends, ih others]
    simp [place]

/-- A text has the tokens of its layout in which each token is as long as can be. -/
theorem tokens_ok_iff {source : String} : Scan.tokens source = .ok ts ↔
    ∃ pieces trailing, source.toList = text pieces ++ trailing ∧ Trailing trailing ∧
      Maximal pieces trailing ∧ ts = place .ofOffsets 0 pieces := by
  constructor
  · intro run
    change (State.between 0 []).scan source.toList = .ok ts at run
    obtain ⟨pieces, trailing, split, ended, maximal, rfl⟩ := laid_of_scan run
    exact ⟨pieces, trailing, split, ended, maximal, rfl⟩
  · -- maximal munch reads the pieces as they were written
    rintro ⟨pieces, trailing, split, ended, maximal, rfl⟩
    change (State.between 0 []).scan source.toList = _
    rw [split]
    exact scan_of_maximal maximal ended

/-- Behind a token there is no more of it: there is a gap, or one of the two tokens is no word. -/
def Apart (p q : Piece) : Prop :=
  q.gap ≠ [] ∨ (¬∀ c ∈ p.word, isWordChar c) ∨ ¬∀ c ∈ q.word, isWordChar c

theorem head_gap {c : Char} (skipped : Gap gap) (first : c ∈ gap.head?) : isWordChar c = false := by
  cases skipped with
  | nil => cases first
  | blank blank _ =>
    cases first
    simp [isWordChar, isBlank_of_isSkipped blank]
  | comment =>
    cases first
    decide

/-- What trails behind the last token begins with no character of a word. -/
theorem head_trailing {c : Char} (ended : Trailing trailing) (first : c ∈ trailing.head?) :
    isWordChar c = false := by
  cases ended with
  | gap gap => exact head_gap gap first
  | @comment cs body gap line =>
    cases cs with
    | nil =>
      cases first
      decide
    | cons c' cs => exact head_gap gap first

/-- A token that is no word begins with a character that no word has. -/
theorem head_special {c : Char} (spelled : lexeme.Spells word)
    (special : ¬∀ c ∈ word, isWordChar c) (first : c ∈ word.head?) : isWordChar c = false := by
  cases spelled with
  | int number => exact absurd (word_of_spells number).2 special
  | ident _ chars _ => exact absurd chars special
  | _ =>
    cases first
    decide

/-- Tokens that are apart are as long as can be. -/
theorem maximal_of_apart (apart : pieces.IsChain Apart) (ended : Trailing trailing) :
    Maximal pieces trailing := by
  induction pieces with
  | nil => exact maximal_nil
  | cons p pieces ih =>
    refine maximal_cons.mpr ⟨fun taken => length_le_of_spells p.spelled fun chars c first => ?_,
      ih apart.tail⟩
    cases pieces with
    | nil => exact head_trailing ended first
    | cons q pieces =>
      rw [text_cons, List.append_assoc, List.append_assoc] at first
      -- words are apart by a gap, or because one of them is a word of one special character
      rcases (List.isChain_cons_cons.mp apart).1 with gap | word | special
      · rw [List.head?_append_of_ne_nil _ gap] at first
        exact head_gap q.skipped first
      · exact absurd chars word
      · cases blank : q.gap with
        | nil =>
          rw [blank, List.nil_append, List.head?_append_of_ne_nil _ (spells_ne_nil q.spelled)] at first
          exact head_special q.spelled special first
        | cons c' gap =>
          rw [List.head?_append_of_ne_nil _ (by simp [blank])] at first
          exact head_gap q.skipped first

/-- A text whose tokens are apart is scanned into them. -/
theorem tokens_of_apart (apart : pieces.IsChain Apart) (ended : Trailing trailing) :
    Scan.tokens (String.ofList (text pieces ++ trailing)) = .ok (place .ofOffsets 0 pieces) :=
  tokens_ok_iff.mpr
    ⟨pieces, trailing, String.toList_ofList, ended, maximal_of_apart apart ended, rfl⟩

variable {ps qs : List Piece} {trailing' : List Char}

theorem text_append : text (ps ++ qs) = text ps ++ text qs :=
  List.flatMap_append

theorem place_append (span : Nat → Nat → Span) (offset : Nat) : place span offset (ps ++ qs)
    = place span offset ps ++ place span (offset + width (text ps)) qs := by
  induction ps generalizing offset with
  | nil => rfl
  | cons p ps ih =>
    rw [List.cons_append, place, ih, text_cons, width_append, width_append]
    simp only [place, List.cons_append, Nat.add_assoc]

theorem text_cons_ne_nil (p : Piece) (ps : List Piece) : text (p :: ps) ≠ [] := by
  rw [text_cons]
  simp [spells_ne_nil p.spelled]

/-- Words are maximal behind one another if each is so before what follows it. -/
theorem maximal_append : Maximal (ps ++ qs) trailing ↔
    Maximal ps (text qs ++ trailing) ∧ Maximal qs trailing := by
  induction ps with
  | nil => exact ⟨fun h => ⟨maximal_nil, h⟩, fun h => h.2⟩
  | cons p ps ih =>
    rw [List.cons_append, maximal_cons, maximal_cons, ih, text_append, List.append_assoc, and_assoc]

/-- Of what comes behind, only the first character matters. -/
theorem Maximal.follow (h : Maximal ps trailing)
    (ends : ∀ c ∈ trailing'.head?, isWordChar c = false) : Maximal ps trailing' := by
  induction ps with
  | nil => exact maximal_nil
  | cons p ps ih =>
    obtain ⟨here, others⟩ := maximal_cons.mp h
    refine maximal_cons.mpr ⟨fun taken => length_le_of_spells p.spelled fun chars c first => ?_,
      ih others⟩
    cases ps with
    -- only the last word meets what is trailing
    | nil => exact ends c first
    | cons q ps =>
      refine ends_of_maximal here chars c ?_
      rw [List.head?_append_of_ne_nil _ (text_cons_ne_nil q ps)] at first ⊢
      exact first

/-- The comment that may be at the end of a text is ended by the end of a line. -/
theorem Trailing.newline (ended : Trailing trailing) : Gap (trailing ++ ['\n']) := by
  cases ended with
  | gap gap => exact gap.append (.blank rfl .nil)
  | comment gap line =>
    rw [List.append_assoc]
    exact gap.append (.comment line .nil)

end Layout

end TwinLisp
