import TwinLisp.Proofs.Run
import TwinLisp.Proofs.Text.Decimal

/-!
What the scanner does with a stretch of text: with the rest of a gap, of a comment, of a string and of
a word.
-/

namespace TwinLisp

open Text

namespace Layout

@[simp] theorem width_nil : width [] = 0 := rfl

@[simp] theorem width_cons (c : Char) (cs : List Char) :
    width (c :: cs) = c.utf8Size + width cs := rfl

@[simp] theorem width_append (cs ds : List Char) : width (cs ++ ds) = width cs + width ds := by
  induction cs with
  | nil => exact (Nat.zero_add _).symm
  | cons c cs ih => rw [List.cons_append, width_cons, width_cons, ih, Nat.add_assoc]

end Layout

namespace Scan

open Layout

theorem isWordChar_of_isDigit {c : Char} (h : c.isDigit) : isWordChar c := by
  simp only [Char.isDigit, Bool.and_eq_true, decide_eq_true_eq] at h
  have low : 48 ≤ c.toNat := h.1
  have high : c.toNat ≤ 57 := h.2
  have blank : isBlank c = false := by
    simp [isBlank, blankRanges]
    omega
  have delimiter (d : Char) (outside : d.toNat < 48 ∨ 57 < d.toNat) : c ≠ d := by
    rintro rfl
    omega
  simp [isWordChar, blank, isDelimiter, delimiter, apostrophe]

theorem isWordChar_minus : isWordChar '-' := by decide

/-- The text of an integer is a word. -/
theorem word_of_spells {word : List Char} {n : Int} (h : Decimal.Spells word n) :
    word ≠ [] ∧ ∀ c ∈ word, isWordChar c := by
  cases h with
  | nat nonempty each => exact ⟨nonempty, fun c mem => isWordChar_of_isDigit (each c mem)⟩
  | neg nonempty each =>
    refine ⟨List.cons_ne_nil _ _, List.forall_mem_cons.mpr ⟨isWordChar_minus, fun c mem => ?_⟩⟩
    exact isWordChar_of_isDigit (each c mem)

theorem isBlank_of_isSkipped {c : Char} (h : isSkipped c) : isBlank c := by
  simp only [isSkipped, Bool.or_eq_true, beq_iff_eq] at h
  rcases h with (((rfl | rfl) | rfl) | rfl) | rfl <;> decide

/-- What a word says is an integer or a name. -/
theorem spells_word_iff {word : List Char} (nonempty : word ≠ []) (chars : ∀ c ∈ word, isWordChar c)
    {lexeme : Lexeme} : lexeme.Spells word ↔
      (∃ n, Decimal.Spells word n.toInt ∧ .int n = lexeme) ∨
        (∀ n, ¬Decimal.Spells word n) ∧ .ident (String.ofList word) = lexeme := by
  constructor
  · intro spells
    -- the other lexemes are written with a character that no word has
    have others : isWordChar '(' = false ∧ isWordChar ')' = false ∧ isWordChar apostrophe = false ∧
        isWordChar '"' = false := by decide
    cases spells with
    | int number => exact .inl ⟨_, number, rfl⟩
    | ident _ _ noNumber => exact .inr ⟨noNumber, rfl⟩
    | _ => simp_all
  · rintro (⟨n, number, rfl⟩ | ⟨noNumber, rfl⟩)
    · exact .int number
    · exact .ident nonempty chars noNumber

/-- A word means the lexeme it spells: a number where it is one, a name otherwise. -/
theorem ofWord?_eq_some_iff {word : List Char} (nonempty : word ≠ [])
    (chars : ∀ c ∈ word, isWordChar c) {lexeme : Lexeme} :
    Lexeme.ofWord? word = some lexeme ↔ lexeme.Spells word := by
  rw [spells_word_iff nonempty chars]
  unfold Lexeme.ofWord?
  split
  next literal =>
    obtain ⟨m, number⟩ := Decimal.isLiteral_iff.mp literal
    simp only [Option.map_eq_some_iff, Decimal.int64?_eq_some_iff literal]
    exact ⟨.inl, fun h => h.resolve_right fun none => none.1 m number⟩
  next noLiteral =>
    have noNumber (n : Int) : ¬Decimal.Spells word n := fun number =>
      noLiteral (Decimal.isLiteral_iff.mpr ⟨n, number⟩)
    simp only [Option.some_inj]
    exact ⟨fun h => .inr ⟨noNumber, h⟩, fun h => (h.resolve_left fun ⟨_, number, _⟩ => noNumber _ number).2⟩

namespace State

def scan (s : State) (cs : List Char) : Except SyntaxError (List Token) :=
  (cs.foldlM State.step s).bind State.finish

/-- The scanner between two tokens. -/
def between (offset : Nat) (tokens : List Token) : State :=
  ⟨.between, offset, tokens⟩

variable {s t : State} {offset first : Nat} {acc : List Token} {c : Char} {cs body chars : List Char}

theorem scan_cons_ok (h : s.step c = .ok t) : s.scan (c :: cs) = t.scan cs := by
  unfold scan
  rw [List.foldlM_cons, h]
  rfl

theorem scan_cons_error {e : SyntaxError} (h : s.step c = .error e) :
    s.scan (c :: cs) = .error e := by
  unfold scan
  rw [List.foldlM_cons, h]
  rfl

theorem step_of_read (h : s.read c = .ok t) :
    s.step c = .ok { t with offset := s.offset + c.utf8Size } := by
  unfold step
  rw [h]
  rfl

theorem start_blank (blank : isSkipped c) : s.start c = .ok { s with mode := .between } :=
  if_pos blank

theorem start_word (word : isWordChar c) :
    s.start c = .ok { s with mode := .word s.offset [c] } := by
  obtain ⟨blank, delimiter⟩ : isBlank c = false ∧ isDelimiter c = false := by
    simpa [isWordChar] using word
  have skipped : isSkipped c = false := by
    rw [← Bool.not_eq_true]
    intro skipped
    rw [isBlank_of_isSkipped skipped] at blank
    cases blank
  simp only [isDelimiter, Bool.or_eq_false_iff] at delimiter
  simp [start, skipped, blank, delimiter]

/-- What can stand between two tokens; a blank that is not skipped is refused. -/
theorem start_cases (c : Char) : isSkipped c = true ∨ c = ';' ∨ c = '(' ∨ c = ')' ∨ c = apostrophe ∨
    c = '"' ∨ isWordChar c = true ∨ ∀ s : State, ∃ e, s.start c = .error e := by
  -- the order of the rules of `start` is of no account, for no two of them take one character
  by_cases skipped : isSkipped c
  · exact .inl skipped
  by_cases delimiter : isDelimiter c
  · simp only [isDelimiter, Bool.or_eq_true, beq_iff_eq] at delimiter
    rcases delimiter with (((h | h) | h) | h) | h <;> simp [h]
  by_cases blank : isBlank c
  · simp only [isDelimiter, Bool.or_eq_true, beq_iff_eq, not_or] at delimiter
    have refused (s : State) : ∃ e, s.start c = .error e :=
      ⟨_, by simp [start, skipped, delimiter, blank]; rfl⟩
    simp [refused]
  · simp [isWordChar, blank, delimiter]

/-- A comment goes on to the end of its line. -/
theorem scan_comment (line : '\n' ∉ body) :
    scan ⟨.comment, offset, acc⟩ (body ++ cs) = scan ⟨.comment, offset + width body, acc⟩ cs := by
  induction body generalizing offset with
  | nil => rfl
  | cons c body ih =>
    obtain ⟨other, line⟩ := not_or.mp ((not_congr List.mem_cons).mp line)
    have read : State.read ⟨.comment, offset, acc⟩ c = .ok ⟨.comment, offset, acc⟩ :=
      congrArg Except.ok (if_neg (by simpa using Ne.symm other))
    rw [List.cons_append, scan_cons_ok (step_of_read read), ih line, width_cons, Nat.add_assoc]

theorem scan_newline :
    scan ⟨.comment, offset, acc⟩ ('\n' :: cs) = (between (offset + 1) acc).scan cs :=
  scan_cons_ok rfl

theorem scan_semicolon :
    (between offset acc).scan (';' :: cs) = scan ⟨.comment, offset + 1, acc⟩ cs :=
  scan_cons_ok rfl

/-- A comment may end with the text. -/
theorem scan_openComment (line : '\n' ∉ body) :
    scan ⟨.comment, offset, acc⟩ body = .ok acc.reverse := by
  rw [← List.append_nil body, scan_comment line]
  rfl

/-- Gaps yield no tokens. -/
theorem scan_gap (gap : Gap body) :
    (between offset acc).scan (body ++ cs) = (between (offset + width body) acc).scan cs := by
  induction gap generalizing offset with
  | nil => rfl
  | @blank c body blank _ ih =>
    have read : (between offset acc).read c = .ok (between offset acc) := start_blank blank
    rw [List.cons_append, scan_cons_ok (step_of_read read), width_cons, ← Nat.add_assoc]
    exact ih
  | @comment line body plain _ ih =>
    have size : width (';' :: line ++ '\n' :: body) = 1 + width line + 1 + width body := by
      rw [width_append, width_cons, width_cons, ← Nat.add_assoc]
      rfl
    rw [List.append_assoc, List.cons_append, scan_semicolon, List.cons_append, scan_comment plain,
      scan_newline, ih, size]
    simp only [Nat.add_assoc]

theorem scan_quote :
    (between offset acc).scan ('"' :: cs) = scan ⟨.string offset [], offset + 1, acc⟩ cs :=
  scan_cons_ok rfl

/-- A string goes on to the next double quote. -/
theorem scan_string (plain : '"' ∉ body) :
    scan ⟨.string first chars, offset, acc⟩ (body ++ cs)
      = scan ⟨.string first (body.reverse ++ chars), offset + width body, acc⟩ cs := by
  induction body generalizing offset chars with
  | nil => rfl
  | cons c body ih =>
    obtain ⟨other, plain⟩ := not_or.mp ((not_congr List.mem_cons).mp plain)
    have read : State.read ⟨.string first chars, offset, acc⟩ c
        = .ok ⟨.string first (c :: chars), offset, acc⟩ :=
      congrArg Except.ok (if_neg (by simpa using Ne.symm other))
    rw [List.cons_append, scan_cons_ok (step_of_read read), ih plain, width_cons, Nat.add_assoc,
      List.reverse_cons, List.append_assoc]
    rfl

/-- A string may not end with the text. -/
theorem scan_openString (offset : Nat) (acc : List Token) (plain : '"' ∉ body) :
    ∃ e, (between offset acc).scan ('"' :: body) = .error e := by
  rw [scan_quote, ← List.append_nil body, scan_string plain]
  exact ⟨_, rfl⟩

/-- A word goes on to the next character that no word has. -/
theorem scan_word (word : ∀ c ∈ body, isWordChar c) :
    scan ⟨.word first chars, offset, acc⟩ (body ++ cs)
      = scan ⟨.word first (body.reverse ++ chars), offset + width body, acc⟩ cs := by
  induction body generalizing offset chars with
  | nil => rfl
  | cons c body ih =>
    obtain ⟨here, others⟩ := List.forall_mem_cons.mp word
    have read : State.read ⟨.word first chars, offset, acc⟩ c
        = .ok ⟨.word first (c :: chars), offset, acc⟩ := if_pos here
    rw [List.cons_append, scan_cons_ok (step_of_read read), ih others, width_cons, Nat.add_assoc,
      List.reverse_cons, List.append_assoc]
    rfl

/-- A word with a meaning is emitted over the characters read for it. -/
theorem closeWord_of_some {lexeme : Lexeme} (first offset : Nat) (acc : List Token)
    (meaning : Lexeme.ofWord? chars.reverse = some lexeme) :
    closeWord ⟨.word first chars, offset, acc⟩ first chars
      = .ok (between offset (⟨lexeme, .ofOffsets first offset⟩ :: acc)) := by
  unfold closeWord
  simp only [meaning]
  rfl

theorem closeWord_of_none (first offset : Nat) (acc : List Token)
    (meaning : Lexeme.ofWord? chars.reverse = none) :
    ∃ e, closeWord ⟨.word first chars, offset, acc⟩ first chars = .error e := by
  unfold closeWord
  simp only [meaning]
  exact ⟨_, rfl⟩

/-- A word is closed by the first character that is not part of it, which is read next. -/
theorem read_closeWord (first offset : Nat) (acc : List Token) (chars : List Char)
    (ends : isWordChar c = false) :
    State.read ⟨.word first chars, offset, acc⟩ c
      = (closeWord ⟨.word first chars, offset, acc⟩ first chars).bind (·.start c) :=
  if_neg (by rw [ends]; exact Bool.false_ne_true)

/-- Where a word ends, the scanner goes on as it does between two tokens. -/
theorem scan_closeWord {lexeme : Lexeme} (meaning : Lexeme.ofWord? chars.reverse = some lexeme)
    (ends : ∀ c ∈ cs.head?, isWordChar c = false) :
    scan ⟨.word first chars, offset, acc⟩ cs
      = (between offset (⟨lexeme, .ofOffsets first offset⟩ :: acc)).scan cs := by
  have closed := closeWord_of_some first offset acc meaning
  -- the text ends here, or another character does not belong to the word
  cases cs with
  | nil =>
    change (closeWord _ _ _).map _ = _
    rw [closed]
    rfl
  | cons c cs =>
    have read := read_closeWord first offset acc chars (ends c rfl)
    rw [closed] at read
    unfold scan
    rw [List.foldlM_cons, List.foldlM_cons]
    unfold step
    rw [read]
    rfl

theorem scan_wordStart (word : isWordChar c) :
    (between offset acc).scan (c :: cs) = scan ⟨.word offset [c], offset + c.utf8Size, acc⟩ cs := by
  have read : (between offset acc).read c = .ok ⟨.word offset [c], offset, acc⟩ := start_word word
  exact scan_cons_ok (step_of_read read)

/-- A word that says nothing is refused. -/
theorem scan_refuseWord (offset : Nat) (acc : List Token) (word : ∀ c' ∈ c :: body, isWordChar c')
    (meaning : Lexeme.ofWord? (c :: body) = none) (ends : ∀ c ∈ cs.head?, isWordChar c = false) :
    ∃ e, (between offset acc).scan (c :: body ++ cs) = .error e := by
  obtain ⟨here, others⟩ := List.forall_mem_cons.mp word
  have meaning : Lexeme.ofWord? (body.reverse ++ [c]).reverse = none := by
    rwa [List.reverse_append, List.reverse_reverse]
  -- the fault is found when the word is closed, be it by the end or by another character
  obtain ⟨e, closed⟩ := closeWord_of_none offset (offset + c.utf8Size + width body) acc meaning
  refine ⟨e, ?_⟩
  rw [List.cons_append, scan_wordStart here, scan_word others]
  cases cs with
  | nil =>
    change (closeWord _ _ _).map _ = _
    rw [closed]
    rfl
  | cons c' cs =>
    refine scan_cons_error ?_
    unfold step
    rw [read_closeWord _ _ acc _ (ends c' rfl), closed]
    rfl

/-- A character that can begin nothing is refused. -/
theorem scan_refuse (offset : Nat) (acc : List Token) (cs : List Char)
    (refused : ∀ s : State, ∃ e, s.start c = .error e) :
    ∃ e, (between offset acc).scan (c :: cs) = .error e := by
  obtain ⟨e, refused⟩ := refused (between offset acc)
  refine ⟨e, scan_cons_error ?_⟩
  change ((between offset acc).start c).map _ = _
  rw [refused]
  rfl

theorem scan_closeQuote : scan ⟨.string first chars, offset, acc⟩ ('"' :: cs)
    = (between (offset + 1)
        (⟨.str (String.ofList chars.reverse), .ofOffsets first (offset + 1)⟩ :: acc)).scan cs :=
  scan_cons_ok rfl

/-- A written token yields that token, unless a word goes on behind it. -/
theorem scan_token {lexeme : Lexeme} {word : List Char} (spelled : lexeme.Spells word)
    (ends : (∀ c ∈ word, isWordChar c) → ∀ c ∈ cs.head?, isWordChar c = false) :
    (between offset acc).scan (word ++ cs)
      = (between (offset + width word)
          (⟨lexeme, .ofOffsets offset (offset + width word)⟩ :: acc)).scan cs := by
  -- a word is read character by character and closed by what follows
  have whole (nonempty : word ≠ []) (chars : ∀ c ∈ word, isWordChar c) :
      (between offset acc).scan (word ++ cs)
        = (between (offset + width word)
            (⟨lexeme, .ofOffsets offset (offset + width word)⟩ :: acc)).scan cs := by
    obtain ⟨c, body, rfl⟩ := List.exists_cons_of_ne_nil nonempty
    obtain ⟨here, others⟩ := List.forall_mem_cons.mp chars
    have meaning : Lexeme.ofWord? (body.reverse ++ [c]).reverse = some lexeme := by
      rw [List.reverse_append, List.reverse_reverse]
      exact (ofWord?_eq_some_iff nonempty chars).mpr spelled
    rw [List.cons_append, scan_wordStart here, scan_word others, scan_closeWord meaning (ends chars),
      width_cons, Nat.add_assoc]
  cases spelled with
  -- the lexemes of one character
  | openParen => exact scan_cons_ok rfl
  | closeParen => exact scan_cons_ok rfl
  | quoteMark => exact scan_cons_ok rfl
  | int number => exact whole (word_of_spells number).1 (word_of_spells number).2
  | ident nonempty chars _ => exact whole nonempty chars
  -- a string with its two quotation marks
  | @str body plain =>
    have size : width ('"' :: body ++ ['"']) = 1 + width body + 1 := by
      rw [width_append, width_cons]
      rfl
    rw [List.append_assoc, List.cons_append, scan_quote, scan_string plain, List.singleton_append,
      scan_closeQuote, size, List.append_nil, List.reverse_reverse]
    simp only [Nat.add_assoc]

end State

end Scan

end TwinLisp
