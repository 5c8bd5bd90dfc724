import TwinLisp.Graph.Denotation
import TwinLisp.Graph.Lowering
import TwinLisp.Proofs.Graph.Escape
import TwinLisp.Reader

/-!
How names are written as global symbols. Every name is written in a way of its own, and as assembly has
it, but for names that begin with a digit: they get no quotation marks, and no identifier begins so.
-/

namespace TwinLisp.Graph

theorem hex?_hexDigit {n : Nat} (digit : n < 16) : hex? (hexDigit n) = some n := by
  have each : ∀ i : Fin 16, hex? (hexDigit i) = some i.val := by decide
  exact each ⟨n, digit⟩

/-- Each escaped byte spells itself. -/
theorem spells_escapeByte (byte : UInt8) {text : List Char} {bytes : List UInt8}
    (rest : Spells text bytes) : Spells (escapeByte byte ++ text) (byte :: bytes) := by
  have small := byte.toNat_lt
  unfold escapeByte
  dsimp only
  split
  next printable =>
    -- a character of its own
    obtain ⟨low, high, noQuote, noBackslash⟩ := printable
    have value : (Char.ofNat byte.toNat).toNat = byte.toNat := toNat_ofNat (by omega)
    have spelled : Spells (Char.ofNat byte.toNat :: text)
        (.ofNat (Char.ofNat byte.toNat).toNat :: bytes) := by
      apply Spells.char
      · omega
      · intro quote
        rw [quote] at value
        exact noQuote value.symm
      · intro backslash
        rw [backslash] at value
        exact noBackslash value.symm
      · exact rest
    rwa [value, UInt8.ofNat_toNat] at spelled
  next =>
    -- a backslash and the two digits of its code
    have spelled := Spells.escape (hex?_hexDigit (n := byte.toNat / 16) (by omega))
      (hex?_hexDigit (n := byte.toNat % 16) (by omega)) rest
    have value : 16 * (byte.toNat / 16) + byte.toNat % 16 = byte.toNat := Nat.div_add_mod _ 16
    rwa [value, UInt8.ofNat_toNat] at spelled

/-- Byte by byte, an escaped text spells what it was made of. -/
theorem spells_escapeBytes (bytes : List UInt8) : Spells (bytes.flatMap escapeByte) bytes := by
  induction bytes with
  | nil => exact .nil
  | cons byte bytes ih => exact spells_escapeByte byte ih

theorem spells_escape (text : String) : Spells (escape text).toList (utf8Bytes text) := by
  unfold escape
  rw [String.toList_ofList]
  exact spells_escapeBytes _

/-- A text between quotation marks can be read in one way only. -/
theorem Spells.unique {text : List Char} {bytes bytes' : List UInt8} (h : Spells text bytes)
    (h' : Spells text bytes') : bytes = bytes' := by
  induction h generalizing bytes' with
  | nil =>
    cases h'
    rfl
  | char printable noQuote noBackslash rest ih =>
    cases h' with
    | char _ _ _ rest' => rw [ih rest']
    | escape => exact absurd rfl noBackslash
  | escape first second rest ih =>
    cases h' with
    | char _ _ noBackslash => exact absurd rfl noBackslash
    | escape first' second' rest' =>
      cases first.symm.trans first'
      cases second.symm.trans second'
      rw [ih rest']

theorem isPlainChar_iff {c : Char} :
    isPlainChar c = true ↔ c.isAlphanum = true ∨ c = '_' ∨ c = '.' ∨ c = '$' := by
  simp only [isPlainChar, Bool.or_eq_true, beq_iff_eq, or_assoc]

/-- Of the characters that need no quotation marks, only digits begin no identifier. -/
theorem isIdentifierStart_or_isDigit {c : Char} (plain : isPlainChar c = true) :
    isIdentifierStart c = true ∨ c.isDigit = true := by
  simp only [isPlainChar, Char.isAlphanum, Bool.or_eq_true] at plain
  simp only [isIdentifierStart, Bool.or_eq_true]
  rcases plain with (((alpha | digit) | underscore) | dot) | dollar
  · exact .inl (.inl (.inl (.inl (.inl alpha))))
  · exact .inr digit
  · exact .inl (.inr underscore)
  · exact .inl (.inl (.inr dot))
  · exact .inl (.inl (.inl (.inr dollar)))

theorem not_isIdentifierStart_of_isDigit {c : Char} (digit : c.isDigit = true) :
    isIdentifierStart c = false := by
  have high : c.toNat ≤ 57 := (Char.isDigit_iff_toNat.mp digit).2
  have noLetter : c.isAlpha = false := by
    -- capitals and small letters come after the digits
    change (decide (c.val ≥ 'A'.val ∧ c.val ≤ 'Z'.val) ||
      (decide (c.val ≥ 'a'.val) && decide (c.val ≤ 'z'.val))) = false
    simp only [Bool.or_eq_false_iff, Bool.and_eq_false_iff, decide_eq_false_iff_not, ge_iff_le,
      UInt32.le_iff_toNat_le]
    change ¬(65 ≤ c.toNat ∧ c.toNat ≤ 90) ∧ (¬97 ≤ c.toNat ∨ ¬c.toNat ≤ 122)
    omega
  have other (sign : Char) (noDigit : sign.isDigit = false) : (c == sign) = false := by
    rw [beq_eq_false_iff_ne]
    rintro rfl
    rw [noDigit] at digit
    cases digit
  -- a letter, or one of the four signs, none of which is a digit
  unfold isIdentifierStart
  rw [noLetter, other '-' rfl, other '$' rfl, other '.' rfl, other '_' rfl]
  rfl

/-- A plain name is not empty, and all its characters are plain. -/
theorem isPlainName_iff {name : String} : isPlainName name = true ↔
    ∃ first rest, name.toList = first :: rest ∧ isPlainChar first = true ∧
      ∀ c ∈ rest, isPlainChar c = true := by
  unfold isPlainName
  cases name.toList with
  | nil => simp
  | cons first rest =>
    simp only [List.isEmpty_cons, Bool.not_false, Bool.true_and, List.all_eq_true,
      List.forall_mem_cons, List.cons.injEq]
    constructor
    · rintro ⟨here, there⟩
      exact ⟨first, rest, ⟨rfl, rfl⟩, here, there⟩
    · rintro ⟨_, _, ⟨rfl, rfl⟩, here, there⟩
      exact ⟨here, there⟩

/-- Names that begin with a digit need no quotation marks for the listing, though they are no
identifiers. -/
theorem leadsWithDigit_iff {name : String} : LeadsWithDigit name ↔
    isPlainName name = true ∧ ∃ first rest, name.toList = first :: rest ∧ first.isDigit = true := by
  rw [isPlainName_iff]
  simp only [isPlainChar_iff]
  constructor
  · rintro ⟨first, rest, chars, digit, each⟩
    have alphanum : first.isAlphanum = true := by
      rw [Char.isAlphanum, digit, Bool.or_true]
    exact ⟨⟨first, rest, chars, .inl alphanum, each⟩, first, rest, chars, digit⟩
  · rintro ⟨⟨first, rest, chars, -, each⟩, first', rest', chars', digit⟩
    cases chars.symm.trans chars'
    exact ⟨first, rest, chars, digit, each⟩

theorem toList_plain {name : String} (plain : isPlainName name = true) :
    (globalText name).toList = '@' :: name.toList := by
  rw [globalText, if_pos plain, String.toList_append]
  rfl

theorem toList_quoted {name : String} (quoted : isPlainName name = false) :
    (globalText name).toList = '@' :: '"' :: (escape name).toList ++ ['"'] := by
  rw [globalText, quoted, if_neg Bool.false_ne_true, String.toList_append, String.toList_append]
  rfl

/-- A name without quotation marks that begins with no digit is an identifier. -/
theorem isIdentifier_of_isPlainName {name : String} (plain : isPlainName name = true)
    (noDigit : ¬LeadsWithDigit name) : IsIdentifier name.toList := by
  obtain ⟨first, rest, chars, here, there⟩ := isPlainName_iff.mp plain
  rw [chars]
  constructor
  · rcases isIdentifierStart_or_isDigit here with start | digit
    · exact start
    · exact absurd (leadsWithDigit_iff.mpr ⟨plain, first, rest, chars, digit⟩) noDigit
  · exact fun c mem => isIdentifierStart_or_isDigit (there c mem)

theorem denotes_globalText {name : String} (noDigit : ¬LeadsWithDigit name) :
    Denotes name (globalText name).toList := by
  -- the writer asks for plain characters only, the language also for a first one that is no digit
  cases plain : isPlainName name with
  | true =>
    rw [toList_plain plain]
    exact .identifier (isIdentifier_of_isPlainName plain noDigit)
  | false =>
    rw [toList_quoted plain]
    exact .quoted (spells_escape name)

/-- What stands behind the `@` is no identifier, and no quotation mark either. -/
theorem not_denotes_of_leadsWithDigit {name : String} (leads : LeadsWithDigit name) :
    ¬Denotes name ('@' :: name.toList) := by
  obtain ⟨first, rest, chars, digit, -⟩ := leads
  intro denotes
  -- the text is a variable, so that each way of writing can be held against it
  generalize written : '@' :: name.toList = text at denotes
  rw [chars] at written
  cases denotes with
  | identifier identifier =>
    rw [chars] at identifier
    have noStart := not_isIdentifierStart_of_isDigit digit
    rw [identifier.1] at noStart
    cases noStart
  | quoted spelled =>
    cases written
    cases digit

/-- Different functions have different symbols. -/
theorem globalText_injective : Function.Injective globalText := by
  intro s t same
  -- what is read back from either text are the bytes of its name
  have symbol (name : String) := symbolAt_globalText name ' ' (by decide) []
  have read := symbol s
  rw [same, symbol t] at read
  exact utf8Bytes_injective (Option.some.inj read).symm

/-- The listing writes a name as its global symbol in the assembly language, unless the name begins with
a digit and has only characters that need no quotation marks; then it is written as it is, which is no
global symbol. In any case no other name is written so. -/
theorem denotes_globalText_iff (name : String) :
    (Denotes name (globalText name).toList ↔ ¬LeadsWithDigit name) ∧
    (LeadsWithDigit name → globalText name = "@" ++ name) ∧
    ∀ other, globalText other = globalText name → other = name := by
  have bare (leads : LeadsWithDigit name) : isPlainName name = true := (leadsWithDigit_iff.mp leads).1
  have symbol : Denotes name (globalText name).toList ↔ ¬LeadsWithDigit name := by
    constructor
    · intro denotes leads
      rw [toList_plain (bare leads)] at denotes
      exact not_denotes_of_leadsWithDigit leads denotes
    · exact denotes_globalText
  have unquoted (leads : LeadsWithDigit name) : globalText name = "@" ++ name := by
    rw [globalText, if_pos (bare leads)]
  exact ⟨symbol, unquoted, fun _ same => globalText_injective same⟩

theorem leadsWithDigit_5x : LeadsWithDigit "5x" :=
  ⟨'5', ['x'], rfl, rfl, List.forall_mem_singleton.mpr (.inl rfl)⟩

theorem globalText_leadingDigit : LeadsWithDigit "5x" ∧ globalText "5x" = "@5x" :=
  ⟨leadsWithDigit_5x, (denotes_globalText_iff "5x").2.1 leadsWithDigit_5x⟩

/-- The reader takes `5x` for an identifier, and the listing of a function of that name introduces it
without quotation marks. -/
theorem not_denotes_leadingDigit : ∃ program m,
    Reader.read "(defun 5x () 1)" = .ok program ∧ lower {} program = .ok m ∧
      "define i64 @5x() \x7b" ∈ m.listingLines ∧ ¬Denotes "5x" "@5x".toList := by
  let program : List Expr :=
    [.list [.ident "defun" ⟨1, 6⟩, .ident "5x" ⟨7, 9⟩, .list [] ⟨10, 12⟩, .int 1 ⟨13, 14⟩] ⟨0, 15⟩]
  have read : Reader.read "(defun 5x () 1)" = .ok program := by rfl
  -- the listing is computed, the module that it is of is not written out
  have listed : (lower {} program).toOption.any
      (fun m => decide ("define i64 @5x() \x7b" ∈ m.listingLines)) = true := by
    decide +kernel
  cases lowered : lower {} program with
  | error => simp [lowered, Except.toOption] at listed
  | ok m =>
    refine ⟨program, m, read, lowered, ?_, not_denotes_of_leadsWithDigit leadsWithDigit_5x⟩
    simpa [lowered, Except.toOption] using listed

end TwinLisp.Graph
