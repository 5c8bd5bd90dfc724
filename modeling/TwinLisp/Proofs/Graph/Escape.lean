import TwinLisp.Graph.Symbols

/-!
Names and texts in a listing are written so that they can be read back: escaped bytes are the bytes
that they stand for, and the symbol of a name is that name.
-/

namespace TwinLisp.Graph

/-- A text is known by its bytes. -/
theorem utf8Bytes_injective : Function.Injective utf8Bytes := by
  intro s t same
  rw [← String.toByteArray_inj, ← String.utf8Encode_toList, ← String.utf8Encode_toList]
  exact congrArg List.toByteArray same

theorem hexValue_hexDigit {n : Nat} (digit : n < 16) : hexValue (hexDigit n) = n := by
  have each : ∀ i : Fin 16, hexValue (hexDigit i) = i := by decide
  exact each ⟨n, digit⟩

theorem toNat_ofNat {n : Nat} (ascii : n < 128) : (Char.ofNat n).toNat = n := by
  have each : ∀ i : Fin 128, (Char.ofNat i).toNat = i := by decide
  exact each ⟨n, ascii⟩

theorem unescape_cons {c : Char} (plain : c ≠ '\\') (rest : List Char) :
    unescape (c :: rest) = .ofNat c.toNat :: unescape rest := by
  rw [unescape.eq_def]
  split
  next same => exact absurd (List.cons.inj same).1 plain
  next same =>
    cases same
    rfl
  next same => cases same

/-- A byte stands for itself, or its digits are written; no quotation mark and no other backslash is. -/
theorem escapeByte_cases (byte : UInt8) :
    (∃ c, escapeByte byte = [c] ∧ c.toNat = byte.toNat ∧ c ≠ '"' ∧ c ≠ '\\') ∨
      escapeByte byte = ['\\', hexDigit (byte.toNat / 16), hexDigit (byte.toNat % 16)] := by
  unfold escapeByte
  dsimp only
  split
  next printable =>
    obtain ⟨-, high, noQuote, noBackslash⟩ := printable
    have value : (Char.ofNat byte.toNat).toNat = byte.toNat := toNat_ofNat (by omega)
    refine .inl ⟨_, rfl, value, fun quote => ?_, fun backslash => ?_⟩
    · rw [quote] at value
      exact noQuote value.symm
    · rw [backslash] at value
      exact noBackslash value.symm
  next => exact .inr rfl

/-- Whatever follows, a byte is read back from its escape. -/
theorem unescape_escapeByte (byte : UInt8) (rest : List Char) :
    unescape (escapeByte byte ++ rest) = byte :: unescape rest := by
  rcases escapeByte_cases byte with ⟨c, escaped, value, -, noBackslash⟩ | escaped
  · rw [escaped, List.singleton_append, unescape_cons noBackslash, value, UInt8.ofNat_toNat]
  · have small := byte.toNat_lt
    have value : 16 * hexValue (hexDigit (byte.toNat / 16)) + hexValue (hexDigit (byte.toNat % 16))
        = byte.toNat := by
      rw [hexValue_hexDigit (by omega), hexValue_hexDigit (by omega)]
      omega
    rw [escaped]
    change UInt8.ofNat _ :: unescape rest = byte :: unescape rest
    rw [value, UInt8.ofNat_toNat]

/-- Escaped bytes are read back. -/
theorem unescape_escapeBytes (bytes : List UInt8) : unescape (bytes.flatMap escapeByte) = bytes := by
  induction bytes with
  | nil => rfl
  | cons byte rest ih => rw [List.flatMap_cons, unescape_escapeByte, ih]

/-- To read an escaped text gives its bytes back. -/
theorem unescape_escape (text : String) : unescape (escape text).toList = utf8Bytes text := by
  unfold escape
  rw [String.toList_ofList, unescape_escapeBytes]

theorem hexDigit_ne_quote (n : Nat) (digit : n < 16) : hexDigit n ≠ '"' := by
  have each : ∀ i : Fin 16, hexDigit i ≠ '"' := by decide
  exact each ⟨n, digit⟩

theorem printable_hexDigit {n : Nat} (digit : n < 16) :
    32 ≤ (hexDigit n).toNat ∧ (hexDigit n).toNat ≤ 126 := by
  have each : ∀ i : Fin 16, 32 ≤ (hexDigit i).toNat ∧ (hexDigit i).toNat ≤ 126 := by decide
  exact each ⟨n, digit⟩

/-- Escaped bytes are printable ASCII without quotation marks. -/
theorem printable_of_mem_escapeByte {byte : UInt8} {c : Char} (mem : c ∈ escapeByte byte) :
    32 ≤ c.toNat ∧ c.toNat ≤ 126 ∧ c ≠ '"' := by
  have small := byte.toNat_lt
  unfold escapeByte at mem
  dsimp only at mem
  split at mem
  next printable =>
    obtain ⟨low, high, noQuote, -⟩ := printable
    have value : (Char.ofNat byte.toNat).toNat = byte.toNat := toNat_ofNat (by omega)
    rw [List.mem_singleton.mp mem]
    refine ⟨by omega, by omega, fun quote => ?_⟩
    rw [quote] at value
    exact noQuote value.symm
  next =>
    -- digits are printable, and no quotation marks
    have digit {n : Nat} (lt : n < 16) : 32 ≤ (hexDigit n).toNat ∧ (hexDigit n).toNat ≤ 126 ∧
        hexDigit n ≠ '"' :=
      ⟨(printable_hexDigit lt).1, (printable_hexDigit lt).2, hexDigit_ne_quote n lt⟩
    simp only [List.mem_cons, List.not_mem_nil, or_false] at mem
    rcases mem with rfl | rfl | rfl
    · decide
    · exact digit (by omega)
    · exact digit (by omega)

/-- No quotation mark is left in an escaped text. -/
theorem ne_quote_of_mem_escape {text : String} {c : Char} (mem : c ∈ (escape text).toList) :
    c ≠ '"' := by
  unfold escape at mem
  rw [String.toList_ofList] at mem
  obtain ⟨byte, -, mem⟩ := List.mem_flatMap.mp mem
  exact (printable_of_mem_escapeByte mem).2.2

theorem takeWhile_append_stop {p : Char → Bool} {text rest : List Char} {stop : Char}
    (each : ∀ c ∈ text, p c = true) (stops : p stop = false) :
    (text ++ stop :: rest).takeWhile p = text := by
  rw [List.takeWhile_append_of_pos each, List.takeWhile_cons_of_neg (by simp [stops]),
    List.append_nil]

/-- A quoted symbol goes on to the next quotation mark. -/
theorem symbolAt_quoted (rest : List Char) :
    symbolAt ('@' :: '"' :: rest) = some (unescape (rest.takeWhile (· ≠ '"'))) := rfl

/-- A plain symbol goes on as long as its characters are plain. -/
theorem symbolAt_plain {c : Char} (noQuote : c ≠ '"') (rest : List Char) :
    symbolAt ('@' :: c :: rest)
      = some (((c :: rest).takeWhile isPlainChar).flatMap String.utf8EncodeChar) := by
  unfold symbolAt
  split
  next same => exact absurd (List.cons.inj (List.cons.inj same).2).1 noQuote
  next _ same =>
    cases same
    rfl
  next other => exact absurd rfl (other _)

/-- The symbol of a name that is written before a parenthesis or a blank is the name. -/
theorem symbolAt_globalText (name : String) (stop : Char) (stops : isPlainChar stop = false)
    (rest : List Char) :
    symbolAt ((globalText name).toList ++ stop :: rest) = some (utf8Bytes name) := by
  unfold globalText
  split
  -- a plain name goes on to the character behind it, a quoted one to its second quotation mark
  next plain =>
    unfold isPlainName at plain
    rw [Bool.and_eq_true, Bool.not_eq_true', List.isEmpty_eq_false_iff] at plain
    obtain ⟨nonempty, each⟩ := plain
    have written : ("@" ++ name).toList ++ stop :: rest = '@' :: (name.toList ++ stop :: rest) := by
      rw [String.toList_append]
      rfl
    rw [written]
    unfold utf8Bytes
    cases chars : name.toList with
    | nil => exact absurd chars nonempty
    | cons c cs =>
      rw [chars] at each
      -- a plain name does not begin with a quotation mark, so it is not taken for a quoted one
      have noQuote : c ≠ '"' := by
        rintro rfl
        exact absurd (List.all_eq_true.mp each _ List.mem_cons_self) (by decide)
      rw [List.cons_append, symbolAt_plain noQuote, ← List.cons_append,
        takeWhile_append_stop (List.all_eq_true.mp each) stops]
  next =>
    have written : ("@\"" ++ escape name ++ "\"").toList ++ stop :: rest
        = '@' :: '"' :: ((escape name).toList ++ '"' :: stop :: rest) := by
      rw [String.toList_append, String.toList_append, List.append_assoc]
      rfl
    rw [written]
    have unquoted : ∀ c ∈ (escape name).toList, (decide (c ≠ '"')) = true := fun c mem =>
      decide_eq_true (ne_quote_of_mem_escape mem)
    rw [symbolAt_quoted, takeWhile_append_stop unquoted (by decide), unescape_escape]

end TwinLisp.Graph
