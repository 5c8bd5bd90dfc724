import TwinLisp.Token.Layout

/-! What decimal texts say, and that the text of an integer says that integer. -/

namespace TwinLisp.Text.Decimal

theorem digit?_of_isDigit {c : Char} (h : c.isDigit) : digit? c = some (c.toNat - 48) :=
  if_pos h

theorem nat?_of_digits {digits : List Char} (nonempty : digits ≠ [])
    (each : ∀ c ∈ digits, c.isDigit) : nat? digits = some (Nat.ofDigitChars 10 digits 0) := by
  -- digits extend whatever number stands before them
  have fold (n : Nat) : digits.foldlM (fun n c => (digit? c).map (10 * n + ·)) n
      = some (Nat.ofDigitChars 10 digits n) := by
    clear nonempty
    induction digits generalizing n with
    | nil => rfl
    | cons c cs ih =>
      obtain ⟨here, others⟩ := List.forall_mem_cons.mp each
      rw [List.foldlM_cons, digit?_of_isDigit here]
      exact ih others _
  unfold nat?
  rw [if_neg (by simpa using nonempty)]
  exact fold 0

/-- A digit is no sign. -/
theorem ne_of_isDigit {c : Char} (h : c.isDigit) : c ≠ '-' ∧ c ≠ '+' := by
  constructor
  · rintro rfl
    exact absurd h (by decide)
  · rintro rfl
    exact absurd h (by decide)

theorem isLiteral_of_digits {digits : List Char} (nonempty : digits ≠ [])
    (each : ∀ c ∈ digits, c.isDigit) : isLiteral digits = true := by
  cases digits with
  | nil => exact absurd rfl nonempty
  | cons c cs =>
    -- a word that begins with a digit has no sign
    have sign := (ne_of_isDigit (each c List.mem_cons_self)).1
    unfold isLiteral
    split
    next same => exact absurd (List.cons.inj same).1 sign
    next => simpa using each

/-- Literals are the words that spell a number. -/
theorem isLiteral_iff {word : List Char} : isLiteral word = true ↔ ∃ n, Spells word n := by
  constructor
  · intro literal
    unfold isLiteral at literal
    split at literal
    next digits =>
      obtain ⟨nonempty, each⟩ : digits ≠ [] ∧ ∀ c ∈ digits, c.isDigit := by simpa using literal
      exact ⟨_, .neg nonempty each⟩
    next =>
      obtain ⟨nonempty, each⟩ : word ≠ [] ∧ ∀ c ∈ word, c.isDigit := by simpa using literal
      exact ⟨_, .nat nonempty each⟩
  · rintro ⟨n, nonempty, each⟩
    · exact isLiteral_of_digits nonempty each
    · unfold isLiteral
      simpa using ⟨‹_›, ‹_›⟩

/-- What has not the form of an integer says none. -/
theorem not_spells_of_not_literal {word : List Char} (h : isLiteral word = false) (n : Int) :
    ¬Spells word n := by
  intro spells
  rw [isLiteral_iff.mpr ⟨n, spells⟩] at h
  cases h

theorem int?_of_spells {word : List Char} {n : Int} (h : Spells word n) : int? word = some n := by
  cases h with
  | nat nonempty each =>
    have value := nat?_of_digits nonempty each
    unfold int?
    split
    -- a digit is neither a minus nor a plus
    next cs => exact absurd rfl (ne_of_isDigit (each _ List.mem_cons_self)).2
    next cs => exact absurd rfl (ne_of_isDigit (each _ List.mem_cons_self)).1
    next =>
      rw [value]
      rfl
  | neg nonempty each => exact congrArg (Option.map (-Int.ofNat ·)) (nat?_of_digits nonempty each)

/-- A literal has a value unless it is out of range. -/
theorem int64?_eq_some_iff {word : List Char} (literal : isLiteral word = true) {n : Int64} :
    int64? word = some n ↔ Spells word n.toInt := by
  obtain ⟨m, spells⟩ := isLiteral_iff.mp literal
  unfold int64?
  rw [int?_of_spells spells]
  simp only [Option.ite_none_right_eq_some, Option.some_inj]
  -- in range, a number and its representation determine each other
  constructor
  · rintro ⟨⟨low, high⟩, rfl⟩
    rw [Int64.toInt_minValue] at low
    rw [Int64.toInt_maxValue] at high
    rwa [Int64.toInt_ofInt_of_le low (by omega)]
  · intro spells'
    have same : m = n.toInt :=
      Option.some.inj ((int?_of_spells spells).symm.trans (int?_of_spells spells'))
    rw [same]
    exact ⟨⟨n.minValue_le_toInt, n.toInt_le⟩, n.ofInt_toInt⟩

/-- The digits of a number spell it. -/
theorem spells_toDigits (n : Nat) : Spells (Nat.toDigits 10 n) n := by
  have spells : Spells (Nat.toDigits 10 n) (Nat.ofDigitChars 10 (Nat.toDigits 10 n) 0) :=
    .nat Nat.toDigits_ne_nil fun c mem => Nat.isDigit_of_mem_toDigits (by decide) (Nat.le_refl 10) mem
  rwa [Nat.ofDigitChars_ten_toDigits] at spells

/-- The text of an integer says that integer. -/
theorem spells_text (n : Int64) : Spells (text n).toList n.toInt := by
  unfold text
  cases n.toInt with
  | ofNat m =>
    have written : (toString (Int.ofNat m)).toList = Nat.toDigits 10 m := Nat.toList_repr
    rw [written]
    exact spells_toDigits m
  -- a negative number is written with its sign
  | negSucc m =>
    have written : (toString (Int.negSucc m)).toList = '-' :: Nat.toDigits 10 (m + 1) :=
      String.toList_append.trans (congrArg ('-' :: ·) Nat.toList_repr)
    have value : Int.negSucc m = -(Nat.ofDigitChars 10 (Nat.toDigits 10 (m + 1)) 0 : Nat) := by
      rw [Nat.ofDigitChars_ten_toDigits]
      rfl
    rw [written, value]
    exact .neg Nat.toDigits_ne_nil fun c mem =>
      Nat.isDigit_of_mem_toDigits (by decide) (Nat.le_refl 10) mem

end TwinLisp.Text.Decimal
