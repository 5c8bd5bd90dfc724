import Mathlib.Data.Finset.Card
import TwinLisp.Interner

/-!
Numbers stand for texts. The two tables of an interner stay inverse to each other and only grow, so a
number that has been given out is that of one text for good, and comparing numbers is comparing texts.
-/

namespace TwinLisp.Interner

variable {t : Interner} {s : String} {n : Nat}

/-- Each of the two tables finds what the other one holds. -/
def Inverse (t : Interner) : Prop :=
  ∀ s n, t.numbers.get? s = some n ↔ t.texts[n]? = some s

/-- A text that has a number keeps it, and nothing changes. -/
theorem intern_of_get? (known : t.numbers.get? s = some n) : t.intern s = (n, t) := by
  simp [intern, known]

/-- A new text gets the next number. -/
theorem intern_of_none (new : t.numbers.get? s = none) :
    t.intern s = (t.size, ⟨t.texts.push s, (s, t.size) :: t.numbers⟩) := by
  simp [intern, new, size]

theorem get?_intern (t : Interner) (s : String) :
    (t.intern s).2.numbers.get? s = some (t.intern s).1 := by
  cases known : t.numbers.get? s with
  | some n => simp [intern_of_get? known, known]
  | none => simp [intern_of_none known, Table.get?]

/-- A text keeps its number while other texts are interned. -/
theorem get?_intern_of_get? (known : t.numbers.get? s = some n) (other : String) :
    (t.intern other).2.numbers.get? s = some n := by
  cases found : t.numbers.get? other with
  | some m => simpa [intern_of_get? found] using known
  | none =>
    have differ : other ≠ s := by
      intro same
      simp [same, known] at found
    simpa [intern_of_none found, Table.get?, differ] using known

/-- By induction on the texts that follow. -/
theorem get?_internAll_of_get? (known : t.numbers.get? s = some n) (texts : List String) :
    (t.internAll texts).numbers.get? s = some n := by
  induction texts generalizing t with
  | nil => exact known
  | cons text texts ih => exact ih (get?_intern_of_get? known text)

theorem internEach_snd (t : Interner) (texts : List String) :
    (t.internEach texts).2 = t.internAll texts := by
  induction texts generalizing t with
  | nil => rfl
  | cons text texts ih => exact ih (t.intern text).2

/-- The numbers that are given out are still those of their texts when all texts are interned. -/
theorem forall₂_internEach (t : Interner) (texts : List String) :
    List.Forall₂ (fun s n => (t.internAll texts).numbers.get? s = some n) texts
      (t.internEach texts).1 := by
  induction texts generalizing t with
  | nil => exact .nil
  | cons text texts ih =>
    exact .cons (get?_internAll_of_get? (get?_intern t text) texts) (ih (t.intern text).2)

/-- Interning adds the text and nothing else. -/
theorem mem_texts_intern (inverse : t.Inverse) {other : String} :
    s ∈ (t.intern other).2.texts ↔ s = other ∨ s ∈ t.texts := by
  cases known : t.numbers.get? other with
  | some n =>
    have held := Array.mem_of_getElem? ((inverse other n).mp known)
    simp only [intern_of_get? known]
    constructor
    · exact Or.inr
    · rintro (rfl | mem)
      · exact held
      · exact mem
  | none => simp [intern_of_none known, or_comm]

theorem inverse_new : Inverse {} := by
  intro s n
  cases n with
  | zero => simp [Table.get?, eq_comm]
  | succ n => simp [Table.get?]

/-- One call. A text without a number is put behind all others, and its number is the next one. -/
theorem Inverse.intern (inverse : t.Inverse) (text : String) : (t.intern text).2.Inverse := by
  cases known : t.numbers.get? text with
  | some n => simpa [intern_of_get? known] using inverse
  | none =>
    intro s n
    simp only [intern_of_none known, Table.get?, Array.getElem?_push, size]
    by_cases same : text = s
    · subst same
      by_cases last : n = t.texts.size
      · simp [last]
      · -- no other place holds the text, or it would have a number
        have absent : t.texts[n]? ≠ some text := by
          intro held
          simp [(inverse text n).mpr held] at known
        simp [last, absent, Ne.symm last]
    · by_cases last : n = t.texts.size
      · -- the next number is not yet that of any text
        have unused : t.numbers.get? s ≠ some t.texts.size := by
          intro given
          have held := (inverse s t.texts.size).mp given
          simp at held
        simp [last, same, unused]
      · simpa [last, same] using inverse s n

/-- By induction on the calls. -/
theorem Inverse.internAll (inverse : t.Inverse) (texts : List String) :
    (t.internAll texts).Inverse := by
  induction texts generalizing t with
  | nil => exact inverse
  | cons text texts ih => exact ih (inverse.intern text)

theorem mem_texts_internAll (inverse : t.Inverse) (texts : List String) :
    s ∈ (t.internAll texts).texts ↔ s ∈ t.texts ∨ s ∈ texts := by
  induction texts generalizing t with
  | nil => simp [Interner.internAll]
  | cons text texts ih =>
    apply (ih (inverse.intern text)).trans
    rw [mem_texts_intern inverse, List.mem_cons]
    tauto

namespace Inverse

theorem lookup_of_get? (inverse : t.Inverse) (known : t.numbers.get? s = some n) :
    t.lookup n = s := by
  simp [lookup, (inverse s n).mp known]

/-- Every number below the size is that of the text it resolves to. -/
theorem get?_lookup (inverse : t.Inverse) (lt : n < t.size) :
    t.numbers.get? (t.lookup n) = some n := by
  apply (inverse _ n).mpr
  simp only [lookup, size] at lt ⊢
  simp [lt]

/-- Different numbers have different texts. -/
theorem lookup_injective (inverse : t.Inverse) {m : Nat} (ltm : m < t.size) (ltn : n < t.size)
    (same : t.lookup m = t.lookup n) : m = n := by
  have found := inverse.get?_lookup ltm
  rw [same, inverse.get?_lookup ltn] at found
  exact (Option.some.inj found).symm

theorem texts_nodup (inverse : t.Inverse) : t.texts.toList.Nodup := by
  apply List.nodup_iff_getElem?_ne_getElem?.mpr
  intro m n lt ltn same
  have held : t.texts[n]? = some t.texts[n] := Array.getElem?_eq_getElem ltn
  -- the text at both places has two numbers
  have first := (inverse _ m).mpr (by simpa [held] using same)
  have second := (inverse _ n).mpr held
  rw [first] at second
  cases second
  omega

/-- The size counts the texts without repetition. -/
theorem size_eq_card (inverse : t.Inverse) : t.size = t.texts.toList.toFinset.card := by
  rw [List.toFinset_card_of_nodup inverse.texts_nodup, size, Array.length_toList]

end Inverse

/-- What the numbers mean that are given to texts, one call after the other, on new tables. -/
structure Numbering (texts : List String) (numbers : List Nat) (t : Interner) : Prop where
  /-- Every call gives a number. -/
  answered : numbers.length = texts.length
  /-- A text keeps its number however many texts follow, and interning it again changes nothing. -/
  stable : ∀ s n, (s, n) ∈ texts.zip numbers → ∀ more,
    (t.internAll more).intern s = (n, t.internAll more)
  /-- A number resolves to its text, also after more texts. -/
  resolves : ∀ s n, (s, n) ∈ texts.zip numbers → ∀ more, (t.internAll more).lookup n = s
  /-- Numbers are equal exactly where the texts are. -/
  agree : ∀ s m s' n, (s, m) ∈ texts.zip numbers → (s', n) ∈ texts.zip numbers →
    (m = n ↔ s = s')
  /-- The empty text has number 0, whether or not it has been interned. -/
  empty : ∀ more, (t.internAll more).intern "" = (0, t.internAll more) ∧
    (t.internAll more).lookup 0 = ""
  /-- Different numbers below the size resolve to different texts. -/
  distinct : ∀ m n, m < t.size → n < t.size → t.lookup m = t.lookup n → m = n
  /-- They resolve to nothing but the empty text and texts that have been interned. -/
  known : ∀ n, n < t.size → t.lookup n = "" ∨ t.lookup n ∈ texts
  /-- The size counts the empty text and the distinct other ones. -/
  size_eq : t.size = 1 + (texts.toFinset.erase "").card

/-- Interned numbers stand for their texts, whichever texts are interned and in whatever order. -/
theorem numbering_internEach (texts : List String) :
    Numbering texts (internEach {} texts).1 (internEach {} texts).2 := by
  have inverse := inverse_new.internAll texts
  have paired := forall₂_internEach {} texts
  -- each number that was given out is the one that its text has in the end
  have given (s : String) (n : Nat) (mem : (s, n) ∈ texts.zip (internEach {} texts).1) :
      (internAll {} texts).numbers.get? s = some n :=
    (List.forall₂_iff_zip.mp paired).2 mem
  have empty : (internAll {} texts).numbers.get? "" = some 0 := get?_internAll_of_get? rfl texts
  have held (s : String) : s ∈ (internAll {} texts).texts ↔ s = "" ∨ s ∈ texts := by
    simpa using mem_texts_internAll inverse_new texts
  rw [internEach_snd]
  constructor
  case answered => exact paired.length_eq.symm
  case stable =>
    intro s n mem more
    apply intern_of_get?
    exact get?_internAll_of_get? (given s n mem) more
  case resolves =>
    intro s n mem more
    apply (inverse.internAll more).lookup_of_get?
    exact get?_internAll_of_get? (given s n mem) more
  case agree =>
    -- both ways by the look-ups: from equal texts to equal numbers and back
    intro s m s' n first second
    constructor
    · rintro rfl
      have resolved := inverse.lookup_of_get? (given s m first)
      have resolved' := inverse.lookup_of_get? (given s' m second)
      exact resolved.symm.trans resolved'
    · rintro rfl
      have both := (given s m first).symm.trans (given s n second)
      exact Option.some.inj both
  case empty =>
    intro more
    have kept := get?_internAll_of_get? empty more
    exact ⟨intern_of_get? kept, (inverse.internAll more).lookup_of_get? kept⟩
  case distinct => exact fun m n ltm ltn => inverse.lookup_injective ltm ltn
  case known =>
    intro n lt
    apply (held _).mp
    exact Array.mem_of_getElem? ((inverse _ n).mp (inverse.get?_lookup lt))
  case size_eq =>
    -- the empty text has a number from the start, also if it is interned again
    have listed : (internAll {} texts).texts.toList.toFinset = insert "" (texts.toFinset.erase "") := by
      ext s
      simp only [List.mem_toFinset, Array.mem_toList_iff, held, Finset.mem_insert, Finset.mem_erase]
      tauto
    rw [inverse.size_eq_card, listed, Finset.card_insert_of_notMem (Finset.notMem_erase "" _),
      Nat.add_comm]

/-- A text that comes again gets its number again. -/
example : (internEach {} ["x", "", "y", "x"]).1 = [1, 0, 2, 1] := by decide

end TwinLisp.Interner
