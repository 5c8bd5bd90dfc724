import TwinLisp.Proofs.Token.Inverse
import TwinLisp.Report.Location

/-! Tokens stand in their text, and so does what the scanner reports. -/

namespace TwinLisp

namespace Span

variable {a b : Span} {start stop size size' : Nat}

theorem Within.mono (h : a.Within size) (le : size ≤ size') : a.Within size' :=
  ⟨h.1, Nat.le_trans h.2 le⟩

theorem within_ofOffsets (le : start ≤ stop) (inside : stop ≤ size) :
    (ofOffsets start stop).Within size := by
  simp only [Within, ofOffsets]
  omega

theorem Within.merge (h : a.Within size) (h' : b.Within size) : (a.merge b).Within size := by
  simp only [Within, Span.merge] at h h' ⊢
  omega

/-- What stands in the text stays where it is. -/
theorem Within.clamp (h : a.Within size) : a.clamp size = a := by
  obtain ⟨start, stop⟩ := a
  simp only [Within] at h
  simp only [Span.clamp, Nat.min_eq_left h.2, Nat.min_eq_left h.1]

end Span

namespace Scan

open Layout

/-- Where the token begins that is being read. -/
def Mode.start? : Mode → Option Nat
  | .between | .comment => none
  | .word start _ | .string start _ => some start

namespace State

/-- The tokens stand in the first `n` bytes, and the one that is being read begins there. -/
structure Behind (s : State) (n : Nat) : Prop where
  started : ∀ start, s.mode.start? = some start → start ≤ n
  tokens : ∀ t ∈ s.tokens, t.span.Within n

/-- Without moving, the scanner comes to a state in which all is in the first `n` bytes, or it reports
something that is. -/
structure Stays (n offset : Nat) (result : Except SyntaxError State) : Prop where
  ok : ∀ t, result = .ok t → t.Behind n ∧ t.offset = offset
  error : ∀ e, result = .error e → e.span.Within n

variable {s t : State} {c : Char} {n m start stop : Nat} {lexeme : Lexeme} {chars : List Char}

theorem Behind.mono (h : s.Behind n) (le : n ≤ m) : s.Behind m where
  started start here := Nat.le_trans (h.started start here) le
  tokens t mem := (h.tokens t mem).mono le

theorem stays_ok {offset : Nat} (behind : t.Behind n) (same : t.offset = offset) :
    Stays n offset (.ok t) where
  ok u h := by
    cases h
    exact ⟨behind, same⟩
  error _ h := nomatch h

theorem stays_error {fault : SyntaxFault} (offset : Nat) (le : start ≤ stop) (inside : stop ≤ n) :
    Stays n offset (.error ⟨fault, .ofOffsets start stop⟩) where
  ok _ h := nomatch h
  error e h := by
    cases h
    exact Span.within_ofOffsets le inside

/-- Nothing is begun between two tokens. -/
theorem behind_emit (tokens : ∀ t ∈ s.tokens, t.span.Within n) (le : start ≤ stop) (inside : stop ≤ n) :
    (s.emit lexeme start stop).Behind n where
  started _ here := nomatch here
  tokens := List.forall_mem_cons.mpr ⟨Span.within_ofOffsets le inside, tokens⟩

/-- Closing a word emits a token over the word, or blames the word. -/
theorem stays_closeWord (behind : s.Behind s.offset) (le : start ≤ s.offset) (chars : List Char) :
    Stays s.offset s.offset (s.closeWord start chars) := by
  unfold closeWord
  simp only
  split
  · exact stays_ok (behind_emit behind.tokens le (Nat.le_refl _)) rfl
  · exact stays_error _ le (Nat.le_refl _)

/-- Reading the first character of something stays within the text read so far. -/
theorem stays_start (behind : s.Behind s.offset) (c : Char) :
    Stays (s.offset + c.utf8Size) s.offset (s.start c) := by
  have before : s.offset ≤ s.offset + c.utf8Size := Nat.le_add_right _ _
  have tokens := (behind.mono before).tokens
  -- the character is a token of its own, or it begins what is read next
  have punctuation (lexeme : Lexeme) : Stays (s.offset + c.utf8Size) s.offset
      (.ok (s.emit lexeme s.offset (s.offset + c.utf8Size))) :=
    stays_ok (behind_emit tokens before (Nat.le_refl _)) rfl
  have begins (mode : Mode) (here : ∀ start, mode.start? = some start → start = s.offset) :
      Stays (s.offset + c.utf8Size) s.offset (.ok { s with mode }) :=
    stays_ok ⟨fun start at' => here start at' ▸ before, tokens⟩ rfl
  unfold start
  simp only
  split
  · exact begins .between nofun
  split
  · exact begins .comment nofun
  split
  · exact punctuation .openParen
  split
  · exact punctuation .closeParen
  split
  · exact punctuation .quoteMark
  split
  · exact begins (.string s.offset []) fun _ here => (Option.some.inj here).symm
  split
  · exact stays_error _ before (Nat.le_refl _)
  · exact begins (.word s.offset [c]) fun _ here => (Option.some.inj here).symm

/-- So does reading any character. -/
theorem stays_read (behind : s.Behind s.offset) (c : Char) :
    Stays (s.offset + c.utf8Size) s.offset (s.read c) := by
  have before : s.offset ≤ s.offset + c.utf8Size := Nat.le_add_right _ _
  have wider := behind.mono before
  unfold read
  split
  · exact stays_start behind c
  · split
    · exact stays_ok ⟨nofun, wider.tokens⟩ rfl
    · exact stays_ok wider rfl
  -- within a word
  next first chars mode =>
    have le : first ≤ s.offset := behind.started first (by rw [mode]; rfl)
    split
    · exact stays_ok ⟨fun _ here => Option.some.inj here ▸ Nat.le_trans le before, wider.tokens⟩ rfl
    · -- the word ends before the character, which then begins something else
      have closed := stays_closeWord behind le chars
      cases ended : s.closeWord first chars with
      | ok t =>
        obtain ⟨behind', same⟩ := closed.ok t ended
        rw [← same]
        exact stays_start (same ▸ behind') c
      | error e =>
        exact ⟨fun _ h => (nomatch h), fun _ h => by cases h; exact (closed.error e ended).mono before⟩
  -- within a string
  next first chars mode =>
    have le : first ≤ s.offset := behind.started first (by rw [mode]; rfl)
    split
    · exact stays_ok (behind_emit wider.tokens (Nat.le_trans le before) (Nat.le_refl _)) rfl
    · exact stays_ok ⟨fun _ here => Option.some.inj here ▸ Nat.le_trans le before, wider.tokens⟩ rfl

/-- At the end all tokens, or the error, are within the text. -/
theorem within_finish (behind : s.Behind s.offset) :
    (∀ ts, s.finish = .ok ts → ∀ t ∈ ts, t.span.Within s.offset) ∧
      ∀ e, s.finish = .error e → e.span.Within s.offset := by
  unfold finish
  split
  · refine ⟨fun ts h => ?_, nofun⟩
    cases h
    exact fun t mem => behind.tokens t (List.mem_reverse.mp mem)
  · refine ⟨fun ts h => ?_, nofun⟩
    cases h
    exact fun t mem => behind.tokens t (List.mem_reverse.mp mem)
  next first chars mode =>
    -- the text ends in a word, which is closed, or in a string, which is not
    have closed := stays_closeWord behind (behind.started first (by rw [mode]; rfl)) chars
    cases ended : s.closeWord first chars with
    | ok t =>
      refine ⟨fun ts h => ?_, nofun⟩
      cases h
      exact fun u mem => (closed.ok t ended).1.tokens u (List.mem_reverse.mp mem)
    | error e =>
      refine ⟨nofun, fun e' h => ?_⟩
      cases h
      exact closed.error e ended
  next first chars mode =>
    have le : first ≤ s.offset := behind.started first (by rw [mode]; rfl)
    exact ⟨nofun, fun e h => by cases h; exact Span.within_ofOffsets le (Nat.le_refl _)⟩

/-- By induction on the rest of the text. -/
theorem within_scan (behind : s.Behind s.offset) (cs : List Char) :
    (∀ ts, s.scan cs = .ok ts → ∀ t ∈ ts, t.span.Within (s.offset + width cs)) ∧
      ∀ e, s.scan cs = .error e → e.span.Within (s.offset + width cs) := by
  induction cs generalizing s with
  | nil => exact within_finish behind
  | cons c cs ih =>
    have read := stays_read behind c
    rw [width_cons, ← Nat.add_assoc]
    cases next : s.read c with
    | ok t =>
      -- reading leaves the offset alone, and the step then moves it past the character
      have moved : State.Behind { t with offset := s.offset + c.utf8Size } (s.offset + c.utf8Size) :=
        ⟨(read.ok t next).1.started, (read.ok t next).1.tokens⟩
      rw [scan_cons_ok (step_of_read next)]
      exact ih moved
    | error e =>
      have stopped : s.step c = .error e := by
        unfold step
        rw [next]
        rfl
      rw [scan_cons_error stopped]
      refine ⟨nofun, fun e' h => ?_⟩
      cases h
      exact (read.error e next).mono (Nat.le_add_right _ _)

end State

/-- The tokens of a text stand in it, and so does what is reported of one. -/
theorem within_tokens (source : String) :
    (∀ ts, tokens source = .ok ts → ∀ t ∈ ts, t.span.Within source.utf8ByteSize) ∧
      ∀ e, tokens source = .error e → e.span.Within source.utf8ByteSize := by
  have start : State.initial.Behind State.initial.offset := ⟨nofun, nofun⟩
  have scanned := State.within_scan start source.toList
  rwa [State.initial, Nat.zero_add, width_toList] at scanned

end Scan

end TwinLisp
