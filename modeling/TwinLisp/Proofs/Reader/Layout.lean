import TwinLisp.Proofs.Reader.Exact
import TwinLisp.Proofs.Reader.Shift
import TwinLisp.Proofs.Token.Inverse

/-!
Reading a text by its layout: a text is read as the program that its tokens derive, and the places of
these tokens are where the layout has them.
-/

namespace TwinLisp.Reader

open Layout Scan

variable {source : String} {program : List Expr} {pieces : List Piece} {trailing : List Char}

/-- A text is read by the tokens of its layout. -/
theorem read_of_layout (split : source.toList = text pieces ++ trailing) (ended : Trailing trailing)
    (maximal : Maximal pieces trailing) :
    read source = readTokens (place .ofOffsets 0 pieces) source.utf8ByteSize := by
  unfold read
  rw [tokens_ok_iff.mpr ⟨pieces, trailing, split, ended, maximal, rfl⟩]
  rfl

theorem layout_of_read (h : read source = .ok program) : ∃ pieces trailing,
    source.toList = text pieces ++ trailing ∧ Trailing trailing ∧ Maximal pieces trailing := by
  unfold read at h
  cases scanned : Scan.tokens source with
  | error e =>
    rw [scanned] at h
    cases h
  | ok ts =>
    obtain ⟨pieces, trailing, split, ended, maximal, -⟩ := tokens_ok_iff.mp scanned
    exact ⟨pieces, trailing, split, ended, maximal⟩

/-- A text whose offsets can be recorded is read as what its tokens derive, each at its place. -/
theorem read_ok_iff (small : source.utf8ByteSize < 2 ^ 32) : read source = .ok program ↔
    ∃ pieces trailing, source.toList = text pieces ++ trailing ∧ Trailing trailing ∧
      Maximal pieces trailing ∧ DerivesAll .code (place .mk 0 pieces) program := by
  constructor
  · intro h
    obtain ⟨pieces, trailing, split, ended, maximal⟩ := layout_of_read h
    rw [read_of_layout split ended maximal, place_exact (inRange_of_size split small)] at h
    exact ⟨pieces, trailing, split, ended, maximal, derives_of_readTokens h⟩
  · rintro ⟨pieces, trailing, split, ended, maximal, derived⟩
    rw [read_of_layout split ended maximal, place_exact (inRange_of_size split small)]
    exact readTokens_of_derives derived _

theorem place_eq_append {span : Nat → Nat → Span} {xs ys : List Token} {offset : Nat}
    (split : place span offset pieces = xs ++ ys) :
    ∃ ps qs, pieces = ps ++ qs ∧ place span offset ps = xs := by
  induction pieces generalizing offset xs with
  | nil => exact ⟨[], [], rfl, (List.append_eq_nil_iff.mp split.symm).1.symm⟩
  | cons p pieces ih =>
    cases xs with
    | nil => exact ⟨[], p :: pieces, rfl, rfl⟩
    | cons x xs =>
      obtain ⟨here, others⟩ := List.cons.inj split
      obtain ⟨ps, qs, rfl, rfl⟩ := ih others
      exact ⟨p :: ps, qs, rfl, congrArg (· :: _) here⟩

/-- Tokens with more bytes before them. -/
theorem place_shift (n offset : Nat) (pieces : List Piece) :
    place .mk (offset + n) pieces = (place .mk offset pieces).map (Token.shift n) := by
  induction pieces generalizing offset with
  | nil => rfl
  | cons p pieces ih =>
    have start : offset + n + width p.gap = offset + width p.gap + n := by omega
    have stop : offset + width p.gap + n + width p.word = offset + width p.gap + width p.word + n := by
      omega
    simp only [place, List.map_cons, start, stop, ih]
    rfl

end TwinLisp.Reader
