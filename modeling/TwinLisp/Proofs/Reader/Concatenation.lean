import TwinLisp.Proofs.Arena.Append
import TwinLisp.Proofs.Reader.Layout

/-!
Reading is compositional: two texts, one below the other, are read as the expressions of the first one
and then those of the second one.
-/

namespace TwinLisp.Reader

open Layout Scan

variable {first second : String} {p q : List Expr} {ps qs : List Piece} {trailing trailing' : List Char}

/-- The layouts of two texts make up that of the one below the other: the end of the line ends what is
trailing in the first text, a word and a comment included. -/
theorem layout_newline (ended : Trailing trailing) (maximal : Maximal ps trailing)
    (ended' : Trailing trailing') (maximal' : Maximal qs trailing') :
    ∃ pieces rest, text ps ++ trailing ++ '\n' :: (text qs ++ trailing') = text pieces ++ rest ∧
      Trailing rest ∧ Maximal pieces rest ∧ place .mk 0 pieces
        = place .mk 0 ps ++ place .mk (width (text ps ++ trailing) + 1) qs := by
  -- the newline ends the last token of the first text, whatever follows
  have behind (rest : List Char) : Maximal ps (trailing ++ ['\n'] ++ rest) := by
    refine maximal.follow fun c next => ?_
    rw [List.head?_append_of_ne_nil _ (by simp)] at next
    exact head_gap ended.newline next
  -- Without a token in the second text, the seam belongs to what is trailing, else to its first gap.
  cases qs with
  | nil =>
    refine ⟨ps, trailing ++ ['\n'] ++ trailing', ?_, ended'.prepend ended.newline, behind _, ?_⟩
    · simp [text]
    · simp [place]
  | cons q qs =>
    let gap := trailing ++ ['\n']
    have nonempty := List.cons_ne_nil q qs
    refine ⟨ps ++ indent gap ended.newline (q :: qs), trailing', ?_, ended', ?_, ?_⟩
    · rw [text_append, text_indent ended.newline nonempty]
      simp
    · refine maximal_append.mpr ⟨?_, (maximal_indent ended.newline).mpr maximal'⟩
      rw [text_indent ended.newline nonempty, List.append_assoc]
      exact behind _
    · have start : 0 + width (text ps) + width gap = width (text ps ++ trailing) + 1 := by
        simp only [gap, width_append, width_cons, width_nil, Nat.zero_add, Nat.add_assoc]
        rfl
      rw [place_append, place_indent, start]

/-- Two texts, one below the other, are read as the programs of both: the nodes of the second one are
behind those of the first one, and as far behind in the text as it is long. -/
theorem read_newline (readFirst : read first = .ok p) (readSecond : read second = .ok q)
    (small : (first ++ "\n" ++ second).utf8ByteSize < 2 ^ 32) :
    let n := first.utf8ByteSize + 1
    read (first ++ "\n" ++ second) = .ok (p ++ q.map (Expr.shift n)) ∧
      FlatProgram.ofExprs (p ++ q.map (Expr.shift n))
        = (FlatProgram.ofExprs p).append n (FlatProgram.ofExprs q) := by
  intro n
  refine ⟨?_, FlatProgram.ofExprs_append p q n⟩
  have size : (first ++ "\n" ++ second).utf8ByteSize = first.utf8ByteSize + 1 + second.utf8ByteSize := by
    rw [String.utf8ByteSize_append, String.utf8ByteSize_append]
    rfl
  obtain ⟨ps, trailing, split, ended, maximal, derived⟩ := (read_ok_iff (by omega)).mp readFirst
  obtain ⟨qs, trailing', split', ended', maximal', derived'⟩ := (read_ok_iff (by omega)).mp readSecond
  obtain ⟨pieces, rest, whole, endedWhole, maximalWhole, placed⟩ :=
    layout_newline ended maximal ended' maximal'
  refine (read_ok_iff small).mpr ⟨pieces, rest, ?_, endedWhole, maximalWhole, ?_⟩
  · rw [← whole, ← split, ← split']
    simp
  · -- the second text is derived behind the first one and the newline
    have moved := derived'.shift n
    rw [← place_shift, Nat.zero_add] at moved
    rw [placed, ← split, width_toList]
    exact derived.append moved

/-- The first text is of two expressions and ends with a comment; its first character takes two bytes. -/
theorem read_newline_comment :
    let p : List Expr := [.ident "λ" ⟨0, 2⟩, .quote (.int 1 ⟨4, 5⟩) .short ⟨3, 5⟩]
    let q : List Expr := [.list [.ident "b" ⟨1, 2⟩] ⟨0, 3⟩]
    let moved : List Expr := [.list [.ident "b" ⟨9, 10⟩] ⟨8, 11⟩]
    read "λ '1;c" = .ok p ∧ read "(b)" = .ok q ∧
      read ("λ '1;c" ++ "\n" ++ "(b)") = .ok (p ++ moved) ∧
      FlatProgram.ofExprs (p ++ moved) = (FlatProgram.ofExprs p).append 8 (FlatProgram.ofExprs q) := by
  intro p q moved
  have readFirst : read "λ '1;c" = .ok p := by rfl
  have readSecond : read "(b)" = .ok q := by rfl
  exact ⟨readFirst, readSecond, read_newline readFirst readSecond (by decide)⟩

end TwinLisp.Reader
