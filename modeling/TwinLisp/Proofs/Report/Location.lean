import TwinLisp.Proofs.Eval.Locations
import TwinLisp.Proofs.Lowering.Locations
import TwinLisp.Proofs.Reader.Bounds

/-! Reports mark what the error is about, and nothing in them is cut off. -/

namespace TwinLisp

open TwinLisp.Eval TwinLisp.Graph TwinLisp.Reader

/-- A node of a program stands in the source that the program was read from. -/
theorem Diagnosis.pointsAtNode {source : String} {program : List Expr} {d : Diagnosis} {span : Span}
    (read : read source = .ok program) (marked : d.span = some span)
    (node : IsNodeSpan program span) : d.PointsAtNode source program := by
  have within : span.Within source.utf8ByteSize := by
    obtain ⟨mode, e, occurs, rfl⟩ := node
    exact occurs.within read
  exact ⟨span, marked, node, within, within.clamp⟩

/-- Every error points into the source. What a text is refused for stands in it; what a program that was
read from it fails for, when its code is run, now or in a function that was made by an earlier run, and
when it is lowered, is a node of the program; and so no report has to move what it marks. -/
theorem errors_point_into_source (source : String) :
    (∀ error, read source = .error error → error.span.Within source.utf8ByteSize ∧
      error.span.clamp source.utf8ByteSize = error.span) ∧
    ∀ program, read source = .ok program →
      (∀ output, (World.initial output).RunsOnly program) ∧
      (∀ config fuel es w, (∀ e ∈ es, Occurs program .code e) → w.RunsOnly program →
        (finalWorld (runWith config fuel es w)).RunsOnly program ∧
        ∀ error u, runWith config fuel es w = .error (.failed error) u →
          (Diagnosis.ofEval error).PointsAtNode source program) ∧
      ∀ config error, lower config program = .error error → (∀ fault, error ≠ .verify fault) →
        (Diagnosis.ofLower error).PointsAtNode source program := by
  refine ⟨fun error refused => ?_, fun program read => ⟨runsOnly_initial program, ?_, ?_⟩⟩
  · have within := within_of_read_error refused
    exact ⟨within, within.clamp⟩
  · intro config fuel es w code runs
    obtain ⟨kept, located⟩ := located_runWith config fuel code runs
    refine ⟨kept, fun error u failed => ?_⟩
    obtain ⟨span, placed, node⟩ := located error u failed
    exact Diagnosis.pointsAtNode read placed node
  · intro config error refused notVerify
    -- lowering may also fail in verification, whose errors have no place in the text
    unfold lower at refused
    split at refused
    next fault unlowered =>
      cases refused
      exact Diagnosis.pointsAtNode read rfl (Lowering.located_lowerUnverified unlowered)
    next =>
      split at refused
      next fault _ =>
        cases refused
        exact absurd rfl (notVerify fault)
      next => cases refused

/-- The unknown variable in the body of `f` stops the program both when it is run and when it is lowered;
in another text a parenthesis is left open. -/
theorem errors_point_into_source_variable :
    let source := "(defun f () λ) (f)"
    let program : List Expr := [
      .list [.ident "defun" ⟨1, 6⟩, .ident "f" ⟨7, 8⟩, .list [] ⟨9, 11⟩, .ident "λ" ⟨12, 14⟩] ⟨0, 15⟩,
      .list [.ident "f" ⟨17, 18⟩] ⟨16, 19⟩]
    let unevaluated : EvalError := ⟨.undefinedVariable "λ", some ⟨12, 14⟩⟩
    let unlowered : ProgramError := ⟨.undefinedVariable "λ", ⟨12, 14⟩⟩
    Reader.read source = .ok program ∧
    (∃ u, runWith {} 9 program (World.initial .buffer) = .error (.failed unevaluated) u) ∧
    (Diagnosis.ofEval unevaluated).PointsAtNode source program ∧
    lower {} program = .error (.program unlowered) ∧
    (Diagnosis.ofLower (.program unlowered)).PointsAtNode source program ∧
    Reader.read "(λ" = .error ⟨.unclosedList, ⟨0, 1⟩⟩ ∧ (⟨0, 1⟩ : Span).Within "(λ".utf8ByteSize := by
  intro source program unevaluated unlowered
  have read : Reader.read "(defun f () λ) (f)" = .ok program := by rfl
  have refused : Reader.read "(λ" = .error ⟨.unclosedList, ⟨0, 1⟩⟩ := by rfl
  have ended : ∃ u, runWith {} 9 program (World.initial .buffer) = .error (.failed unevaluated) u :=
    ⟨_, by rfl⟩
  have lowered : lower {} program = .error (.program unlowered) := by rfl
  obtain ⟨start, runs, lowers⟩ := (errors_point_into_source source).2 program read
  obtain ⟨u, failed⟩ := ended
  have code : ∀ e ∈ program, Occurs program .code e := fun e mem => .root mem
  exact ⟨read, ⟨u, failed⟩, (runs {} 9 program _ code (start .buffer)).2 unevaluated u failed, lowered,
    lowers {} _ lowered nofun, refused, ((errors_point_into_source "(λ").1 _ refused).1⟩

end TwinLisp
