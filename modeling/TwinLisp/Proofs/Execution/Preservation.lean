import TwinLisp.Proofs.Execution.Programs
import TwinLisp.Proofs.Lowering.Verify
import TwinLisp.Proofs.Reader.Filled

/-!
Lowering preserves what a program does: where names can be told from the text, a program that runs to
its end is compiled to a module that runs to its end as well and prints the same lines.
-/

namespace TwinLisp

open TwinLisp.Expr

variable {program : List Expr} {p q : Place} {e e' : Expr}

theorem Expr.Filled.of_part (h : e.Filled) (part : Part (p, e) (q, e')) : e'.Filled := by
  cases part with
  | operand | argument | body =>
    cases h with
    | list parts => exact parts e' (by simp)
  | init =>
    cases h with
    | letIn inits => exact inits _ (by simp)
  | inner =>
    cases h with
    | letIn _ _ inner => exact inner e' (by simp)

/-- All parts of code that has a body in each of its `let` forms are such code. -/
theorem Expr.Filled.of_contains {c c' : Placed} (h : c.2.Filled) (inner : Contains c c') : c'.2.Filled := by
  induction inner with
  | refl => exact h
  | tail _ part ih => exact ih.of_part part

namespace Execution

open TwinLisp.Graph TwinLisp.Graph.Lowering TwinLisp.Eval

/-- No variable of a program that is statically scoped has a reserved name. -/
theorem free_of_staticallyScoped (static : StaticallyScoped program) {root : Expr} (mem : root ∈ program)
    (inner : Contains (.top, root) (p, e)) : ∀ x ∈ e.variableNames, ¬Reserved program x := by
  intro x bound
  obtain ⟨named, functions⟩ := static.names root mem p e inner x bound
  rintro (same | ⟨params, body, head, hs, ns, place, span, other, form, listed⟩)
  · exact named same
  · exact functions _ other (target?_list form)

/-- The code of a program that is statically scoped is settled. -/
theorem rooted_of_staticallyScoped (static : StaticallyScoped program)
    (filled : ∀ e ∈ program, e.Filled) : ∀ e ∈ program, Rooted program e := by
  intro root mem
  -- what static scoping says of each place, as lowering and running need it
  have fits {p : Place} {e : Expr} (inner : Contains (.top, root) (p, e)) (noDefun : e.form? ≠ some .defun) :
      Suits (Reserved program) p e := by
    refine ⟨(static.functions root mem p e).1 inner, noDefun, free_of_staticallyScoped static mem inner,
      static.sets root mem p e inner, static.consts root mem p e inner, ?_⟩
    rintro bindings span rfl
    have filled : (Expr.letIn bindings [] span).Filled := (filled root mem).of_contains inner
    cases filled with
    | letIn _ nonempty => exact nonempty rfl
  -- settled code, and the settled bodies of definitions
  constructor
  · intro code q e' inner
    refine fits inner ?_
    -- the expression itself is no definition here, and below the top level there are none
    rcases Relation.reflTransGen_iff_eq_or_transGen.mp inner with same | within
    · cases same
      exact code
    · exact (static.functions root mem q e').2 within
  · rintro head hs name ns place params body span form listed rfl
    constructor
    · rintro before e after rfl q e' inner
      have within : ContainsWithin
          (.top, .list (.ident head hs :: .ident name ns :: place :: before ++ e :: after) span) (q, e') :=
        .head' (.body form listed) inner
      exact fits within.to_reflTransGen ((static.functions _ mem q e').2 within)
    · intro x param
      refine free_of_staticallyScoped static mem .refl x ?_
      simp [Expr.variableNames, Expr.params, form, listed, param]

/-- What is printed line by line is kept as lines. -/
theorem lines_foldl_println (ls : List String) :
    (ls.foldl Output.println .buffer).lines.toList = ls := by
  have keeps : ∀ (ls : List String) (lines : Array String),
      ls.foldl Output.println ⟨true, lines⟩ = ⟨true, lines ++ ls⟩ := by
    intro ls
    induction ls with
    | nil => simp
    | cons line ls ih =>
      intro lines
      rw [List.foldl_cons]
      exact (ih _).trans (by simp)
  rw [Output.buffer, keeps]
  simp

/-- The module of a program that runs to its end prints its lines and returns zero. -/
theorem executes_iff_of_run {lowering : LowerConfig} {config : Config} {m : Module}
    {v : TwinLisp.Value} {w : World} (filled : ∀ e ∈ program, e.Filled) (static : StaticallyScoped program)
    (lowered : lower lowering program = .ok m)
    (ends : Ends config program (.initial .buffer) (.ok v w)) (result : Int64) (lines : List String) :
    m.Executes result lines ↔ result = 0 ∧ lines = w.output.lines.toList := by
  obtain ⟨results, s, derived, rfl⟩ := lowerUnverified_ok_iff.mp (lower_ok_iff.mp lowered).1
  obtain ⟨-, fuel, run⟩ := ends
  obtain ⟨ls, executes, printed⟩ := executes_of_values (ready_start lowering program) derived
    (rooted_of_staticallyScoped static filled) run
  have same : w.output.lines.toList = ls := by
    rw [printed]
    exact lines_foldl_println ls
  rw [same]
  constructor
  · exact fun h => Exec.executes_unique h executes
  · rintro ⟨rfl, rfl⟩
    exact executes

end Execution

namespace Graph

open Eval

/-- Lowering preserves meaning: where names can be told from the text, a program that runs to its end is
compiled to a module that runs to its end, returns zero and prints the same lines, and does nothing
else. -/
theorem executes_of_lower (lowering : LowerConfig) (config : Config) {source : String}
    {program : List Expr} {m : Module} {v : Value} {w : World}
    (read : Reader.read source = .ok program) (static : StaticallyScoped program)
    (lowered : lower lowering program = .ok m)
    (ends : Ends config program (.initial .buffer) (.ok v w)) (result : Int64) (lines : List String) :
    m.Executes result lines ↔ result = 0 ∧ lines = w.output.lines.toList :=
  Execution.executes_iff_of_run (Reader.filled_of_read read) static lowered ends result lines

/-- A function that calls itself, a constant, a local variable and a loop. -/
def factorials : String :=
  "(defun fact (n) (if (< n 2) 1 (* n (fact (- n 1))))) (const last 3)" ++
    " (let ((k 0)) (while (< k last) (set k (+ k 1)) (print (fact k)))) (print \"done\")"

theorem executes_of_lower_factorials : ∃ program m v w, Reader.read factorials = .ok program ∧
    StaticallyScoped program ∧ lower {} program = .ok m ∧
    Ends { loopLimit := none } program (.initial .buffer) (.ok v w) ∧
    w.output.lines.toList = ["1", "2", "6", "done"] ∧
    ∀ result lines, m.Executes result lines ↔ result = 0 ∧ lines = ["1", "2", "6", "done"] := by
  have reads : (Reader.read factorials).toBool = true := by decide +kernel
  have scopes : (Reader.read factorials).toOption.all (fun p => decide (StaticallyScoped p)) = true := by
    decide +kernel
  have lowers : (Reader.read factorials).toOption.all (fun p => (lower {} p).toBool) = true := by
    decide +kernel
  have prints : (Reader.read factorials).toOption.all (fun p =>
      match runWith { loopLimit := none } 20 p (.initial .buffer) with
      | .ok _ w => w.output.lines.toList == ["1", "2", "6", "done"]
      | .error .. => false) = true := by
    decide +kernel
  -- each of the four computations has an outcome, which is taken
  -- for a variable before the theorem is applied
  cases read : Reader.read factorials with
  | error => simp [read, Except.toBool] at reads
  | ok program =>
    rw [read] at scopes lowers prints
    have static : StaticallyScoped program := of_decide_eq_true scopes
    cases lowered : lower {} program with
    | error =>
      simp [lowered, Except.toOption, Except.toBool] at lowers
    | ok m =>
      cases run : runWith { loopLimit := none } 20 program (.initial .buffer) with
      | error => simp [run, Except.toOption] at prints
      | ok v w =>
        have printed : w.output.lines.toList = ["1", "2", "6", "done"] := by
          simpa [run, Except.toOption] using prints
        have ends : Ends { loopLimit := none } program (.initial .buffer) (.ok v w) := by
          refine ⟨fun u out => ?_, 20, run⟩
          cases out
        refine ⟨program, m, v, w, rfl, static, lowered, ends, printed, fun result lines => ?_⟩
        rw [← printed]
        exact executes_of_lower {} { loopLimit := none } read static lowered ends result lines

end Graph

end TwinLisp
