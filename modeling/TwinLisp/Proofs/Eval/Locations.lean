import TwinLisp.Eval.Ends
import TwinLisp.Proofs.Environment
import TwinLisp.Proofs.Eval.Law
import TwinLisp.Report.Location

/-!
Where errors of evaluation point: at a node of the program, which may be one in the body of a function
that was made long before.
-/

namespace TwinLisp.Eval

open Reader

variable {program : List Expr} {w : World}

/-- Only code of the program is run, and every error has a place, which is a node of it. -/
abbrev locating (program : List Expr) : Law where
  code e := Occurs program .code e
  value v := v.RunsOnly (Occurs program .code)
  world w := w.env.All (·.RunsOnly (Occurs program .code))
  step _ _ := True
  place span? := ∃ span, span? = some span ∧ IsNodeSpan program span

/-- Every step of evaluation runs code of the program: functions are made of it and bring no other. -/
theorem locating_sound (program : List Expr) : (locating program).Sound where
  refl _ := trivial
  trans _ _ := trivial
  items code e mem := .child code mem
  inits code b mem := .child code (List.mem_append_left _ (List.mem_map_of_mem mem))
  body code e mem := .child code (List.mem_append_right _ mem)
  int _ := .data rfl
  str _ := .data rfl
  quoted e := .data (by cases e <;> rfl)
  lookup hw found := hw.lookup found
  -- a function that is called brings its own code and what it captured
  called hf := by
    cases hf with
    | data data => cases data
    | function body captures => exact ⟨body, captures⟩
  made hw hbody _ _ := .function hbody hw.snapshot
  print hw _ := ⟨hw, trivial⟩
  create hw := ⟨hw, trivial⟩
  assign hw hv changed := ⟨hw.of_stems hv (Environment.stems_assign changed), trivial⟩
  const hw hv changed := ⟨hw.of_stems hv (Environment.stems_defineConst changed), trivial⟩
  defun hw _ hf _ _ _ changed := ⟨hw.of_stems hf (Environment.stems_defineFunction changed), trivial⟩
  enter hw values := hw.enter values
  leave {w w' scopes} _ hw' _ := ⟨hw'.truncate w.env.depth, trivial⟩
  -- whatever fails is a node, and its place is that of a node
  fails {e} code := ⟨e.span, rfl, .code, e, code, rfl⟩

/-- Before the first expression there is no function. -/
theorem runsOnly_initial (program : List Expr) (output : Output) :
    (World.initial output).RunsOnly program :=
  Environment.all_iff.mpr ⟨nofun, List.forall_mem_singleton.mpr (.data rfl)⟩

/-- However code of the program is run, no other functions come up; and no error comes out of the run
without a place, which is that of a node of the program. -/
theorem located_runWith (config : Config) (fuel : Nat) {es : List Expr}
    (code : ∀ e ∈ es, Occurs program .code e) (runs : w.RunsOnly program) :
    (finalWorld (runWith config fuel es w)).RunsOnly program ∧
      ∀ error u, runWith config fuel es w = .error (.failed error) u →
        ∃ span, error.span = some span ∧ IsNodeSpan program span := by
  have sound := locating_sound program
  have obeys := Law.obeys_evalBody sound
    (fun e he => Law.obeys_evalWith sound config fuel he) code w runs
  unfold runWith
  -- an evaluation that succeeds has no error to place
  cases run : evalBody (evalWith config fuel) es w with
  | ok v u =>
    rw [run] at obeys
    exact ⟨obeys.2.1, nofun⟩
  | error halt u =>
    rw [run] at obeys
    refine ⟨obeys.2.1, fun error u' failed => ?_⟩
    cases failed
    exact obeys.1 error rfl

end TwinLisp.Eval
