import TwinLisp.Proofs.Agreement.Lockstep
import TwinLisp.Proofs.Eval.Fuel
import TwinLisp.Proofs.Execution.Preservation
import TwinLisp.Proofs.StraightLine

/-!
Straight-line programs are lowered without an error exactly when they run without one, and then the
module prints what the program prints.
-/

namespace TwinLisp

namespace Agreement

open TwinLisp.Graph TwinLisp.Graph.Lowering TwinLisp.Graph.Lowering.Code TwinLisp.Eval

variable {config : Config} {program : List Expr}

theorem sizeOf_lt_list {e : Expr} {items : List Expr} {span : Span} (mem : e ∈ items) :
    sizeOf e < sizeOf (Expr.list items span) := by
  have lt := List.sizeOf_lt_of_mem mem
  rw [Expr.list.sizeOf_spec]
  omega

theorem sizeOf_lt_letIn {e : Expr} {bindings : List (LetBinding Expr)} {body : List Expr} {span : Span}
    (mem : (∃ b ∈ bindings, e = b.init) ∨ e ∈ body) :
    sizeOf e < sizeOf (Expr.letIn bindings body span) := by
  rw [Expr.letIn.sizeOf_spec]
  rcases mem with ⟨b, hb, rfl⟩ | mem
  · have lt := List.sizeOf_lt_of_mem hb
    have lt' : sizeOf b.init < sizeOf b := by
      cases b
      simp
      omega
    omega
  · have lt := List.sizeOf_lt_of_mem mem
    omega

/-- Enough fuel for an expression is not zero. -/
theorem exists_eq_succ_of_sizeOf_le {e : Expr} {fuel : Nat} (enough : sizeOf e ≤ fuel) :
    ∃ n, fuel = n + 1 := by
  have pos : 1 ≤ sizeOf e := by
    cases e <;> simp only [Expr.int.sizeOf_spec, Expr.str.sizeOf_spec, Expr.ident.sizeOf_spec,
      Expr.quote.sizeOf_spec, Expr.list.sizeOf_spec, Expr.letIn.sizeOf_spec] <;> omega
  exact Nat.exists_eq_add_of_le' (Nat.le_trans pos enough)

/-- With fuel for every level of nesting, the code of a straight-line expression and its evaluation
keep in step. -/
theorem follows_of_straightLine {e : Expr} (straight : e.StraightLine) (filled : e.Filled) {fuel : Nat}
    (enough : sizeOf e ≤ fuel) : Follows (evalWith config fuel) e := by
  induction straight generalizing fuel with
  | @int n span =>
    -- each layer of an expression takes one unit of fuel, and its parts are smaller
    obtain ⟨fuel, rfl⟩ := exists_eq_succ_of_sizeOf_le enough
    exact fun d => inStep_pure ⟨n, rfl⟩
  | @ident name span named =>
    obtain ⟨fuel, rfl⟩ := exists_eq_succ_of_sizeOf_le enough
    exact fun d => inStep_variable named
  | @empty span =>
    obtain ⟨fuel, rfl⟩ := exists_eq_succ_of_sizeOf_le enough
    exact fun d => inStep_withSpan span (inStep_fail _ _)
  | @print head hs args span form parts ih =>
    -- one layer for the form, and one for the texts among what is printed
    obtain ⟨fuel, rfl⟩ : ∃ m, fuel = m + 1 + 1 := ⟨fuel - 2, by simp at enough; omega⟩
    cases filled with | list filled => ?_
    refine follows_print form (fun e he plain => ih e he plain (filled e (by simp [he])) ?_) fun _ _ => rfl
    have lt : sizeOf e < sizeOf (Expr.list (.ident head hs :: args) span) :=
      sizeOf_lt_list (List.mem_cons_of_mem _ he)
    omega
  | @form head hs form args span classified straight parts ih =>
    obtain ⟨fuel, rfl⟩ := exists_eq_succ_of_sizeOf_le enough
    cases filled with | list filled => ?_
    refine follows_form classified straight (fun e he => ih e he (filled e (by simp [he])) ?_) ?_
    · have lt : sizeOf e < sizeOf (Expr.list (.ident head hs :: args) span) :=
        sizeOf_lt_list (List.mem_cons_of_mem _ he)
      omega
    · exact fun name at' mem => (parts _ mem).ne_nil
  | @letIn bindings body span named inits inner ihInits ihInner =>
    obtain ⟨fuel, rfl⟩ := exists_eq_succ_of_sizeOf_le enough
    cases filled with | letIn initsFilled nonempty innerFilled => ?_
    -- initial values and body are smaller alike
    have smaller {e : Expr} (mem : (∃ b ∈ bindings, e = b.init) ∨ e ∈ body) : sizeOf e ≤ fuel := by
      have lt : sizeOf e < sizeOf (Expr.letIn bindings body span) := sizeOf_lt_letIn mem
      omega
    refine fun d => inStep_let nonempty (fun b hb => ?_) fun e he => ?_
    · exact ihInits b hb (initsFilled b hb) (smaller (.inl ⟨b, hb, rfl⟩))
    · exact ihInner e he (innerFilled e he) (smaller (.inr he))

/-- Straight-line code mentions no functions. -/
theorem mentions_of_straightLine {e : Expr} (straight : e.StraightLine) : Mention.ofExpr e = [] := by
  -- the induction hypotheses speak of each operand, a list of mentions of all of them
  have none {es : List Expr} (each : ∀ e ∈ es, Mention.ofExpr e = []) : Mention.ofExprs es = [] := by
    induction es with
    | nil => rfl
    | cons e es ih =>
      obtain ⟨here, others⟩ := List.forall_mem_cons.mp each
      rw [Mention.ofExprs, here, ih others]
      rfl
  induction straight with
  | int => rfl
  | ident => rfl
  | empty => rfl
  | print form parts ih =>
    rw [Mention.ofExpr_form form (by decide)]
    refine none fun e he => ?_
    -- a text is printed as it is, so nothing is known of it, but it mentions nothing either
    by_cases plain : ∀ text at', e ≠ .str text at'
    · exact ih e he plain
    · obtain ⟨text, at', rfl⟩ : ∃ text at', e = .str text at' := by simpa using plain
      rfl
  | form classified straight parts ih =>
    rw [Mention.ofExpr_form classified]
    · exact none ih
    · -- the forms that define functions are not straight
      refine ⟨?_, ?_, ?_⟩ <;>
      · rintro rfl
        cases straight
  | letIn named inits inner ihInits ihInner =>
    rw [Mention.ofExpr, Mention.ofBindings_eq, none ihInner, none]
    · rfl
    · rintro e he
      obtain ⟨b, hb, rfl⟩ := List.mem_map.mp he
      exact ihInits b hb

/-- Nothing keeps the module of a straight-line program from being verified. -/
theorem linked_of_straightLine (straight : StraightLineProgram program) :
    Mention.Linked (Mention.ofExprs program) := by
  have none : Mention.ofExprs program = [] := by
    induction program with
    | nil => rfl
    | cons e es ih =>
      obtain ⟨here, others⟩ := List.forall_mem_cons.mp straight
      rw [Mention.ofExprs, mentions_of_straightLine here, ih others]
      rfl
  rw [none]
  exact ⟨by simp [Mention.NamesMain], by simp [Mention.Undefined], by simp [Mention.Agree]⟩

/-- Lowering begins with the scopes that evaluation begins with. -/
theorem mirrors_start (lowering : LowerConfig) (program : List Expr) (output : Output) :
    Mirrors 0 (start lowering program) (.initial output) := by
  have ready := ready_start lowering program
  refine ⟨?_, ?_, rfl⟩
  · rw [ready.current]
    exact .nil
  · rw [ready.current]
    intro name named
    have unbound : (World.initial output).env.globals.get? name = none := by
      change (if "nil" = name then _ else none) = none
      rw [if_neg (Ne.symm named)]
    rw [unbound]
    exact .none

variable (lowering : LowerConfig) (config : Config) (output : Output)
  (filled : ∀ e ∈ program, e.Filled) (straight : StraightLineProgram program)

include filled straight

/-- With fuel for every level of nesting, the two walks over the whole program keep in step. -/
theorem lockstep_main {fuel : Nat} (enough : sizeOf program ≤ fuel) :
    Lockstep (fun _ _ => True) 0 (lowerBody (ofExprs program) (start lowering program))
      (runWith config fuel program (.initial output)) := by
  have mirrors := mirrors_start lowering program output
  cases hp : program with
  | nil => exact .ok trivial (hp ▸ mirrors)
  | cons e es =>
    rw [← hp]
    have follows : ∀ e ∈ program, Follows (evalWith config fuel) e := fun e he =>
      follows_of_straightLine (straight e he) (filled e he)
        (Nat.le_of_lt (Nat.lt_of_lt_of_le (List.sizeOf_lt_of_mem he) enough))
    -- with one expression at least, both sides run the same sequence
    have body := inStep_body (d := 0) (by rw [hp]; exact List.cons_ne_nil e es) follows
    have run := body _ _ mirrors
    unfold runWith
    generalize lowerBody (ofExprs program) (start lowering program) = rx at run
    generalize evalBody (evalWith config fuel) program (.initial output) = ry at run
    cases run with
    | ok related mirrors => exact .ok trivial mirrors
    | error => exact .error

/-- Lowering and evaluation both succeed, or both report the same fault. -/
theorem lower_and_run :
    (∃ m v w, lower lowering program = .ok m ∧ Ends config program (.initial output) (.ok v w)) ∨
      ∃ fault span span' w, lower lowering program = .error (.program ⟨fault, span⟩) ∧
        Ends config program (.initial output) (.error (.failed ⟨fault, span'⟩) w) := by
  have run := lockstep_main lowering config output filled straight (Nat.le_refl _)
  generalize hx : lowerBody (ofExprs program) (start lowering program) = rx at run
  generalize hy : runWith config (sizeOf program) program (.initial output) = ry at run
  cases run with
  | @ok _ s v w _ mirrors =>
    -- what has been lowered calls nothing, and so it can be linked
    have lowered : lowerUnverified lowering program = .ok s.finishMain.module :=
      lowerUnverified_of_ok ((bind_of_ok hx).trans rfl)
    refine .inl ⟨_, v, w, lower_ok_iff.mpr ⟨lowered, linked_of_straightLine straight⟩, nofun, _, hy⟩
  | @error fault span span' s w =>
    refine .inr ⟨fault, span, span', w, ?_, nofun, _, hy⟩
    unfold lower
    rw [lowerUnverified_of_error (bind_of_error hx)]

end Agreement

open TwinLisp.Graph TwinLisp.Eval

/-- On straight-line programs the two backends agree: they fail with the same message or not at all,
and where they do not fail, the module prints the lines of the run. -/
theorem backends_agree (lowering : LowerConfig) (config : Config) {source : String}
    {program : List Expr} (read : Reader.read source = .ok program)
    (straight : StraightLineProgram program) :
    (∀ message, (∃ error, lower lowering program = .error error ∧ error.message = message) ↔
      ∃ error w, Ends config program (.initial .buffer) (.error (.failed error) w) ∧
        error.fault.message = message) ∧
    ∀ m, lower lowering program = .ok m → ∃ v w, Ends config program (.initial .buffer) (.ok v w) ∧
      ∀ result lines, m.Executes result lines ↔ result = 0 ∧ lines = w.output.lines.toList := by
  have filled := Reader.filled_of_read read
  -- one of the two things happens to both: from here on each direction only compares results
  rcases Agreement.lower_and_run lowering config .buffer filled straight with
    ⟨m, v, w, lowered, ends⟩ | ⟨fault, span, span', w, failed, ends⟩
  · constructor
    · intro message
      constructor
      · rintro ⟨error, failed, -⟩
        -- the program can be lowered and runs to its end, so there is no error on either side
        cases lowered.symm.trans failed
      · rintro ⟨error, w', ends', -⟩
        cases ends.unique ends'
    · intro m' lowered'
      cases lowered.symm.trans lowered'
      have static := staticallyScoped_of_straightLine straight
      exact ⟨v, w, ends, Execution.executes_iff_of_run filled static lowered ends⟩
  · constructor
    · intro message
      constructor
      · rintro ⟨error, failed', rfl⟩
        cases failed.symm.trans failed'
        -- the errors have one fault in common, and with it the message
        exact ⟨_, w, ends, rfl⟩
      · rintro ⟨error, w', ends', rfl⟩
        cases ends.unique ends'
        exact ⟨_, failed, rfl⟩
    · intro m lowered
      cases lowered.symm.trans failed

/-- A constant that is printed, and then set. -/
def constIsSet : List Expr := [
  .list [.ident "const" ⟨1, 6⟩, .ident "y" ⟨7, 8⟩, .int 2 ⟨9, 10⟩] ⟨0, 11⟩,
  .list [.ident "print" ⟨13, 18⟩, .ident "y" ⟨19, 20⟩] ⟨12, 21⟩,
  .list [.ident "set" ⟨23, 26⟩, .ident "y" ⟨27, 28⟩, .int 3 ⟨29, 30⟩] ⟨22, 31⟩]

theorem backends_agree_constIsSet : Reader.read "(const y 2) (print y) (set y 3)" = .ok constIsSet ∧
    StraightLineProgram constIsSet ∧
    (∃ error, lower {} constIsSet = .error error ∧
      error.message = (Fault.immutableBinding "y").message) ∧
    ∃ error w, Ends {} constIsSet (.initial .buffer) (.error (.failed error) w) ∧
      error.fault.message = (Fault.immutableBinding "y").message := by
  have read : Reader.read "(const y 2) (print y) (set y 3)" = .ok constIsSet := by rfl
  have name (span : Span) : (Expr.ident "y" span).StraightLine := .ident (by decide)
  have straight : StraightLineProgram constIsSet := by
    refine List.forall_mem_cons.mpr ⟨?_, List.forall_mem_cons.mpr ⟨?_, List.forall_mem_singleton.mpr ?_⟩⟩
    · exact .form rfl rfl (by simp [name, Expr.StraightLine.int])
    · exact .print rfl (by simp [name])
    · exact .form rfl rfl (by simp [name, Expr.StraightLine.int])
  have fails : ∃ error, lower {} constIsSet = .error error ∧
      error.message = (Fault.immutableBinding "y").message := ⟨_, rfl, rfl⟩
  exact ⟨read, straight, fails, ((backends_agree {} {} read straight).1 _).mp fails⟩

end TwinLisp
