import TwinLisp.Eval.Ends
import TwinLisp.Proofs.Execution.Linking
import TwinLisp.Proofs.Execution.Simulation

/-! Whole programs: one top-level expression after the other, definitions of functions among them. -/

namespace TwinLisp.Execution

open TwinLisp.Graph TwinLisp.Graph.Lowering TwinLisp.Graph.Exec TwinLisp.Eval TwinLisp.Expr

variable {program : List Expr} {m : Module} {c : Scene program m} {s s₁ s₂ s' : State} {w w' : World}
  {v u : TwinLisp.Value} {x : Activation} {a : Operand} {e : Expr} {es roots : List Expr}
  {as results : List Operand} {config : Config} {fuel : Nat} {name : String} {params : List String}

/-- A function of the program is bound, which no variable is. -/
theorem Loose.bindFunction {slots : Slots} {base : Table SlotId} {globals : Frame}
    {f : Closure TwinLisp.Value} (h : Loose program slots base globals)
    (defined : Defined program name f.params f.body)
    (captured : ∀ entry ∈ f.captures, Genuine program entry.1 entry.2.value) :
    Loose program slots base (globals.insert name ⟨.function f, .mutable⟩) where
  bound other b bound named := by
    rw [Table.get?_insert] at bound
    split at bound
    next same => exact absurd (.inr ⟨_, _, same ▸ defined⟩) named
    next => exact h.bound other b bound named
  free := h.free
  genuine entry mem := by
    rcases Table.mem_insert mem with rfl | mem
    · exact .function defined captured
    · exact h.genuine entry mem

/-- Outside all scopes a function captures what is global, and is bound globally. -/
theorem matches_defineFunction {slots : Slots} {base : Table SlotId} {env env' : Environment}
    {f : Closure TwinLisp.Value} (h : Matches program .main slots base [] env.locals env.globals)
    (defined : Defined program name f.params f.body) (captures : f.captures = env.snapshot)
    (bound : env.defineFunction name (.function f) = .ok env') :
    Matches program .main slots base [] env'.locals env'.globals := by
  obtain ⟨locals, globals⟩ := env
  obtain ⟨-, rfl⟩ := Environment.defineFunction_ok bound
  cases h with
  | ground grounded =>
    cases grounded with
    | main loose =>
      refine .ground (.main (loose.bindFunction defined fun entry mem => ?_))
      rw [captures] at mem
      obtain ⟨frame, hf, mem⟩ := mem_flatten mem
      cases List.mem_singleton.mp hf
      exact loose.genuine entry mem

/-- A definition binds a function that has captured what is visible. -/
theorem evalDefun_ok {ns : Span} {place : Expr} (listed : place.names? = some params)
    (run : evalDefun (.ident name ns :: place :: e :: es) w = .ok v w') :
    ∃ f env, f.params = params ∧ f.body = e :: es ∧ f.captures = w.env.snapshot ∧
      w.env.defineFunction name (.function f) = .ok env ∧ w'.env = env ∧ w'.output = w.output := by
  obtain ⟨_, _, named, run⟩ := bind_ok_iff.mp run
  obtain ⟨rfl, rfl⟩ := pure_ok_iff.mp named
  obtain ⟨_, _, got, run⟩ := bind_ok_iff.mp run
  unfold Eval.parameters at got
  rw [listed] at got
  obtain ⟨rfl, rfl⟩ := pure_ok_iff.mp got
  obtain ⟨f, w₁, made, run⟩ := bind_ok_iff.mp run
  cases made
  obtain ⟨_, _, updated, run⟩ := bind_ok_iff.mp run
  obtain ⟨rfl, rfl⟩ := pure_ok_iff.mp run
  obtain ⟨env, defined, rfl⟩ := updateEnv_ok updated
  exact ⟨_, env, rfl, rfl, rfl, defined, rfl, rfl⟩

/-- Lowering is between two top-level expressions. -/
structure Outside (s : State) : Prop where
  going : Going .top s
  unscoped : s.current.locals = []

/-- A top-level expression is lowered. -/
theorem Outside.step (h : Outside s) (rooted : Rooted program e) (derived : Lowering.Value e s a s') :
    Outside s' ∧ s.builder.Grown s'.builder ∧ Grows s s' := by
  obtain ⟨registered, grows⟩ := derived.trace.registered h.going.registered
  by_cases defun : e.form? = some .defun
  · -- the unit of a function leaves that of the program as it was
    have same : s'.current = s.current := by
      cases lowersDefun derived defun with
      | intro _ _ defined _ => exact (current_of_define? defined).1
    have builder : s'.builder = s.builder := congrArg UnitState.builder same
    obtain ⟨⟨isOpen, tidy, -, -⟩, unscoped⟩ := h
    have opened := open_of_current same isOpen
    exact ⟨⟨⟨opened, same ▸ tidy, registered, nofun⟩, same ▸ unscoped⟩, builder ▸ .refl _, grows⟩
  · have passage := derived.passage h.going (rooted.code defun)
    refine ⟨⟨⟨passage.after.isOpen, passage.after.tidy, registered, nofun⟩, ?_⟩, passage.grown, grows⟩
    refine List.eq_nil_of_length_eq_zero ?_
    rw [passage.widens.length, h.unscoped]
    rfl

/-- The rest of a program is lowered. -/
theorem Outside.steps (h : Outside s) (rooted : ∀ e ∈ es, Rooted program e) (derived : Values es s as s') :
    Outside s' ∧ s.builder.Grown s'.builder ∧ Grows s s' := by
  induction es generalizing s as with
  | nil =>
    cases derived
    exact ⟨h, .refl _, .refl _⟩
  | cons e es ih =>
    obtain ⟨here, others⟩ := List.forall_mem_cons.mp rooted
    cases derived with
    | cons first rest =>
      obtain ⟨between, grown, grows⟩ := h.step here first
      obtain ⟨after, grown', grows'⟩ := ih between others rest
      exact ⟨after, grown.trans grown', grows.trans grows'⟩

/-- The definition of a function adds no code to that of the program. -/
theorem reaches_defun (floor : c.floor = .main) (unscoped : s.current.locals = [])
    (lowered : LowersDefun e s s') (mem : e ∈ program) (run : evalWith config fuel e w = .ok v w')
    (synced : Synced c s w x) : Reaches c s s' w w' x fun _ => True := by
  cases lowered with
  | @intro _ _ name _ _ params _ _ _ _ unit s₁ results s₂ form listed defined body =>
    cases fuel with
    | zero => cases run
    | succ fuel =>
      unfold evalWith at run
      rw [evalLayer_ok_iff_of_form form] at run
      obtain ⟨f, env, rfl, held, captures, bound, rfl, output⟩ := evalDefun_ok listed run
      have defines : Defined program name f.params f.body := ⟨_, _, _, _, _, held ▸ mem, form, listed⟩
      -- the body has been lowered into a unit of its own, and nothing of it is run here
      have same : s₁.current = s.current := (current_of_define? defined).1
      obtain ⟨here, frames⟩ := synced
      have moved : Synced c (s₂.leaveUnit unit (lastOf results) s₁) w' x := by
        refine ⟨?_, ?_⟩
        · change c.code.At s₁.current.builder x
          rw [same]
          exact here
        · change Matches program c.floor x.slots (c.outlook.base s₁.current.base) s₁.current.locals
            w'.env.locals w'.env.globals
          rw [unscoped, floor] at frames
          rw [same, unscoped, floor]
          exact matches_defineFunction frames defines captures bound
      exact ⟨[], x, ⟨.refl m x, moved, fun _ _ => rfl, output⟩, trivial⟩

/-- One top-level expression is run after the other. -/
theorem reaches_program (linked : Linked program m) (floor : c.floor = .main) (now : c.outlook = .now)
    (sub : ∀ e ∈ es, e ∈ program) (rooted : ∀ e ∈ es, Rooted program e) (outside : Outside s)
    (derived : Values es s as s') (ahead : Ahead m c.code s')
    (run : es.foldlM (fun _ e => evalWith config fuel e) u w = .ok v w') (synced : Synced c s w x) :
    Reaches c s s' w w' x fun _ => True := by
  induction es generalizing s as w u x with
  | nil =>
    cases derived
    cases run
    exact .still synced trivial
  | cons e es ih =>
    obtain ⟨mem, subset⟩ := List.forall_mem_cons.mp sub
    obtain ⟨here, others⟩ := List.forall_mem_cons.mp rooted
    cases derived with
    | @cons _ _ _ a s₁ _ _ first rest =>
      rw [List.foldlM_cons] at run
      obtain ⟨u, w₁, evaluated, run⟩ := bind_ok_iff.mp run
      obtain ⟨between, grown, -⟩ := outside.step here first
      obtain ⟨-, grown', grows'⟩ := between.steps others rest
      have reached : Reaches c s s₁ w w₁ x fun _ => True := by
        -- a definition only binds its name; everything else is code that is run
        by_cases defun : e.form? = some .defun
        · exact reaches_defun floor outside.unscoped (lowersDefun first defun) mem evaluated synced
        · have allows : c.outlook.Allows true s₁.current := by
            rw [now]
            exact nofun
          have inside : c.floor.isCall = false := by
            rw [floor]
            rfl
          have stage : Stage c .top s s₁ := ⟨outside.going, ⟨ahead.back grown' grows', allows⟩, inside⟩
          exact (simulates_evalWith linked config fuel first (here.code defun) stage evaluated
            synced).mono fun _ _ _ => trivial
      exact reached.trans grown.types_le fun y synced _ _ => ih subset others between rest run synced

section Start

variable {M : List Mention} (ready : Ready M s)

include ready

/-- Before the first expression, lowering is between two of them. -/
theorem outside_of_ready : Outside s := by
  have tidy : Tidy s.current := by
    rw [ready.current]
    exact tidy_new 0 0
  refine ⟨⟨ready.isOpen, tidy, ready.registered, nofun⟩, ?_⟩
  rw [ready.current]
  rfl

/-- At the beginning only `nil` is bound. -/
theorem synced_start (output : Output) (f : Builder) (args : List Int64) :
    Synced (⟨f, .main, .now⟩ : Scene program m) s (.initial output)
      { Activation.enter f.finish args with index := f.slots.size } := by
  constructor
  · apply Builder.at_enter
    · rw [ready.builder]
      rfl
    · rw [ready.builder]
      exact Builder.instrsAt_new 0
  · rw [ready.current]
    refine .ground (.main ⟨fun name b bound named => ?_, nofun, ?_⟩)
    · change (if "nil" = name then _ else none) = some b at bound
      split at bound
      next same => exact absurd (.inl same.symm) named
      next => cases bound
    · exact List.forall_mem_singleton.mpr (.data rfl)

end Start

/-- A program that runs to its end is compiled to a module that prints the same. -/
theorem executes_of_values {output : Output} (ready : Ready (Mention.ofExprs program) s)
    (derived : Values program s results s') (rooted : ∀ e ∈ program, Rooted program e)
    (run : runWith config fuel program (.initial output) = .ok v w) :
    ∃ ls, s'.finishMain.module.Executes 0 ls ∧ w.output = ls.foldl Output.println output := by
  have outside := outside_of_ready ready
  obtain ⟨after, grown, grows⟩ := outside.steps rooted derived
  obtain ⟨unit, x, hx, -, -, empty⟩ := ready.unfinished after.going.registered grows
  let f := s'.builder.terminate (.ret (.const 0))
  have completes : Completes s'.finishMain.module s' := .finishMain unit hx empty
  -- the finished module has the code of every function
  have linked := linked_of_values ready derived rooted completes
  have ahead := completes.ahead (Builder.grown_terminate after.going.isOpen.going (.ret (.const 0)))
  have nonempty : 0 < f.size := by
    rw [Builder.size_terminate]
    exact Nat.zero_lt_of_lt after.going.isOpen.lt
  have start := Builder.runs_allocas s'.finishMain.module f [] nonempty (Nat.le_refl _)
  have reached := reaches_program (c := ⟨f, .main, .now⟩) linked rfl rfl (fun _ => id) rooted outside derived
    ahead run (synced_start ready output f [])
  obtain ⟨ls, y, ⟨runs, synced, -, printed⟩, -⟩ := reached
  -- behind the last expression `main` returns zero
  obtain ⟨done, ended⟩ := synced.here.terminate after.going.isOpen (.refl f)
  have found : s'.finishMain.module.units[s'.finishMain.module.main]?
      = some { x with body := some s'.mainBody } := by
    rw [show s'.finishMain.module.main = 0 from grows.main.trans ready.main]
    exact main_finishMain unit hx
  exact ⟨ls, executes_of_runs found rfl (start.trans runs) done ended rfl, printed⟩

end TwinLisp.Execution
