import TwinLisp.Proofs.Execution.Sequences
import TwinLisp.Proofs.Lowering.Result

/-!
Calls: the unit of a function is entered with the arguments in slots of its own, and when it has come
to its end the frames of the caller are as they were.
-/

namespace TwinLisp.Execution

open TwinLisp.Graph TwinLisp.Graph.Lowering TwinLisp.Graph.Exec TwinLisp.Eval TwinLisp.Expr

/-- The body of a unit is the code of a function. -/
inductive Compiled (program : List Expr) (m : Module) (params : List String) (body : List Expr) :
    Body → Prop
  | intro {unit : UnitId} {t t₂ : State} {results : List Operand}
    (derived : Values body (t.enterUnit unit params) results t₂)
    (registered : Registered (t.enterUnit unit params))
    (settled : SettledAll (Reserved program) (.function params) body) (nonempty : body ≠ [])
    (free : ∀ x ∈ params, ¬Reserved program x)
    (ahead : Ahead m (t₂.builder.terminate (.ret (lastOf results))) t₂) :
    Compiled program m params body (t₂.builder.terminate (.ret (lastOf results))).finish

/-- The module has the code of every function that the program defines, and knows it by its name. -/
structure Linked (program : List Expr) (m : Module) : Prop where
  code : ∀ name params body, Defined program name params body →
    ∃ (j : Nat) (x : CodeUnit) (code : Body), j ≠ 0 ∧ m.units[j]? = some x ∧ x.name = name ∧
      x.body = some code ∧ Compiled program m params body code
  distinct : ∀ (i j : Nat) x y, m.units[i]? = some x → m.units[j]? = some y → i ≠ 0 → j ≠ 0 →
    x.name = y.name → i = j

variable {program : List Expr} {m : Module} {c : Scene program m} {s s₁ s₂ t : State} {w w₁ w' : World}
  {v : TwinLisp.Value} {vs : List TwinLisp.Value} {x y : Activation} {n : Int64} {params : List String}
  {body : List Expr} {code : Body} {inputs : List Int64} {unit : UnitId} {f : Closure TwinLisp.Value}
  {eval : Expr → EvalM TwinLisp.Value} {p : Place} {name : String} {arity : Nat}

/-- When a call ends, the frames below it are all that is left. -/
theorem truncate_call {captures : Frame} {slots : Slots} {base : Table SlotId} {env env' : Environment}
    (h : Matches program (.call (captures :: env.locals) env.globals) slots base [] env'.locals
      env'.globals) : env'.truncate env.depth = env := by
  obtain ⟨locals, globals⟩ := env
  obtain ⟨locals', globals'⟩ := env'
  cases h with
  | ground grounded =>
    cases grounded with
    | call => exact Environment.truncate_depth (n := 2) rfl

/-- A place in a range is where its number is. -/
theorem lookup_range' (inputs : List Int64) (first i : Nat) :
    ((List.range' first inputs.length).zip inputs).lookup (first + i) = inputs[i]? := by
  induction inputs generalizing first i with
  | nil => rfl
  | cons n inputs ih =>
    rw [List.length_cons, List.range'_succ, List.zip_cons_cons, List.lookup_cons]
    cases i with
    | zero => simp
    | succ i =>
      rw [beq_false_of_ne (by omega), List.getElem?_cons_succ, ← ih (first + 1) i]
      rw [Nat.add_assoc, Nat.add_comm 1 i]

/-- The values of the parameters are the arguments. -/
theorem values_enter {f : Builder} (count : inputs.length = f.arity) (i : Nat) :
    (Activation.enter f.finish inputs).values i = inputs[i]?.map .int := by
  have found := lookup_range' inputs 0 i
  rw [Nat.zero_add, count, ← List.range_eq_range'] at found
  exact congrArg (Option.map Datum.int) found

/-- The parameters stand for the arguments. -/
theorem paired_params {f : Builder} (count : inputs.length = f.arity) (params : List String) :
    Paired (Activation.enter f.finish inputs).values
      (params.zip ((List.range inputs.length).map .value)) (params.zip (inputs.map .int)) := by
  refine List.forall₂_iff_get.mpr ⟨by simp, fun i hi hj => ?_⟩
  have lt : i < inputs.length := by
    rw [List.length_zip, List.length_map] at hj
    exact Nat.lt_of_lt_of_le hj (Nat.min_le_right _ _)
  simp only [List.get_eq_getElem, List.getElem_zip, List.getElem_map, List.getElem_range, true_and]
  refine ⟨inputs[i], rfl, ?_⟩
  simp only [Values.int?, values_enter count, List.getElem?_eq_getElem lt, Option.map_some]

/-- Where the code of a function begins. -/
theorem going_enterUnit (registered : Registered (s.enterUnit unit params)) :
    Going (.function params) (s.enterUnit unit params) where
  isOpen := region_enterUnit.isOpen
  tidy := Tidy.bindAll (s := s.begin unit params.length) (tidy_new _ _) _
  registered := registered
  knows _ x mem := by
    refine known_bindAll (s := s.begin unit params.length) (.inl ?_)
    rw [List.map_fst_zip (by simp)]
    exact mem

/-- The unit of a call is found. -/
theorem passage_callee {reserved : String → Prop} (h : Going p s)
    (found : s.callee? name arity = some (unit, s₁)) : Passage reserved p [] s s₁ := by
  have finds := finds_callee h.registered found
  have same := finds.current
  have builder : s₁.builder = s.builder := congrArg UnitState.builder same
  refine ⟨builder ▸ .refl _, finds.grows, same ▸ .refl _, ?_⟩
  rw [Place.binding_nil]
  exact ⟨open_of_current same h.isOpen, same ▸ h.tidy, finds.registered, same ▸ h.knows⟩

/-- What operands yield, they stand for. -/
theorem inputs_of_yields {bound : Nat} {as : List Operand}
    (yields : List.Forall₂ (Yields bound · · x) as vs) :
    ∃ inputs : List Int64, vs = inputs.map .int ∧ as.mapM x.values.int? = some inputs := by
  induction yields with
  | nil => exact ⟨[], rfl, rfl⟩
  | cons first _ ih =>
    obtain ⟨n, rfl, held⟩ := first
    obtain ⟨inputs, rfl, passed⟩ := ih
    refine ⟨n :: inputs, rfl, ?_⟩
    rw [List.mapM_cons, held.int, passed]
    rfl

/-- A unit begins behind its allocations, and then puts the arguments in slots of their own. -/
theorem enters_unit {code : Builder} {captures : Frame} (registered : Registered (t.enterUnit unit params))
    (coming : Coming m code .now true (t.enterUnit unit params)) (nonempty : 0 < code.size)
    (arity : code.arity = params.length) (count : inputs.length = params.length)
    (free : ∀ x ∈ params, ¬Reserved program x)
    (genuine : ∀ g ∈ captures :: w.env.locals ++ [w.env.globals], ∀ name b, g.get? name = some b →
      Genuine program name b.value) :
    ∃ x, Runs m (.enter code.finish inputs) [] x ∧
      Reaches (⟨code, .call (captures :: w.env.locals) w.env.globals, .now⟩ : Scene program m)
        (t.begin unit params.length) (t.enterUnit unit params)
        { w with env := (w.env.pushFrame captures).pushScope }
        { w with env :=
          ((w.env.pushFrame captures).pushScope).defineAll (params.zip (inputs.map .int)) } x
        fun _ => True := by
  let c : Scene program m := ⟨code, .call (captures :: w.env.locals) w.env.globals, .now⟩
  let x := { Activation.enter code.finish inputs with index := code.slots.size }
  have start : Runs m (.enter code.finish inputs) [] x :=
    Builder.runs_allocas m code inputs nonempty (Nat.le_refl _)
  -- no parameter is bound so far, so the frame of the call is empty
  have synced : Synced c (t.begin unit params.length)
      { w with env := (w.env.pushFrame captures).pushScope } x :=
    ⟨Builder.at_enter rfl (Builder.instrsAt_new _), .ground (.call (Mirrored.nil _) genuine)⟩
  have begun : Registered (t.begin unit params.length) := by
    obtain ⟨entered, edits, same⟩ := enterUnit_eq t unit params
    rw [same] at registered
    exact registered.of_module rfl rfl rfl
  have paired := paired_params (count.trans arity.symm) params
  rw [count] at paired
  have bound := reaches_bindAll (x := x) paired rfl (open_new _) (tidy_new _ _) begun coming
    (fun pair mem => free pair.1 (List.of_mem_zip mem).1) synced
  exact ⟨x, start, bound.mono fun _ _ _ => trivial⟩

/-- The code of a function returns what its body is evaluated to, and the environment is what it was. -/
theorem runs_compiled (sim : Simulates program m eval) (compiled : Compiled program m f.params f.body code)
    (count : inputs.length = f.params.length)
    (captured : ∀ entry ∈ f.captures, Genuine program entry.1 entry.2.value)
    (genuine : ∀ g ∈ w.env.locals ++ [w.env.globals], ∀ name b, g.get? name = some b →
      Genuine program name b.value)
    (run : within (fun env => ((env.pushFrame f.captures).pushScope).defineAll
      (f.params.zip (inputs.map .int))) (evalBody eval f.body) w = .ok v w') :
    ∃ ls y result n, Runs m (.enter code inputs) ls y ∧ y.instr? = none ∧
      y.terminator? = some (.ret result) ∧ y.values.int? result = some n ∧ v = .int n ∧
      w'.env = w.env ∧ w'.output = ls.foldl Output.println w.output := by
  unfold within at run
  split at run
  next u w₁ evaluated =>
    cases run
    cases compiled with
    | @intro unit t t₂ results derived registered settled nonempty free ahead =>
      let code := t₂.builder.terminate (.ret (lastOf results))
      let c : Scene program m := ⟨code, .call (f.captures :: w.env.locals) w.env.globals, .now⟩
      have going := going_enterUnit registered
      have inner := derived.passage going settled
      have stage : Stage c (.function f.params) (t.enterUnit unit f.params) t₂ :=
        ⟨going, ⟨ahead, nofun⟩, rfl⟩
      have before : Coming m code .now true (t.enterUnit unit f.params) :=
        ⟨ahead.back inner.grown inner.grows, nofun⟩
      have arity : code.arity = f.params.length := derived.trace.arity_of_enterUnit
      have nonzero : 0 < code.size := by
        rw [Builder.size_terminate]
        exact Nat.zero_lt_of_lt inner.after.isOpen.lt
      -- first the slots and the parameters, then the body
      obtain ⟨x, start, ls, y, ⟨runs, synced, -, output⟩, -⟩ :=
        enters_unit registered before nonzero arity count free <|
          List.forall_mem_cons.mpr ⟨fun name b bound => captured (name, b) (Table.mem_of_get? bound), genuine⟩
      obtain ⟨ls', z, ⟨runs', synced, -, output'⟩, n, rfl, held⟩ :=
        reaches_body sim nonempty derived settled stage evaluated synced
      obtain ⟨done, ended⟩ := synced.here.terminate inner.after.isOpen (.refl code)
      -- all scopes that were entered have been left again
      have entry : Widens (Reserved program) true true (t.begin unit f.params.length).current
          (t.enterUnit unit f.params).current :=
        widens_bindAll fun pair mem => free pair.1 (List.of_mem_zip mem).1
      have nested : t₂.current.locals = [] :=
        List.eq_nil_of_length_eq_zero (inner.widens.length.trans entry.length)
      have frames := synced.frames
      rw [nested] at frames
      -- the block of the last value returns it
      refine ⟨ls ++ ls', z, _, n, start.trans (runs.trans runs'), done, ended, held.int, rfl, ?_, ?_⟩
      · exact truncate_call frames
      · rw [List.foldl_append]
        exact output'.trans (congrArg (List.foldl Output.println · ls') output)
  next => cases run

/-- What is looked up is genuine, as all frames are. -/
theorem genuine_lookup {env : Environment} (genuine : ∀ g ∈ env.locals ++ [env.globals], ∀ name b,
    g.get? name = some b → Genuine program name b.value) (found : env.lookup name = some v) :
    Genuine program name v := by
  obtain ⟨b, bound, rfl⟩ := Option.map_eq_some_iff.mp found
  rw [Environment.binding?_eq_findSome?] at bound
  obtain ⟨frame, mem, held⟩ := List.exists_of_findSome?_eq_some bound
  exact genuine frame mem name b held

/-- A call by name runs the code of the function that the name is bound to. -/
theorem reaches_call (sim : Simulates program m eval) (linked : Linked program m) {es : List Expr}
    {as : List Operand} {span : Span} (arguments : Values es s as s₁)
    (found : s₁.callee? name as.length = some (unit, s₂))
    (settled : SettledAll (Reserved program) p es) (stage : Stage c p s (s₂.emit (.call unit as)))
    (run : evalNamedCall eval name es span w = .ok v w') (synced : Synced c s w x) :
    Reaches c s (s₂.emit (.call unit as)) w w' x
      (Yields (s₂.emit (.call unit as)).fresh (.value s₂.fresh) v) := by
  -- the name is bound to a function of the program
  obtain ⟨_, _, got, run⟩ := bind_ok_iff.mp run
  cases got
  obtain ⟨f, bound, run⟩ : ∃ f, w.env.lookup name = some (.function f) ∧
      invoke eval f es span w = .ok v w' := by
    revert run
    cases w.env.lookup name with
    | none => exact fun run => absurd run throw_ne_ok
    | some u =>
      cases u with
      | function f => exact fun run => ⟨f, rfl, run⟩
      | _ => exact fun run => absurd run throw_ne_ok
  cases genuine_lookup synced.frames.genuine bound with
  | data plain => cases plain
  | function defined captured =>
    obtain ⟨vs, w₁, evaluated, run⟩ := bind_ok_iff.mp run
    split at run
    case isFalse => cases run
    case isTrue count =>
      -- the passages that lowering goes through
      have here := arguments.passage stage.going settled
      have called : Passage (Reserved program) (p.binding (constsAll es)) [] s₁ s₂ :=
        passage_callee here.after found
      have emitted := moved_emit called.after.isOpen (.call unit as)
      have there := called.andMoved emitted (open_emit called.after.isOpen _)
      have reached := reaches_values sim arguments settled (stage.first there rfl) evaluated synced
      refine reached.trans here.fresh_le fun y synced _ yields => ?_
      obtain ⟨inputs, rfl, passed⟩ := inputs_of_yields yields
      rw [List.length_map] at count
      -- the unit of the call is that of the function
      obtain ⟨j, unit', code, nonzero, hunit', named, hbody, compiled⟩ := linked.code _ _ _ defined
      have finds := finds_callee here.after.registered found
      obtain ⟨x', hx', named', -⟩ := finds.found
      obtain ⟨y', hy', same⟩ := stage.coming.ahead.units unit x' hx'
      obtain rfl := linked.distinct unit j y' unit' hy' hunit' finds.nonzero nonzero
        ((same.trans named').trans named.symm)
      obtain ⟨ls, z, result, n, inner, done, ended, yielded, rfl, env, output⟩ :=
        runs_compiled sim compiled count captured synced.frames.genuine run
      -- to find the unit has not touched the code of the caller
      have synced : Synced c s₂ w₁ y := by
        obtain ⟨here, frames⟩ := synced
        unfold State.builder at here
        rw [← finds.current] at here frames
        exact ⟨here, frames⟩
      have instr := instr?_emit called.after.isOpen stage.coming.ahead synced
      have runs := runs_call instr passed hunit' hbody inner done ended yielded
      have reached : Reaches c s₂ (s₂.emit (.call unit as)) w₁ w' y _ :=
        reaches_define called.after.isOpen synced runs env output
      have reached := reached.yields
      exact (Reaches.still (P := (· = y)) synced rfl).trans called.fresh_le fun _ _ _ same => same ▸ reached

end TwinLisp.Execution
