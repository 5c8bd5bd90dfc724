import TwinLisp.Graph.Typing
import TwinLisp.Proofs.Verify.Exact

/-!
What an accepted module reads its values as. Every result of an operation is what the operation yields,
and read as nothing else; the types of parameters are not looked at.
-/

namespace TwinLisp.Graph

variable {m : Module}

theorem mem_pair_of_lookup {α : Type} {l : List (Nat × α)} {key : Nat} {item : α}
    (found : l.lookup key = some item) : (key, item) ∈ l := by
  obtain ⟨before, after, rfl, -⟩ := List.lookup_eq_some_iff.mp found
  apply List.mem_append_right
  exact List.mem_cons_self

namespace Body

variable {arity : Nat} {body : Body} {value : ValueId} {ty : Ty}

theorem WellFormed.types_of_yields (wellFormed : body.WellFormed m arity) {operation : Operation}
    (yields : body.Yields value operation) : body.types[value]? = some operation.ty := by
  obtain ⟨position, index, found⟩ := yields
  exact (wellFormed.instrs position index _ found).result value operation rfl

theorem WellFormed.types_of_compared (wellFormed : body.WellFormed m arity)
    (compared : body.Compared value) : body.types[value]? = some .i1 := by
  obtain ⟨op, left, right, yields⟩ := compared
  exact wellFormed.types_of_yields yields

/-- Only a comparison yields a truth value, as operations have one type each. -/
theorem compared_of_yields {operation : Operation} (yields : body.Yields value operation)
    (truth : operation.ty = .i1) : body.Compared value := by
  cases operation with
  | compare op left right => exact ⟨op, left, right, yields⟩
  | _ => cases truth

/-- A comparison is an instruction, so its value is no parameter. -/
theorem Compared.mem_results (compared : body.Compared value) : value ∈ body.results := by
  obtain ⟨op, left, right, position, index, found⟩ := compared
  exact mem_results_iff.mpr ⟨position, index, _, found⟩

/-- A value that is down as a truth value is the result of a comparison or a parameter. -/
theorem compared_or_truthParam (wellFormed : body.WellFormed m arity)
    (defined : value ∈ body.params ++ body.results) (truth : body.types[value]? = some .i1) :
    body.Compared value ∨ body.TruthParam value := by
  rcases List.mem_append.mp defined with param | result
  · exact .inr ⟨param, truth⟩
  · obtain ⟨position, index, operation, found⟩ := mem_results_iff.mp result
    have yields : body.Yields value operation := ⟨position, index, found⟩
    have typed := (wellFormed.types_of_yields yields).symm.trans truth
    exact .inl (compared_of_yields yields (Option.some.inj typed))

end Body

namespace Exec

/-- The values are what has put them there: parameters are integers, and the result of an operation
is of its type. -/
def Values.Typed (body : Body) (values : Values) : Prop :=
  ∀ value datum, values value = some datum →
    (value ∈ body.params ∧ datum.ty = .i64) ∨
      ∃ operation, body.Yields value operation ∧ operation.ty = datum.ty

/-- The activation runs code of the module, and its values are typed there and where it came from. -/
structure Activation.Typed (m : Module) (a : Activation) : Prop where
  code : m.HasBody a.body
  values : a.values.Typed a.body
  arrival : ∀ source values, a.arrival = some (source, values) → Values.Typed a.body values

def Machine.Typed (m : Module) : Machine → Prop
  | .running current callers _ => current.Typed m ∧ ∀ caller ∈ callers, caller.Typed m
  | .finished .. => True

variable {a : Activation} {callers : List Activation} {printed : List String} {value : ValueId}
  {ty : Ty} {datum : Datum} {found : Option Datum}

/-- A value that is there is a truth value exactly where it is the result of a comparison. -/
theorem Values.Typed.truth_iff {body : Body} {arity : Nat} {values : Values}
    (typed : values.Typed body) (wellFormed : body.WellFormed m arity)
    (held : values value = some datum) : datum.ty = .i1 ↔ body.Compared value := by
  constructor
  · intro truth
    rcases typed value datum held with ⟨-, integer⟩ | ⟨operation, yields, same⟩
    · cases integer.symm.trans truth
    · exact Body.compared_of_yields yields (same.trans truth)
  · intro compared
    rcases typed value datum held with ⟨param, -⟩ | ⟨operation, yields, same⟩
    · -- a parameter is not the result of an operation as well
      have apart := List.disjoint_of_nodup_append wellFormed.defined_nodup
      exact absurd compared.mem_results (apart param)
    · have twice := (wellFormed.types_of_yields yields).symm.trans
        (wellFormed.types_of_compared compared)
      exact same.symm.trans (Option.some.inj twice)

/-! What is read is defined in the unit, and down as what it is read as. -/

theorem Activation.Reads.defined {arity : Nat} (reads : a.Reads value ty found)
    (wellFormed : a.body.WellFormed m arity) :
    value ∈ a.body.params ++ a.body.results ∧ a.body.types[value]? = some ty := by
  cases reads with
  | instr next mem =>
    obtain ⟨available, typed⟩ := (wellFormed.instrs _ _ _ next).uses _ mem
    exact ⟨Body.mem_defined_of_available available, typed⟩
  | exit done ends mem =>
    obtain ⟨k, stands, ended⟩ := Option.bind_eq_some_iff.mp ends
    obtain ⟨available, typed⟩ := wellFormed.exits _ k _ stands ended _ mem
    exact ⟨Body.mem_defined_of_available available, typed⟩
  | edge next came pair mem =>
    -- the pairs of a phi are checked when the phi is, wherever control comes from
    have joins := (wellFormed.instrs _ _ _ next).phi _ _ rfl
    exact joins.values _ (mem_pair_of_lookup pair) _ mem

/-- What is found is among the values of the activation, or of the place where it came from. -/
theorem Activation.Reads.source (reads : a.Reads value ty found) (typed : a.Typed m) :
    ∃ values : Values, values.Typed a.body ∧ values value = found := by
  cases reads with
  | instr | exit => exact ⟨a.values, typed.values, rfl⟩
  | edge next came => exact ⟨_, typed.arrival _ _ came, rfl⟩

/-! Every step keeps all calls typed. -/

theorem Activation.enter_typed {body : Body} (code : m.HasBody body) (args : List Int64) :
    (enter body args).Typed m where
  code := code
  values := by
    intro value datum held
    -- at the start only parameters have values
    obtain ⟨n, given, rfl⟩ := Option.map_eq_some_iff.mp held
    have pair := mem_pair_of_lookup given
    exact .inl ⟨(List.of_mem_zip pair).1, rfl⟩
  arrival := fun _ _ came => nomatch came

theorem Activation.Typed.define {dst : ValueId} {operation : Operation} (typed : a.Typed m)
    (next : a.instr? = some (.define dst operation)) (same : datum.ty = operation.ty) :
    (a.define dst datum).Typed m where
  code := typed.code
  values := by
    intro value other held
    -- the value of this instruction, or one that was there before
    have updated : Function.update a.values dst (some datum) value = some other := held
    by_cases here : value = dst
    · rw [here, Function.update_self] at updated
      cases updated
      exact .inr ⟨operation, ⟨a.block, a.index, here ▸ next⟩, same.symm⟩
    · rw [Function.update_of_ne here] at updated
      exact typed.values value other updated
  arrival := typed.arrival

theorem Activation.Typed.goto (typed : a.Typed m) (target : BlockId) : (a.goto target).Typed m where
  code := typed.code
  values := typed.values
  arrival := by
    -- the values that the next block's phis see are those of now
    rintro _ _ ⟨⟩
    exact typed.values

/-- An operation computes a datum of its own type. -/
theorem Activation.ty_of_compute {operation : Operation}
    (computed : a.compute operation = some datum) : datum.ty = operation.ty := by
  cases operation with
  | load slot =>
    obtain ⟨n, -, rfl⟩ := Option.map_eq_some_iff.mp computed
    rfl
  | arith =>
    simp only [compute, Option.bind_eq_bind, Option.bind_eq_some_iff] at computed
    obtain ⟨k, -, n, -, r, -, ⟨⟩⟩ := computed
    rfl
  | neg =>
    obtain ⟨n, -, ⟨⟩⟩ := Option.bind_eq_some_iff.mp computed
    rfl
  | compare =>
    simp only [compute, Option.bind_eq_bind, Option.bind_eq_some_iff] at computed
    obtain ⟨k, -, n, -, ⟨⟩⟩ := computed
    rfl
  | extend =>
    simp only [compute] at computed
    split at computed
    · cases computed
      rfl
    · cases computed
  | call => cases computed
  | phi =>
    simp only [compute, Option.bind_eq_bind, Option.bind_eq_some_iff] at computed
    obtain ⟨arrival, -, operand, -, n, -, ⟨⟩⟩ := computed
    rfl

theorem Activation.Typed.perform {effect : Effect} {next : Activation} {lines : List String}
    (typed : a.Typed m) (performed : a.perform m effect = some (next, lines)) : next.Typed m := by
  cases effect with
  | store | printInt | printStr =>
    obtain ⟨_, -, ⟨⟩⟩ := Option.bind_eq_some_iff.mp performed
    exact ⟨typed.code, typed.values, typed.arrival⟩

theorem Activation.Typed.resume {next : Activation} {result : Int64} (typed : a.Typed m)
    (resumed : a.resume result = some next) : next.Typed m := by
  unfold Activation.resume at resumed
  split at resumed
  next call =>
    cases resumed
    exact typed.define call rfl
  next => cases resumed

/-- Leaving a block keeps a machine typed, also when control returns to a caller. -/
theorem typed_leave {t : Terminator} {machine : Machine} (typed : a.Typed m)
    (waiting : ∀ caller ∈ callers, caller.Typed m)
    (left : leave a callers printed t = some machine) : machine.Typed m := by
  cases t with
  | ret operand =>
    -- with no caller left the machine halts
    obtain ⟨result, -, returned⟩ := Option.bind_eq_some_iff.mp left
    cases callers with
    | nil =>
      cases returned
      trivial
    | cons caller callers =>
      -- the result is an integer, which is what the waiting call yields
      obtain ⟨next, resumed, ⟨⟩⟩ := Option.bind_eq_some_iff.mp returned
      rw [List.forall_mem_cons] at waiting
      exact ⟨waiting.1.resume resumed, waiting.2⟩
  | br target =>
    cases left
    exact ⟨typed.goto target, waiting⟩
  | condBr cond yes no =>
    simp only [leave] at left
    split at left
    next b _ =>
      cases left
      exact ⟨typed.goto _, waiting⟩
    next => cases left

/-- So does every instruction. -/
theorem typed_run {i : Instr} {machine : Machine} (typed : a.Typed m)
    (waiting : ∀ caller ∈ callers, caller.Typed m) (next : a.instr? = some i)
    (ran : run m a callers printed i = some machine) : machine.Typed m := by
  cases i with
  | alloca slot =>
    cases ran
    exact ⟨⟨typed.code, typed.values, typed.arrival⟩, waiting⟩
  | perform effect =>
    obtain ⟨⟨after, lines⟩, performed, ⟨⟩⟩ := Option.bind_eq_some_iff.mp ran
    exact ⟨typed.perform performed, waiting⟩
  | define dst operation =>
    by_cases call : ∃ callee args, operation = .call callee args
    · -- the callee starts with integers, and the caller waits as it is
      obtain ⟨callee, args, rfl⟩ := call
      obtain ⟨inputs, -, ran⟩ := Option.bind_eq_some_iff.mp ran
      obtain ⟨body, known, ⟨⟩⟩ := Option.bind_eq_some_iff.mp ran
      obtain ⟨unit, named, code⟩ := Option.bind_eq_some_iff.mp known
      have mem : unit ∈ m.units.toList := Array.mem_toList_iff.mpr (Array.mem_of_getElem? named)
      refine ⟨Activation.enter_typed ⟨unit, mem, code⟩ inputs, ?_⟩
      exact List.forall_mem_cons.mpr ⟨typed, waiting⟩
    · -- every other operation is computed in place
      have computes : run m a callers printed (.define dst operation) =
          (a.compute operation).bind fun datum => some (.running (a.define dst datum) callers printed) := by
        cases operation with
        | call callee args => exact absurd ⟨callee, args, rfl⟩ call
        | _ => rfl
      obtain ⟨datum, computed, ⟨⟩⟩ := Option.bind_eq_some_iff.mp (computes.symm.trans ran)
      exact ⟨typed.define next (Activation.ty_of_compute computed), waiting⟩

theorem Machine.Typed.step {machine after : Machine} (typed : machine.Typed m)
    (stepped : Exec.step m machine = some after) : after.Typed m := by
  cases machine with
  | finished => cases stepped
  | running a callers printed =>
    obtain ⟨current, waiting⟩ := typed
    simp only [Exec.step] at stepped
    split at stepped
    next i next => exact typed_run current waiting next stepped
    next =>
      obtain ⟨t, -, left⟩ := Option.bind_eq_some_iff.mp stepped
      exact typed_leave current waiting left

theorem Machine.Typed.steps {machine after : Machine} (typed : machine.Typed m)
    (steps : Steps m machine after) : after.Typed m := by
  induction steps with
  | refl => exact typed
  | tail _ stepped ih => exact ih.step stepped

/-- Every machine that is reached is typed. -/
theorem typed_of_reaches {machine : Machine} (reached : m.Reaches machine) : machine.Typed m := by
  obtain ⟨body, args, code, steps⟩ := reached
  apply Machine.Typed.steps _ steps
  exact ⟨Activation.enter_typed code args, fun _ none => nomatch none⟩

end Exec

/-- In an accepted module every result of an operation is down as of the type that the operation yields.
While a unit runs, a value is read only as what it is down as: as an integer if no comparison yields
it, and as a truth value if a comparison does, or if it is a parameter that is down as a truth value.
What is found there is a truth value exactly if a comparison has yielded it. -/
theorem types_of_reads_of_verify {m : Module} (verified : m.verify = .ok ⟨⟩) :
    (∀ body, m.HasBody body → ∀ value operation, body.Yields value operation →
      body.types[value]? = some operation.ty) ∧
    ∀ a callers printed, m.Reaches (.running a callers printed) →
      ∀ value ty found, a.Reads value ty found →
        a.body.types[value]? = some ty ∧
        (ty = .i64 → ¬a.body.Compared value) ∧
        (ty = .i1 → a.body.Compared value ∨ a.body.TruthParam value) ∧
        ∀ datum, found = some datum → (datum.ty = .i1 ↔ a.body.Compared value) := by
  obtain ⟨-, -, units⟩ := verify_ok_iff_checks.mp verified
  -- every body of the module has passed, also that of a unit which is never called
  have wellFormed_of (body : Body) (code : m.HasBody body) : ∃ arity, body.WellFormed m arity := by
    obtain ⟨unit, mem, code⟩ := code
    obtain ⟨body', code', wellFormed⟩ := units unit mem
    cases code.symm.trans code'
    exact ⟨_, wellFormed⟩
  -- statically by well-formedness, dynamically since every machine that is reached is typed
  constructor
  · intro body code value operation yields
    obtain ⟨arity, wellFormed⟩ := wellFormed_of body code
    exact wellFormed.types_of_yields yields
  · intro a callers printed reached value ty found reads
    have typed : a.Typed m := (Exec.typed_of_reaches reached).1
    obtain ⟨arity, wellFormed⟩ := wellFormed_of a.body typed.code
    obtain ⟨defined, down⟩ := reads.defined wellFormed
    refine ⟨down, ?_, ?_, ?_⟩
    · rintro rfl compared
      cases down.symm.trans (wellFormed.types_of_compared compared)
    · rintro rfl
      exact Body.compared_or_truthParam wellFormed defined down
    · rintro datum rfl
      obtain ⟨values, held, there⟩ := reads.source typed
      exact held.truth_iff wellFormed there

/-- Branches on a comparison of its parameter. -/
def branchOnSign : Body where
  params := [0]
  blocks := [
    ⟨0, [.define 1 (.compare .lt (.value 0) (.const 0))], some (.condBr 1 1 2)⟩,
    ⟨1, [], some (.ret (.const (-1)))⟩,
    ⟨2, [], some (.ret (.const 1))⟩]
  types := #[.i64, .i1]
  slots := #[]

/-- The end of its first block. -/
theorem types_of_reads_of_verify_branchOnSign :
    let m : Module := { name := "sign", units := #[⟨"main", 1, some branchOnSign⟩] }
    m.verify = .ok ⟨⟩ ∧ ∃ a, m.Reaches (.running a [] []) ∧ a.Reads 1 .i1 (some (.truth false)) ∧
      (a.body.Compared 1 ∨ a.body.TruthParam 1) := by
  intro m
  have verified : m.verify = .ok ⟨⟩ := by rfl
  have code : m.HasBody branchOnSign := ⟨_, List.mem_singleton.mpr rfl, rfl⟩
  let a := (Exec.Activation.enter branchOnSign [5]).define 1 (.truth false)
  have reached : m.Reaches (.running a [] []) := ⟨branchOnSign, [5], code, .single (by rfl)⟩
  have reads : a.Reads ((1, .i1) : ValueId × Ty).1 .i1 (some (.truth false)) :=
    .exit (t := .condBr 1 1 2) rfl rfl (by simp [Terminator.uses])
  obtain ⟨-, during⟩ := types_of_reads_of_verify verified
  exact ⟨verified, a, reached, reads, (during a [] [] reached 1 .i1 _ reads).2.2.1 rfl⟩

/-- Branches on its parameter, which it has down as a truth value. -/
def branchOnParam : Body where
  params := [0]
  blocks := [
    ⟨0, [], some (.condBr 0 1 2)⟩,
    ⟨1, [], some (.ret (.const 1))⟩,
    ⟨2, [], some (.ret (.const 0))⟩]
  types := #[.i1]
  slots := #[]

/-- Calls the unit that branches on its parameter. -/
def passesInteger : Body where
  params := []
  blocks := [⟨0, [.define 0 (.call 0 [.const 1])], some (.ret (.const 0))⟩]
  types := #[.i64]
  slots := #[]

/-- Verification accepts a module where a parameter is down as a truth value. The program reads the
parameter as one, though no comparison has yielded it: it finds an integer there. -/
theorem truthParam_of_verify :
    let m : Module :=
      { name := "m", units := #[⟨"f", 1, some branchOnParam⟩, ⟨"main", 0, some passesInteger⟩],
        main := 1 }
    m.verify = .ok ⟨⟩ ∧ branchOnParam.TruthParam 0 ∧ ¬branchOnParam.Compared 0 ∧
      ∃ a callers printed, m.Reaches (.running a callers printed) ∧ a.body = branchOnParam ∧
        a.Reads 0 .i1 (some (.int 1)) := by
  intro m
  have down : branchOnParam.TruthParam 0 := ⟨List.mem_singleton.mpr rfl, rfl⟩
  have noResult : ¬branchOnParam.Compared 0 := fun compared => nomatch compared.mem_results
  have code : m.HasBody passesInteger := ⟨_, List.mem_cons_of_mem _ (List.mem_singleton.mpr rfl), rfl⟩
  have called : Exec.step m (.running (.enter passesInteger []) [] []) =
      some (.running (.enter branchOnParam [1]) [.enter passesInteger []] []) := by rfl
  have reads : (Exec.Activation.enter branchOnParam [1]).Reads ((0, .i1) : ValueId × Ty).1 .i1
      (some (.int 1)) :=
    .exit (t := .condBr 0 1 2) rfl rfl (by simp [Terminator.uses])
  exact ⟨by rfl, down, noResult, _, _, _, ⟨passesInteger, [], code, .single called⟩, rfl, reads⟩

end TwinLisp.Graph
