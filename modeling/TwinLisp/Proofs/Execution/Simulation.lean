import TwinLisp.Proofs.Eval.Pairing
import TwinLisp.Proofs.Execution.Branches
import TwinLisp.Proofs.Execution.Calls

/-!
The code of an expression does what evaluation does: one lemma for each rule of lowering, given that the
parts do so, and the induction on fuel that puts them together.
-/

namespace TwinLisp.Execution

open TwinLisp.Graph TwinLisp.Graph.Lowering TwinLisp.Graph.Exec TwinLisp.Eval TwinLisp.Expr

variable {program : List Expr} {m : Module} {c : Scene program m} {p : Place} {e : Expr}
  {es body : List Expr} {s s₁ s₂ s' : State} {a : Operand} {as inits results : List Operand}
  {w w' : World} {v : TwinLisp.Value} {vs : List TwinLisp.Value} {x : Activation} {n : Int64}
  {eval : Expr → EvalM TwinLisp.Value} {head name : String} {hs ns span : Span} {slot : SlotId}
  {limit : Option Nat} {fuel : Nat} {bindings : List (LetBinding Expr)}

/-- The value of a variable is in its slot. -/
theorem reaches_variable (known : s.current.lookup name = some slot)
    (stage : Stage c p s (s.emit (.load slot))) (run : evalVariable name span w = .ok v w')
    (synced : Synced c s w x) : Reaches c s (s.emit (.load slot)) w w' x
      (Yields (s.emit (.load slot)).fresh (.value s.fresh) v) := by
  obtain ⟨_, _, got, run⟩ := bind_ok_iff.mp run
  cases got
  obtain ⟨b, bound, rfl, rfl⟩ : ∃ b, w.env.binding? name = some b ∧ b.value = v ∧ w = w' := by
    revert run
    unfold Environment.lookup
    cases w.env.binding? name with
    | none => exact fun run => absurd run throw_ne_ok
    | some b => exact fun run => ⟨b, rfl, pure_ok_iff.mp run⟩
  -- the slot holds what the name is bound to
  have before := stage.coming.back_moved (moved_emit stage.going.isOpen (.load slot))
  have resolved := before.allows.resolve known
  rw [Environment.binding?_eq_findSome?] at bound
  obtain ⟨n, int, held⟩ := synced.frames.holds resolved bound
  rw [int]
  exact reaches_int stage.going.isOpen stage.coming.ahead synced (compute_load held)

/-- The names of a `let` form are bound to what its initial values are. -/
theorem paired_of_yields {bound : Nat} (yields : List.Forall₂ (Yields bound · · x) as vs)
    (names : List String) : Paired x.values (names.zip as) (names.zip vs) := by
  induction yields generalizing names with
  | nil =>
    rw [List.zip_nil_right, List.zip_nil_right]
    exact .nil
  | cons first _ ih =>
    cases names with
    | nil => exact .nil
    | cons name names =>
      obtain ⟨n, rfl, held⟩ := first
      exact .cons ⟨rfl, n, rfl, held.int⟩ (ih names)

/-- A `let` form: its values are computed, its scope is entered, run through and left. -/
theorem reaches_let (sim : Simulates program m eval) (initial : Values (bindings.map (·.init)) s inits s₁)
    (inner : Values body (s₁.enterScope ((bindings.map (·.name)).zip inits)) results s₂)
    (settled : Settled (Reserved program) p (.letIn bindings body span))
    (stage : Stage c p s s₂.leaveScope) (run : evalLet eval bindings body w = .ok v w')
    (synced : Synced c s w x) :
    Reaches c s s₂.leaveScope w w' x (Yields s₂.fresh (lastOf results) v) := by
  -- what is evaluated
  rw [evalLet_eq] at run
  obtain ⟨vs, w₁, evaluated, run⟩ := bind_ok_iff.mp run
  have evaluated : (bindings.map (·.init)).mapM eval w = .ok vs w₁ :=
    (congrFun List.mapM_map w).trans evaluated
  unfold within at run
  split at run
  case h_2 => cases run
  case h_1 u w₂ rested =>
  cases run
  -- the passages that lowering goes through
  have nonempty : body ≠ [] := by
    rintro rfl
    exact settled.fits.filled bindings span rfl
  have within := settled.inner
  rw [constsOfBindings_eq] at within
  have listed : (bindings.map (·.name)).length = inits.length := by
    rw [initial.length_eq, List.length_map, List.length_map]
  have here := initial.passage stage.going settled.inits
  have entered := here.after.enterScope listed
  have there := inner.passage entered within
  have around := Passage.letScope here.after listed settled.fits.names there
  -- the scope that is entered stays until it is left
  have opening := (widens_enterScope (s := s₁) listed settled.fits.names).trans there.widens
  have length : s₂.current.locals.length = s₁.current.locals.length + 1 := opening.length
  have tail : s₂.current.locals.tail = s₁.current.locals := opening.outer
  have nested : s₂.current.locals ≠ [] := opening.locals_ne_nil (List.cons_ne_nil _ _)
  -- in the scope the outlook is the same, as constants go to a scope that is left
  have inside : Stage c ((p.binding _).inLet _) _ s₂ :=
    ⟨entered, stage.coming.inScope nested, stage.inside⟩
  have reached := reaches_values sim initial settled.inits (stage.first around rfl) evaluated synced
  refine reached.trans here.fresh_le fun y synced _ yields => ?_
  have opened := here.after.isOpen
  have free : ∀ pair ∈ (bindings.map (·.name)).zip inits, ¬Reserved program pair.1 :=
    fun pair mem => settled.fits.names pair.1 (List.of_mem_zip mem).1
  have bound := reaches_enterScope (paired_of_yields yields (bindings.map (·.name))) rfl opened
    here.after.tidy here.after.registered (inside.coming.back there rfl) free synced
  have le : s₁.fresh ≤ (s₁.enterScope ((bindings.map (·.name)).zip inits)).fresh :=
    ((region_enterScope opened _).grown opened).types_le
  obtain ⟨ls, z, ⟨runs, inner, keeps, output⟩, yields⟩ := bound.trans le fun z synced _ _ =>
    reaches_body sim nonempty inner within inside rested synced
  exact ⟨ls, z, ⟨runs, synced.leaveScope inner tail length, keeps, output⟩, yields⟩

/-- A change of the environment that is not refused is made. -/
theorem updateEnv_ok {change : Environment → Except Refusal Environment} {fault : Fault} {u : Unit}
    (run : updateEnv change fault w = .ok u w') :
    ∃ env, change w.env = .ok env ∧ w' = { w with env } := by
  cases changed : change w.env with
  | ok env =>
    rw [updateEnv_of_ok changed] at run
    cases run
    exact ⟨env, rfl, rfl⟩
  | error refusal =>
    rw [updateEnv_of_error changed] at run
    cases run

/-- What `set` has done if it succeeds. -/
theorem evalSet_ok (run : evalSet eval [.ident name ns, e] w = .ok v w') :
    ∃ w₁ env, eval e w = .ok v w₁ ∧ w₁.env.assign name v = .ok env ∧ w' = { w₁ with env } := by
  obtain ⟨_, _, named, run⟩ := bind_ok_iff.mp run
  obtain ⟨rfl, rfl⟩ := pure_ok_iff.mp named
  obtain ⟨u, w₁, evaluated, run⟩ := bind_ok_iff.mp run
  obtain ⟨_, _, updated, run⟩ := bind_ok_iff.mp run
  obtain ⟨rfl, rfl⟩ := pure_ok_iff.mp run
  obtain ⟨env, assigned, rfl⟩ := updateEnv_ok updated
  exact ⟨w₁, env, evaluated, assigned, rfl⟩

/-- What `const` has done if it succeeds. -/
theorem evalConst_ok (run : evalConst eval [.ident name ns, e] w = .ok v w') :
    ∃ w₁, eval e w = .ok v w₁ ∧ w' = { w₁ with env := w₁.env.define name v .frozen } := by
  obtain ⟨_, _, named, run⟩ := bind_ok_iff.mp run
  obtain ⟨rfl, rfl⟩ := pure_ok_iff.mp named
  obtain ⟨u, w₁, evaluated, run⟩ := bind_ok_iff.mp run
  obtain ⟨_, _, updated, run⟩ := bind_ok_iff.mp run
  obtain ⟨rfl, rfl⟩ := pure_ok_iff.mp run
  obtain ⟨env, defined, rfl⟩ := updateEnv_ok updated
  obtain ⟨-, rfl⟩ := Environment.defineConst_ok defined
  exact ⟨w₁, evaluated, rfl⟩

section Forms

variable (sim : Simulates program m eval)

include sim

/-- A variable that is known is changed. -/
theorem reaches_set (form : Form.classify head = some .set) (value : Lowering.Value e s a s₁)
    (known : s₁.current.lookup name = some slot)
    (settled : Settled (Reserved program) p (.list [.ident head hs, .ident name ns, e] span))
    (stage : Stage c p s (s₁.perform (.store slot a)))
    (run : evalSet eval [.ident name ns, e] w = .ok v w') (synced : Synced c s w x) :
    Reaches c s (s₁.perform (.store slot a)) w w' x (Yields s₁.fresh a v) := by
  obtain ⟨w₁, env, evaluated, assigned, rfl⟩ := evalSet_ok run
  have inner := settled.init form (.inl rfl)
  have here := value.passage stage.going inner
  have before := stage.before (moved_perform here.after.isOpen (.store slot a))
  refine (sim value inner before evaluated synced).trans here.fresh_le fun y synced _ yields => ?_
  obtain ⟨n, rfl, held⟩ := yields
  refine (reaches_assign here.after.isOpen here.after.tidy stage.coming synced held.int known
    assigned).mono fun z _ same => ⟨n, rfl, held.of_values same⟩

/-- A variable that is unknown is made one of the whole program. -/
theorem reaches_setNew (form : Form.classify head = some .set) (value : Lowering.Value e s a s₁)
    (unknown : s₁.current.lookup name = none)
    (settled : Settled (Reserved program) p (.list [.ident head hs, .ident name ns, e] span))
    (stage : Stage c p s (s₁.bindNew UnitState.bindOuter name false a))
    (run : evalSet eval [.ident name ns, e] w = .ok v w') (synced : Synced c s w x) :
    Reaches c s (s₁.bindNew UnitState.bindOuter name false a) w w' x (Yields s₁.fresh a v) := by
  obtain ⟨w₁, env, evaluated, assigned, rfl⟩ := evalSet_ok run
  have inner := settled.init form (.inl rfl)
  have free := settled.target form (.inl rfl)
  have here := value.passage stage.going inner
  -- a name that is new here cannot occur in a function
  have outside := here.defines.introduces form settled stage.going.knows unknown
  have there := Passage.introduce here.after unknown free outside a
  refine (sim value inner (stage.first there rfl) evaluated synced).trans here.fresh_le
    fun y synced _ yields => ?_
  obtain ⟨n, rfl, held⟩ := yields
  refine (reaches_introduce here.after.isOpen here.after.tidy stage.coming (stage.inside.trans outside) synced
    held.int unknown free assigned).mono fun z _ same => ⟨n, rfl, held.of_values same⟩

/-- A constant is bound in the innermost scope. -/
theorem reaches_const (form : Form.classify head = some .const) (value : Lowering.Value e s a s₁)
    (settled : Settled (Reserved program) p (.list [.ident head hs, .ident name ns, e] span))
    (stage : Stage c p s (s₁.bindNew UnitState.bindInner name true a))
    (run : evalConst eval [.ident name ns, e] w = .ok v w') (synced : Synced c s w x) :
    Reaches c s (s₁.bindNew UnitState.bindInner name true a) w w' x
      (Yields (s₁.bindNew UnitState.bindInner name true a).fresh a v) := by
  obtain ⟨w₁, evaluated, rfl⟩ := evalConst_ok run
  have inner := settled.init form (.inr rfl)
  have free := settled.target form (.inr rfl)
  have unconditional := settled.fits.consts (form?_list form)
  have here := value.passage stage.going inner
  have there := Passage.const here.after free unconditional a
  -- constants are only defined by code that always runs
  have coming := stage.coming
  rw [unconditional] at coming
  refine (sim value inner (stage.first there rfl) evaluated synced).trans here.fresh_le
    fun y synced _ yields => ?_
  obtain ⟨n, rfl, held⟩ := yields
  refine (reaches_bindInner here.after.isOpen here.after.tidy coming synced held.int free
    .frozen).mono fun z _ same => ⟨n, rfl, held.keep (fun _ _ => by rw [same]) there.fresh_le⟩

/-- The opposite truth. -/
theorem reaches_not (form : Form.classify head = some .not) (value : Lowering.Value e s a s₁)
    (settled : Settled (Reserved program) p (.list [.ident head hs, e] span))
    (stage : Stage c p s ((s₁.emit (.compare .eq a (.const 0))).emit (.extend s₁.fresh)))
    (run : evalNot eval [e] w = .ok v w') (synced : Synced c s w x) :
    Reaches c s ((s₁.emit (.compare .eq a (.const 0))).emit (.extend s₁.fresh)) w w' x
      (Yields ((s₁.emit (.compare .eq a (.const 0))).emit (.extend s₁.fresh)).fresh
        (.value (s₁.fresh + 1)) v) := by
  obtain ⟨u, w₁, evaluated, run⟩ := bind_ok_iff.mp run
  obtain ⟨rfl, rfl⟩ := pure_ok_iff.mp run
  have inner := (settled.operands form rfl).first
  rw [show Form.branches .not = false from rfl, Place.under_false] at inner
  have here := value.passage stage.going inner
  have compared := moved_emit here.after.isOpen (.compare .eq a (.const 0))
  have opened := open_emit here.after.isOpen (.compare .eq a (.const 0))
  have before := stage.before (moved_emit opened (.extend s₁.fresh))
  obtain ⟨n, rfl, reached⟩ := reaches_compared sim .eq value inner before evaluated synced
  refine reached.trans (Nat.le_trans here.fresh_le compared.fresh_le) fun z synced _ known => ?_
  have reached := reaches_int opened stage.coming.ahead synced (compute_extend known)
  have fresh : (s₁.emit (.compare .eq a (.const 0))).fresh = s₁.fresh + 1 := fresh_emit _
  rw [fresh] at reached
  -- a number is false exactly if it is zero
  have opposite : (!(TwinLisp.Value.int n).isTruthy) = CmpOp.eq.holds n 0 := Bool.not_not _
  rw [opposite]
  exact reached

/-- The opposite number. -/
theorem reaches_neg (form : Form.classify head = some (.arith .sub)) (value : Lowering.Value e s a s₁)
    (settled : Settled (Reserved program) p (.list [.ident head hs, e] span))
    (stage : Stage c p s (s₁.emit (.neg a))) (run : evalArith eval .sub [e] w = .ok v w')
    (synced : Synced c s w x) :
    Reaches c s (s₁.emit (.neg a)) w w' x (Yields (s₁.emit (.neg a)).fresh (.value s₁.fresh) v) := by
  obtain ⟨n, w₁, evaluated, run⟩ := bind_ok_iff.mp run
  obtain ⟨rfl, rfl⟩ := pure_ok_iff.mp run
  have inner := (settled.operands form rfl).first
  rw [show Form.branches (.arith .sub) = false from rfl, Place.under_false] at inner
  have here := value.passage stage.going inner
  have before := stage.before (moved_emit here.after.isOpen (.neg a))
  refine (reaches_evalInt sim value inner before evaluated synced).trans here.fresh_le
    fun y synced _ held => ?_
  exact reaches_int here.after.isOpen stage.coming.ahead synced (compute_neg held.int)

/-- The operands of an operator, folded from the left. -/
theorem reaches_arith {op : ArithOp} {e' : Expr} {r : Operand}
    (form : Form.classify head = some (.arith op)) (first : Lowering.Value e s a s₁)
    (rest : Operands op a (e' :: es) s₁ r s₂)
    (settled : Settled (Reserved program) p (.list (.ident head hs :: e :: e' :: es) span))
    (stage : Stage c p s s₂) (run : evalArith eval op (e :: e' :: es) w = .ok v w')
    (synced : Synced c s w x) : Reaches c s s₂ w w' x (Yields s₂.fresh r v) := by
  obtain ⟨k, w₁, evaluated, run⟩ := bind_ok_iff.mp run
  obtain ⟨n, w₂, rested, run⟩ := bind_ok_iff.mp run
  obtain ⟨rfl, rfl⟩ := pure_ok_iff.mp run
  have operands := settled.operands form rfl
  rw [show Form.branches (.arith op) = false from rfl, Place.under_false] at operands
  have here := first.passage stage.going operands.first
  have there := rest.passage here.after operands.rest
  refine (reaches_evalInt sim first operands.first (stage.first there rfl) evaluated synced).trans
    here.fresh_le fun y synced _ held => ?_
  refine (reaches_operands sim rest operands.rest (stage.rest here) rested synced held).mono
    fun z _ held => ⟨n, rfl, held⟩

/-- Printing yields zero. -/
theorem reaches_print (literal : Literal eval) (form : Form.classify head = some .print) (nonempty : es ≠ [])
    (printed : Prints es s s')
    (settled : Settled (Reserved program) p (.list (.ident head hs :: es) span)) (stage : Stage c p s s')
    (run : evalPrint eval es w = .ok v w') (synced : Synced c s w x) :
    Reaches c s s' w w' x (Yields s'.fresh (.const 0) v) := by
  have operands := settled.operands form rfl
  rw [show Form.branches .print = false from rfl, Place.under_false] at operands
  unfold evalPrint at run
  rw [if_neg (by simpa using nonempty)] at run
  obtain ⟨_, w₁, ran, run⟩ := bind_ok_iff.mp run
  obtain ⟨rfl, rfl⟩ := pure_ok_iff.mp run
  exact (reaches_prints sim literal printed operands stage ran synced).mono
    fun y _ _ => ⟨0, rfl, held_const _ y 0⟩

/-- Every rule of lowering. -/
theorem simulates_layer (literal : Literal eval) (linked : Linked program m) :
    Simulates program m (evalLayer eval limit fuel) := by
  intro c p e s s' a w w' v x h settled stage run synced
  have derived := h
  cases h with
  | int =>
    obtain ⟨rfl, rfl⟩ := pure_ok_iff.mp run
    exact .still synced ⟨_, rfl, held_const _ _ _⟩
  | «variable» known => exact reaches_variable known stage run synced
  | letIn initial inner => exact reaches_let sim initial inner settled stage run synced
  | print form nonempty printed =>
    rw [evalLayer_ok_iff_of_form form] at run
    exact reaches_print sim literal form nonempty printed settled stage run synced
  | store form value known _ =>
    rw [evalLayer_ok_iff_of_form form] at run
    exact reaches_set sim form value known settled stage run synced
  | introduce form value unknown =>
    rw [evalLayer_ok_iff_of_form form] at run
    exact reaches_setNew sim form value unknown settled stage run synced
  | const form value _ =>
    rw [evalLayer_ok_iff_of_form form] at run
    exact reaches_const sim form value settled stage run synced
  -- an arm is conditional code, whose bindings are settled before it is entered
  | cond form tested first second =>
    rw [evalLayer_ok_iff_of_form form] at run
    have passage := derived.passage (stage.going.under true) (settled.conditional form rfl)
    refine reaches_settled stage passage synced fun base stage synced => ?_
    exact reaches_cond sim tested first second rfl (settled.operands form rfl) (Bool.and_false _) stage run
      synced
  | not form value =>
    rw [evalLayer_ok_iff_of_form form] at run
    exact reaches_not sim form value settled stage run synced
  -- without operands the value is that of the connective, and no code is made
  | @logicEmpty _ _ _ _ decides form =>
    rw [evalLayer_ok_iff_of_form form] at run
    cases decides with
    | false =>
      obtain ⟨rfl, rfl⟩ := pure_ok_iff.mp run
      exact .still synced ⟨1, rfl, held_const _ _ _⟩
    | true =>
      obtain ⟨rfl, rfl⟩ := pure_ok_iff.mp run
      exact .still synced ⟨0, rfl, held_const _ _ _⟩
  | @logic _ _ e es _ _ decides _ _ form tests =>
    rw [evalLayer_ok_iff_of_form form] at run
    have run : (if decides then evalOr eval (e :: es) else evalAnd eval (e :: es)) w = .ok v w' := by
      cases decides with
      | false => exact run
      | true => exact run
    have branches : (if decides then Form.or else Form.and).branches = true := by
      cases decides <;> rfl
    have passage := derived.passage (stage.going.under true) (settled.conditional form branches)
    refine reaches_settled stage passage synced fun base stage synced => ?_
    exact reaches_logic sim tests rfl (settled.logic form) (Bool.and_false _) stage run synced
  | loop form tested body =>
    rw [evalLayer_ok_iff_of_form form] at run
    have passage := derived.passage (stage.going.under true) (settled.conditional form rfl)
    refine reaches_settled stage passage synced fun base stage synced => ?_
    exact reaches_loop sim tested body rfl (settled.operands form rfl) (Bool.and_false _) stage run synced
  -- definitions stand at the top only, and there are no anonymous functions
  | defun form => exact absurd (form?_list form) settled.fits.noDefun
  | lambda form => exact absurd (form?_list form) settled.fits.noLambda
  | neg form value =>
    rw [evalLayer_ok_iff_of_form form] at run
    exact reaches_neg sim form value settled stage run synced
  | arith form first rest =>
    rw [evalLayer_ok_iff_of_form form] at run
    exact reaches_arith sim form first rest settled stage run synced
  | @call head hs args span _ _ _ _ _ noForm unknown arguments found =>
    have run : evalNamedCall eval head args span w = .ok v w' := by
      simpa only [evalLayer, evalList, Expr.ident?, noForm] using run
    exact reaches_call sim linked arguments found (settled.arguments noForm) stage run synced

end Forms

/-- A string is evaluated without fuel for anything below it. -/
theorem literal_evalWith (config : Config) (fuel : Nat) : Literal (evalWith config fuel) := by
  intro text span v w w' run
  cases fuel with
  | zero => cases run
  | succ fuel =>
    obtain ⟨rfl, rfl⟩ := pure_ok_iff.mp run
    exact ⟨rfl, rfl⟩

/-- Wherever the code of a settled expression is run, it does what evaluation does that ends well. -/
theorem simulates_evalWith (linked : Linked program m) (config : Config) (fuel : Nat) :
    Simulates program m (evalWith config fuel) := by
  induction fuel with
  | zero =>
    intro c p e s s' a w w' v x h settled stage run synced
    cases run
  | succ fuel ih => exact simulates_layer ih (literal_evalWith config fuel) linked

end TwinLisp.Execution
