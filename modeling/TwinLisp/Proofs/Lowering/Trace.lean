import TwinLisp.Graph.Mentions
import TwinLisp.Graph.WellFormed
import TwinLisp.Proofs.Graph.Builder
import TwinLisp.Proofs.Lowering.Complete

/-!
What lowering does to the module, apart from the code that it adds to the unit under construction:
it declares the callee of each call, and it builds a unit for each definition. A trace is such a
sequence of steps; every derivation has one, with the mentions of its expression.
-/

namespace TwinLisp.Graph

namespace Instr

def callee? : Instr → Option UnitId
  | define _ (.call callee _) => some callee
  | _ => none

end Instr

namespace Lowering

/-- The code of a unit grows by instructions that call nothing, and print only texts that the
module has. -/
structure Edits (m : Module) (u v : UnitState) : Prop where
  unit : v.unit = u.unit
  arity : v.builder.arity = u.builder.arity
  size_le : u.builder.size ≤ v.builder.size
  inRange : u.builder.current < u.builder.size → v.builder.current < v.builder.size
  instrs : ∀ p, ∀ i ∈ u.builder.instrsAt p, i ∈ v.builder.instrsAt p
  quiet : ∀ p, ∀ i ∈ v.builder.instrsAt p, i ∈ u.builder.instrsAt p ∨
    i.callee? = none ∧ ∀ string, i.string? = some string → string < m.strings.size

/-- The steps from one state to another, with what they mention. -/
inductive Trace : List Mention → State → State → Prop
  | refl (s) : Trace [] s s
  | trans {ms ns s s₁ s₂} (first : Trace ms s s₁) (rest : Trace ns s₁ s₂) : Trace (ms ++ ns) s s₂
  | edit {s u} (edits : Edits s.module s.current u) : Trace [] s { s with current := u }
  | intern {s} (text) : Trace [] s (s.intern text).2
  | call {s name args unit s₁} (found : s.callee? name args.length = some (unit, s₁)) :
    Trace [.call name args.length] s (s₁.emit (.call unit args))
  | defun {ms s name params unit s₁ s₂} (defined : s.define? name params.length = some (unit, s₁))
    (body : Trace ms (s₁.enterUnit unit params) s₂) (result) :
    Trace (.defun name params.length :: ms) s (s₂.leaveUnit unit result s₁)

namespace Edits

variable {m : Module} {u v w : UnitState}

theorem refl (u : UnitState) : Edits m u u :=
  ⟨rfl, rfl, Nat.le_refl _, id, fun _ _ => id, fun _ _ => .inl⟩

theorem trans (first : Edits m u v) (rest : Edits m v w) : Edits m u w where
  unit := rest.unit.trans first.unit
  arity := rest.arity.trans first.arity
  size_le := Nat.le_trans first.size_le rest.size_le
  inRange := rest.inRange ∘ first.inRange
  instrs p i hi := rest.instrs p i (first.instrs p i hi)
  quiet p i hi := (rest.quiet p i hi).elim (first.quiet p i) .inr

/-- Steps that leave the instructions alone. -/
theorem of_instrsAt (unit : v.unit = u.unit) (arity : v.builder.arity = u.builder.arity)
    (size_le : u.builder.size ≤ v.builder.size)
    (inRange : u.builder.current < u.builder.size → v.builder.current < v.builder.size)
    (same : ∀ p, v.builder.instrsAt p = u.builder.instrsAt p) : Edits m u v where
  unit := unit
  arity := arity
  size_le := size_le
  inRange := inRange
  instrs p _ hi := (same p).symm ▸ hi
  quiet p _ hi := .inl (same p ▸ hi)

theorem push {i : Instr} (quiet : i.callee? = none)
    (known : ∀ string, i.string? = some string → string < m.strings.size) :
    Edits m u { u with builder := u.builder.push i } where
  unit := rfl
  arity := rfl
  size_le := Nat.le_of_eq (Builder.size_push i).symm
  inRange h := by
    rw [Builder.size_push, Builder.current_push]
    exact h
  instrs _ _ hj := Builder.mem_instrsAt_push_of_mem hj
  quiet _ j hj := by
    rcases Builder.mem_instrsAt_push hj with hj | rfl
    · exact .inl hj
    · exact .inr ⟨quiet, known⟩

end Edits

/-- Nothing has changed but the code of the unit under construction, which has grown. -/
def Edited (s s' : State) : Prop :=
  ∃ u, Edits s.module s.current u ∧ s' = { s with current := u }

section Edited

variable {s s₁ s' : State}

theorem Edited.trace (h : Edited s s') : Trace [] s s' := by
  obtain ⟨u, edits, rfl⟩ := h
  exact .edit edits

theorem Edited.trans (first : Edited s s₁) (rest : Edited s₁ s') : Edited s s' := by
  obtain ⟨u, edits, rfl⟩ := first
  obtain ⟨v, edits', rfl⟩ := rest
  exact ⟨v, edits.trans edits', rfl⟩

theorem edited_perform {effect : Effect}
    (known : ∀ string, effect = .printStr string → string < s.module.strings.size) :
    Edited s (s.perform effect) := by
  refine ⟨_, .push rfl ?_, rfl⟩
  intro string h
  cases effect with
  | printStr => exact known string (congrArg _ (Option.some.inj h))
  | _ => cases h

/-- Binding a new variable is an edit: a stack slot and a store, whichever scope the name goes to. -/
theorem edited_bindNew {bind : UnitState → String → SlotId → UnitState} {name : String}
    {frozen : Bool} {value : Operand} (keeps : ∀ u slot, (bind u name slot).unit = u.unit ∧
      (bind u name slot).builder = u.builder) :
    Edited s (s.bindNew bind name frozen value) := by
  let allocated : UnitState := { s.current with
    builder := (s.current.builder.alloca name frozen).2 }
  obtain ⟨unit, builder⟩ := keeps allocated s.nextSlot
  -- making the name known changes the scopes only, and the store behind it is one instruction
  have bound : Edited s { s with current := bind allocated name s.nextSlot } := by
    refine ⟨_, .of_instrsAt unit ?_ ?_ ?_ ?_, rfl⟩
    all_goals rw [builder]
    · rfl
    · exact Nat.le_refl _
    · exact id
    · exact fun _ => rfl
  exact bound.trans (edited_perform nofun)

theorem bindInner_keeps (u : UnitState) (name : String) (slot : SlotId) :
    (u.bindInner name slot).unit = u.unit ∧ (u.bindInner name slot).builder = u.builder := by
  unfold UnitState.bindInner
  split
  · exact ⟨rfl, rfl⟩
  · exact ⟨rfl, rfl⟩

theorem edited_bindAll (pairs : List (String × Operand)) : Edited s (s.bindAll pairs) := by
  induction pairs generalizing s with
  | nil => exact ⟨s.current, .refl _, rfl⟩
  | cons pair pairs ih =>
    exact (edited_bindNew fun u slot => bindInner_keeps u pair.1 slot).trans ih

end Edited

namespace Trace

variable {s s₁ s' : State} {ms : List Mention}

/-- A silent step, and then a trace. -/
theorem after (silent : Trace [] s s₁) (rest : Trace ms s₁ s') : Trace ms s s' :=
  silent.trans rest

/-- A trace, and then a silent step. -/
theorem silently (first : Trace ms s s₁) (silent : Trace [] s₁ s') : Trace ms s s' := by
  have whole := first.trans silent
  rwa [List.append_nil] at whole

theorem emit {operation : Operation} (quiet : ∀ callee args, operation ≠ .call callee args) :
    Trace [] s (s.emit operation) := by
  have noCallee : (Instr.define s.fresh operation).callee? = none := by
    cases operation with
    | call callee args => exact absurd rfl (quiet callee args)
    | _ => rfl
  let typed : UnitState := { s.current with builder :=
    { s.current.builder with types := s.current.builder.types.push operation.ty } }
  -- the result gets its type before the instruction is added
  have types : Edits s.module s.current typed :=
    .of_instrsAt rfl rfl (Nat.le_refl _) id fun _ => rfl
  exact .edit (types.trans (.push noCallee fun _ h => nomatch h))

theorem perform {effect : Effect}
    (known : ∀ string, effect = .printStr string → string < s.module.strings.size) :
    Trace [] s (s.perform effect) :=
  (edited_perform known).trace

theorem newBlock : Trace [] s s.newBlock := by
  refine .edit (.of_instrsAt rfl rfl ?_ ?_ fun _ => Builder.instrsAt_newBlock)
  · exact Nat.le_of_lt (Nat.lt_of_lt_of_eq (Nat.lt_succ_self _) Builder.size_newBlock.symm)
  · exact fun h => Nat.lt_of_lt_of_eq (Nat.lt_succ_of_lt h) Builder.size_newBlock.symm

theorem terminate (t : Terminator) : Trace [] s (s.terminate t) := by
  refine .edit (.of_instrsAt rfl rfl ?_ ?_ fun _ => Builder.instrsAt_terminate t)
  · exact Nat.le_of_eq (Builder.size_terminate t).symm
  · exact fun h => Nat.lt_of_lt_of_eq h (Builder.size_terminate t).symm

theorem positionAt {block : BlockId} (h : block < s.nextBlock) : Trace [] s (s.positionAt block) :=
  .edit (.of_instrsAt rfl rfl (Nat.le_refl _) (fun _ => h) fun _ => rfl)

theorem jump {block next : BlockId} (h : next < s.nextBlock) : Trace [] s (s.jump block next) := by
  refine (terminate (.br block)).after (positionAt ?_)
  exact Nat.lt_of_lt_of_eq h (Builder.size_terminate _).symm

theorem bindNew {bind : UnitState → String → SlotId → UnitState} {name : String} {frozen : Bool}
    {value : Operand} (keeps : ∀ u slot, (bind u name slot).unit = u.unit ∧
      (bind u name slot).builder = u.builder) : Trace [] s (s.bindNew bind name frozen value) :=
  (edited_bindNew keeps).trace

theorem bindAll (pairs : List (String × Operand)) : Trace [] s (s.bindAll pairs) :=
  (edited_bindAll pairs).trace

theorem enterScope (pairs : List (String × Operand)) : Trace [] s (s.enterScope pairs) := by
  refine Trace.after (.edit ?_) (bindAll pairs)
  exact .of_instrsAt rfl rfl (Nat.le_refl _) id fun _ => rfl

theorem leaveScope : Trace [] s s.leaveScope :=
  .edit (.of_instrsAt rfl rfl (Nat.le_refl _) id fun _ => rfl)

theorem newBlocks : Trace [] s s.newBlock.newBlock.newBlock :=
  newBlock.after (newBlock.after newBlock)

theorem openArms (cond : ValueId) : Trace [] s (s.openArms cond) := by
  refine newBlocks.after ((terminate _).after (positionAt ?_))
  change s.nextBlock < ((_ : Builder).terminate _).size
  rw [Builder.size_terminate]
  change s.nextBlock < s.newBlock.newBlock.newBlock.nextBlock
  simp only [nextBlock_newBlock]
  grind

theorem openLoop : Trace [] s s.openLoop := by
  refine newBlocks.after (jump ?_)
  simp only [nextBlock_newBlock]
  grind

theorem test (decides : Bool) (merge : BlockId) (truth : ValueId) :
    Trace [] s (s.test decides merge truth) := by
  refine newBlock.after ((terminate _).after (positionAt ?_))
  change s.nextBlock < ((_ : Builder).terminate _).size
  rw [Builder.size_terminate]
  change s.nextBlock < s.newBlock.nextBlock
  rw [nextBlock_newBlock]
  exact Nat.lt_succ_self _

end Trace

variable {s s₁ s' : State} {ms : List Mention} {name : String} {arity : Nat} {unit : UnitId}

/-- A call finds a unit with a signature that fits, or declares one. -/
theorem callee?_cases (h : s.callee? name arity = some (unit, s₁)) :
    (∃ signature, s.signatures.get? name = some signature ∧ signature.arity = arity ∧
      signature.unit = unit ∧ s₁ = s) ∨
    (s.signatures.get? name = none ∧ unit = s.module.units.size ∧
      s₁ = { s with
        module := (s.module.declareUnit name arity).2
        signatures := s.signatures.infer name unit arity }) := by
  unfold State.callee? at h
  split at h
  next signature known =>
    split at h
    next fits =>
      cases h
      exact .inl ⟨signature, known, fits, rfl, rfl⟩
    next => cases h
  next unknown =>
    cases h
    exact .inr ⟨unknown, rfl, rfl⟩

/-- A definition takes the unit that has its name, if that is still without a body, or declares
one. -/
theorem define?_cases (h : s.define? name arity = some (unit, s₁)) :
    (∃ signature, s.signatures.get? name = some signature ∧ signature.unit = unit ∧
      s.module.isDefined unit = false ∧ unit ∉ s.inProgress ∧
      s₁ = { s with
        module := s.module.setArity unit arity
        signatures := s.signatures.declare name unit arity }) ∨
    (s.signatures.get? name = none ∧ unit = s.module.units.size ∧
      s₁ = { s with
        module := (s.module.declareUnit name arity).2
        signatures := s.signatures.declare name unit arity }) := by
  unfold State.define? at h
  split at h
  next signature known =>
    dsimp only at h
    split at h
    next => cases h
    -- neither defined nor in progress, so its arity is settled now
    next free =>
      cases h
      rw [Bool.or_eq_true, not_or, List.contains_iff_mem] at free
      exact .inl ⟨signature, known, rfl, Bool.not_eq_true _ ▸ free.1, free.2, rfl⟩
  next unknown =>
    cases h
    exact .inr ⟨unknown, rfl, rfl⟩

/-- Finding a callee touches the tables of the module and not the unit under construction. -/
theorem current_of_callee? (h : s.callee? name arity = some (unit, s₁)) :
    s₁.current = s.current ∧ s₁.inProgress = s.inProgress := by
  obtain ⟨_, _, _, _, rfl⟩ | ⟨_, _, rfl⟩ := callee?_cases h
  · exact ⟨rfl, rfl⟩
  · exact ⟨rfl, rfl⟩

theorem current_of_define? (h : s.define? name arity = some (unit, s₁)) :
    s₁.current = s.current ∧ s₁.inProgress = s.inProgress := by
  obtain ⟨_, _, _, _, _, rfl⟩ | ⟨_, _, rfl⟩ := define?_cases h
  · exact ⟨rfl, rfl⟩
  · exact ⟨rfl, rfl⟩

/-- Blocks are only ever added. -/
theorem Trace.nextBlock_le (h : Trace ms s s') : s.nextBlock ≤ s'.nextBlock := by
  induction h with
  | refl => exact Nat.le_refl _
  | trans _ _ first rest => exact Nat.le_trans first rest
  | edit edits => exact edits.size_le
  | intern => exact Nat.le_refl _
  -- a call is found and emitted in the unit that was under construction before
  | call found =>
    have same := (current_of_callee? found).1
    refine Nat.le_of_eq ?_
    unfold State.nextBlock
    rw [← same]
    exact (Builder.size_push _).symm
  | defun defined =>
    have same := (current_of_define? defined).1
    exact Nat.le_of_eq (congrArg (·.builder.blocks.size) same.symm)

theorem nextBlock_openArms (cond : ValueId) : (s.openArms cond).nextBlock = s.nextBlock + 3 := by
  refine (Builder.size_terminate _).trans ?_
  change s.newBlock.newBlock.newBlock.nextBlock = _
  simp only [nextBlock_newBlock]

theorem nextBlock_openLoop : s.openLoop.nextBlock = s.nextBlock + 3 := by
  refine (Builder.size_terminate _).trans ?_
  change s.newBlock.newBlock.newBlock.nextBlock = _
  simp only [nextBlock_newBlock]

theorem nextBlock_terminate (t : Terminator) : (s.terminate t).nextBlock = s.nextBlock :=
  Builder.size_terminate t

theorem nextBlock_jump (target next : BlockId) : (s.jump target next).nextBlock = s.nextBlock :=
  Builder.size_terminate _

theorem intern_of_some {text : String} {id : StringId}
    (found : s.module.strings.findIdx? (· == text) = some id) : s.intern text = (id, s) := by
  unfold State.intern Module.internString
  rw [found]

theorem intern_of_none {text : String} (new : s.module.strings.findIdx? (· == text) = none) :
    s.intern text = (s.module.strings.size,
      { s with module := { s.module with strings := s.module.strings.push text } }) := by
  unfold State.intern Module.internString
  rw [new]

/-- A text that is interned can be found. -/
theorem strings_intern (s : State) (text : String) :
    (s.intern text).2.module.strings[(s.intern text).1]? = some text := by
  cases found : s.module.strings.findIdx? (· == text) with
  | none =>
    rw [intern_of_none found]
    exact Array.getElem?_push_size
  | some id =>
    rw [intern_of_some found]
    obtain ⟨lt, same, -⟩ := Array.findIdx?_eq_some_iff_getElem.mp found
    exact (Array.getElem?_eq_getElem lt).trans (congrArg some (eq_of_beq same))

/-- The text that is interned is one of the module's from then on. -/
theorem intern_lt (text : String) :
    (s.intern text).1 < (s.intern text).2.module.strings.size :=
  (Array.getElem?_eq_some_iff.mp (strings_intern s text)).1

theorem length_of_mapM_ident? {es : List Expr} {names : List String}
    (h : es.mapM Expr.ident? = some names) : names.length = es.length := by
  induction es generalizing names with
  | nil =>
    cases h
    rfl
  | cons e es ih =>
    rw [List.mapM_cons] at h
    obtain ⟨name, -, h⟩ := Option.bind_eq_some_iff.mp h
    obtain ⟨rest, hrest, h⟩ := Option.bind_eq_some_iff.mp h
    cases h
    exact congrArg (· + 1) (ih hrest)

/-- Parameters are listed by a list of as many expressions. -/
theorem list_of_names? {e : Expr} {names : List String} (h : e.names? = some names) :
    ∃ items span, e = .list items span ∧ names.length = items.length := by
  cases e with
  | list items span => exact ⟨items, span, rfl, length_of_mapM_ident? h⟩
  | _ => cases h

theorem length_of_mapM {α β : Type} {f : α → LowerM β} {xs : List α} {ys : List β}
    (run : xs.mapM f s = .ok ys s') : ys.length = xs.length := by
  induction xs generalizing s s' ys with
  | nil =>
    cases run
    rfl
  | cons x xs ih =>
    rw [List.mapM_cons] at run
    obtain ⟨y, s₁, -, run⟩ := bind_ok_iff.mp run
    obtain ⟨rest, s₂, others, run⟩ := bind_ok_iff.mp run
    obtain ⟨rfl, -⟩ := pure_ok_iff.mp run
    exact congrArg (· + 1) (ih others)

theorem Values.length_eq {es : List Expr} {as : List Operand} (h : Values es s as s') :
    as.length = es.length := by
  rw [length_of_mapM h.run, Code.ofExprs_eq_map, List.length_map]

/-- A block that exists before the steps can be jumped to after them. -/
theorem Trace.silently_jump (target next : BlockId) (h : Trace ms s s')
    (made : next < s.nextBlock) : Trace ms s (s'.jump target next) :=
  h.silently (.jump (Nat.lt_of_lt_of_le made h.nextBlock_le))

mutual

/-- Lowering an expression goes through what it mentions. -/
theorem Value.trace : ∀ {e : Expr} {s : State} {a : Operand} {s' : State}, Value e s a s' →
    Trace (Mention.ofExpr e) s s'
  | _, s, _, _, .int => .refl s
  | _, _, _, _, .variable _ => .emit (by nofun)
  -- the scope adds no mention of its own, its stores are edits
  | _, _, _, _, .letIn initial inner => by
    rw [Mention.ofExpr, Mention.ofBindings_eq]
    exact (initial.trace.trans (.after (.enterScope _) inner.trace)).silently .leaveScope
  | _, _, _, _, .print form _ printed => by
    rw [Mention.ofExpr_form form (by simp)]
    exact printed.trace
  | _, _, _, _, .store form value _ _ => by
    rw [Mention.ofExpr_form form (by simp)]
    have parts := (Trace.refl _).trans (value.trace.trans (.refl _))
    exact parts.silently (.perform (by nofun))
  | _, _, _, _, .introduce form value _ => by
    rw [Mention.ofExpr_form form (by simp)]
    have parts := (Trace.refl _).trans (value.trace.trans (.refl _))
    exact parts.silently (.bindNew fun _ _ => ⟨rfl, rfl⟩)
  | _, _, _, _, .const form value _ => by
    rw [Mention.ofExpr_form form (by simp)]
    have parts := (Trace.refl _).trans (value.trace.trans (.refl _))
    exact parts.silently (.bindNew fun u slot => bindInner_keeps u _ slot)
  | _, _, _, _, @Value.cond _ _ _ _ _ _ _ c s₁ _ s₂ _ _ form tested first second => by
    rw [Mention.ofExpr_form form (by simp)]
    have arms := nextBlock_openArms (s := s₁) c
    -- the blocks of the arms have been made before, so that they can be jumped to
    have yes := first.trace.silently_jump (s₁.nextBlock + 2) (s₁.nextBlock + 1) (by grind)
    have tillNo := (Trace.openArms c).after yes
    have no := second.trace.silently_jump (s₁.nextBlock + 2) (s₁.nextBlock + 2) (by
      have := first.trace.nextBlock_le
      rw [nextBlock_jump]
      grind)
    have parts := tested.trace.trans (tillNo.trans (no.trans (.refl _)))
    exact parts.silently (.emit (by nofun))
  | _, _, _, _, .not form value => by
    rw [Mention.ofExpr_form form (by simp)]
    refine Trace.silently ?_ (.emit (by nofun))
    exact (value.trace.silently (.emit (by nofun))).trans (.refl _)
  | _, _, _, _, @Value.logicEmpty _ _ _ s _ form => by
    rw [Mention.ofExpr_form form (by split <;> simp)]
    exact .refl s
  | _, s, _, _, .logic form tests => by
    rw [Mention.ofExpr_form form (by split <;> simp)]
    have ended := tests.trace.silently_jump s.nextBlock s.nextBlock (by
      rw [nextBlock_newBlock]
      exact Nat.lt_succ_self _)
    exact (Trace.newBlock.after ended).silently (.emit (by nofun))
  | _, s, _, _, @Value.loop _ _ _ _ _ _ _ c _ _ _ form tested body => by
    rw [Mention.ofExpr_form form (by simp)]
    have opened := nextBlock_openLoop (s := s)
    have grown := tested.trace.nextBlock_le
    have tested' := tested.trace.silently
      (.terminate (.condBr c (s.nextBlock + 1) (s.nextBlock + 2)))
    -- the body is entered in a block that was made with the condition
    have entered : Trace _ _ (State.positionAt _ (s.nextBlock + 1)) :=
      tested'.silently (.positionAt (by
        rw [nextBlock_terminate]
        grind))
    have left := body.trace.silently_jump s.nextBlock (s.nextBlock + 2) (by
      change _ < (State.terminate _ _).nextBlock
      rw [nextBlock_terminate]
      grind)
    exact (Trace.openLoop.after entered).trans left
  -- the body is the one part that is traced in another unit
  | _, _, _, _, .defun form listed defined body => by
    obtain ⟨items, ps, rfl, same⟩ := list_of_names? listed
    rw [Mention.ofExpr_defun form, ← same]
    exact .defun defined body.trace _
  -- a lambda that is not called is lowered to nothing
  | _, s, _, _, .lambda form => by
    rw [Mention.ofExpr_lambda form]
    exact .refl s
  | _, _, _, _, .neg form value => by
    rw [Mention.ofExpr_form form (by simp)]
    exact (value.trace.silently (.emit (by nofun))).trans (.refl _)
  | _, _, _, _, .arith form first rest => by
    rw [Mention.ofExpr_form form (by simp)]
    exact first.trace.trans rest.trace
  -- the mention carries the number of arguments that were lowered
  | _, _, _, _, .call noForm _ arguments found => by
    rw [Mention.ofExpr_call noForm, ← arguments.length_eq]
    exact arguments.trace.trans (.call (arguments.length_eq ▸ found))

theorem Test.trace : ∀ {e : Expr} {s : State} {v : ValueId} {s' : State}, Test e s v s' →
    Trace (Mention.ofExpr e) s s'
  | _, _, _, _, .compare form first second => by
    rw [Mention.ofExpr_form form (by simp)]
    exact first.trace.trans ((second.trace.silently (.emit (by nofun))).trans (.refl _))
  | _, _, _, _, .nonzero _ value => value.trace.silently (.emit (by nofun))

theorem Values.trace : ∀ {es : List Expr} {s : State} {as : List Operand} {s' : State},
    Values es s as s' → Trace (Mention.ofExprs es) s s'
  | _, _, _, _, .nil => .refl _
  | _, _, _, _, .cons first rest => first.trace.trans rest.trace

theorem Prints.trace : ∀ {es : List Expr} {s s' : State}, Prints es s s' →
    Trace (Mention.ofExprs es) s s'
  | _, _, _, .nil => .refl _
  | _, _, _, .str rest => by
    -- the text is the module's as soon as it is interned, so that it may be printed
    refine Trace.after (.intern _) (.after (.perform fun string h => ?_) rest.trace)
    cases h
    exact intern_lt _
  | _, _, _, .int value rest => value.trace.trans (.after (.perform (by nofun)) rest.trace)

theorem Operands.trace : ∀ {op : ArithOp} {acc : Operand} {es : List Expr} {s : State}
    {r : Operand} {s' : State}, Operands op acc es s r s' → Trace (Mention.ofExprs es) s s'
  | _, _, _, _, _, _, .nil => .refl _
  | _, _, _, _, _, _, .cons value _ rest => value.trace.trans (.after (.emit (by nofun)) rest.trace)

theorem Tests.trace : ∀ {decides : Bool} {merge : BlockId} {es : List Expr} {s : State}
    {exits : List BlockId} {s' : State}, Tests decides merge es s exits s' →
    Trace (Mention.ofExprs es) s s'
  | _, _, _, _, _, _, .nil => .refl _
  | _, _, _, _, _, _, .cons value rest =>
    value.trace.trans (.after (.emit (by nofun)) (.after (.test _ _ _) rest.trace))

end

end Lowering

end TwinLisp.Graph
