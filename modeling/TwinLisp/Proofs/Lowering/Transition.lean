import TwinLisp.Graph.Lowering
import TwinLisp.Proofs.Run

/-! The steps of lowering as functions on its state. -/

namespace TwinLisp.Graph.Lowering

namespace State

def edit (s : State) (f : Builder → Builder) : State :=
  { s with current := { s.current with builder := f s.current.builder } }

/-- The value that the next operation defines. -/
def fresh (s : State) : ValueId := s.current.builder.types.size

def block (s : State) : BlockId := s.current.builder.current

/-- The block that is made next. -/
def nextBlock (s : State) : BlockId := s.current.builder.blocks.size

/-- The slot that is made next. -/
def nextSlot (s : State) : SlotId := s.current.builder.slots.size

def emit (s : State) (operation : Operation) : State := s.edit fun b => (b.emit operation).2

def perform (s : State) (effect : Effect) : State := s.edit (·.perform effect)

def newBlock (s : State) : State := s.edit fun b => b.newBlock.2

def positionAt (s : State) (block : BlockId) : State := s.edit (·.positionAt block)

def terminate (s : State) (t : Terminator) : State := s.edit (·.terminate t)

/-- Ends the current block with a jump and goes on at `next`. -/
def jump (s : State) (target next : BlockId) : State := (s.terminate (.br target)).positionAt next

/-- Adds a slot that holds `value` and makes it known by `bind`. -/
def bindNew (s : State) (bind : UnitState → String → SlotId → UnitState) (name : String)
    (frozen : Bool) (value : Operand) : State :=
  let u := s.current
  let added := { s with
    current := bind { u with builder := (u.builder.alloca name frozen).2 } name s.nextSlot }
  added.perform (.store s.nextSlot value)

/-- Adds a slot for each pair, known in the innermost scope. -/
def bindAll (s : State) (pairs : List (String × Operand)) : State :=
  pairs.foldl (fun s (name, value) => s.bindNew UnitState.bindInner name false value) s

def enterScope (s : State) (pairs : List (String × Operand)) : State :=
  { s with current := s.current.pushScope }.bindAll pairs

def leaveScope (s : State) : State := { s with current := s.current.popScope }

/-- Two arms and the block where they meet, the first arm current. -/
def openArms (s : State) (cond : ValueId) : State :=
  let n := s.nextBlock
  ((s.newBlock.newBlock.newBlock).terminate (.condBr cond n (n + 1))).positionAt n

/-- A condition, a body and what follows, the condition current. -/
def openLoop (s : State) : State :=
  let n := s.nextBlock
  s.newBlock.newBlock.newBlock.jump n n

/-- Leaves for `merge` if the truth settles the result, and else goes on in a new block. -/
def test (s : State) (decides : Bool) (merge : BlockId) (truth : ValueId) : State :=
  let next := s.nextBlock
  (s.newBlock.terminate
    (if decides then .condBr truth merge next else .condBr truth next merge)).positionAt next

def intern (s : State) (text : String) : StringId × State :=
  let (id, module) := s.module.internString text
  (id, { s with module })

/-- The unit that a definition fills. -/
def define? (s : State) (name : String) (arity : Nat) : Option (UnitId × State) :=
  match s.signatures.get? name with
  | some signature =>
    let unit := signature.unit
    if s.module.isDefined unit || s.inProgress.contains unit then none
    else some (unit, { s with
      module := s.module.setArity unit arity
      signatures := s.signatures.declare name unit arity })
  | none =>
    let (unit, module) := s.module.declareUnit name arity
    some (unit, { s with module, signatures := s.signatures.declare name unit arity })

/-- The unit that a call names. -/
def callee? (s : State) (name : String) (arity : Nat) : Option (UnitId × State) :=
  match s.signatures.get? name with
  | some signature => if signature.arity = arity then some (signature.unit, s) else none
  | none =>
    let (unit, module) := s.module.declareUnit name arity
    some (unit, { s with module, signatures := s.signatures.infer name unit arity })

/-- Begins the body of a unit, each parameter in a slot of its own. -/
def enterUnit (s : State) (unit : UnitId) (params : List String) : State :=
  { s with
    current := .new unit params.length
    inProgress := unit :: s.inProgress }.bindAll
    (params.zip ((List.range params.length).map .value))

/-- Ends the body of a unit and goes back to the unit of `outer`. -/
def leaveUnit (s : State) (unit : UnitId) (result : Operand) (outer : State) : State :=
  { s with
    module := s.module.setBody unit (s.current.builder.terminate (.ret result)).finish
    current := outer.current
    inProgress := outer.inProgress }

end State

variable {s s' : State}

theorem emit_apply (operation : Operation) :
    Lowering.emit operation s = .ok (.value s.fresh) (s.emit operation) := rfl

theorem compare_apply (op : CmpOp) (a b : Operand) :
    compare op a b s = .ok s.fresh (s.emit (.compare op a b)) := rfl

theorem newBlock_apply : Lowering.newBlock s = .ok s.nextBlock s.newBlock := rfl

theorem currentBlock_apply : currentBlock s = .ok s.block s := rfl

theorem positionAt_apply (block : BlockId) :
    Lowering.positionAt block s = .ok ⟨⟩ (s.positionAt block) := rfl

theorem terminate_apply (t : Terminator) :
    Lowering.terminate t s = .ok ⟨⟩ (s.terminate t) := rfl

theorem newVariable_apply (bind : UnitState → String → SlotId → UnitState) (name : String)
    (frozen : Bool) (value : Operand) :
    newVariable bind name frozen value s = .ok ⟨⟩ (s.bindNew bind name frozen value) := rfl

theorem fresh_emit (operation : Operation) : (s.emit operation).fresh = s.fresh + 1 := by
  simp only [State.emit, State.edit, State.fresh, Builder.emit, Builder.push, Array.size_push]

theorem fresh_positionAt (block : BlockId) : (s.positionAt block).fresh = s.fresh := rfl

theorem fresh_terminate (t : Terminator) : (s.terminate t).fresh = s.fresh := rfl

theorem nextBlock_newBlock : s.newBlock.nextBlock = s.nextBlock + 1 := by
  simp only [State.newBlock, State.edit, State.nextBlock, Builder.newBlock, Array.size_push]

theorem get_apply : (get : LowerM State) s = .ok s s := rfl

theorem set_apply (t : State) : (set t : LowerM PUnit) s = .ok ⟨⟩ t := rfl

theorem modifyUnit_apply (f : UnitState → UnitState) :
    modifyUnit f s = .ok ⟨⟩ { s with current := f s.current } := rfl

/-- A failure has no result: the cases of a run that fail are closed by it. -/
theorem fail_ne_ok {α : Type} {fault : Fault} {span : Span} {a : α} :
    (fail fault span : LowerM α) s ≠ .ok a s' :=
  throw_ne_ok

theorem bindAll_apply (pairs : List (String × Operand)) :
    (pairs.forM fun (name, value) => newVariable UnitState.bindInner name false value) s =
      .ok ⟨⟩ (s.bindAll pairs) := by
  induction pairs generalizing s with
  | nil => rfl
  | cons pair pairs ih => exact bind_ok_iff.mpr ⟨_, _, newVariable_apply _ _ _ _, ih⟩

theorem lowerParams_apply {unit : UnitId} (params : List String) :
    lowerParams params { s with
      current := .new unit params.length
      inProgress := unit :: s.inProgress } = .ok ⟨⟩ (s.enterUnit unit params) := by
  -- parameters are the first values, in order
  have zipped : (params.zip (List.range params.length)).map
      (fun p => (p.1, Operand.value p.2)) =
      params.zip ((List.range params.length).map .value) := List.zip_map_right.symm
  unfold State.enterUnit
  rw [← zipped]
  refine bind_ok_iff.mpr ⟨_, _, get_apply, ?_⟩
  change (List.forM (params.zip (List.range params.length)) _ : LowerM PUnit) _ = _
  -- from here on any list of pairs will do
  generalize params.zip (List.range params.length) = pairs
  generalize ({ s with current := .new unit params.length, inProgress := unit :: s.inProgress } : State) = t
  induction pairs generalizing t with
  | nil => rfl
  | cons pair pairs ih => exact bind_ok_iff.mpr ⟨_, _, newVariable_apply _ _ _ _, ih _⟩

/-- A definition that is accepted is the transition `State.define?`: the name is new, or known without
a body. -/
theorem define?_of_defineUnit {name : String} {arity : Nat} {span : Span} {unit : UnitId}
    (run : defineUnit name arity span s = .ok unit s') : s.define? name arity = some (unit, s') := by
  obtain ⟨_, _, got, run⟩ := bind_ok_iff.mp run
  cases got
  cases known : s.signatures.get? name with
  | none =>
    simp only [known] at run
    cases run
    simp only [State.define?, known]
  | some signature =>
    simp only [known] at run
    by_cases taken : (s.module.isDefined signature.unit || s.inProgress.contains signature.unit) = true
    · simp only [taken, if_true] at run
      -- a unit with a body, or one whose body is being lowered, is refused
      obtain ⟨_, _, failed, -⟩ := bind_ok_iff.mp run
      exact absurd failed fail_ne_ok
    · simp only [taken] at run
      cases run
      simp only [State.define?, known, taken]
      rfl

/-- A call that is accepted is the transition `State.callee?`: the name is new, or known with this
arity. -/
theorem callee?_of_callee {name : String} {arity : Nat} {span : Span} {unit : UnitId}
    (run : callee name arity span s = .ok unit s') : s.callee? name arity = some (unit, s') := by
  obtain ⟨_, _, got, run⟩ := bind_ok_iff.mp run
  cases got
  cases known : s.signatures.get? name with
  -- an unknown name is declared as a unit of the arity it is called with
  | none =>
    simp only [known] at run
    cases run
    simp only [State.callee?, known]
  | some signature =>
    simp only [known] at run
    by_cases fits : signature.arity = arity
    · simp only [fits, if_true] at run
      cases run
      simp only [State.callee?, known, fits, if_true]
    · simp only [fits, if_false] at run
      exact absurd run fail_ne_ok

end TwinLisp.Graph.Lowering
