import TwinLisp.Graph.Exec
import TwinLisp.Proofs.Execution.Growth
import TwinLisp.Proofs.Graph.Finish

/-!
How the code of a finished body is run. While it was built, each point of the code was the end of a
block; an activation that stands there runs on through what has been added since.
-/

namespace TwinLisp.Graph

namespace Exec

variable {m : Module} {x y z : Activation} {ls ls' : List String}

/-- The activation gets from one point to another and prints the lines, whatever waits for it. -/
def Runs (m : Module) (x : Activation) (ls : List String) (y : Activation) : Prop :=
  ∀ callers printed, Steps m (.running x callers printed) (.running y callers (printed ++ ls))

theorem Runs.refl (m : Module) (x : Activation) : Runs m x [] x := by
  intro callers printed
  rw [List.append_nil]
  exact .refl

/-- Runs are put together, and so are the lines. -/
theorem Runs.trans (first : Runs m x ls y) (rest : Runs m y ls' z) : Runs m x (ls ++ ls') z := by
  intro callers printed
  rw [← List.append_assoc]
  exact (first callers printed).trans (rest callers (printed ++ ls))

theorem runs_of_step (h : ∀ callers printed,
    step m (.running x callers printed) = some (.running y callers (printed ++ ls))) : Runs m x ls y :=
  fun callers printed => .single (h callers printed)

theorem step_of_instr? {i : Instr} (found : x.instr? = some i) (callers : List Activation)
    (printed : List String) : step m (.running x callers printed) = run m x callers printed i := by
  rw [step, found]

theorem step_of_terminator? {t : Terminator} (done : x.instr? = none) (ended : x.terminator? = some t)
    (callers : List Activation) (printed : List String) :
    step m (.running x callers printed) = leave x callers printed t := by
  rw [step, done, ended]
  rfl

/-! What operations yield. -/

section Operations

variable {a b : Operand} {k n r : Int64}

/-- Where the numbers have a result, so has the instruction. -/
theorem compute_arith {op : ArithOp} (left : x.values.int? a = some k) (right : x.values.int? b = some n)
    (stepped : op.step? k n = some r) : x.compute (.arith op a b) = some (.int r) := by
  simp only [Activation.compute, left, right, Option.bind_eq_bind, Option.bind_some, stepped]
  rfl

theorem compute_neg (operand : x.values.int? a = some n) :
    x.compute (.neg a) = some (.int (-n)) := by
  simp only [Activation.compute, operand]
  rfl

theorem compute_compare {op : CmpOp} (left : x.values.int? a = some k)
    (right : x.values.int? b = some n) : x.compute (.compare op a b) = some (.truth (op.holds k n)) := by
  simp only [Activation.compute, left, right]
  rfl

theorem compute_extend {id : ValueId} {truth : Bool} (operand : x.values id = some (.truth truth)) :
    x.compute (.extend id) = some (.int (if truth then 1 else 0)) := by
  simp only [Activation.compute, operand]

theorem compute_load {slot : SlotId} (held : x.slots slot = some n) :
    x.compute (.load slot) = some (.int n) := by
  simp only [Activation.compute, held]
  rfl

/-- A phi takes what belongs to the block that control came from, as it was there. -/
theorem compute_phi {incoming : List (BlockId × Operand)} {source : BlockId} {values : Values}
    (arrival : x.arrival = some (source, values)) (edge : incoming.lookup source = some a)
    (yields : values.int? a = some n) : x.compute (.phi incoming) = some (.int n) := by
  simp only [Activation.compute, arrival, Option.bind_eq_bind, Option.bind_some, edge, yields]
  rfl

end Operations

/-! The kinds of steps. -/

theorem runs_alloca {slot : SlotId} (found : x.instr? = some (.alloca slot)) :
    Runs m x [] { x.next with slots := Function.update x.slots slot none } := by
  refine runs_of_step fun callers printed => ?_
  rw [step_of_instr? found, List.append_nil]
  rfl

/-- An operation that has a result defines it, and execution goes on behind it. -/
theorem runs_define {dst : ValueId} {operation : Operation} {datum : Datum}
    (found : x.instr? = some (.define dst operation)) (computed : x.compute operation = some datum) :
    Runs m x [] (x.define dst datum) := by
  refine runs_of_step fun callers printed => ?_
  rw [step_of_instr? found, List.append_nil]
  cases operation with
  | call => cases computed
  | _ =>
    simp only [run, computed]
    rfl

theorem runs_perform {effect : Effect} (found : x.instr? = some (.perform effect))
    (performed : x.perform m effect = some (y, ls)) : Runs m x ls y := by
  refine runs_of_step fun callers printed => ?_
  simp only [step_of_instr? found, run, performed]
  rfl

theorem runs_br {target : BlockId} (done : x.instr? = none)
    (ended : x.terminator? = some (.br target)) : Runs m x [] (x.goto target) := by
  refine runs_of_step fun callers printed => ?_
  rw [step_of_terminator? done ended, List.append_nil]
  rfl

/-- A branch goes where the truth of its condition says. -/
theorem runs_condBr {cond : ValueId} {yes no : BlockId} {b : Bool} (done : x.instr? = none)
    (ended : x.terminator? = some (.condBr cond yes no)) (truth : x.values cond = some (.truth b)) :
    Runs m x [] (x.goto (if b then yes else no)) := by
  refine runs_of_step fun callers printed => ?_
  simp only [step_of_terminator? done ended, List.append_nil, leave, truth]

/-- The unit that is called runs to its end, and its result is the value of the call. -/
theorem runs_call {dst : ValueId} {unit : UnitId} {args : List Operand} {inputs : List Int64}
    {code : CodeUnit} {body : Body} {result : Operand} {n : Int64}
    (found : x.instr? = some (.define dst (.call unit args)))
    (passed : args.mapM x.values.int? = some inputs) (known : m.units[unit]? = some code)
    (defined : code.body = some body) (inner : Runs m (.enter body inputs) ls y)
    (done : y.instr? = none) (ended : y.terminator? = some (.ret result))
    (yields : y.values.int? result = some n) : Runs m x ls (x.define dst (.int n)) := by
  intro callers printed
  -- while the unit runs, `x` is the innermost of the activations that wait
  have call : step m (.running x callers printed)
      = some (.running (.enter body inputs) (x :: callers) printed) := by
    simp only [step_of_instr? found, run, passed, known, Option.bind_some, defined]
    rfl
  have ret : step m (.running y (x :: callers) (printed ++ ls))
      = some (.running (x.define dst (.int n)) callers (printed ++ ls)) := by
    have resumed : x.resume n = some (x.define dst (.int n)) := by
      simp only [Activation.resume, found]
    simp only [step_of_terminator? done ended, leave, yields, Option.bind_eq_bind, Option.bind_some,
      resumed]
    rfl
  exact .head call ((inner (x :: callers) printed).tail ret)

/-- A unit runs to its end. -/
theorem executes_of_runs {code : CodeUnit} {body : Body} {result : Operand} {n : Int64}
    (known : m.units[m.main]? = some code) (defined : code.body = some body)
    (inner : Runs m (.enter body []) ls y) (done : y.instr? = none)
    (ended : y.terminator? = some (.ret result)) (yields : y.values.int? result = some n) :
    m.Executes n ls := by
  refine ⟨code, body, known, defined, .tail (inner [] []) ?_⟩
  simp only [step_of_terminator? done ended, leave, yields]
  rfl

/-- Steps leave no choice, so that a program ends in at most one way. -/
theorem executes_unique {n n' : Int64} (h : m.Executes n ls) (h' : m.Executes n' ls') :
    n = n' ∧ ls = ls' := by
  obtain ⟨code, body, known, defined, steps⟩ := h
  obtain ⟨code', body', known', defined', steps'⟩ := h'
  cases known.symm.trans known'
  cases defined.symm.trans defined'
  -- a program that has ended takes no more steps
  have last {n : Int64} {ls : List String} {z : Machine} (steps : Steps m (.finished n ls) z) :
      Machine.finished n ls = z := by
    rcases Relation.ReflTransGen.cases_head steps with same | ⟨_, step, -⟩
    · exact same
    · cases step
  have functional : Relator.RightUnique fun s t => step m s = some t :=
    fun _ _ _ first second => Option.some.inj (first.symm.trans second)
  -- of two runs from one state, one goes on where the other ends
  rcases Relation.ReflTransGen.total_of_right_unique functional steps steps' with more | more
  · cases last more
    exact ⟨rfl, rfl⟩
  · cases last more
    exact ⟨rfl, rfl⟩

end Exec

open Exec

namespace Builder

/-- The activation runs the finished code of `f`, and stands where `b` ends. -/
structure At (f b : Builder) (x : Activation) : Prop where
  body : x.body = f.finish
  block : x.block = b.current
  index : x.index = f.offset b.current + (b.instrsAt b.current).length

variable {f b b' : Builder} {x y : Activation} {i : Instr} {t : Terminator}

theorem getElem?_of_prefix {α : Type} {xs ys : List α} {a : α} (h : xs ++ [a] <+: ys) :
    ys[xs.length]? = some a := by
  obtain ⟨rest, rfl⟩ := h
  simp

/-- Both builders go on at the same point. -/
theorem At.of_same (h : At f b x) (current : b'.current = b.current)
    (instrs : b'.instrsAt b.current = b.instrsAt b.current) : At f b' x where
  body := h.body
  block := h.block.trans current.symm
  index := by
    rw [current, instrs]
    exact h.index

/-- The next instruction is the one that is added next. -/
theorem At.instr? (h : At f b x) (opened : b.Open) (grown : (b.push i).Grown f) :
    x.instr? = some i := by
  unfold Activation.instr?
  rw [h.body, h.block, h.index]
  apply instrAt_finish_of_get?
  apply getElem?_of_prefix
  -- the block with the instruction at its end is a prefix of the finished block
  have grown := grown.instrs b.current
  rwa [instrsAt_push, if_pos ⟨rfl, opened.lt⟩] at grown

/-- An instruction that has been run is one that lowering has added. -/
theorem At.push (h : At f b x) (opened : b.Open) (body : y.body = x.body) (block : y.block = x.block)
    (index : y.index = x.index + 1) : At f (b.push i) y where
  body := body.trans h.body
  block := block.trans h.block
  index := by
    rw [index, h.index, current_push, instrsAt_push, if_pos ⟨rfl, opened.lt⟩, List.length_append]
    rfl

/-- A block that the finished code has ended is not added to. -/
theorem At.leaves (h : At f b x) (ended : f.endAt b.current = some t)
    (instrs : f.instrsAt b.current = b.instrsAt b.current) :
    x.instr? = none ∧ x.terminator? = some t := by
  have lt := lt_size_of_endAt ended
  constructor
  · unfold Activation.instr?
    rw [h.body, h.block, h.index, instrAt_finish, if_pos lt]
    refine List.getElem?_eq_none (Nat.le_of_eq ?_)
    rw [List.length_append, length_front, instrs]
  · unfold Activation.terminator?
    rw [h.body, h.block, finish_block? lt]
    exact ended

/-- Where lowering has ended a block, the activation is at its end too. -/
theorem At.terminate (h : At f b x) (opened : b.Open) (grown : (b.terminate t).Grown f) :
    x.instr? = none ∧ x.terminator? = some t := by
  have ended : (b.terminate t).endAt b.current = some t := by
    rw [endAt_terminate, if_pos ⟨rfl, opened.lt⟩]
  obtain ⟨ended, instrs⟩ := grown.ended b.current t ended
  rw [instrsAt_terminate] at instrs
  exact h.leaves ended instrs

/-- A block that has been made is empty until it is begun. -/
theorem at_goto (body : x.body = f.finish) (nonzero : b.current ≠ 0)
    (empty : b.instrsAt b.current = []) : At f b (x.goto b.current) where
  body := body
  block := rfl
  index := by
    rw [empty, offset, if_neg nonzero]
    rfl

/-- The first block begins with the allocations, after which the slots are still empty. -/
theorem runs_allocas (m : Module) (f : Builder) (args : List Int64) (nonempty : 0 < f.size)
    {n : Nat} (le : n ≤ f.slots.size) :
    Runs m (.enter f.finish args) [] { Activation.enter f.finish args with index := n } := by
  induction n with
  | zero => exact .refl m _
  | succ n ih =>
    refine (ih (Nat.le_of_succ_le le)).trans ?_
    -- allocations stand in front of everything else, in the order of their slots
    have found : Activation.instr? { Activation.enter f.finish args with index := n }
        = some (.alloca n) := by
      unfold Activation.instr?
      change f.finish.instrAt? 0 n = _
      have inFront : n < (f.front 0).length := by
        rw [length_front]
        exact le
      obtain ⟨j, hj⟩ : ∃ j, (f.front 0)[n]? = some j := ⟨_, List.getElem?_eq_getElem inFront⟩
      rw [instrAt_finish, if_pos nonempty, List.getElem?_append_left inFront, hj, (mem_front hj).2.2]
    -- no slot holds anything yet, so that it changes nothing to empty one
    have same : Function.update (fun _ => none : SlotId → Option Int64) n none = fun _ => none :=
      Function.update_eq_self n _
    have step := runs_alloca (m := m) found
    rw [show Function.update (Activation.slots _) n none = _ from same] at step
    exact step

/-- A unit begins where a builder begins. -/
theorem at_enter {args : List Int64} (first : b.current = 0) (empty : b.instrsAt 0 = []) :
    At f b { Activation.enter f.finish args with index := f.slots.size } where
  body := rfl
  block := first.symm
  index := by
    rw [first, empty, offset, if_pos rfl]
    rfl

end Builder

end TwinLisp.Graph
