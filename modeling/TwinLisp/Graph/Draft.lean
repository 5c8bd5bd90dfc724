import TwinLisp.Graph.Builder
import TwinLisp.Graph.WellFormed

/-!
Histories of a body under construction, and a second way to keep it: as the body itself, in which every
allocation is inserted at its place at once.
-/

namespace TwinLisp.Graph

/-- What can be done to a body under construction. -/
inductive BuildStep
  | newBlock
  | positionAt (block : BlockId)
  | alloca (name : String) (frozen : Bool)
  | emit (operation : Operation)
  | perform (effect : Effect)
  | terminate (t : Terminator)

/-- The slot that a step creates. -/
def BuildStep.slot? : BuildStep → Option Slot
  | alloca name frozen => some ⟨name, frozen⟩
  | _ => none

namespace Builder

def apply (b : Builder) : BuildStep → Builder
  | .newBlock => b.newBlock.2
  | .positionAt block => b.positionAt block
  | .alloca name frozen => (b.alloca name frozen).2
  | .emit operation => (b.emit operation).2
  | .perform effect => b.perform effect
  | .terminate t => b.terminate t

def applyAll (b : Builder) (steps : List BuildStep) : Builder :=
  steps.foldl apply b

/-- Only a block that exists can be made current; all else can be done at any time. -/
def Allows (b : Builder) : BuildStep → Prop
  | .positionAt block => block < b.blocks.size
  | _ => True

/-- Each step is allowed where it is taken. -/
def AllowsAll (b : Builder) : List BuildStep → Prop
  | [] => True
  | step :: steps => b.Allows step ∧ (b.apply step).AllowsAll steps

instance (b : Builder) : (step : BuildStep) → Decidable (b.Allows step)
  | .positionAt block => inferInstanceAs (Decidable (block < b.blocks.size))
  | .newBlock | .alloca .. | .emit _ | .perform _ | .terminate _ => inferInstanceAs (Decidable True)

instance decidableAllowsAll (b : Builder) : (steps : List BuildStep) → Decidable (b.AllowsAll steps)
  | [] => inferInstanceAs (Decidable True)
  | step :: steps =>
    have := decidableAllowsAll (b.apply step) steps
    inferInstanceAs (Decidable (b.Allows step ∧ (b.apply step).AllowsAll steps))

end Builder

/-- A body that is edited in place: `allocas` counts the allocations at the front of its first block. -/
structure Draft where
  body : Body
  current : BlockId := 0
  allocas : Nat := 0

namespace Draft

def new (arity : Nat) : Draft where
  body := ⟨List.range arity, [⟨0, [], none⟩], Array.replicate arity .i64, #[]⟩

def modify (d : Draft) (block : BlockId) (f : Block → Block) : Draft :=
  { d with body.blocks := d.body.blocks.modify block f }

def push (d : Draft) (instr : Instr) : Draft :=
  d.modify d.current fun k => { k with instrs := k.instrs ++ [instr] }

/-- Inserts an allocation behind those in the first block, whichever block is current. -/
def alloca (d : Draft) (name : String) (frozen : Bool) : Draft :=
  let slot := d.body.slots.size
  -- this moves all that comes behind it in the first block by one place
  let d := d.modify 0 fun k => { k with instrs := k.instrs.insertIdx d.allocas (.alloca slot) }
  { d with body.slots := d.body.slots.push ⟨name, frozen⟩, allocas := d.allocas + 1 }

def apply (d : Draft) : BuildStep → Draft
  | .newBlock => { d with body.blocks := d.body.blocks ++ [⟨d.body.blocks.length, [], none⟩] }
  | .positionAt block => { d with current := block }
  | .alloca name frozen => d.alloca name frozen
  | .emit operation =>
    { d with body.types := d.body.types.push operation.ty }.push
      (.define d.body.types.size operation)
  | .perform effect => d.push (.perform effect)
  | .terminate t => d.modify d.current ({ · with terminator := some t })

def applyAll (d : Draft) (steps : List BuildStep) : Draft :=
  steps.foldl apply d

end Draft

/-- What a builder stands for, as a draft. -/
def Builder.draft (b : Builder) : Draft :=
  ⟨b.finish, b.current, b.slots.size⟩

/-- The block without its allocations. -/
def Block.others (k : Block) : Block :=
  { k with instrs := k.instrs.filter (·.allocated?.isNone) }

/-- How a body is laid out, whatever has been put into it. -/
structure Body.LaidOut (body : Body) : Prop where
  /-- Blocks are numbered by their positions. -/
  ids : ∀ position (k : Block), body.blocks[position]? = some k → k.id = position
  /-- The first block begins with the allocations of all slots in order, and there are no others. -/
  allocations : ∀ position index slot, body.instrAt? position index = some (.alloca slot) ↔
    position = 0 ∧ index = slot ∧ slot < body.slots.size
  /-- What the parameters and the instructions define are the values of the table, each of them once. -/
  definitions : (body.params ++ body.results).Perm (List.range body.types.size)
  /-- The values of comparisons are truth values, and no others are. -/
  truths : ∀ value, body.types[value]? = some .i1 ↔
    ∃ position index op left right,
      body.instrAt? position index = some (.define value (.compare op left right))

end TwinLisp.Graph
