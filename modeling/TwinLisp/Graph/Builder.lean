import TwinLisp.Graph.Module

/-! Building the body of a unit: instructions are added at the end of a current block. -/

namespace TwinLisp.Graph

/-- A block that can still grow. -/
structure OpenBlock where
  instrs : Array Instr := #[]
  terminator : Option Terminator := none

/-- A body under construction. The allocations of slots are not kept as instructions: `finish`
puts them in front of the first block. -/
structure Builder where
  arity : Nat
  types : Array Ty
  slots : Array Slot := #[]
  blocks : Array OpenBlock := #[{}]
  current : BlockId := 0

namespace Builder

/-- A body with an empty first block; the parameters are its first values. -/
def new (arity : Nat) : Builder :=
  { arity, types := Array.replicate arity .i64 }

def params (b : Builder) : List ValueId :=
  List.range b.arity

def newBlock (b : Builder) : BlockId × Builder :=
  (b.blocks.size, { b with blocks := b.blocks.push {} })

def positionAt (b : Builder) (block : BlockId) : Builder :=
  { b with current := block }

def isTerminated (b : Builder) : Bool :=
  (b.blocks[b.current]?).any (·.terminator.isSome)

def slot? (b : Builder) (slot : SlotId) : Option Slot :=
  b.slots[slot]?

/-- Adds a slot, whichever block is current. -/
def alloca (b : Builder) (name : String) (frozen : Bool) : SlotId × Builder :=
  (b.slots.size, { b with slots := b.slots.push ⟨name, frozen⟩ })

def push (b : Builder) (instr : Instr) : Builder :=
  { b with blocks := b.blocks.modify b.current fun k => { k with instrs := k.instrs.push instr } }

/-- Adds an operation, whose value is a fresh one. -/
def emit (b : Builder) (operation : Operation) : ValueId × Builder :=
  let dst := b.types.size
  (dst, { b with types := b.types.push operation.ty }.push (.define dst operation))

def perform (b : Builder) (effect : Effect) : Builder :=
  b.push (.perform effect)

def terminate (b : Builder) (t : Terminator) : Builder :=
  { b with blocks := b.blocks.modify b.current ({ · with terminator := some t }) }

def allocas (b : Builder) : List Instr :=
  (List.range b.slots.size).map .alloca

def finish (b : Builder) : Body where
  params := b.params
  blocks := b.blocks.toList.mapIdx fun id k =>
    -- each slot is allocated once, before anything can use it
    ⟨id, if id = 0 then b.allocas ++ k.instrs.toList else k.instrs.toList, k.terminator⟩
  types := b.types
  slots := b.slots

end Builder

end TwinLisp.Graph
