import Mathlib.Data.List.Forall2
import TwinLisp.Graph.Renumbering
import TwinLisp.Proofs.Graph.Builder

/-! Code that is the same but for the numbers of the units that it calls. -/

namespace TwinLisp.Graph

/-- Two instructions are the same, or call units that stand for each other. -/
inductive Instr.Alike (same : UnitId → UnitId → Prop) : Instr → Instr → Prop
  | refl (i) (quiet : ∀ dst u args, i ≠ .define dst (.call u args)) : Alike same i i
  | call {dst u u' args} (units : same u u') :
    Alike same (.define dst (.call u args)) (.define dst (.call u' args))

/-- Two blocks hold instructions that are alike. -/
structure Block.Alike (same : UnitId → UnitId → Prop) (k k' : Block) : Prop where
  id : k'.id = k.id
  instrs : List.Forall₂ (Instr.Alike same) k.instrs k'.instrs
  terminator : k'.terminator = k.terminator

/-- Two bodies are alike, block by block. -/
structure Body.Alike (same : UnitId → UnitId → Prop) (body body' : Body) : Prop where
  params : body'.params = body.params
  blocks : List.Forall₂ (Block.Alike same) body.blocks body'.blocks
  types : body'.types = body.types
  slots : body'.slots = body.slots

/-- Two bodies under construction are alike, block by block, and grow at the same place. -/
structure Builder.Alike (same : UnitId → UnitId → Prop) (b b' : Builder) : Prop where
  arity : b'.arity = b.arity
  types : b'.types = b.types
  slots : b'.slots = b.slots
  size : b'.size = b.size
  current : b'.current = b.current
  instrs : ∀ p, List.Forall₂ (Instr.Alike same) (b.instrsAt p) (b'.instrsAt p)
  ends : ∀ p, b'.endAt p = b.endAt p

variable {same same' : UnitId → UnitId → Prop} {r : UnitId → UnitId}

namespace Instr.Alike

/-- Instructions stay alike where more units stand for each other. -/
theorem mono {i j : Instr} (h : Alike same i j) (sub : ∀ u u', same u u' → same' u u') :
    Alike same' i j := by
  cases h with
  | refl _ quiet => exact .refl i quiet
  | call units => exact .call (sub _ _ units)

theorem renumber {i j : Instr} (h : Alike same i j) (numbers : ∀ u u', same u u' → r u = u') :
    i.renumber r = j := by
  cases h with
  | refl _ quiet =>
    cases i with
    | define dst operation =>
      -- a call would have been compared by its unit
      cases operation with
      | call u args => exact absurd rfl (quiet dst u args)
      | _ => rfl
    | _ => rfl
  | call units =>
    cases numbers _ _ units
    rfl

end Instr.Alike

theorem Body.Alike.mono {body body' : Body} (h : Alike same body body')
    (sub : ∀ u u', same u u' → same' u u') : Alike same' body body' :=
  { h with
    blocks := h.blocks.imp fun _ _ blocks => { blocks with
      instrs := blocks.instrs.imp fun _ _ instrs => instrs.mono sub } }

theorem map_eq_of_forall₂ {α β : Type} {f : α → β} {as : List α} {bs : List β}
    (h : List.Forall₂ (fun a b => f a = b) as bs) : as.map f = bs := by
  induction h with
  | nil => rfl
  | cons head _ ih => rw [List.map_cons, head, ih]

theorem Block.Alike.renumber {k k' : Block} (h : Alike same k k')
    (numbers : ∀ u u', same u u' → r u = u') : k.renumber r = k' := by
  obtain ⟨id, is, t⟩ := k'
  obtain ⟨rfl, instrs, rfl⟩ := h
  have instrs := map_eq_of_forall₂ (instrs.imp fun i j alike => alike.renumber numbers)
  exact congrArg (Block.mk k.id · k.terminator) instrs

/-- If numbers are all that units differ in, a body is the other one with its units numbered anew. -/
theorem Body.Alike.renumber {body body' : Body} (h : Alike same body body')
    (numbers : ∀ u u', same u u' → r u = u') : body.renumber r = body' := by
  obtain ⟨params, ks, types, slots⟩ := body'
  obtain ⟨rfl, blocks, rfl, rfl⟩ := h
  have blocks := map_eq_of_forall₂ (blocks.imp fun k k' alike => alike.renumber numbers)
  exact congrArg (Body.mk body.params · body.types body.slots) blocks

namespace Builder.Alike

variable {b b' : Builder}

theorem new (arity : Nat) : Alike same (.new arity) (.new arity) where
  arity := rfl
  types := rfl
  slots := rfl
  size := rfl
  current := rfl
  instrs p := by
    rw [instrsAt_new]
    exact .nil
  ends _ := rfl

variable (h : Alike same b b')

include h

theorem mono (sub : ∀ u u', same u u' → same' u u') : Alike same' b b' :=
  { h with instrs := fun p => (h.instrs p).imp fun _ _ alike => alike.mono sub }

theorem newBlock : Alike same b.newBlock.2 b'.newBlock.2 where
  arity := h.arity
  types := h.types
  slots := h.slots
  size := by rw [size_newBlock, size_newBlock, h.size]
  current := h.current
  instrs p := by
    rw [instrsAt_newBlock, instrsAt_newBlock]
    exact h.instrs p
  ends p := by
    rw [endAt_newBlock, endAt_newBlock]
    exact h.ends p

theorem positionAt (p : BlockId) : Alike same (b.positionAt p) (b'.positionAt p) :=
  { h with current := rfl }

theorem alloca (name : String) (frozen : Bool) :
    Alike same (b.alloca name frozen).2 (b'.alloca name frozen).2 :=
  { h with slots := congrArg (·.push ⟨name, frozen⟩) h.slots }

theorem withTypes (ty : Ty) :
    Alike same { b with types := b.types.push ty } { b' with types := b'.types.push ty } :=
  { h with types := congrArg (·.push ty) h.types }

/-- Both blocks grow by instructions that are alike. -/
theorem push {i j : Instr} (alike : Instr.Alike same i j) : Alike same (b.push i) (b'.push j) where
  arity := h.arity
  types := h.types
  slots := h.slots
  size := by rw [size_push, size_push, h.size]
  current := h.current
  instrs p := by
    rw [instrsAt_push, instrsAt_push, h.current, h.size]
    -- the new instruction is at the end of the current block, on both sides
    split
    · exact List.rel_append (h.instrs p) (.cons alike .nil)
    · exact h.instrs p
  ends p := by
    rw [endAt_push, endAt_push]
    exact h.ends p

/-- The same operation is added to both. -/
theorem emit {operation : Operation} (quiet : ∀ u args, operation ≠ .call u args) :
    Alike same (b.emit operation).2 (b'.emit operation).2 := by
  refine (h.withTypes operation.ty).push ?_
  rw [h.types]
  refine .refl _ fun dst u args equal => ?_
  cases equal
  exact quiet u args rfl

/-- Calls are added of units that stand for each other. -/
theorem emit_call {u u' : UnitId} (units : same u u') (args : List Operand) :
    Alike same (b.emit (.call u args)).2 (b'.emit (.call u' args)).2 := by
  refine (h.withTypes .i64).push ?_
  rw [h.types]
  exact .call units

theorem perform (effect : Effect) : Alike same (b.perform effect) (b'.perform effect) :=
  h.push (.refl _ nofun)

theorem terminate (t : Terminator) : Alike same (b.terminate t) (b'.terminate t) where
  arity := h.arity
  types := h.types
  slots := h.slots
  size := by rw [size_terminate, size_terminate, h.size]
  current := h.current
  instrs p := by
    rw [instrsAt_terminate, instrsAt_terminate]
    exact h.instrs p
  ends p := by
    rw [endAt_terminate, endAt_terminate, h.current, h.size, h.ends]

/-- Bodies that are built alike are alike when they are finished. -/
theorem finish : Body.Alike same b.finish b'.finish where
  params := congrArg List.range h.arity
  types := h.types
  slots := h.slots
  blocks := by
    have length : b.finish.blocks.length = b'.finish.blocks.length := by
      rw [length_finish, length_finish, h.size]
    -- block by block, each as it was built
    refine List.forall₂_iff_get.mpr ⟨length, fun p hp hp' => ?_⟩
    have lt : p < b.size := length_finish ▸ hp
    have lt' : p < b'.size := length_finish ▸ hp'
    have block := finish_block? lt
    have block' := finish_block? lt'
    rw [List.getElem?_eq_getElem hp, Option.some_inj] at block
    rw [List.getElem?_eq_getElem hp', Option.some_inj] at block'
    rw [List.get_eq_getElem, List.get_eq_getElem, block, block']
    refine ⟨rfl, ?_, h.ends p⟩
    have allocas : b'.allocas = b.allocas := congrArg (fun slots : Array Slot =>
      (List.range slots.size).map Instr.alloca) h.slots
    dsimp only
    rw [allocas]
    -- the first block begins with the allocations, the same in both
    split
    · refine List.rel_append (List.forall₂_same.mpr fun i hi => ?_) (h.instrs p)
      obtain ⟨slot, -, rfl⟩ := List.mem_map.mp hi
      exact .refl _ nofun
    · exact h.instrs p

end Builder.Alike

end TwinLisp.Graph
