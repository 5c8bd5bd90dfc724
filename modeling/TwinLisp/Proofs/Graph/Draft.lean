import TwinLisp.Graph.Draft
import TwinLisp.Proofs.Graph.Finish

/-!
Bodies under construction are laid out in order, whatever has been done to them. A builder keeps the
allocations apart from the other instructions; what it stands for is the body that is edited in place.
-/

namespace TwinLisp.Graph

namespace Builder

variable {b : Builder}

/-! ### The body in place -/

/-- To insert behind the first list is to append in two parts. -/
theorem insertIdx_length_append {α : Type} (xs ys : List α) (a : α) :
    (xs ++ ys).insertIdx xs.length a = xs ++ a :: ys := by
  induction xs with
  | nil => simp
  | cons x xs ih => simp [ih]

/-- A block of the finished body: its allocations, then what was pushed. -/
theorem getElem?_finish (b : Builder) (p : BlockId) : b.finish.blocks[p]? =
    if p < b.size then some ⟨p, b.front p ++ b.instrsAt p, b.endAt p⟩ else none := by
  by_cases lt : p < b.size <;> simp [blocks_finish, lt]

/-- Builders that differ in one block, if it exists. -/
theorem blocks_eq_modify {b' : Builder} {here : BlockId} {f : Block → Block} (size : b'.size = b.size)
    (changed : here < b.size → f ⟨here, b.front here ++ b.instrsAt here, b.endAt here⟩ =
      ⟨here, b'.front here ++ b'.instrsAt here, b'.endAt here⟩)
    (kept : ∀ p, p ≠ here → b'.front p = b.front p ∧ b'.instrsAt p = b.instrsAt p ∧
      b'.endAt p = b.endAt p) : b'.finish.blocks = b.finish.blocks.modify here f := by
  -- position by position: the block that has changed, another one, or none
  apply List.ext_getElem?
  intro p
  rw [List.getElem?_modify, getElem?_finish, getElem?_finish, size]
  by_cases lt : p < b.size
  · by_cases same : here = p
    · subst same
      simp [lt, changed lt]
    · obtain ⟨front, instrs, ends⟩ := kept p (Ne.symm same)
      simp [lt, same, front, instrs, ends]
  · simp [lt]

theorem allocas_alloca (b : Builder) (name : String) (frozen : Bool) :
    (b.alloca name frozen).2.allocas = b.allocas ++ [.alloca b.slots.size] := by
  simp [allocas, alloca, List.range_succ]

/-- An allocation is inserted behind the other ones in the first block, and nowhere else. -/
theorem blocks_alloca (b : Builder) (name : String) (frozen : Bool) :
    (b.alloca name frozen).2.finish.blocks = b.finish.blocks.modify 0 fun k =>
      { k with instrs := k.instrs.insertIdx b.slots.size (.alloca b.slots.size) } := by
  apply blocks_eq_modify
  case size => rfl
  case changed =>
    intro _
    have count : b.allocas.length = b.slots.size := by simp [allocas]
    have instrs : (b.alloca name frozen).2.instrsAt 0 = b.instrsAt 0 := rfl
    have ends : (b.alloca name frozen).2.endAt 0 = b.endAt 0 := rfl
    simp [front, allocas_alloca, instrs, ends, ← count, insertIdx_length_append]
  case kept =>
    intro p other
    exact ⟨by simp [front, other], rfl, rfl⟩

/-- To push is to edit the finished blocks in place. -/
theorem blocks_push (b : Builder) (i : Instr) : (b.push i).finish.blocks =
    b.finish.blocks.modify b.current fun k => { k with instrs := k.instrs ++ [i] } := by
  have front (p : BlockId) : (b.push i).front p = b.front p := rfl
  apply blocks_eq_modify
  case size => simp
  case changed =>
    intro lt
    simp [front, instrsAt_push, lt]
  case kept =>
    intro p other
    simp [front, instrsAt_push, other]

theorem blocks_terminate (b : Builder) (t : Terminator) : (b.terminate t).finish.blocks =
    b.finish.blocks.modify b.current ({ · with terminator := some t }) := by
  have front (p : BlockId) : (b.terminate t).front p = b.front p := rfl
  apply blocks_eq_modify
  case size => simp
  case changed =>
    intro lt
    simp [front, endAt_terminate, lt]
  case kept =>
    intro p other
    simp [front, endAt_terminate, other]

/-- A new block stands behind the finished ones. -/
theorem blocks_newBlock (pos : 0 < b.size) : b.newBlock.2.finish.blocks =
    b.finish.blocks ++ [⟨b.finish.blocks.length, [], none⟩] := by
  have front (p : BlockId) : b.newBlock.2.front p = b.front p := rfl
  -- the new block is not the first, so that no allocations stand in front of it
  have last : b.front b.size = [] := by simp [Builder.front, Nat.ne_of_gt pos]
  simp [blocks_finish, List.range_succ, front, last, instrsAt_of_size_le, endAt_of_size_le]

theorem draft_of_blocks {b' : Builder} {blocks : List Block} (same : b'.finish.blocks = blocks) :
    b'.draft = ⟨⟨b'.params, blocks, b'.types, b'.slots⟩, b'.current, b'.slots.size⟩ := by
  rw [← same]
  rfl

/-- Each step does to the finished body what it does to a body that is edited in place. -/
theorem draft_apply (pos : 0 < b.size) (step : BuildStep) :
    (b.apply step).draft = b.draft.apply step := by
  cases step with
  | newBlock => exact draft_of_blocks (blocks_newBlock pos)
  | positionAt block => rfl
  | alloca name frozen =>
    apply (draft_of_blocks (blocks_alloca b name frozen)).trans
    simp [alloca, draft, Draft.apply, Draft.alloca, Draft.modify, finish, params]
  | emit operation =>
    exact draft_of_blocks (blocks_push { b with types := b.types.push operation.ty } _)
  | perform effect => exact draft_of_blocks (blocks_push b _)
  | terminate t => exact draft_of_blocks (blocks_terminate b t)

theorem size_le_apply (b : Builder) (step : BuildStep) : b.size ≤ (b.apply step).size := by
  cases step with
  | newBlock => simp [apply]
  | positionAt block => simp [apply]
  | alloca name frozen => exact Nat.le_refl _
  | emit operation => exact Nat.le_of_eq (size_push (b := { b with types := _ }) _).symm
  | perform effect => simp [apply, perform]
  | terminate t => simp [apply]

/-- The two builders keep in step from start to end. -/
theorem draft_applyAll (pos : 0 < b.size) (steps : List BuildStep) :
    (b.applyAll steps).draft = b.draft.applyAll steps := by
  induction steps generalizing b with
  | nil => rfl
  | cons step steps ih =>
    apply (ih (Nat.lt_of_lt_of_le pos (size_le_apply b step))).trans
    simp [draft_apply pos, Draft.applyAll]

theorem draft_new (arity : Nat) : (new arity).draft = Draft.new arity := rfl

/-! ### What every step keeps -/

/-- What holds of a builder, whatever has been done to it. -/
structure Coherent (b : Builder) : Prop where
  inside : b.current < b.size
  noAlloca : ∀ p slot, .alloca slot ∉ b.instrsAt p
  definitions : (b.params ++ b.finish.results).Perm (List.range b.types.size)
  truths : ∀ v, b.types[v]? = some .i1 ↔
    ∃ p op left right, .define v (.compare op left right) ∈ b.instrsAt p

/-- Positions without a block define nothing. -/
theorem results_of_size_le {n : Nat} (le : b.size ≤ n) : b.finish.results =
    (List.range n).flatMap fun p => (b.instrsAt p).filterMap Instr.result? := by
  obtain ⟨k, rfl⟩ := Nat.exists_eq_add_of_le le
  have beyond (p : Nat) : b.instrsAt (b.size + p) = [] := instrsAt_of_size_le (Nat.le_add_right _ _)
  simp [Body.results, flatMap_finish, filterMap_front, List.range_add, List.flatMap_append,
    List.flatMap_map, beyond]

/-- If one part of a list grows at its end, the whole list has the same more. -/
theorem flatMap_range_perm {α : Type} {f g : Nat → List α} {extra : List α} {p n : Nat} (lt : p < n)
    (here : g p = f p ++ extra) (elsewhere : ∀ q, q ≠ p → g q = f q) :
    ((List.range n).flatMap g).Perm ((List.range n).flatMap f ++ extra) := by
  induction n with
  | zero => omega
  | succ n ih =>
    simp only [List.range_succ, List.flatMap_append, List.flatMap_singleton]
    by_cases last : p = n
    · subst last
      have before : (List.range p).flatMap g = (List.range p).flatMap f := by
        apply List.flatMap_congr
        intro q mem
        exact elsewhere q (Nat.ne_of_lt (List.mem_range.mp mem))
      simp [before, here]
    · rw [elsewhere n (Ne.symm last)]
      have earlier := (ih (by omega)).append_right (f n)
      apply earlier.trans
      simpa using List.perm_append_comm.append_left _

/-- What a push defines comes to the results, wherever it lands among them. -/
theorem results_push (inside : b.current < b.size) (i : Instr) :
    (b.push i).finish.results.Perm (b.finish.results ++ i.result?.toList) := by
  -- the results are listed by blocks, so that a new one need not come last
  rw [results_of_size_le (Nat.le_refl _), results_of_size_le (b := b) (Nat.le_refl _), size_push]
  apply flatMap_range_perm inside
  · cases h : i.result? <;> simp [instrsAt_push, inside, h]
  · intro q other
    simp [instrsAt_push, other]

theorem coherent_new (arity : Nat) : (new arity).Coherent where
  inside := Nat.zero_lt_one
  noAlloca p slot := by simp [instrsAt_new]
  definitions := by
    have results : (new arity).finish.results = [] := by
      simp [results_of_size_le (Nat.le_refl _), instrsAt_new]
    rw [results]
    simp [params, new]
  truths v := by
    simp [instrsAt_new]
    simp [new, Array.getElem?_replicate]

namespace Coherent

variable (h : b.Coherent)

include h

/-- Steps that add no instruction and no value. -/
theorem of_same {b' : Builder} (size : b.size ≤ b'.size) (inside : b'.current < b'.size)
    (instrs : ∀ p, b'.instrsAt p = b.instrsAt p) (arity : b'.arity = b.arity)
    (types : b'.types = b.types) : b'.Coherent where
  inside := inside
  noAlloca p slot := by
    rw [instrs p]
    exact h.noAlloca p slot
  definitions := by
    -- positions that are new have no instructions, and list nothing
    have results : b'.finish.results = b.finish.results := by
      simp [results_of_size_le size, results_of_size_le (Nat.le_refl b'.size), instrs]
    rw [results, types, params, arity]
    exact h.definitions
  truths v := by
    simp only [instrs, types]
    exact h.truths v

/-- An instruction is added at the end of the current block, and what it defines to the values. -/
theorem push {i : Instr} {types : Array Ty} (defines : ∀ slot, i ≠ .alloca slot)
    (size : types.size = b.types.size + i.result?.toList.length)
    (result : ∀ v, i.result? = some v → v = b.types.size)
    (truths : ∀ v, types[v]? = some .i1 ↔
      b.types[v]? = some .i1 ∨ ∃ op left right, i = .define v (.compare op left right)) :
    ({ b with types }.push i).Coherent where
  inside := by
    rw [current_push, size_push]
    exact h.inside
  -- nothing that is pushed allocates
  noAlloca p slot mem := by
    rcases mem_instrsAt_push mem with old | new
    · exact h.noAlloca p slot old
    · exact defines slot new.symm
  definitions := by
    have results := results_push (b := { b with types }) h.inside i
    have values : List.range types.size = List.range b.types.size ++ i.result?.toList := by
      -- an instruction without a result leaves the values as they are
      cases found : i.result? with
      | none => simp [size, found]
      | some v => simp [size, found, result v found, List.range_succ]
    change (b.params ++ _).Perm (List.range types.size)
    rw [values]
    apply (results.append_left _).trans
    rw [← List.append_assoc]
    exact h.definitions.append_right _
  truths v := by
    apply ((truths v).trans (or_congr_left (h.truths v))).trans
    constructor
    · -- a comparison is an old one or the one that is pushed
      rintro (⟨p, op, left, right, mem⟩ | ⟨op, left, right, rfl⟩)
      · exact ⟨p, op, left, right, mem_instrsAt_push_of_mem (b := { b with types }) mem⟩
      · refine ⟨b.current, op, left, right, ?_⟩
        rw [instrsAt_push, if_pos ⟨rfl, h.inside⟩]
        simp
    · rintro ⟨p, op, left, right, mem⟩
      rcases mem_instrsAt_push mem with old | new
      · exact .inl ⟨p, op, left, right, old⟩
      · exact .inr ⟨op, left, right, new.symm⟩

theorem perform (effect : Effect) : (b.perform effect).Coherent :=
  h.push (by simp) rfl (by simp [Instr.result?]) (by simp)

theorem emit (operation : Operation) : (b.emit operation).2.Coherent := by
  apply h.push
  case defines => simp
  case size => simp [Instr.result?]
  case result => simp [Instr.result?]
  case truths =>
    intro v
    rw [Array.getElem?_push]
    by_cases fresh : v = b.types.size
    · subst fresh
      cases operation <;> simp [Operation.ty]
    · simp [fresh, Ne.symm fresh]

/-- No step spoils what holds of a builder. -/
theorem apply {step : BuildStep} (allowed : b.Allows step) : (b.apply step).Coherent := by
  cases step with
  | newBlock =>
    have inside : b.current < b.newBlock.2.size := by
      rw [size_newBlock]
      exact Nat.lt_succ_of_lt h.inside
    exact h.of_same (size_le_apply b .newBlock) inside (fun _ => instrsAt_newBlock) rfl rfl
  | positionAt block => exact h.of_same (Nat.le_refl _) allowed (fun _ => rfl) rfl rfl
  | alloca name frozen => exact h.of_same (Nat.le_refl _) h.inside (fun _ => rfl) rfl rfl
  | emit operation => exact h.emit operation
  | perform effect => exact h.perform effect
  | terminate t =>
    have inside : b.current < (b.terminate t).size := by
      rw [size_terminate]
      exact h.inside
    exact h.of_same (size_le_apply b (.terminate t)) inside (fun _ => instrsAt_terminate t) rfl rfl

end Coherent

/-- By induction on the steps. -/
theorem Coherent.applyAll (h : b.Coherent) {steps : List BuildStep} (allowed : b.AllowsAll steps) :
    (b.applyAll steps).Coherent := by
  induction steps generalizing b with
  | nil => exact h
  | cons step steps ih => exact ih (h.apply allowed.1) allowed.2

/-- Only an allocation makes a slot, and it is the last one. -/
theorem slots_apply (b : Builder) (step : BuildStep) :
    (b.apply step).slots.toList = b.slots.toList ++ step.slot?.toList := by
  cases step with
  | alloca name frozen => simp [apply, alloca, BuildStep.slot?]
  | _ => simp [apply, newBlock, positionAt, emit, push, perform, terminate, BuildStep.slot?]

theorem slots_applyAll (b : Builder) (steps : List BuildStep) :
    (b.applyAll steps).slots.toList = b.slots.toList ++ steps.filterMap BuildStep.slot? := by
  induction steps generalizing b with
  | nil => simp [applyAll]
  | cons step steps ih =>
    apply (ih (b.apply step)).trans
    rw [slots_apply, List.filterMap_cons]
    cases step.slot? <;> simp

namespace Coherent

variable (h : b.Coherent)

include h

/-- The finished body of a builder is laid out in order. -/
theorem laidOut : b.finish.LaidOut where
  ids position k found := by
    rw [finish_block? (lt_of_finish_block? found)] at found
    cases found
    rfl
  allocations position index slot := by
    constructor
    · intro found
      rcases instrAt_finish_cases found with ⟨first, lt, same⟩ | ⟨k, -, found⟩
      · cases same
        exact ⟨first, rfl, lt⟩
      · -- behind them, nothing that was pushed is an allocation
        exact absurd (List.mem_of_getElem? found) (h.noAlloca position slot)
    · rintro ⟨rfl, rfl, lt⟩
      have pos : 0 < b.size := Nat.zero_lt_of_lt h.inside
      have inside : index < b.slots.size := lt
      -- the allocations come first, by their numbers
      have before : index < b.allocas.length := by simpa [allocas] using inside
      rw [instrAt_finish, if_pos pos, front, if_pos rfl, List.getElem?_append_left before]
      simp [allocas, inside]
  definitions := h.definitions
  truths value := by
    apply (h.truths value).trans
    constructor
    · rintro ⟨p, op, left, right, mem⟩
      obtain ⟨k, found⟩ := List.mem_iff_getElem?.mp mem
      exact ⟨p, _, op, left, right, instrAt_finish_of_get? found⟩
    · rintro ⟨p, index, op, left, right, found⟩
      rcases instrAt_finish_cases found with ⟨-, -, same⟩ | ⟨k, -, found⟩
      · -- an allocation is no comparison
        cases same
      · exact ⟨p, op, left, right, List.mem_of_getElem? found⟩

/-- What is left of the blocks without the allocations is what the builder keeps. -/
theorem map_others : b.finish.blocks.map Block.others =
    (List.range b.size).map fun p => ⟨p, b.instrsAt p, b.endAt p⟩ := by
  have none (p : BlockId) : (b.front p).filter (·.allocated?.isNone) = [] := by
    apply List.filter_eq_nil_iff.mpr
    intro i mem
    obtain ⟨n, found⟩ := List.mem_iff_getElem?.mp mem
    obtain ⟨-, -, rfl⟩ := mem_front found
    simp [Instr.allocated?]
  have all (p : BlockId) : (b.instrsAt p).filter (·.allocated?.isNone) = b.instrsAt p := by
    apply List.filter_eq_self.mpr
    intro i mem
    cases i with
    | alloca slot => exact absurd mem (h.noAlloca p slot)
    | _ => rfl
  simp [blocks_finish, Block.others, none, all]

end Coherent

/-- A body that has been built in any way is the one that is edited in place; it is laid out in order, its
slots are those that were created, in that order, and one more of them moves nothing else. -/
theorem laidOut_of_allowed (arity : Nat) {steps : List BuildStep}
    (allowed : (new arity).AllowsAll steps) :
    let b := (new arity).applyAll steps
    b.draft = (Draft.new arity).applyAll steps ∧ b.finish.LaidOut ∧
      b.finish.slots.toList = steps.filterMap BuildStep.slot? ∧
      ∀ name frozen,
        let c := (b.alloca name frozen).2
        c.current = b.current ∧ c.finish.blocks.map Block.others = b.finish.blocks.map Block.others := by
  intro b
  have coherent : b.Coherent := (coherent_new arity).applyAll allowed
  have pos : 0 < (new arity).size := Nat.zero_lt_one
  have inPlace : b.draft = (Draft.new arity).applyAll steps := by
    rw [← draft_new]
    exact draft_applyAll pos steps
  refine ⟨inPlace, coherent.laidOut, slots_applyAll (new arity) steps, ?_⟩
  intro name frozen c
  have allocates : b.Allows (.alloca name frozen) := trivial
  have after : c.Coherent := coherent.apply allocates
  refine ⟨rfl, ?_⟩
  rw [coherent.map_others, after.map_others]
  rfl

/-- Slots are created while the first block is current, from another block, and after coming back. -/
theorem laidOut_of_allowed_scattered :
    let steps : List BuildStep := [.alloca "a" false, .perform (.store 0 (.const 1)), .newBlock,
      .terminate (.br 1), .positionAt 1, .alloca "b" true, .emit (.compare .eq (.value 0) (.const 0)),
      .emit (.extend 1), .positionAt 0, .alloca "c" false, .emit (.load 2)]
    let b := (new 1).applyAll steps
    (new 1).AllowsAll steps ∧ b.finish.blocks =
        [⟨0, [.alloca 0, .alloca 1, .alloca 2, .perform (.store 0 (.const 1)), .define 3 (.load 2)],
          some (.br 1)⟩,
        ⟨1, [.define 1 (.compare .eq (.value 0) (.const 0)), .define 2 (.extend 1)], none⟩] ∧
      b.finish.types = #[.i64, .i1, .i64, .i64] ∧ b.finish.LaidOut ∧
      b.finish.slots.toList = [⟨"a", false⟩, ⟨"b", true⟩, ⟨"c", false⟩] := by
  intro steps b
  have allowed : (new 1).AllowsAll steps := by decide
  obtain ⟨-, laidOut, slots, -⟩ := laidOut_of_allowed 1 allowed
  exact ⟨allowed, by rfl, by rfl, laidOut, slots⟩

end Builder

end TwinLisp.Graph
