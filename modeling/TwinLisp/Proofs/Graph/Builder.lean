import TwinLisp.Graph.Builder

/-! The blocks of a body under construction, and what each step of building changes in them. -/

namespace TwinLisp.Graph.Builder

def size (b : Builder) : Nat := b.blocks.size

/-- The instructions of a block; a block that does not exist has none. -/
def instrsAt (b : Builder) (p : BlockId) : List Instr :=
  (b.blocks[p]?).elim [] (·.instrs.toList)

def endAt (b : Builder) (p : BlockId) : Option Terminator :=
  (b.blocks[p]?).bind (·.terminator)

/-- The builder stands in a block that can still grow. -/
structure Open (b : Builder) : Prop where
  lt : b.current < b.size
  going : b.endAt b.current = none

variable {b : Builder} {p : BlockId}

/-- A block that does not exist is an empty one for all that is asked of it. -/
theorem instrsAt_of_size_le (h : b.size ≤ p) : b.instrsAt p = [] := by
  unfold instrsAt
  rw [Array.getElem?_eq_none h]
  rfl

theorem endAt_of_size_le (h : b.size ≤ p) : b.endAt p = none := by
  unfold endAt
  rw [Array.getElem?_eq_none h]
  rfl

@[simp] theorem size_newBlock : b.newBlock.2.size = b.size + 1 := by
  simp [newBlock, size]

@[simp] theorem instrsAt_newBlock : b.newBlock.2.instrsAt p = b.instrsAt p := by
  unfold instrsAt newBlock
  rw [Array.getElem?_push]
  split
  -- the new block has no instructions, like the missing one before
  next h =>
    subst h
    rw [Array.getElem?_eq_none (Nat.le_refl _)]
    rfl
  next => rfl

@[simp] theorem endAt_newBlock : b.newBlock.2.endAt p = b.endAt p := by
  unfold endAt newBlock
  rw [Array.getElem?_push]
  split
  -- the new block is not ended, and the missing one before was not either
  next h =>
    subst h
    rw [Array.getElem?_eq_none (Nat.le_refl _)]
    rfl
  next => rfl

@[simp] theorem size_push (i : Instr) : (b.push i).size = b.size := by
  simp [push, size]

@[simp] theorem endAt_push (i : Instr) : (b.push i).endAt p = b.endAt p := by
  unfold endAt push
  rw [Array.getElem?_modify]
  split
  next => cases b.blocks[p]? <;> rfl
  next => rfl

/-- A pushed instruction is the last one of the current block, if there is such a block. -/
theorem instrsAt_push (i : Instr) : (b.push i).instrsAt p =
    if p = b.current ∧ p < b.size then b.instrsAt p ++ [i] else b.instrsAt p := by
  unfold instrsAt push
  rw [Array.getElem?_modify]
  by_cases here : b.current = p
  · -- the builder may stand at a block that does not exist; then nothing is pushed
    subst here
    by_cases h : b.current < b.size
    · obtain ⟨k, hk⟩ : ∃ k, b.blocks[b.current]? = some k := ⟨_, Array.getElem?_eq_getElem h⟩
      simp [hk, h]
    · rw [Array.getElem?_eq_none (Nat.not_lt.mp h), if_pos rfl, if_neg (fun both => h both.2)]
      rfl
  · rw [if_neg here, if_neg (fun both => here both.1.symm)]

@[simp] theorem size_terminate (t : Terminator) : (b.terminate t).size = b.size := by
  simp [terminate, size]

@[simp] theorem instrsAt_terminate (t : Terminator) :
    (b.terminate t).instrsAt p = b.instrsAt p := by
  unfold instrsAt terminate
  rw [Array.getElem?_modify]
  split
  next => cases b.blocks[p]? <;> rfl
  next => rfl

/-- Only the current block is ended, if there is such a block. -/
theorem endAt_terminate (t : Terminator) : (b.terminate t).endAt p =
    if p = b.current ∧ p < b.size then some t else b.endAt p := by
  unfold endAt terminate
  rw [Array.getElem?_modify]
  by_cases here : b.current = p
  · -- as for a push, there may be no such block
    subst here
    by_cases h : b.current < b.size
    · obtain ⟨k, hk⟩ : ∃ k, b.blocks[b.current]? = some k := ⟨_, Array.getElem?_eq_getElem h⟩
      simp [hk, h]
    · rw [Array.getElem?_eq_none (Nat.not_lt.mp h), if_pos rfl, if_neg (fun both => h both.2)]
      rfl
  · rw [if_neg here, if_neg (fun both => here both.1.symm)]

@[simp] theorem size_positionAt (q : BlockId) : (b.positionAt q).size = b.size := rfl

@[simp] theorem instrsAt_positionAt (q : BlockId) :
    (b.positionAt q).instrsAt p = b.instrsAt p := rfl

@[simp] theorem endAt_positionAt (q : BlockId) : (b.positionAt q).endAt p = b.endAt p := rfl

@[simp] theorem current_positionAt (q : BlockId) : (b.positionAt q).current = q := rfl

@[simp] theorem current_newBlock : b.newBlock.2.current = b.current := rfl

@[simp] theorem current_push (i : Instr) : (b.push i).current = b.current := rfl

@[simp] theorem current_terminate (t : Terminator) : (b.terminate t).current = b.current := rfl

theorem instrsAt_new (arity : Nat) : (new arity).instrsAt p = [] := by
  unfold instrsAt new
  cases p with
  | zero => rfl
  | succ p => rfl

/-- What is found after a push was there before, or it is what was pushed. -/
theorem mem_or_last_of_push {i j : Instr} (hj : j ∈ (b.push i).instrsAt p) :
    j ∈ b.instrsAt p ∨ j = i ∧ p = b.current := by
  rw [instrsAt_push] at hj
  split at hj
  next here =>
    rcases List.mem_append.mp hj with hj | hj
    · exact .inl hj
    · exact .inr ⟨List.mem_singleton.mp hj, here.1⟩
  next => exact .inl hj

theorem mem_instrsAt_push {i j : Instr} (hj : j ∈ (b.push i).instrsAt p) :
    j ∈ b.instrsAt p ∨ j = i :=
  (mem_or_last_of_push hj).imp id And.left

theorem mem_instrsAt_push_of_mem {i j : Instr} (hj : j ∈ b.instrsAt p) :
    j ∈ (b.push i).instrsAt p := by
  rw [instrsAt_push]
  split
  · exact List.mem_append_left _ hj
  · exact hj

/-- Where a pushed instruction leaves the instructions of a block: each of the old ones has the same
before it, and the new one has all of them. -/
theorem getElem?_instrsAt_push_cases {i j : Instr} {n : Nat} (found : ((b.push i).instrsAt p)[n]? = some j) :
    (b.instrsAt p)[n]? = some j ∧ ((b.push i).instrsAt p).take n = (b.instrsAt p).take n ∨
      p = b.current ∧ j = i ∧ ((b.push i).instrsAt p).take n = b.instrsAt p := by
  rw [instrsAt_push] at found ⊢
  split at found
  next here =>
    rw [if_pos here]
    have le : n ≤ (b.instrsAt p).length := by
      have lt := (List.getElem?_eq_some_iff.mp found).1
      rw [List.length_append] at lt
      exact Nat.le_of_lt_succ lt
    rcases Nat.lt_or_eq_of_le le with lt | rfl
    · -- an old instruction, with what was before it
      rw [List.getElem?_append_left lt] at found
      exact .inl ⟨found, List.take_append_of_le_length le⟩
    · rw [List.getElem?_concat_length] at found
      exact .inr ⟨here.1, (Option.some.inj found).symm, List.take_left⟩
  next elsewhere =>
    rw [if_neg elsewhere]
    exact .inl ⟨found, rfl⟩

/-- Finishing adds no block. -/
theorem length_finish : b.finish.blocks.length = b.size := by
  rw [finish, List.length_mapIdx, Array.length_toList, size]

/-- A block of the finished body; the first begins with the allocations. -/
theorem finish_block? (h : p < b.size) : b.finish.blocks[p]?
    = some ⟨p, (if p = 0 then b.allocas else []) ++ b.instrsAt p, b.endAt p⟩ := by
  have found : b.blocks[p]? = some b.blocks[p] := Array.getElem?_eq_getElem h
  have listed : b.blocks.toList[p]? = some b.blocks[p] := by rw [Array.getElem?_toList, found]
  -- a block gets its number from where it stands
  rw [finish, List.getElem?_mapIdx, listed, Option.map_some, instrsAt, endAt, found]
  split
  · rfl
  · rfl

theorem lt_of_finish_block? {k : Block} (h : b.finish.blocks[p]? = some k) : p < b.size := by
  obtain ⟨lt, -⟩ := List.getElem?_eq_some_iff.mp h
  exact Nat.lt_of_lt_of_eq lt length_finish

/-- Only blocks that exist have instructions. -/
theorem lt_size_of_mem {i : Instr} (hi : i ∈ b.instrsAt p) : p < b.size := by
  by_cases h : p < b.size
  · exact h
  · rw [instrsAt_of_size_le (Nat.not_lt.mp h)] at hi
    exact absurd hi List.not_mem_nil

theorem lt_size_of_endAt {t : Terminator} (ended : b.endAt p = some t) : p < b.size := by
  by_cases h : p < b.size
  · exact h
  · rw [endAt_of_size_le (Nat.not_lt.mp h)] at ended
    cases ended

/-- The finished body has the instructions of the builder, and the allocations. -/
theorem mem_finish {k : Block} {i : Instr} (hk : k ∈ b.finish.blocks) (hi : i ∈ k.instrs) :
    (∃ slot, i = .alloca slot) ∨ ∃ p, i ∈ b.instrsAt p := by
  obtain ⟨p, hp⟩ := List.mem_iff_getElem?.mp hk
  rw [finish_block? (lt_of_finish_block? hp)] at hp
  cases hp
  rcases List.mem_append.mp hi with hi | hi
  · -- the allocations at the front of the first block, and then what was pushed
    split at hi
    · obtain ⟨slot, -, rfl⟩ := List.mem_map.mp hi
      exact .inl ⟨slot, rfl⟩
    · exact absurd hi List.not_mem_nil
  · exact .inr ⟨p, hi⟩

/-- Nothing is lost in finishing. -/
theorem mem_finish_of_mem {i : Instr} (hi : i ∈ b.instrsAt p) :
    ∃ k ∈ b.finish.blocks, i ∈ k.instrs :=
  ⟨_, List.mem_of_getElem? (finish_block? (lt_size_of_mem hi)), List.mem_append_right _ hi⟩

end TwinLisp.Graph.Builder
