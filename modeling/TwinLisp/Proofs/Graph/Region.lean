import TwinLisp.Graph.WellFormed
import TwinLisp.Proofs.Graph.Builder

/-!
What a piece of code may do to the blocks that were there before it: it adds to the block that it
begins in, ends that block at most once, and jumps only to blocks of its own.
-/

namespace TwinLisp.Graph.Builder

def Leads (b : Builder) (p q : BlockId) : Prop :=
  ∃ t, b.endAt p = some t ∧ q ∈ t.successors

@[simp] theorem leads_newBlock {b : Builder} {p q : BlockId} : b.newBlock.2.Leads p q ↔ b.Leads p q := by
  unfold Leads
  rw [endAt_newBlock]

@[simp] theorem leads_push {b : Builder} {p q : BlockId} {i : Instr} :
    (b.push i).Leads p q ↔ b.Leads p q := by
  unfold Leads
  rw [endAt_push]

/-- What has become of a builder `b`. Only the block that was current and blocks added since have
changed. `live` are the blocks that wait for more code besides those that waited before, and `out`
are the old blocks that may be jumped to. -/
structure Frame (b : Builder) (live out : BlockId → Prop) (b' : Builder) : Prop where
  arity : b'.arity = b.arity
  size_le : b.size ≤ b'.size
  types : ∀ (v : Nat) ty, b.types[v]? = some ty → b'.types[v]? = some ty
  slots : ∀ (j : Nat) slot, b.slots[j]? = some slot → b'.slots[j]? = some slot
  others : ∀ p < b.size, p ≠ b.current → b'.instrsAt p = b.instrsAt p ∧ b'.endAt p = b.endAt p
  entry : ∃ new, b'.instrsAt b.current = b.instrsAt b.current ++ new ∧ ∀ i ∈ new, i.isPhi = false
  leads : ∀ p q, b'.Leads p q → b.Leads p q ∨ b.size ≤ q ∨ out q
  going : ∀ p < b'.size, b'.endAt p = none → live p ∨ p < b.size ∧ p ≠ b.current

/-- The builder `b'` does not stand in an old block that `b` did not stand in. -/
def Within (b b' : Builder) : Prop :=
  b'.current = b.current ∨ b.size ≤ b'.current

/-- A block that has been added but not begun. -/
structure Idle (b : Builder) (p : BlockId) : Prop where
  lt : p < b.size
  empty : b.instrsAt p = []
  going : b.endAt p = none

/-- A piece of code from one point where code can be added to another. -/
structure Region (b b' : Builder) : Prop
    extends Frame b (· = b'.current) (fun _ => False) b' where
  isOpen : b'.Open
  within : b.Within b'

variable {b b' : Builder} {live out : BlockId → Prop}

/-- An old block in which the builder did not stand is not the current one. -/
theorem Within.ne_of_old (h : b.Within b') {p : BlockId} (old : p < b.size) (other : p ≠ b.current) :
    p ≠ b'.current := by
  rcases h with same | new
  · exact same ▸ other
  · exact Nat.ne_of_lt (Nat.lt_of_lt_of_le old new)

theorem frame_refl (b : Builder) : Frame b (· = b.current) out b where
  arity := rfl
  size_le := Nat.le_refl _
  types _ _ := id
  slots _ _ := id
  others _ _ _ := ⟨rfl, rfl⟩
  entry := ⟨[], (List.append_nil _).symm, fun _ h => absurd h List.not_mem_nil⟩
  leads _ _ := .inl
  going p lt _ := by
    by_cases here : p = b.current
    · exact .inl here
    · exact .inr ⟨lt, here⟩

theorem region_refl (h : b.Open) : Region b b :=
  { frame_refl b with isOpen := h, within := .inl rfl }

namespace Frame

variable (h : Frame b live out b')

include h

/-- More blocks may be taken for live ones. -/
theorem mono {live' : BlockId → Prop} (sub : ∀ p, live p → live' p) : Frame b live' out b' :=
  { h with going := fun p lt going => (h.going p lt going).imp (sub p) id }

theorem widen {out' : BlockId → Prop} (sub : ∀ p, out p → out' p) : Frame b live out' b' :=
  { h with leads := fun p q leads => (h.leads p q leads).imp id (Or.imp id (sub q)) }

theorem positionAt (p : BlockId) : Frame b live out (b'.positionAt p) :=
  { h with }

/-- The new block is live. -/
theorem newBlock : Frame b (fun p => live p ∨ p = b'.size) out b'.newBlock.2 where
  arity := h.arity
  size_le := by
    rw [size_newBlock]
    exact Nat.le_succ_of_le h.size_le
  types := h.types
  slots := h.slots
  others p lt other := by
    rw [instrsAt_newBlock, endAt_newBlock]
    exact h.others p lt other
  entry := by
    rw [instrsAt_newBlock]
    exact h.entry
  leads p q leads := h.leads p q (leads_newBlock.mp leads)
  going p lt going := by
    rw [size_newBlock] at lt
    rw [endAt_newBlock] at going
    -- the new block, or one that was live before
    by_cases new : p = b'.size
    · exact .inl (.inr new)
    · have old : p < b'.size := Nat.lt_of_le_of_ne (Nat.le_of_lt_succ lt) new
      exact (h.going p old going).imp .inl id

/-- What is pushed comes behind the old instructions of the first block, or into a block of the frame.
-/
theorem push (within : b.Within b') {i : Instr}
    (plain : i.isPhi = false ∨ b'.current ≠ b.current) : Frame b live out (b'.push i) where
  arity := h.arity
  size_le := Nat.le_trans h.size_le (Nat.le_of_eq (size_push i).symm)
  types := h.types
  slots := h.slots
  others p lt other := by
    have elsewhere := within.ne_of_old lt other
    rw [endAt_push, instrsAt_push, if_neg (fun both => elsewhere both.1)]
    exact h.others p lt other
  entry := by
    obtain ⟨new, grown, quiet⟩ := h.entry
    rw [instrsAt_push]
    split
    -- pushed to the first block of the frame, the instruction is one more behind those from before
    next here =>
      refine ⟨new ++ [i], by rw [grown, List.append_assoc], fun j hj => ?_⟩
      rcases List.mem_append.mp hj with hj | hj
      · exact quiet j hj
      · cases List.mem_singleton.mp hj
        exact plain.resolve_right (fun ne => ne here.1.symm)
    next => exact ⟨new, grown, quiet⟩
  leads p q leads := h.leads p q (leads_push.mp leads)
  going p lt going := by
    rw [size_push] at lt
    rw [endAt_push] at going
    exact h.going p lt going

/-- The block that is ended is not live any more. -/
theorem terminate (within : b.Within b') {t : Terminator}
    (targets : ∀ q ∈ t.successors, b.size ≤ q ∨ out q) :
    Frame b (fun p => live p ∧ p ≠ b'.current) out (b'.terminate t) where
  arity := h.arity
  size_le := Nat.le_trans h.size_le (Nat.le_of_eq (size_terminate t).symm)
  types := h.types
  slots := h.slots
  others p lt other := by
    have elsewhere := within.ne_of_old lt other
    rw [instrsAt_terminate, endAt_terminate, if_neg (fun both => elsewhere both.1)]
    exact h.others p lt other
  entry := by
    rw [instrsAt_terminate]
    exact h.entry
  leads p q := by
    rintro ⟨t', ended, mem⟩
    rw [endAt_terminate] at ended
    split at ended
    next =>
      cases ended
      exact .inr (targets q mem)
    next => exact h.leads p q ⟨t', ended, mem⟩
  going p hp going := by
    rw [size_terminate] at hp
    rw [endAt_terminate] at going
    split at going
    next => cases going
    next here =>
      -- only the block that is ended stops being live
      have other : p ≠ b'.current := fun same => here ⟨same, hp⟩
      exact (h.going p hp going).imp (⟨·, other⟩) id

/-- The builder may note the types of values and the names of slots. -/
theorem withTypes (ty : Ty) : Frame b live out { b' with types := b'.types.push ty } :=
  { h with
    types := fun v ty' known => by
      have old := h.types v ty' known
      rw [Array.getElem?_push, if_neg (Nat.ne_of_lt (Array.getElem?_eq_some_iff.mp old).1), old] }

theorem alloca (name : String) (frozen : Bool) : Frame b live out (b'.alloca name frozen).2 :=
  { h with
    slots := fun j slot known => by
      have old := h.slots j slot known
      unfold Builder.alloca
      rw [Array.getElem?_push, if_neg (Nat.ne_of_lt (Array.getElem?_eq_some_iff.mp old).1), old] }

/-- A piece of code is followed by another. -/
theorem append {live' out' : BlockId → Prop} {b'' : Builder} (started : b.current < b.size)
    (within : b.Within b') (rest : Frame b' live' out' b'')
    (inner : ∀ q, out' q → b.size ≤ q ∨ out q) :
    Frame b (fun p => live p ∧ p ≠ b'.current ∨ live' p) out b'' where
  arity := rest.arity.trans h.arity
  size_le := Nat.le_trans h.size_le rest.size_le
  types v ty known := rest.types v ty (h.types v ty known)
  slots j slot known := rest.slots j slot (h.slots j slot known)
  others p lt other := by
    have elsewhere := within.ne_of_old lt other
    obtain ⟨instrs, ends⟩ := rest.others p (Nat.lt_of_lt_of_le lt h.size_le) elsewhere
    obtain ⟨instrs', ends'⟩ := h.others p lt other
    exact ⟨instrs.trans instrs', ends.trans ends'⟩
  entry := by
    obtain ⟨new, grown, quiet⟩ := h.entry
    -- the second piece adds to the first block only if it begins there
    by_cases here : b'.current = b.current
    · obtain ⟨more, grown', quiet'⟩ := rest.entry
      rw [here] at grown'
      refine ⟨new ++ more, by rw [grown', grown, List.append_assoc], fun i hi => ?_⟩
      exact (List.mem_append.mp hi).elim (quiet i) (quiet' i)
    · have old := Nat.lt_of_lt_of_le started h.size_le
      rw [(rest.others b.current old (Ne.symm here)).1]
      exact ⟨new, grown, quiet⟩
  leads p q leads := by
    -- an edge is an old one, leads to a new block, or out of the frame
    rcases rest.leads p q leads with leads | new | left
    · exact h.leads p q leads
    · exact .inr (.inl (Nat.le_trans h.size_le new))
    · exact .inr (inner q left)
  going p hp going := by
    rcases rest.going p hp going with here | ⟨old, other⟩
    · exact .inl (.inr here)
    · rw [(rest.others p old other).2] at going
      exact (h.going p old going).imp (fun l => .inl ⟨l, other⟩) id

end Frame

/-- Blocks that were old at first are old later on. -/
theorem Within.trans {b'' : Builder} (first : b.Within b') (size_le : b.size ≤ b'.size)
    (rest : b'.Within b'') : b.Within b'' := by
  rcases rest with same | new
  · unfold Within
    rw [same]
    exact first
  · exact .inr (Nat.le_trans size_le new)

namespace Region

/-- Two pieces of code are one. -/
theorem trans {b'' : Builder} (started : b.Open) (first : Region b b') (rest : Region b' b'') :
    Region b b'' := by
  have frame := first.toFrame.append started.lt first.within rest.toFrame nofun
  refine { frame.mono ?_ with
    isOpen := rest.isOpen
    within := first.within.trans first.size_le rest.within }
  rintro p (⟨here, elsewhere⟩ | here)
  · exact absurd here elsewhere
  · exact here

/-- A region, and then another that begins where code can be added. -/
theorem andThen {b'' : Builder} (first : Region b b') (started : b.Open)
    (rest : b'.Open → Region b' b'') : Region b b'' :=
  first.trans started (rest first.isOpen)

theorem push (h : b.Open) {i : Instr} (plain : i.isPhi = false) : Region b (b.push i) :=
  { (frame_refl b).push (.inl rfl) (.inl plain) with
    isOpen := ⟨by rw [size_push]; exact h.lt, by rw [endAt_push]; exact h.going⟩
    within := .inl rfl }

theorem emit (h : b.Open) {operation : Operation}
    (plain : (Instr.define b.types.size operation).isPhi = false) :
    Region b (b.emit operation).2 := by
  have typed : Region b { b with types := b.types.push operation.ty } :=
    { (frame_refl b).withTypes operation.ty with isOpen := ⟨h.lt, h.going⟩, within := .inl rfl }
  exact typed.trans h (push (b := { b with types := b.types.push operation.ty })
    ⟨h.lt, h.going⟩ plain)

/-- A phi may only be added where the region has come to a block of its own. -/
theorem emit_phi (h : Region b b') (moved : b'.current ≠ b.current)
    (incoming : List (BlockId × Operand)) : Region b (b'.emit (.phi incoming)).2 where
  toFrame := (h.toFrame.withTypes (Operation.phi incoming).ty).push h.within (.inr moved)
  isOpen := ⟨by rw [Builder.emit, size_push]; exact h.isOpen.lt, by
    rw [Builder.emit, endAt_push]; exact h.isOpen.going⟩
  within := h.within

theorem alloca (h : b.Open) (name : String) (frozen : Bool) :
    Region b (b.alloca name frozen).2 :=
  { (frame_refl b).alloca name frozen with isOpen := ⟨h.lt, h.going⟩, within := .inl rfl }

/-- Edges to old blocks are neither added nor lost. -/
theorem leads_iff (started : b.Open) (h : Region b b') {p q : BlockId} (old : q < b.size) :
    b'.Leads p q ↔ b.Leads p q := by
  constructor
  · intro leads
    rcases h.leads p q leads with leads | new | none
    · exact leads
    · exact absurd old (Nat.not_lt.mpr new)
    · exact none.elim
  · rintro ⟨t, ended, mem⟩
    refine ⟨t, ?_, mem⟩
    have lt : p < b.size := lt_size_of_endAt ended
    have other : p ≠ b.current := by
      rintro rfl
      rw [started.going] at ended
      cases ended
    rw [(h.others p lt other).2, ended]

/-- Blocks that wait are left alone. -/
theorem idle (h : Region b b') {p : BlockId} (waits : b.Idle p) (other : p ≠ b.current) :
    b'.Idle p ∧ p ≠ b'.current := by
  obtain ⟨instrs, ends⟩ := h.others p waits.lt other
  refine ⟨⟨Nat.lt_of_lt_of_le waits.lt h.size_le, ?_, ?_⟩, h.within.ne_of_old waits.lt other⟩
  · rw [instrs, waits.empty]
  · rw [ends, waits.going]

end Region

/-- A block that waits can be begun. -/
theorem Idle.open_positionAt {p : BlockId} (h : b.Idle p) : (b.positionAt p).Open :=
  ⟨h.lt, h.going⟩

theorem Idle.terminate {p : BlockId} (h : b.Idle p) (other : p ≠ b.current) (t : Terminator) :
    (b.terminate t).Idle p where
  lt := by
    rw [size_terminate]
    exact h.lt
  empty := by rw [instrsAt_terminate, h.empty]
  going := by rw [endAt_terminate, if_neg (fun both => other both.1), h.going]

theorem Idle.newBlock {p : BlockId} (h : b.Idle p) : b.newBlock.2.Idle p where
  lt := by
    rw [size_newBlock]
    exact Nat.lt_succ_of_lt h.lt
  empty := by rw [instrsAt_newBlock, h.empty]
  going := by rw [endAt_newBlock, h.going]

/-- A new block waits: it is empty and not ended. -/
theorem idle_newBlock (b : Builder) : b.newBlock.2.Idle b.size where
  lt := by
    rw [size_newBlock]
    exact Nat.lt_succ_self _
  empty := by rw [instrsAt_newBlock, instrsAt_of_size_le (Nat.le_refl _)]
  going := by rw [endAt_newBlock, endAt_of_size_le (Nat.le_refl _)]

end TwinLisp.Graph.Builder
