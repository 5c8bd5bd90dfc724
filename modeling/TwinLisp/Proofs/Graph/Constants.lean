import TwinLisp.Graph.Constants
import TwinLisp.Proofs.Graph.Paths
import Mathlib.Data.List.Forall2

/-!
Constants of a body under construction: a single instruction stores to the slot of each, and control
does not come back to the block of that instruction unless the constant stands in a loop.
-/

namespace TwinLisp.Graph

/-- A constant, the slot that holds it and the block that stores to the slot. -/
structure Home where
  constant : Constant
  slot : SlotId
  block : BlockId

/-- The constant stands in a loop. -/
def Home.inLoop (c : Home) : Home :=
  { c with constant := { c.constant with looping := true } }

namespace Builder

def frozenSlots (b : Builder) : List SlotId :=
  (List.range b.slots.size).filter fun slot => (b.slots[slot]?).any (·.frozen)

def storesIn (b : Builder) (slot : SlotId) (p : BlockId) : Nat :=
  (b.instrsAt p).countP (·.storesTo slot)

/-- Control does not come back to a block: some blocks, without it, have all that it leads to and
all that they lead to. -/
def Leaves (b : Builder) (p : BlockId) : Prop :=
  ∃ after : BlockId → Prop, ¬after p ∧ (∀ q, b.Leads p q → after q) ∧
    ∀ q r, after q → b.Leads q r → after r

/-- The constants that the body has so far are at home. -/
structure Houses (E : List Home) (b : Builder) : Prop where
  slots : b.frozenSlots = E.map (·.slot)
  named : ∀ c ∈ E, b.slots[c.slot]? = some ⟨c.constant.name, true⟩
  known : ∀ slot, b.slots.size ≤ slot → ∀ p, b.storesIn slot p = 0
  single : ∀ c ∈ E, b.storesIn c.slot c.block = 1 ∧
    ∀ p, p ≠ c.block → b.storesIn c.slot p = 0
  leaves : ∀ c ∈ E, c.constant.looping = false → b.Leaves c.block

variable {b b' : Builder} {E : List Home} {p q : BlockId} {slot : SlotId}

/-! Ways back. -/

/-- Fewer edges lead to fewer blocks. -/
theorem Leaves.of_leads (h : b.Leaves p) (same : ∀ q r, b'.Leads q r → b.Leads q r) :
    b'.Leaves p := by
  obtain ⟨after, apart, leads, closed⟩ := h
  exact ⟨after, apart, fun q edge => leads q (same p q edge),
    fun q r mem edge => closed q r mem (same q r edge)⟩

/-- A block that has not been ended leads nowhere. -/
theorem leaves_of_going (going : b.endAt p = none) : b.Leaves p := by
  refine ⟨fun _ => False, id, fun q leads => ?_, fun _ _ => False.elim⟩
  obtain ⟨t, ended, -⟩ := leads
  rw [going] at ended
  cases ended

/-- A way that goes on at blocks that wait does not come back. -/
theorem Leaves.terminate (h : b.Leaves p) {t : Terminator}
    (waits : ∀ q ∈ t.successors, b.Idle q ∧ q ≠ p) : (b.terminate t).Leaves p := by
  obtain ⟨after, apart, leads, closed⟩ := h
  -- the blocks that the current one goes on at come after it as well
  refine ⟨fun q => after q ∨ q ∈ t.successors, ?_, ?_, ?_⟩
  · rintro (mem | mem)
    · exact apart mem
    · exact (waits p mem).2 rfl
  · intro q edge
    rcases leads_terminate edge with edge | ⟨-, mem⟩
    · exact .inl (leads q edge)
    · exact .inr mem
  · intro q r mem edge
    rcases leads_terminate edge with edge | ⟨-, target⟩
    · rcases mem with mem | mem
      · exact .inl (closed q r mem edge)
      · -- a block that waits leads nowhere yet
        obtain ⟨t', ended, -⟩ := edge
        rw [(waits q mem).1.going] at ended
        cases ended
    · exact .inr target

/-- What code adds leads only to blocks of its own, so there is no way back through it. -/
theorem Region.leaves (h : b.Region b') (old : p < b.size) (left : b.Leaves p) : b'.Leaves p := by
  obtain ⟨after, apart, leads, closed⟩ := left
  -- all new blocks may come after `p`, which is an old one
  refine ⟨fun q => after q ∨ b.size ≤ q, ?_, ?_, ?_⟩
  · rintro (mem | new)
    · exact apart mem
    · exact Nat.not_le_of_lt old new
  · intro q edge
    rcases h.leads p q edge with edge | new | none
    · exact .inl (leads q edge)
    · exact .inr new
    · exact none.elim
  · intro q r mem edge
    rcases h.leads q r edge with edge | new | none
    · rcases mem with mem | new
      · exact .inl (closed q r mem edge)
      · -- an old edge does not begin in a new block
        obtain ⟨t, ended, -⟩ := edge
        exact absurd (lt_size_of_endAt ended) (Nat.not_lt.mpr new)
    · exact .inr new
    · exact none.elim

/-! Stores. -/

/-- A push adds a store where it stores to the slot, in the current block. -/
theorem storesIn_push (i : Instr) : (b.push i).storesIn slot p =
    b.storesIn slot p + if p = b.current ∧ p < b.size ∧ i.storesTo slot then 1 else 0 := by
  unfold storesIn
  rw [instrsAt_push]
  by_cases here : p = b.current ∧ p < b.size
  · rw [if_pos here, List.countP_append, List.countP_singleton]
    simp only [here.1, here.1 ▸ here.2, true_and]
  · rw [if_neg here, if_neg (fun all => here ⟨all.1, all.2.1⟩), Nat.add_zero]

theorem storesIn_push_other {i : Instr} (other : i.storesTo slot = false) :
    (b.push i).storesIn slot p = b.storesIn slot p := by
  rw [storesIn_push, other]
  simp

theorem idle_storesIn (waits : b.Idle p) : b.storesIn slot p = 0 := by
  unfold storesIn
  rw [waits.empty]
  rfl

/-- A block that stores to something exists. -/
theorem lt_of_storesIn (h : b.storesIn slot p = 1) : p < b.size := by
  by_contra new
  unfold storesIn at h
  rw [instrsAt_of_size_le (Nat.not_lt.mp new)] at h
  simp at h

/-- A new slot is the last one, and it counts if it holds a constant. -/
theorem frozenSlots_alloca (name : String) (frozen : Bool) :
    (b.alloca name frozen).2.frozenSlots =
      b.frozenSlots ++ if frozen then [b.slots.size] else [] := by
  unfold frozenSlots alloca
  rw [Array.size_push, List.range_succ, List.filter_append]
  congr 1
  · -- the slots before the new one are as they were
    refine List.filter_congr fun slot mem => ?_
    rw [Array.getElem?_push, if_neg (Nat.ne_of_lt (List.mem_range.mp mem))]
  · rw [List.filter_singleton, Array.getElem?_push_size]
    cases frozen <;> rfl

namespace Houses

theorem lt (h : Houses E b) {c : Home} (mem : c ∈ E) : c.block < b.size :=
  lt_of_storesIn (h.single c mem).1

/-- Steps that keep slots and stores and add no edges. -/
theorem of_same (h : Houses E b) (slots : b'.slots = b.slots)
    (stores : ∀ slot p, b'.storesIn slot p = b.storesIn slot p)
    (leads : ∀ q r, b'.Leads q r → b.Leads q r) : Houses E b' where
  slots := by
    unfold frozenSlots
    rw [slots]
    exact h.slots
  named := by
    rw [slots]
    exact h.named
  known := by
    simp only [slots, stores]
    exact h.known
  single := by
    simp only [stores]
    exact h.single
  leaves c mem plain := (h.leaves c mem plain).of_leads leads

theorem positionAt (h : Houses E b) (p : BlockId) : Houses E (b.positionAt p) :=
  h.of_same rfl (fun _ _ => rfl) fun _ _ => id

theorem withTypes (h : Houses E b) (ty : Ty) : Houses E { b with types := b.types.push ty } :=
  h.of_same rfl (fun _ _ => rfl) fun _ _ => id

theorem newBlock (h : Houses E b) : Houses E b.newBlock.2 := by
  refine h.of_same rfl (fun slot p => ?_) fun _ _ => leads_newBlock.mp
  unfold storesIn
  rw [instrsAt_newBlock]

/-- An instruction that stores to no constant. -/
theorem push (h : Houses E b) {i : Instr} (quiet : ∀ c ∈ E, i.storesTo c.slot = false)
    (inside : ∀ slot, i.storesTo slot → slot < b.slots.size) : Houses E (b.push i) where
  slots := h.slots
  named := h.named
  known slot new p := by
    refine (storesIn_push_other ?_).trans (h.known slot new p)
    exact Bool.eq_false_iff.mpr fun stores => Nat.not_lt.mpr new (inside slot stores)
  single c mem := by
    simp only [storesIn_push_other (quiet c mem)]
    exact h.single c mem
  leaves c mem plain := (h.leaves c mem plain).of_leads fun _ _ => leads_push.mp

theorem alloca (h : Houses E b) (name : String) : Houses E (b.alloca name false).2 where
  slots := by
    rw [frozenSlots_alloca, h.slots]
    exact List.append_nil _
  named c mem := by
    unfold Builder.alloca
    have found := h.named c mem
    rw [Array.getElem?_push, if_neg (Nat.ne_of_lt (Array.getElem?_eq_some_iff.mp found).1), found]
  known slot new := by
    unfold Builder.alloca at new
    rw [Array.size_push] at new
    exact h.known slot (Nat.le_of_succ_le new)
  single := h.single
  leaves := h.leaves

/-- A slot for a new constant, and the store to it. -/
theorem introduce (h : Houses E b) (opened : b.Open) (name : String) (value : Operand) :
    Houses (E ++ [⟨⟨name, false⟩, b.slots.size, b.current⟩])
      ((b.alloca name true).2.push (.perform (.store b.slots.size value))) := by
  let i : Instr := .perform (.store b.slots.size value)
  have stores (slot : SlotId) (p : BlockId) : ((b.alloca name true).2.push i).storesIn slot p =
      b.storesIn slot p + if p = b.current ∧ p < b.size ∧ i.storesTo slot then 1 else 0 :=
    storesIn_push i
  -- the store is one to the new slot, and all others are counted as before
  have other {slot : SlotId} (ne : slot ≠ b.slots.size) (p : BlockId) :
      ((b.alloca name true).2.push i).storesIn slot p = b.storesIn slot p :=
    storesIn_push_other (beq_eq_false_iff_ne.mpr ne.symm)
  have old {c : Home} (mem : c ∈ E) : c.slot < b.slots.size :=
    (Array.getElem?_eq_some_iff.mp (h.named c mem)).1
  refine ⟨?_, fun c mem => ?_, fun slot new p => ?_, fun c mem => ?_, fun c mem plain => ?_⟩
  · -- the slots of constants, then their names, the slots that no one stores to, the single stores,
    -- and the blocks that are left for good
    apply (frozenSlots_alloca name true).trans
    simp [h.slots]
  · change (b.slots.push _)[c.slot]? = _
    rcases List.mem_append.mp mem with mem | mem
    · rw [Array.getElem?_push, if_neg (Nat.ne_of_lt (old mem)), h.named c mem]
    · cases List.mem_singleton.mp mem
      exact Array.getElem?_push_size
  · change (b.slots.push _).size ≤ slot at new
    rw [Array.size_push] at new
    rw [other (Nat.ne_of_gt new), h.known slot (Nat.le_of_succ_le new) p]
  · rcases List.mem_append.mp mem with mem | mem
    · obtain ⟨stored, only⟩ := h.single c mem
      have kept := other (Nat.ne_of_lt (old mem))
      exact ⟨(kept _).trans stored, fun p elsewhere => (kept p).trans (only p elsewhere)⟩
    · -- no block has stored to the slot before, since there was no such slot
      cases List.mem_singleton.mp mem
      refine ⟨?_, fun p elsewhere => ?_⟩
      · rw [stores, h.known _ (Nat.le_refl _), if_pos ⟨rfl, opened.lt, beq_self_eq_true _⟩]
      · rw [stores, h.known _ (Nat.le_refl _), if_neg fun all => elsewhere all.1]
  · have edges (q r : BlockId) (leads : ((b.alloca name true).2.push i).Leads q r) :
        b.Leads q r := leads_push.mp leads
    rcases List.mem_append.mp mem with mem | mem
    · exact (h.leaves c mem plain).of_leads edges
    · -- the block that stores to it has not been ended
      cases List.mem_singleton.mp mem
      exact (leaves_of_going opened.going).of_leads edges

/-- The end of a block keeps stores; what it means for the ways back has to be shown. -/
theorem terminate_of_leaves (h : Houses E b) {t : Terminator}
    (leaves : ∀ c ∈ E, c.constant.looping = false → (b.terminate t).Leaves c.block) :
    Houses E (b.terminate t) where
  slots := h.slots
  named := h.named
  known slot new p := by
    unfold storesIn
    rw [instrsAt_terminate]
    exact h.known slot new p
  single c mem := by
    unfold storesIn
    simp only [instrsAt_terminate]
    exact h.single c mem
  leaves := leaves

/-- A block is ended, and what comes next are blocks that wait; none of them stores to anything. -/
theorem terminate (h : Houses E b) {t : Terminator} (waits : ∀ q ∈ t.successors, b.Idle q) :
    Houses E (b.terminate t) := by
  refine h.terminate_of_leaves fun c mem plain => ?_
  refine (h.leaves c mem plain).terminate fun q target => ⟨waits q target, fun same => ?_⟩
  have stored := (h.single c mem).1
  rw [← same, idle_storesIn (waits q target)] at stored
  cases stored

/-- Constants whose code stands in a loop may be come back to. -/
theorem inLoop {E' : List Home} (h : Houses (E ++ E') b) : Houses (E ++ E'.map Home.inLoop) b where
  slots := by
    rw [h.slots, List.map_append, List.map_append, List.map_map]
    rfl
  -- a constant that is said to stand in a loop is where it was; less is claimed of it
  named c mem := by
    rcases List.mem_append.mp mem with mem | mem
    · exact h.named c (List.mem_append_left _ mem)
    · obtain ⟨c', added, rfl⟩ := List.mem_map.mp mem
      exact h.named c' (List.mem_append_right _ added)
  known := h.known
  single c mem := by
    rcases List.mem_append.mp mem with mem | mem
    · exact h.single c (List.mem_append_left _ mem)
    · obtain ⟨c', added, rfl⟩ := List.mem_map.mp mem
      exact h.single c' (List.mem_append_right _ added)
  leaves c mem plain := by
    rcases List.mem_append.mp mem with mem | mem
    · exact h.leaves c (List.mem_append_left _ mem) plain
    · obtain ⟨c', added, rfl⟩ := List.mem_map.mp mem
      cases plain

end Houses

/-! Finished bodies. -/

theorem storesIn_finish : b.finish.storesIn slot p = b.storesIn slot p := by
  unfold Body.storesIn storesIn
  by_cases old : p < b.size
  · rw [finish_block? old]
    change List.countP _ (_ ++ _) = _
    rw [List.countP_append]
    -- allocations, which the first block begins with, are no stores
    refine Nat.add_eq_right.mpr (List.countP_eq_zero.mpr fun i mem stores => ?_)
    split at mem
    · obtain ⟨slot', -, rfl⟩ := List.mem_map.mp mem
      cases stores
    · cases mem
  · have outside : b.finish.blocks[p]? = none :=
      List.getElem?_eq_none (length_finish ▸ Nat.not_lt.mp old)
    rw [outside, instrsAt_of_size_le (Nat.not_lt.mp old)]
    rfl

/-- By induction on the way: once control has been at a block that it does not come back to, it is
at those that come after. -/
theorem after_of_path {after : BlockId → Prop} (leads : ∀ q, b.Leads p q → after q)
    (closed : ∀ q r, after q → b.Leads q r → after r) {before : List BlockId}
    (path : b.finish.Path before q) (mem : p ∈ before) : after q := by
  induction path with
  | entry => cases mem
  | step _ edge ih =>
    have edge := leads_finish.mp edge
    rcases List.mem_cons.mp mem with rfl | mem
    · exact leads _ edge
    · exact closed _ _ (ih mem) edge

/-- Control comes at most once to a block that it does not come back to. -/
theorem Leaves.count_le_one (h : b.Leaves p) {before : List BlockId}
    (path : b.finish.Path before q) : (q :: before).count p ≤ 1 := by
  obtain ⟨after, apart, leads, closed⟩ := h
  induction path with
  | entry => exact List.count_le_length
  | @step before q r path edge ih =>
    by_cases here : r = p
    · subst here
      have new : r ∉ q :: before := fun mem =>
        apart (after_of_path leads closed (.step path edge) mem)
      rw [List.count_cons_self]
      exact Nat.le_of_eq (congrArg (· + 1) (List.count_eq_zero.mpr new))
    · rw [List.count_cons_of_ne here]
      exact ih

/-- With a single store, a slot is stored to as often as control comes to its block. -/
theorem storesAlong_finish (stored : b.storesIn slot p = 1)
    (only : ∀ q, q ≠ p → b.storesIn slot q = 0) (blocks : List BlockId) :
    b.finish.storesAlong slot blocks = blocks.count p := by
  induction blocks with
  | nil => rfl
  | cons q blocks ih =>
    rw [Body.storesAlong, ih, storesIn_finish, List.count_cons, Nat.add_comm]
    by_cases here : q = p
    · subst here
      rw [stored, if_pos (beq_self_eq_true q)]
    · rw [only q here, if_neg (fun same => here (beq_iff_eq.mp same))]

/-- In the finished body the slots of constants hold them, in order. -/
theorem Houses.holds (h : Houses E b) :
    List.Forall₂ b.finish.Holds b.finish.frozenSlots (E.map (·.constant)) := by
  have slots : b.finish.frozenSlots = E.map (·.slot) := h.slots
  rw [slots, List.forall₂_map_left_iff, List.forall₂_map_right_iff, List.forall₂_same]
  intro c mem
  obtain ⟨stored, only⟩ := h.single c mem
  refine ⟨h.named c mem, ⟨c.block, ?_, fun q other => ?_⟩, fun plain before position path => ?_⟩
  · rw [storesIn_finish, stored]
  · rw [storesIn_finish, only q other]
  · rw [storesAlong_finish stored only]
    exact (h.leaves c mem plain).count_le_one path

end Builder

end TwinLisp.Graph
