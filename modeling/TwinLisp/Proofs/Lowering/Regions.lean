import TwinLisp.Proofs.Graph.Region
import TwinLisp.Proofs.Lowering.Trace

/-! Every derivation builds a region: it goes from one point where code can be added to another. -/

namespace TwinLisp.Graph.Lowering

namespace State

abbrev builder (s : State) : Builder := s.current.builder

abbrev Region (s s' : State) : Prop := s.builder.Region s'.builder

abbrev Open (s : State) : Prop := s.builder.Open

end State

variable {s s₁ s' : State}

theorem open_of_current (same : s₁.current = s.current) (h : s.Open) : s₁.Open := by
  unfold State.Open State.builder
  rw [same]
  exact h

/-- Any instruction but a phi node stays within the block it is emitted in. -/
theorem region_emit (h : s.Open) {operation : Operation}
    (plain : ∀ incoming, operation ≠ .phi incoming) : s.Region (s.emit operation) := by
  refine Builder.Region.emit h ?_
  cases operation with
  | phi incoming => exact absurd rfl (plain incoming)
  | _ => rfl

/-- A call stays in its block: finding the unit leaves the builder alone. -/
theorem region_call (h : s.Open) {name : String} {arity : Nat} {unit : UnitId}
    (found : s.callee? name arity = some (unit, s₁)) (args : List Operand) :
    s.Region (s₁.emit (.call unit args)) := by
  have same : s₁.builder = s.builder :=
    congrArg UnitState.builder (current_of_callee? found).1
  change s.builder.Region (s₁.builder.emit (.call unit args)).2
  rw [same]
  exact .emit h rfl

theorem region_perform (h : s.Open) (effect : Effect) : s.Region (s.perform effect) :=
  .push h rfl

/-- A new variable is a slot and the store to it, however its scope takes it. -/
theorem builder_bindNew {bind : UnitState → String → SlotId → UnitState}
    (keeps : ∀ u slot, (bind u name slot).unit = u.unit ∧ (bind u name slot).builder = u.builder)
    (frozen : Bool) (value : Operand) : (s.bindNew bind name frozen value).builder =
      (s.builder.alloca name frozen).2.push (.perform (.store s.nextSlot value)) :=
  congrArg (Builder.push · _) (keeps _ _).2

theorem region_bindNew (h : s.Open) {bind : UnitState → String → SlotId → UnitState}
    (keeps : ∀ u slot, (bind u name slot).unit = u.unit ∧ (bind u name slot).builder = u.builder)
    (frozen : Bool) (value : Operand) : s.Region (s.bindNew bind name frozen value) := by
  have allocated := Builder.Region.alloca h name frozen
  unfold State.Region
  rw [builder_bindNew keeps]
  exact allocated.trans h (.push allocated.isOpen rfl)

theorem region_bindAll (h : s.Open) (pairs : List (String × Operand)) :
    s.Region (s.bindAll pairs) := by
  induction pairs generalizing s with
  | nil => exact Builder.region_refl h
  | cons pair pairs ih =>
    have first := region_bindNew h (fun u slot => bindInner_keeps u pair.1 slot) false pair.2
    exact first.trans h (ih first.isOpen)

theorem region_enterScope (h : s.Open) (pairs : List (String × Operand)) :
    s.Region (s.enterScope pairs) :=
  region_bindAll (s := { s with current := s.current.pushScope }) h pairs

/-! Blocks that a form adds for later wait until it comes to them. -/

theorem idle_jump (target next : BlockId) {p : BlockId} (h : s.builder.Idle p)
    (other : p ≠ s.block) :
    (s.jump target next).builder.Idle p := by
  obtain ⟨lt, empty, going⟩ := h.terminate other (.br target)
  exact ⟨lt, empty, going⟩

theorem idle_newBlocks (s : State) :
    s.newBlock.newBlock.newBlock.builder.Idle s.nextBlock ∧
      s.newBlock.newBlock.newBlock.builder.Idle (s.nextBlock + 1) ∧
      s.newBlock.newBlock.newBlock.builder.Idle (s.nextBlock + 2) := by
  have second := Builder.idle_newBlock s.newBlock.builder
  have third := Builder.idle_newBlock s.newBlock.newBlock.builder
  have size : s.newBlock.builder.size = s.nextBlock + 1 := nextBlock_newBlock
  have size' : s.newBlock.newBlock.builder.size = s.nextBlock + 2 :=
    nextBlock_newBlock.trans (congrArg (· + 1) nextBlock_newBlock)
  rw [size] at second
  rw [size'] at third
  exact ⟨(Builder.idle_newBlock s.builder).newBlock.newBlock, second.newBlock, third⟩

theorem frame_newBlocks {out : BlockId → Prop} : s.builder.Frame (fun p => p = s.block ∨
    p = s.nextBlock ∨ p = s.nextBlock + 1 ∨ p = s.nextBlock + 2) out
    s.newBlock.newBlock.newBlock.builder := by
  have size : s.newBlock.builder.size = s.nextBlock + 1 := nextBlock_newBlock
  have size' : s.newBlock.newBlock.builder.size = s.nextBlock + 2 :=
    nextBlock_newBlock.trans (congrArg (· + 1) nextBlock_newBlock)
  have start : s.builder.Frame (· = s.block) out s.builder := Builder.frame_refl _
  refine start.newBlock.newBlock.newBlock.mono fun p => ?_
  change ((p = s.block ∨ p = s.nextBlock) ∨ p = s.newBlock.builder.size) ∨
    p = s.newBlock.newBlock.builder.size → _
  rw [size, size']
  rintro (((h | h) | h) | h)
  · exact .inl h
  · exact .inr (.inl h)
  · exact .inr (.inr (.inl h))
  · exact .inr (.inr (.inr h))

theorem ne_block_of_le (h : s.Open) {p : BlockId} (new : s.nextBlock ≤ p) : p ≠ s.block :=
  Nat.ne_of_gt (Nat.lt_of_lt_of_le h.lt new)

/-- A jump to a block that a form has added. -/
theorem frame_jump {b : Builder} {live : BlockId → Prop} (frame : b.Frame live (fun _ => False) s.builder)
    (within : b.Within s.builder) (target next : BlockId) (new : b.size ≤ target) :
    b.Frame (fun p => live p ∧ p ≠ s.block) (fun _ => False) (s.jump target next).builder := by
  refine (frame.terminate within fun q mem => .inl ?_).positionAt next
  cases List.mem_singleton.mp mem
  exact new

section Forms

variable (h : s.Open)

include h

theorem idle_openArms (c : ValueId) : (s.openArms c).builder.Idle s.nextBlock ∧
    (s.openArms c).builder.Idle (s.nextBlock + 1) ∧
    (s.openArms c).builder.Idle (s.nextBlock + 2) := by
  obtain ⟨first, second, third⟩ := idle_newBlocks s
  have kept {p : BlockId} (waits : s.newBlock.newBlock.newBlock.builder.Idle p)
      (new : s.nextBlock ≤ p) : (s.openArms c).builder.Idle p := by
    obtain ⟨lt, empty, going⟩ := waits.terminate (ne_block_of_le h new)
      (.condBr c s.nextBlock (s.nextBlock + 1))
    exact ⟨lt, empty, going⟩
  exact ⟨kept first (Nat.le_refl _), kept second (Nat.le_add_right _ 1),
    kept third (Nat.le_add_right _ 2)⟩

theorem open_openArms (c : ValueId) : (s.openArms c).Open :=
  (idle_openArms h c).1.open_positionAt

omit h in
/-- What is new and not yet closed after the branch are its two arms and their merge. -/
theorem frame_openArms (c : ValueId) : s.builder.Frame
    (fun p => p = s.nextBlock ∨ p = s.nextBlock + 1 ∨ p = s.nextBlock + 2) (fun _ => False)
    (s.openArms c).builder := by
  have ended : s.builder.Frame _ (fun _ => False) _ := frame_newBlocks.terminate (.inl rfl)
    (t := .condBr c s.nextBlock (s.nextBlock + 1)) fun q mem => .inl ?_
  · refine (ended.positionAt s.nextBlock).mono fun p => ?_
    rintro ⟨here | arms, other⟩
    · exact absurd here other
    · exact arms
  · rcases List.mem_cons.mp mem with rfl | mem
    · exact Nat.le_refl _
    · cases List.mem_singleton.mp mem
      exact Nat.le_succ _

theorem idle_openLoop : s.openLoop.builder.Idle s.nextBlock ∧
    s.openLoop.builder.Idle (s.nextBlock + 1) ∧ s.openLoop.builder.Idle (s.nextBlock + 2) := by
  obtain ⟨first, second, third⟩ := idle_newBlocks s
  exact ⟨idle_jump _ _ first (ne_block_of_le h (Nat.le_refl _)),
    idle_jump _ _ second (ne_block_of_le h (Nat.le_add_right _ 1)),
    idle_jump _ _ third (ne_block_of_le h (Nat.le_add_right _ 2))⟩

theorem open_openLoop : s.openLoop.Open :=
  (idle_openLoop h).1.open_positionAt

omit h in
/-- What is new and not yet closed are the three blocks of the loop. -/
theorem frame_openLoop : s.builder.Frame
    (fun p => p = s.nextBlock ∨ p = s.nextBlock + 1 ∨ p = s.nextBlock + 2) (fun _ => False)
    s.openLoop.builder := by
  refine (frame_jump frame_newBlocks (.inl rfl) _ _ (Nat.le_refl _)).mono fun p => ?_
  rintro ⟨here | blocks, other⟩
  · exact absurd here other
  · exact blocks

section Arms

variable {c : ValueId} {s₂ : State} (first : (s.openArms c).Region s₂)

include first

/-- While the first arm is built, the second and the block after both wait. -/
theorem idle_firstArm : s₂.builder.Idle (s.nextBlock + 1) ∧ s₂.builder.Idle (s.nextBlock + 2) ∧
    s.nextBlock + 1 ≠ s₂.block ∧ s.nextBlock + 2 ≠ s₂.block := by
  obtain ⟨-, second, third⟩ := idle_openArms h c
  obtain ⟨second, other⟩ := first.idle second (Nat.succ_ne_self _)
  obtain ⟨third, other'⟩ := first.idle third (by
    change s.nextBlock + 2 ≠ s.nextBlock
    grind)
  exact ⟨second, third, other, other'⟩

theorem open_secondArm : (s₂.jump (s.nextBlock + 2) (s.nextBlock + 1)).Open := by
  obtain ⟨second, -, other, -⟩ := idle_firstArm h first
  have waits := idle_jump (s.nextBlock + 2) (s.nextBlock + 1) second other
  exact ⟨waits.lt, waits.going⟩

variable {s₃ : State} (second : (s₂.jump (s.nextBlock + 2) (s.nextBlock + 1)).Region s₃)

include second

/-- The merge of a branch still waits when the second arm has been lowered. -/
theorem idle_secondArm : s₃.builder.Idle (s.nextBlock + 2) ∧ s.nextBlock + 2 ≠ s₃.block := by
  obtain ⟨-, third, -, other⟩ := idle_firstArm h first
  have waits := idle_jump (s.nextBlock + 2) (s.nextBlock + 1) third other
  exact second.idle waits (Nat.succ_ne_self (s.nextBlock + 1))

theorem open_merge : (s₃.jump (s.nextBlock + 2) (s.nextBlock + 2)).Open := by
  obtain ⟨third, other⟩ := idle_secondArm h first second
  have waits := idle_jump (s.nextBlock + 2) (s.nextBlock + 2) third other
  exact ⟨waits.lt, waits.going⟩

/-- Two arms and the block where they meet. -/
theorem region_arms : s.Region (s₃.jump (s.nextBlock + 2) (s.nextBlock + 2)) := by
  have n_le : s.builder.size ≤ s.nextBlock := Nat.le_refl _
  have opened := (frame_openArms c).append h.lt (.inr n_le) first.toFrame nofun
  have within₂ : s.builder.Within s₂.builder :=
    Builder.Within.trans (.inr n_le) (frame_openArms c).size_le first.within
  -- the first arm ends in the merge, and the second one is entered
  have crossed := frame_jump opened within₂ (s.nextBlock + 2) (s.nextBlock + 1)
    (Nat.le_add_right _ 2)
  have within₂' : s.builder.Within (s₂.jump (s.nextBlock + 2) (s.nextBlock + 1)).builder :=
    .inr (Nat.le_add_right _ 1)
  have closed := crossed.append h.lt within₂' second.toFrame nofun
  have within₃ : s.builder.Within s₃.builder :=
    within₂'.trans crossed.size_le second.within
  have merged := frame_jump closed within₃ (s.nextBlock + 2) (s.nextBlock + 2)
    (Nat.le_add_right _ 2)
  refine { merged.mono ?_ with
    isOpen := open_merge h first second
    within := .inr (Nat.le_add_right _ 2) }
  -- of the blocks that were open each is closed by now, but for the merge
  intro p
  change ((((_ ∧ p ≠ s.nextBlock ∨ p = s₂.block) ∧ p ≠ s₂.block) ∧ p ≠ s.nextBlock + 1 ∨
    p = s₃.block) ∧ p ≠ s₃.block) → p = s.nextBlock + 2
  grind

end Arms

section Loop

variable {c : ValueId} {s₁ : State} (tested : s.openLoop.Region s₁)

/-- The body of a loop is begun where its condition holds. -/
abbrev State.openBody (s : State) (n : Nat) (c : ValueId) : State :=
  (s.terminate (.condBr c (n + 1) (n + 2))).positionAt (n + 1)

include tested

/-- While the condition is built, the body and the block after both wait. -/
theorem idle_loopTest : s₁.builder.Idle (s.nextBlock + 1) ∧ s₁.builder.Idle (s.nextBlock + 2) ∧
    s.nextBlock + 1 ≠ s₁.block ∧ s.nextBlock + 2 ≠ s₁.block := by
  obtain ⟨-, second, third⟩ := idle_openLoop h
  obtain ⟨second, other⟩ := tested.idle second (Nat.succ_ne_self _)
  obtain ⟨third, other'⟩ := tested.idle third (by
    change s.nextBlock + 2 ≠ s.nextBlock
    grind)
  exact ⟨second, third, other, other'⟩

theorem idle_openBody : (s₁.openBody s.nextBlock c).builder.Idle (s.nextBlock + 1) ∧
    (s₁.openBody s.nextBlock c).builder.Idle (s.nextBlock + 2) := by
  obtain ⟨second, third, other, other'⟩ := idle_loopTest h tested
  obtain ⟨lt, empty, going⟩ := second.terminate other
    (.condBr c (s.nextBlock + 1) (s.nextBlock + 2))
  obtain ⟨lt', empty', going'⟩ := third.terminate other'
    (.condBr c (s.nextBlock + 1) (s.nextBlock + 2))
  exact ⟨⟨lt, empty, going⟩, ⟨lt', empty', going'⟩⟩

theorem open_openBody : (s₁.openBody s.nextBlock c).Open := by
  obtain ⟨waits, -⟩ := idle_openBody (c := c) h tested
  exact ⟨waits.lt, waits.going⟩

variable {s₂ : State} (body : (s₁.openBody s.nextBlock c).Region s₂)

include body

/-- The block behind a loop still waits when its body has been lowered. -/
theorem idle_loopBody : s₂.builder.Idle (s.nextBlock + 2) ∧ s.nextBlock + 2 ≠ s₂.block :=
  body.idle (idle_openBody h tested).2 (Nat.succ_ne_self (s.nextBlock + 1))

/-- A condition, a body that leads back to it, and the block after. -/
theorem region_loop : s.Region (s₂.jump s.nextBlock (s.nextBlock + 2)) := by
  have n_le : s.builder.size ≤ s.nextBlock := Nat.le_refl _
  -- the three blocks and the condition
  have entered := frame_openLoop.append h.lt (.inr n_le) tested.toFrame nofun
  have within₁ : s.builder.Within s₁.builder :=
    Builder.Within.trans (.inr n_le) frame_openLoop.size_le tested.within
  -- the condition is left for the body or the block after, both of them new
  have targets : ∀ q ∈ (Terminator.condBr c (s.nextBlock + 1) (s.nextBlock + 2)).successors,
      s.builder.size ≤ q ∨ False := by
    intro q mem
    rcases List.mem_cons.mp mem with rfl | mem
    · exact .inl (Nat.le_add_right _ 1)
    · cases List.mem_singleton.mp mem
      exact .inl (Nat.le_add_right _ 2)
  have split := (entered.terminate within₁ targets).positionAt (s.nextBlock + 1)
  have within₁' : s.builder.Within (s₁.openBody s.nextBlock c).builder :=
    .inr (Nat.le_add_right _ 1)
  have closed := split.append h.lt within₁' body.toFrame nofun
  have within₂ : s.builder.Within s₂.builder :=
    within₁'.trans split.size_le body.within
  -- the body goes back to the condition, so that only the block after is live
  have left := frame_jump closed within₂ s.nextBlock (s.nextBlock + 2) n_le
  obtain ⟨waits, other⟩ := idle_loopBody h tested body
  have waits := idle_jump s.nextBlock (s.nextBlock + 2) waits other
  refine { left.mono ?_ with
    isOpen := ⟨waits.lt, waits.going⟩
    within := .inr (Nat.le_add_right _ 2) }
  intro p
  change ((((_ ∧ p ≠ s.nextBlock ∨ p = s₁.block) ∧ p ≠ s₁.block) ∧ p ≠ s.nextBlock + 1 ∨
    p = s₂.block) ∧ p ≠ s₂.block) → p = s.nextBlock + 2
  grind

end Loop

end Forms

/-- Operands are tested one after the other: each of the blocks `exits` leaves for `merge`, and
nothing else does. -/
structure Branches (merge : BlockId) (s : State) (exits : List BlockId) (s' : State) : Prop
    extends s.builder.Frame (· = s'.block) (· = merge) s'.builder where
  isOpen : s'.Open
  within : s.builder.Within s'.builder
  nodup : exits.Nodup
  new : ∀ p ∈ exits, p = s.block ∨ s.nextBlock ≤ p
  done : ∀ p ∈ exits, p < s'.nextBlock ∧ p ≠ s'.block
  leads_merge : ∀ p, s'.builder.Leads p merge ↔ s.builder.Leads p merge ∨ p ∈ exits

theorem branches_nil {merge : BlockId} (h : s.Open) : Branches merge s [] s :=
  { Builder.frame_refl s.builder with
    isOpen := h
    within := .inl rfl
    nodup := .nil
    new := nofun
    done := nofun
    leads_merge := fun p => by simp only [List.not_mem_nil, or_false] }

/-- How a block ends that tests an operand: the truth that settles the result leaves for `merge`. -/
abbrev leaving (decides : Bool) (merge : BlockId) (truth : ValueId) (next : BlockId) : Terminator :=
  if decides then .condBr truth merge next else .condBr truth next merge

/-- An operand is left for the merge or for the operand behind it. -/
theorem mem_successors_leaving {decides : Bool} {merge next q : BlockId} {truth : ValueId} :
    q ∈ (leaving decides merge truth next).successors ↔ q = merge ∨ q = next := by
  cases decides
  · simp [leaving, Terminator.successors, or_comm]
  · simp [leaving, Terminator.successors]

section Branches

variable {decides : Bool} {merge : BlockId} {truth : ValueId} {exits : List BlockId}

/-- Testing an operand closes its block and no other. -/
theorem endAt_test (h : s.Open) (p : BlockId) : (s.test decides merge truth).builder.endAt p
    = if p = s.block then some (leaving decides merge truth s.nextBlock)
      else s.builder.endAt p := by
  refine (Builder.endAt_terminate _).trans ?_
  change (if p = s.block ∧ p < s.builder.newBlock.2.size then _
    else s.builder.newBlock.2.endAt p) = _
  rw [Builder.endAt_newBlock, Builder.size_newBlock]
  by_cases here : p = s.block
  · subst here
    rw [if_pos ⟨rfl, Nat.lt_succ_of_lt h.lt⟩, if_pos rfl]
  · rw [if_neg (fun both => here both.1), if_neg here]

theorem nextBlock_test : (s.test decides merge truth).nextBlock = s.nextBlock + 1 :=
  (Builder.size_terminate _).trans nextBlock_newBlock

theorem open_test (h : s.Open) : (s.test decides merge truth).Open := by
  have waits := (Builder.idle_newBlock s.builder).terminate (ne_block_of_le h (Nat.le_refl _))
    (leaving decides merge truth s.nextBlock)
  exact ⟨waits.lt, waits.going⟩

theorem frame_test : s.builder.Frame (· = s.nextBlock) (· = merge)
    (s.test decides merge truth).builder := by
  have targets : ∀ q ∈ (leaving decides merge truth s.nextBlock).successors,
      s.builder.size ≤ q ∨ q = merge := by
    intro q mem
    rcases mem_successors_leaving.mp mem with rfl | rfl
    · exact .inr rfl
    · exact .inl (Nat.le_refl _)
  have start : s.builder.Frame (· = s.block) (· = merge) s.builder := Builder.frame_refl _
  refine ((start.newBlock.terminate (.inl rfl) targets).positionAt s.nextBlock).mono fun p => ?_
  rintro ⟨here | new, other⟩
  · exact absurd here other
  · exact new

/-- The merge waits while the operands are tested. -/
theorem idle_test (waits : s.builder.Idle merge) (other : merge ≠ s.block) :
    (s.test decides merge truth).builder.Idle merge ∧
      merge ≠ (s.test decides merge truth).block := by
  obtain ⟨lt, empty, going⟩ := waits.newBlock.terminate other
    (leaving decides merge truth s.nextBlock)
  exact ⟨⟨lt, empty, going⟩, Nat.ne_of_lt waits.lt⟩

/-- The first operand ends its block and leaves the rest to the blocks that follow. -/
theorem branches_cons (s₁ : State) (h : s.Open) (waits : s.builder.Idle merge) (value : s.Region s₁)
    (rest : Branches merge (s₁.test decides merge truth) exits s') :
    Branches merge s (s₁.block :: exits) s' := by
  have n_le : s.builder.size ≤ s₁.nextBlock := value.size_le
  have size : (s₁.test decides merge truth).builder.size = s₁.nextBlock + 1 := nextBlock_test
  have grown : s₁.nextBlock + 1 ≤ s'.nextBlock := size ▸ rest.size_le
  have tested : s.builder.Frame _ (· = merge) (s₁.test decides merge truth).builder :=
    (value.toFrame.widen nofun).append h.lt value.within frame_test fun _ => .inr
  have within : s.builder.Within (s₁.test decides merge truth).builder := .inr n_le
  have whole := tested.append h.lt within rest.toFrame fun _ => .inr
  -- all exits of the other operands are new, so the first one is not among them
  have later : ∀ p ∈ exits, s₁.nextBlock ≤ p := by
    intro p hp
    rcases rest.new p hp with rfl | new
    · exact Nat.le_refl _
    · exact Nat.le_of_succ_le (Nat.le_trans (Nat.le_of_eq size.symm) new)
  have last : s₁.nextBlock ≤ s'.block := by
    rcases rest.within with same | new
    · exact Nat.le_of_eq same.symm
    · exact Nat.le_of_succ_le (Nat.le_trans (Nat.le_of_eq size.symm) new)
  have lt := value.isOpen.lt
  refine { whole.mono ?_ with
    isOpen := rest.isOpen
    within := within.trans tested.size_le rest.within
    nodup := ?_
    new := ?_
    done := ?_
    leads_merge := ?_ }
  · -- the merge is live from outside only
    rintro p (⟨⟨here, elsewhere⟩ | here, other⟩ | here)
    · exact absurd here elsewhere
    · exact absurd here other
    · exact here
  · refine List.nodup_cons.mpr ⟨fun mem => ?_, rest.nodup⟩
    exact Nat.lt_irrefl _ (Nat.lt_of_lt_of_le lt (later _ mem))
  · -- every exit is a block of its own operand
    intro p hp
    rcases List.mem_cons.mp hp with rfl | hp
    · exact value.within
    · exact .inr (Nat.le_trans n_le (later p hp))
  · intro p hp
    rcases List.mem_cons.mp hp with rfl | hp
    · exact ⟨Nat.lt_of_lt_of_le lt (Nat.le_of_succ_le grown), Nat.ne_of_lt (Nat.lt_of_lt_of_le lt last)⟩
    · exact rest.done p hp
  · intro p
    have old := value.leads_iff h (p := p) waits.lt
    rw [rest.leads_merge p, ← old, List.mem_cons, ← or_assoc]
    refine or_congr_left ?_
    unfold Builder.Leads
    rw [endAt_test value.isOpen]
    -- only the block of this operand has got an edge that the others do not have
    by_cases here : p = s₁.block
    · subst here
      simp only [if_true, or_true, iff_true]
      exact ⟨_, rfl, mem_successors_leaving.mpr (.inl rfl)⟩
    · simp only [here, if_false, or_false]

theorem open_newBlock (h : s.Open) : s.newBlock.Open where
  lt := Nat.lt_of_lt_of_eq (Nat.lt_succ_of_lt h.lt) Builder.size_newBlock.symm
  going := Builder.endAt_newBlock.trans h.going

/-- The block where the operands meet waits until then. -/
theorem idle_branches (waits : s.builder.Idle merge) (other : merge ≠ s.block)
    (rest : Branches merge s exits s') : s'.builder.Idle merge ∧ merge ≠ s'.block := by
  obtain ⟨instrs, ends⟩ := rest.others merge waits.lt other
  refine ⟨⟨Nat.lt_of_lt_of_le waits.lt rest.size_le, ?_, ?_⟩,
    rest.within.ne_of_old waits.lt other⟩
  · rw [instrs, waits.empty]
  · rw [ends, waits.going]

/-- The operands of `and` or `or`, and the block where they meet. -/
theorem region_logic (h : s.Open) (rest : Branches s.nextBlock s.newBlock exits s') :
    s.Region (s'.jump s.nextBlock s.nextBlock) := by
  have added : s.builder.Frame _ (fun _ => False) s.newBlock.builder :=
    (Builder.frame_refl s.builder).newBlock
  have stays : s.builder.Within s.newBlock.builder := .inl rfl
  have within : s.builder.Within s'.builder := stays.trans added.size_le rest.within
  have operands := added.append h.lt (.inl rfl) rest.toFrame fun q same =>
    .inl (Nat.le_of_eq same.symm)
  have left := frame_jump operands within s.nextBlock s.nextBlock
    (Nat.le_refl _)
  obtain ⟨waits, other⟩ := idle_branches (s := s.newBlock) (Builder.idle_newBlock s.builder)
    (ne_block_of_le h (Nat.le_refl _)) rest
  have waits := idle_jump s.nextBlock s.nextBlock waits other
  refine { left.mono ?_ with
    isOpen := ⟨waits.lt, waits.going⟩
    within := .inr (Nat.le_refl _) }
  -- the merge is live, the operands have all been left for it
  rintro p ⟨⟨here | new, elsewhere⟩ | here, other⟩
  · exact absurd here elsewhere
  · exact new
  · exact absurd here other

end Branches

mutual

/-- The code of an expression is a region. -/
theorem Value.region : ∀ {e : Expr} {s : State} {a : Operand} {s' : State}, Value e s a s' →
    s.Open → s.Region s'
  | _, _, _, _, .int, h => Builder.region_refl h
  | _, _, _, _, .variable _, h => region_emit h (by nofun)
  | _, _, _, _, .letIn initial inner, h =>
    (initial.region h).andThen h fun h₁ =>
      (region_enterScope h₁ _).andThen h₁ fun h₂ => inner.region h₂
  | _, _, _, _, .print _ _ printed, h => printed.region h
  | _, _, _, _, .store _ value _ _, h =>
    (value.region h).andThen h fun h₁ => region_perform h₁ _
  | _, _, _, _, .introduce _ value _, h =>
    (value.region h).andThen h fun h₁ => region_bindNew h₁ (fun _ _ => ⟨rfl, rfl⟩) _ _
  | _, _, _, _, .const _ value _, h =>
    (value.region h).andThen h fun h₁ =>
      region_bindNew h₁ (fun u slot => bindInner_keeps u _ slot) _ _
  -- a branch comes to an end in its merge, where the phi node stands first
  | _, _, _, _, .cond _ tested first second, h =>
    (tested.region h).andThen h fun h₁ =>
      have yes := first.region (open_openArms h₁ _)
      have no := second.region (open_secondArm h₁ yes)
      (region_arms h₁ yes no).emit_phi (ne_block_of_le h₁ (Nat.le_add_right _ 2)) _
  | _, _, _, _, .not _ value, h =>
    (value.region h).andThen h fun h₁ =>
      (region_emit h₁ (by nofun)).andThen h₁ fun h₂ => region_emit h₂ (by nofun)
  | _, _, _, _, .logicEmpty _, h => Builder.region_refl h
  | _, s, _, _, .logic _ tests, h =>
    have elsewhere := ne_block_of_le h (Nat.le_refl s.nextBlock)
    have operands := tests.branches (open_newBlock h) (Builder.idle_newBlock s.builder) elsewhere
    (region_logic h operands).emit_phi elsewhere _
  | _, _, _, _, .loop _ tested body, h =>
    have condition := tested.region (open_openLoop h)
    have inner := body.region (open_openBody h condition)
    region_loop h condition inner
  -- the body is built in another builder
  | _, s, _, _, .defun _ _ defined _, h => by
    have same := congrArg UnitState.builder (current_of_define? defined).1
    exact (congrArg s.builder.Region same).mpr (Builder.region_refl h)
  | _, _, _, _, .lambda _, h => Builder.region_refl h
  | _, _, _, _, .neg _ value, h =>
    (value.region h).andThen h fun h₁ => region_emit h₁ (by nofun)
  | _, _, _, _, .arith _ first rest, h =>
    (first.region h).andThen h fun h₁ => rest.region h₁
  | _, _, _, _, .call _ _ arguments found, h =>
    (arguments.region h).andThen h fun h₁ => region_call h₁ found _

theorem Test.region : ∀ {e : Expr} {s : State} {v : ValueId} {s' : State}, Test e s v s' →
    s.Open → s.Region s'
  | _, _, _, _, .compare _ first second, h =>
    (first.region h).andThen h fun h₁ =>
      (second.region h₁).andThen h₁ fun h₂ => region_emit h₂ (by nofun)
  | _, _, _, _, .nonzero _ value, h =>
    (value.region h).andThen h fun h₁ => region_emit h₁ (by nofun)

theorem Values.region : ∀ {es : List Expr} {s : State} {as : List Operand} {s' : State},
    Values es s as s' → s.Open → s.Region s'
  | _, _, _, _, .nil, h => Builder.region_refl h
  | _, _, _, _, .cons first rest, h =>
    (first.region h).andThen h fun h₁ => rest.region h₁

theorem Prints.region : ∀ {es : List Expr} {s s' : State}, Prints es s s' →
    s.Open → s.Region s'
  | _, _, _, .nil, h => Builder.region_refl h
  | _, s, _, .str rest, h =>
    (region_perform (s := (s.intern _).2) h _).andThen h fun h₁ => rest.region h₁
  | _, _, _, .int value rest, h =>
    (value.region h).andThen h fun h₁ =>
      (region_perform h₁ _).andThen h₁ fun h₂ => rest.region h₂

theorem Operands.region : ∀ {op : ArithOp} {acc : Operand} {es : List Expr} {s : State}
    {r : Operand} {s' : State}, Operands op acc es s r s' → s.Open → s.Region s'
  | _, _, _, _, _, _, .nil, h => Builder.region_refl h
  | _, _, _, _, _, _, .cons value _ rest, h =>
    (value.region h).andThen h fun h₁ =>
      (region_emit h₁ (by nofun)).andThen h₁ fun h₂ => rest.region h₂

theorem Tests.branches : ∀ {decides : Bool} {merge : BlockId} {es : List Expr} {s : State}
    {exits : List BlockId} {s' : State}, Tests decides merge es s exits s' →
    s.Open → s.builder.Idle merge → merge ≠ s.block → Branches merge s exits s'
  | _, _, _, _, _, _, .nil, h, _, _ => branches_nil h
  | _, _, _, s, _, _, .cons value rest, h, waits, other =>
    have compared : s.Region (State.emit _ (.compare .ne _ (.const 0))) :=
      (value.region h).andThen h fun h₁ => region_emit h₁ (by nofun)
    have apart := compared.idle waits other
    have apart' := idle_test apart.1 apart.2
    branches_cons (State.emit _ _) h waits compared
      (rest.branches (open_test compared.isOpen) apart'.1 apart'.2)

end

end TwinLisp.Graph.Lowering
