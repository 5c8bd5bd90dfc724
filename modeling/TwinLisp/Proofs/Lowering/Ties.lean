import TwinLisp.Graph.Connected
import TwinLisp.Proofs.Graph.Finish
import TwinLisp.Proofs.Graph.Ties
import TwinLisp.Proofs.Lowering.Order.Blocks

/-! The code of every form hangs together. -/

namespace TwinLisp.Graph.Lowering

/-- All bodies that have been finished are connected. -/
def State.Connected (s : State) : Prop :=
  ∀ (j : Nat) x body, s.module.units[j]? = some x → x.body = some body → body.Connected

/-- The code from one state to another hangs together, and bodies that it finishes are connected. -/
structure State.Ties (s s' : State) : Prop extends s.builder.Ties s'.builder where
  bodies : s.Connected → s'.Connected

variable {s s₁ s₂ s₃ s' : State} {c : ValueId}

namespace State.Ties

theorem refl (h : s.Open) : s.Ties s := ⟨.refl h, id⟩

theorem trans (first : s.Ties s₁) (rest : s₁.Ties s₂) : s.Ties s₂ :=
  ⟨first.toTies.trans rest.toTies, rest.bodies ∘ first.bodies⟩

end State.Ties

theorem ties_perform (h : s.Open) (effect : Effect) : s.Ties (s.perform effect) :=
  ⟨.straight h (Builder.size_push _) rfl fun _ => Builder.endAt_push _, id⟩

theorem ties_emit (h : s.Open) (operation : Operation) : s.Ties (s.emit operation) :=
  ⟨.straight h (Builder.size_push _) rfl fun _ => Builder.endAt_push _, id⟩

theorem ties_bindNew (h : s.Open) {bind : UnitState → String → SlotId → UnitState} {name : String}
    (keeps : ∀ u slot, (bind u name slot).unit = u.unit ∧ (bind u name slot).builder = u.builder)
    (frozen : Bool) (value : Operand) : s.Ties (s.bindNew bind name frozen value) := by
  refine ⟨?_, id⟩
  rw [builder_bindNew keeps]
  exact .straight h (Builder.size_push _) rfl fun _ => Builder.endAt_push _

theorem ties_bindAll (h : s.Open) (pairs : List (String × Operand)) : s.Ties (s.bindAll pairs) := by
  induction pairs generalizing s with
  | nil => exact .refl h
  | cons pair pairs ih =>
    have first := ties_bindNew h (fun u slot => bindInner_keeps u pair.1 slot) false pair.2
    exact first.trans (ih first.isOpen)

theorem ties_enterScope (h : s.Open) (pairs : List (String × Operand)) :
    s.Ties (s.enterScope pairs) :=
  have bound := ties_bindAll (s := { s with current := s.current.pushScope }) h pairs
  ⟨bound.toTies, bound.bodies⟩

theorem ties_leaveScope (h : s.Open) : s.Ties s.leaveScope := ⟨.refl h, id⟩

theorem ties_intern (h : s.Open) (text : String) : s.Ties (s.intern text).2 := by
  obtain ⟨strings, -, same⟩ := intern_eq s text
  rw [same]
  exact ⟨.refl h, id⟩

/-- Finding a unit leaves the code alone. -/
theorem ties_of_current (h : s.Open) (same : s₁.current = s.current)
    (bodies : ∀ {j : Nat} {x body}, s₁.module.units[j]? = some x → x.body = some body →
      ∃ y, s.module.units[j]? = some y ∧ y.body = some body) : s.Ties s₁ := by
  refine ⟨?_, fun connected j x body hx hbody => ?_⟩
  · unfold State.builder
    rw [same]
    exact .refl h
  · obtain ⟨y, hy, hbody'⟩ := bodies hx hbody
    exact connected j y body hy hbody'

/-- Finding a callee leaves the code as it is. -/
theorem ties_callee (h : s.Open) {name : String} {arity : Nat} {unit : UnitId}
    (found : s.callee? name arity = some (unit, s₁)) : s.Ties s₁ :=
  ties_of_current h (current_of_callee? found).1 (body_of_callee? found)

/-- A body that nothing returned from before returns from the block where it is finished only. -/
theorem returns_finish_iff {b : Builder} (h : b.Open) (goes : ∀ p value, b.endAt p ≠ some (.ret value))
    (result : Operand) (p : BlockId) :
    (b.terminate (.ret result)).finish.Returns p ↔ p = b.current := by
  constructor
  · rintro ⟨k, value, found, ended⟩
    rw [Builder.finish_block? (Builder.lt_of_finish_block? found)] at found
    cases found
    change (b.terminate _).endAt p = _ at ended
    rw [Builder.endAt_terminate] at ended
    split at ended
    next here => exact here.1
    next => exact absurd ended (goes p value)
  · rintro rfl
    have inside : b.current < (b.terminate (.ret result)).size :=
      Builder.size_terminate (b := b) _ ▸ h.lt
    refine ⟨_, result, Builder.finish_block? inside, ?_⟩
    exact (Builder.endAt_terminate _).trans (if_pos ⟨rfl, h.lt⟩)

/-- No code leads back to the block where a unit begins. -/
theorem not_leads_zero {arity : Nat} {b : Builder} (region : (Builder.new arity).Region b)
    (p : BlockId) : ¬b.Leads p 0 := by
  intro leads
  rcases region.leads p 0 leads with ⟨t, ended, -⟩ | new | none
  · rw [endAt_new] at ended
    cases ended
  · exact absurd new (Nat.not_succ_le_zero 0)
  · exact none

/-- A finished body is connected if its code hangs together from its beginning on. -/
theorem connected_finish {arity : Nat} {b : Builder} (region : (Builder.new arity).Region b)
    (ties : (Builder.new arity).Ties b) (result : Operand) :
    (b.terminate (.ret result)).finish.Connected := by
  have size : (b.terminate (.ret result)).finish.blocks.length = b.size := by
    rw [Builder.length_finish, Builder.size_terminate]
  have kept (p q : BlockId) (h : b.Reaches p q) : (b.terminate (.ret result)).finish.Reaches p q :=
    Relation.ReflTransGen.mono
      (fun p q leads => Builder.leads_finish.mpr (leads.terminate region.isOpen _)) p q h
  have covered (p : BlockId) (inside : p < (b.terminate (.ret result)).finish.blocks.length) :
      (Builder.new arity).Covers b p := ⟨size ▸ inside, p.eq_zero_or_pos⟩
  have goes (p : BlockId) (value : Operand) : b.endAt p ≠ some (.ret value) := by
    intro ended
    have returned := ties.returns p value ended
    rw [endAt_new] at returned
    cases returned
  -- entry without predecessor, reached from it, the one return, and all blocks lead there
  refine ⟨fun p leads => ?_, fun p inside => kept 0 p (ties.forth p (covered p inside)), b.current,
    returns_finish_iff region.isOpen goes result, fun p inside => kept p _ (ties.back p (covered p inside))⟩
  rcases Builder.leads_terminate (Builder.leads_finish.mp leads) with leads | ⟨-, mem⟩
  · exact not_leads_zero region p leads
  · exact absurd mem List.not_mem_nil

/-- A unit is built apart from the code around it, and its body is connected. -/
theorem ties_defun (h : s.Open) {name : String} {params : List String} {unit : UnitId}
    (defined : s.define? name params.length = some (unit, s₁))
    (region : (s₁.enterUnit unit params).Region s₂) (body : (s₁.enterUnit unit params).Ties s₂)
    (result : Operand) : s.Ties (s₂.leaveUnit unit result s₁) := by
  have found := ties_of_current h (current_of_define? defined).1 (body_of_define? defined)
  have entered := ties_bindAll (s := s₁.begin unit params.length) (open_new _)
    (params.zip ((List.range params.length).map .value))
  have whole : (s₁.begin unit params.length).Region s₂ :=
    region_enterUnit.trans (open_new _) region
  have connected := connected_finish whole (entered.trans body).toTies result
  -- the code around is as it was, and only the body of this unit is new
  refine ⟨found.toTies, fun before j x code hx hcode => ?_⟩
  rcases unit_leaveUnit_cases hx with ⟨-, y, -, rfl⟩ | ⟨-, hx⟩
  · cases hcode
    exact connected
  · exact body.bodies (entered.bodies (found.bodies before)) j x code hx hcode

/-- A test goes on in a new block, to which it leads. -/
theorem ties_test (h : s.Open) (decides : Bool) (merge : BlockId) (truth : ValueId) :
    s.Ties (s.test decides merge truth) := by
  have next : (s.test decides merge truth).builder.Reaches s.block s.nextBlock :=
    Builder.reaches_of_mem_successors (open_newBlock h) (t := leaving decides merge truth s.nextBlock)
      (mem_successors_leaving.mpr (.inr rfl))
  -- the blocks of one test: the one it is in, and the one it goes on in
  have only (p : BlockId) (here : s.builder.Covers (s.test decides merge truth).builder p) :
      p = s.block ∨ p = s.nextBlock :=
    here.2.imp id (Nat.le_antisymm (Nat.le_of_lt_succ (Nat.lt_of_lt_of_eq here.1 nextBlock_test)))
  have kept : s.builder.Preserves (s.test decides merge truth).builder := by
    refine (Builder.Preserves.newBlock s.builder).trans (.trans
      (.terminate (t := leaving decides merge truth s.nextBlock) (open_newBlock h) ?_)
      (.positionAt _ s.nextBlock))
    cases decides <;> nofun
  refine ⟨⟨kept, open_test h, ⟨(open_test h).lt, .inr (Nat.le_refl _)⟩, fun p here => ?_,
    fun p here => ?_⟩, id⟩
  · rcases only p here with rfl | rfl
    · exact .refl
    · exact next
  · rcases only p here with rfl | rfl
    · exact next
    · exact .refl

theorem preserves_jump (h : s.Open) (target next : BlockId) :
    s.builder.Preserves (s.jump target next).builder :=
  (Builder.Preserves.terminate h (t := .br target) nofun).trans (.positionAt _ next)

theorem preserves_branch (h : s.Open) (yes no next : BlockId) :
    s.builder.Preserves ((s.terminate (.condBr c yes no)).positionAt next).builder :=
  (Builder.Preserves.terminate h (t := .condBr c yes no) nofun).trans (.positionAt _ next)

theorem preserves_newBlocks (s : State) :
    s.builder.Preserves s.newBlock.newBlock.newBlock.builder :=
  (Builder.Preserves.newBlock s.builder).trans
    ((Builder.Preserves.newBlock s.newBlock.builder).trans
      (Builder.Preserves.newBlock s.newBlock.newBlock.builder))

theorem reaches_jump (h : s.Open) (target next : BlockId) :
    (s.jump target next).builder.Reaches s.block target :=
  Builder.reaches_of_mem_successors h (t := .br target) (List.mem_singleton.mpr rfl)

theorem reaches_branch (h : s.Open) {yes no : BlockId} (next : BlockId) {q : BlockId}
    (mem : q ∈ [yes, no]) :
    ((s.terminate (.condBr c yes no)).positionAt next).builder.Reaches s.block q :=
  Builder.reaches_of_mem_successors h (t := .condBr c yes no) mem

section Arms

variable (h : s.Open) (first : (s.openArms c).Ties s₂)
  (second : (s₂.jump (s.nextBlock + 2) (s.nextBlock + 1)).Ties s₃)
  (opened : (s₃.jump (s.nextBlock + 2) (s.nextBlock + 2)).Open)

include h first second opened

/-- Control comes to both arms, and from each to where they meet. -/
theorem ties_arms : s.Ties (s₃.jump (s.nextBlock + 2) (s.nextBlock + 2)) := by
  have opened₀ := open_newBlocks h
  -- both arms begin in blocks that the branch was given, and end in a jump to the third
  have parts : Builder.Parts s.builder (s.openArms c).builder s₂.builder
      (s₂.jump (s.nextBlock + 2) (s.nextBlock + 1)).builder s₃.builder
      (s₃.jump (s.nextBlock + 2) (s.nextBlock + 2)).builder :=
    { before := (preserves_newBlocks s).trans (preserves_branch opened₀ _ _ _)
      between := preserves_jump first.isOpen _ _
      after := preserves_jump second.isOpen _ _
      first := rfl
      second := rfl
      last := rfl
      added := nextBlock_openArms c
      same := nextBlock_jump _ _
      same' := nextBlock_jump _ _
      isOpen := opened }
  have after : s₂.builder.Preserves (s₃.jump (s.nextBlock + 2) (s.nextBlock + 2)).builder :=
    parts.between.trans (second.toPreserves.trans parts.after)
  -- the block before the branch reaches either arm
  have branch (q : BlockId) (arm : q ∈ [s.nextBlock, s.nextBlock + 1]) :
      (s.openArms c).builder.Reaches s.block q := reaches_branch opened₀ _ arm
  -- before to arms, arms to merge
  refine ⟨parts.ties first.toTies second.toTies ?_ ?_ ?_ ?_, fun k => second.bodies (first.bodies k)⟩
  · exact ((branch _ List.mem_cons_self).kept first.toPreserves).kept after
  · exact ((branch _ (List.mem_cons_of_mem _ List.mem_cons_self)).kept first.toPreserves).kept after
  · exact ((reaches_jump first.isOpen _ _).kept second.toPreserves).kept parts.after
  · exact reaches_jump second.isOpen _ _

end Arms

section Loop

variable (h : s.Open) (tested : s.openLoop.Ties s₁) (body : (s₁.openBody s.nextBlock c).Ties s₂)
  (opened : (s₂.jump s.nextBlock (s.nextBlock + 2)).Open)

include h tested body opened

/-- Control comes to the condition, from there to the body and past it, and from the body back. -/
theorem ties_loop : s.Ties (s₂.jump s.nextBlock (s.nextBlock + 2)) := by
  have opened₀ := open_newBlocks h
  -- the condition is the first part, to which the body, the second, jumps back
  have parts : Builder.Parts s.builder s.openLoop.builder s₁.builder
      (s₁.openBody s.nextBlock c).builder s₂.builder
      (s₂.jump s.nextBlock (s.nextBlock + 2)).builder :=
    { before := (preserves_newBlocks s).trans (preserves_jump opened₀ _ _)
      between := preserves_branch tested.isOpen _ _ _
      after := preserves_jump body.isOpen _ _
      first := rfl
      second := rfl
      last := rfl
      added := nextBlock_openLoop
      same := Builder.size_terminate _
      same' := nextBlock_jump _ _
      isOpen := opened }
  have after : s₁.builder.Preserves (s₂.jump s.nextBlock (s.nextBlock + 2)).builder :=
    parts.between.trans (body.toPreserves.trans parts.after)
  -- the block before reaches the condition, and that the body and the block behind
  have enter : (s₂.jump s.nextBlock (s.nextBlock + 2)).builder.Reaches s.block s.nextBlock :=
    ((reaches_jump opened₀ s.nextBlock s.nextBlock).kept tested.toPreserves).kept after
  have test : (s₂.jump s.nextBlock (s.nextBlock + 2)).builder.Reaches s.nextBlock s₁.block :=
    (tested.forth _ tested.ending).kept after
  have branch (q : BlockId) (next : q ∈ [s.nextBlock + 1, s.nextBlock + 2]) :
      (s₂.jump s.nextBlock (s.nextBlock + 2)).builder.Reaches s₁.block q :=
    ((reaches_branch tested.isOpen (s.nextBlock + 1) next).kept body.toPreserves).kept parts.after
  have leave := branch (s.nextBlock + 2) (List.mem_cons_of_mem _ List.mem_cons_self)
  refine ⟨parts.ties tested.toTies body.toTies enter ?_ leave ?_, fun k => body.bodies (tested.bodies k)⟩
  · exact (enter.trans test).trans (branch _ List.mem_cons_self)
  · exact ((reaches_jump body.isOpen _ _).trans test).trans leave

end Loop

/-- Control comes through the operands of `and` or `or` to where they meet. -/
theorem ties_logic (operands : s.newBlock.Ties s')
    (opened : (s'.jump s.nextBlock s.nextBlock).Open) :
    s.Ties (s'.jump s.nextBlock s.nextBlock) := by
  have after := preserves_jump operands.isOpen s.nextBlock s.nextBlock
  have size : s.newBlock.nextBlock = s.nextBlock + 1 := nextBlock_newBlock
  have leave := reaches_jump operands.isOpen s.nextBlock s.nextBlock
  have through := ((operands.forth _ operands.ending).kept after).trans leave
  -- the block where the operands meet is made first, so that they cover all others
  have places (p : BlockId) (here : s.builder.Covers (s'.jump s.nextBlock s.nextBlock).builder p) :
      p = s.nextBlock ∨ s.newBlock.builder.Covers s'.builder p := by
    have lt : p < s'.nextBlock := Nat.lt_of_lt_of_eq here.1 (nextBlock_jump _ _)
    rcases here.2 with here | new
    · exact .inr ⟨lt, .inl here⟩
    · exact (Nat.eq_or_lt_of_le new).imp Eq.symm fun later =>
        ⟨lt, .inr (Nat.le_trans (Nat.le_of_eq size) later)⟩
  refine ⟨⟨((Builder.Preserves.newBlock s.builder).trans operands.toPreserves).trans after, opened,
    ⟨opened.lt, .inr (Nat.le_refl _)⟩, fun p here => ?_, fun p here => ?_⟩,
    fun k => operands.bodies k⟩
  · rcases places p here with rfl | here
    · exact through
    · exact (operands.forth p here).kept after
  · rcases places p here with rfl | here
    · exact .refl
    · exact ((operands.back p here).kept after).trans leave

mutual

/-- The code of an expression hangs together. -/
theorem Value.ties : ∀ {e : Expr} {s : State} {a : Operand} {s' : State}, Value e s a s' →
    s.Open → s.Ties s'
  | _, _, _, _, .int, h => .refl h
  | _, _, _, _, .variable _, h => ties_emit h _
  | _, _, _, _, .letIn initial inner, h =>
    have first := initial.ties h
    have scope := ties_enterScope first.isOpen _
    have body := inner.ties scope.isOpen
    first.trans (scope.trans (body.trans (ties_leaveScope body.isOpen)))
  | _, _, _, _, .print _ _ printed, h => printed.ties h
  | _, _, _, _, .store _ value _ _, h =>
    have first := value.ties h
    first.trans (ties_perform first.isOpen _)
  | _, _, _, _, .introduce _ value _, h =>
    have first := value.ties h
    first.trans (ties_bindNew first.isOpen (fun _ _ => ⟨rfl, rfl⟩) _ _)
  | _, _, _, _, .const _ value _, h =>
    have first := value.ties h
    first.trans (ties_bindNew first.isOpen (fun u slot => bindInner_keeps u _ slot) _ _)
  | _, _, _, _, .cond _ tested first second, h =>
    have test := tested.ties h
    have opened := open_openArms test.isOpen _
    have opened' := open_secondArm test.isOpen (first.region opened)
    -- the arms hang together with the block after them, which is where the phi is added
    have merged := region_arms test.isOpen (first.region opened) (second.region opened')
    have arms := ties_arms test.isOpen (first.ties opened) (second.ties opened') merged.isOpen
    test.trans (arms.trans (ties_emit merged.isOpen _))
  | _, _, _, _, .not _ value, h =>
    have first := value.ties h
    have compared := ties_emit first.isOpen _
    first.trans (compared.trans (ties_emit compared.isOpen _))
  | _, _, _, _, .logicEmpty _, h => .refl h
  | _, s, _, _, .logic _ tests, h =>
    have elsewhere := ne_block_of_le h (Nat.le_refl s.nextBlock)
    have branches := tests.branches (open_newBlock h) (Builder.idle_newBlock s.builder) elsewhere
    have merged := region_logic h branches
    (ties_logic (tests.ties (open_newBlock h)) merged.isOpen).trans (ties_emit merged.isOpen _)
  | _, _, _, _, .loop _ tested body, h =>
    have condition := tested.region (open_openLoop h)
    have opened := open_openBody h condition
    have left := region_loop h condition (body.region opened)
    ties_loop h (tested.ties (open_openLoop h)) (body.ties opened) left.isOpen
  | _, _, _, _, .defun _ _ defined body, h =>
    have opened := region_enterUnit.isOpen
    ties_defun h defined (body.region opened) (body.ties opened) _
  | _, _, _, _, .lambda _, h => .refl h
  | _, _, _, _, .neg _ value, h =>
    have first := value.ties h
    first.trans (ties_emit first.isOpen _)
  | _, _, _, _, .arith _ first rest, h =>
    have one := first.ties h
    one.trans (rest.ties one.isOpen)
  | _, _, _, _, .call _ _ arguments found, h =>
    have first := arguments.ties h
    have callee := ties_callee first.isOpen found
    first.trans (callee.trans (ties_emit callee.isOpen _))

theorem Test.ties : ∀ {e : Expr} {s : State} {v : ValueId} {s' : State}, Test e s v s' →
    s.Open → s.Ties s'
  | _, _, _, _, .compare _ first second, h =>
    have one := first.ties h
    have two := second.ties one.isOpen
    one.trans (two.trans (ties_emit two.isOpen _))
  | _, _, _, _, .nonzero _ value, h =>
    have first := value.ties h
    first.trans (ties_emit first.isOpen _)

theorem Values.ties : ∀ {es : List Expr} {s : State} {as : List Operand} {s' : State},
    Values es s as s' → s.Open → s.Ties s'
  | _, _, _, _, .nil, h => .refl h
  | _, _, _, _, .cons first rest, h =>
    have one := first.ties h
    one.trans (rest.ties one.isOpen)

theorem Prints.ties : ∀ {es : List Expr} {s s' : State}, Prints es s s' → s.Open → s.Ties s'
  | _, _, _, .nil, h => .refl h
  | _, _, _, .str rest, h =>
    have interned := ties_intern h _
    have printed := ties_perform interned.isOpen _
    interned.trans (printed.trans (rest.ties printed.isOpen))
  | _, _, _, .int value rest, h =>
    have first := value.ties h
    have printed := ties_perform first.isOpen _
    first.trans (printed.trans (rest.ties printed.isOpen))

theorem Operands.ties : ∀ {op : ArithOp} {acc : Operand} {es : List Expr} {s : State}
    {r : Operand} {s' : State}, Operands op acc es s r s' → s.Open → s.Ties s'
  | _, _, _, _, _, _, .nil, h => .refl h
  | _, _, _, _, _, _, .cons value _ rest, h =>
    have first := value.ties h
    have combined := ties_emit first.isOpen _
    first.trans (combined.trans (rest.ties combined.isOpen))

theorem Tests.ties : ∀ {decides : Bool} {merge : BlockId} {es : List Expr} {s : State}
    {exits : List BlockId} {s' : State}, Tests decides merge es s exits s' → s.Open → s.Ties s'
  | _, _, _, _, _, _, .nil, h => .refl h
  | _, _, _, _, _, _, .cons value rest, h =>
    have first := value.ties h
    have compared := ties_emit first.isOpen _
    have tested := ties_test compared.isOpen _ _ _
    first.trans (compared.trans (tested.trans (rest.ties tested.isOpen)))

end

end TwinLisp.Graph.Lowering
