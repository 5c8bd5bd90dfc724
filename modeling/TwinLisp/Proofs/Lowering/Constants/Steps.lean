import TwinLisp.Proofs.Graph.Constants
import TwinLisp.Proofs.Lowering.Order.Steps

/-! Lowering keeps to the outline of the source: the constants of each unit are held by its slots,
and every step keeps the single store to each. -/

namespace TwinLisp.Graph.Lowering

/-- The constants `E` of the unit under construction are at home, and every finished unit holds
those that `U` says. -/
structure Kept (U : List (String × List Constant)) (E : List Home) (s : State) : Prop
    extends Builder.Houses E s.builder where
  registered : Registered s
  slotted : Slotted s.nextSlot s.current
  bodies : ∀ (j : Nat) x body, s.module.units[j]? = some x → x.body = some body →
    ∃ constants, (x.name, constants) ∈ U ∧ List.Forall₂ body.Holds body.frozenSlots constants

/-- Code adds what an outline says, whatever there was before. -/
def Adds (o : Outline) (s s' : State) : Prop :=
  ∀ U E, Kept U E s → ∃ E', E'.map (·.constant) = o.constants ∧ Kept (U ++ o.units) (E ++ E') s'

variable {U : List (String × List Constant)} {E E' : List Home} {o o' : Outline}
  {s s₁ s₂ s' : State} {name : String}

/-- What leaves every constant alone adds none. -/
theorem adds_of_kept (kept : ∀ U E, Kept U E s → Kept U E s') : Adds {} s s' := by
  intro U E k
  refine ⟨[], rfl, ?_⟩
  change Kept (U ++ []) (E ++ []) s'
  rw [List.append_nil, List.append_nil]
  exact kept U E k

theorem adds_refl (s : State) : Adds {} s s := adds_of_kept fun _ _ => id

theorem Adds.andThen (first : Adds o s s₁) (rest : Adds o' s₁ s') : Adds (o ++ o') s s' := by
  intro U E k
  obtain ⟨E₁, same₁, k₁⟩ := first U E k
  obtain ⟨E₂, same₂, k₂⟩ := rest _ _ k₁
  rw [List.append_assoc, List.append_assoc] at k₂
  refine ⟨E₁ ++ E₂, ?_, k₂⟩
  rw [List.map_append, same₁, same₂, Outline.constants_append]

/-- A step that adds nothing, after code that does. -/
theorem Adds.quietly (first : Adds o s s₁) (rest : Adds {} s₁ s') : Adds o s s' := by
  have whole := first.andThen rest
  rwa [Outline.append_empty] at whole

/-- A step that adds nothing, before code that does. -/
theorem Adds.before (first : Adds {} s s₁) (rest : Adds o s₁ s') : Adds o s s' :=
  first.andThen rest

/-! Single steps. -/

/-- Only the body under construction has changed. -/
theorem Kept.edit (k : Kept U E s) {f : Builder → Builder}
    (houses : Builder.Houses E' (f s.builder)) (slots : s.nextSlot ≤ (s.edit f).nextSlot) :
    Kept U E' (s.edit f) where
  toHouses := houses
  registered := k.registered.of_module rfl rfl rfl
  slotted := ⟨(k.slotted.mono slots).base, (k.slotted.mono slots).locals⟩
  bodies := k.bodies

theorem adds_newBlock : Adds {} s s.newBlock :=
  adds_of_kept fun _ _ k => k.edit k.newBlock (Nat.le_refl _)

theorem adds_positionAt (p : BlockId) : Adds {} s (s.positionAt p) :=
  adds_of_kept fun _ _ k => k.edit (k.positionAt p) (Nat.le_refl _)

/-- The current block is ended, and only blocks that wait come after it. -/
theorem adds_terminate {t : Terminator} (waits : ∀ q ∈ t.successors, s.builder.Idle q) :
    Adds {} s (s.terminate t) :=
  adds_of_kept fun _ _ k => k.edit (k.terminate waits) (Nat.le_refl _)

theorem adds_emit (operation : Operation) : Adds {} s (s.emit operation) := by
  refine adds_of_kept fun U E k => k.edit ?_ (Nat.le_refl _)
  exact (k.withTypes operation.ty).push (fun _ _ => rfl) fun _ stores => nomatch stores

/-- An effect that stores to no slot. -/
theorem adds_perform {effect : Effect} (quiet : ∀ slot value, effect ≠ .store slot value) :
    Adds {} s (s.perform effect) := by
  -- what is no store stores to no slot
  have silent (slot : SlotId) : (Instr.perform effect).storesTo slot = false := by
    cases effect with
    | store slot value => exact absurd rfl (quiet slot value)
    | _ => rfl
  refine adds_of_kept fun U E k => k.edit (k.push (fun c _ => silent c.slot) ?_) (Nat.le_refl _)
  intro slot stores
  rw [silent slot] at stores
  cases stores

/-- A variable that is no constant is stored to. -/
theorem adds_store {slot : SlotId} (a : Operand) (known : s.current.lookup name = some slot)
    (mutable : s.current.isFrozen slot = false) : Adds {} s (s.perform (.store slot a)) := by
  refine adds_of_kept fun U E k => k.edit (k.push (fun c mem => ?_) ?_) (Nat.le_refl _)
  · refine beq_eq_false_iff_ne.mpr fun same => ?_
    subst same
    unfold UnitState.isFrozen Builder.slot? at mutable
    rw [k.named c mem] at mutable
    cases mutable
  · intro slot' stores
    cases beq_iff_eq.mp stores
    exact k.slotted.lt_of_lookup known

section Variables

variable {bind : UnitState → String → SlotId → UnitState}
  (keeps : ∀ u slot, (bind u name slot).unit = u.unit ∧ (bind u name slot).builder = u.builder)
  (slotted : ∀ u n slot, Slotted n u → slot < n → Slotted n (bind u name slot))

include keeps slotted

/-- A new variable leaves homes as the builder does. -/
theorem Kept.bindNew (k : Kept U E s) {frozen : Bool} {a : Operand}
    (houses : Builder.Houses E'
      ((s.builder.alloca name frozen).2.push (.perform (.store s.nextSlot a)))) :
    Kept U E' (s.bindNew bind name frozen a) where
  toHouses := by
    rw [builder_bindNew keeps]
    exact houses
  registered := k.registered.of_module rfl rfl rfl
  slotted := k.slotted.bindNew keeps slotted frozen a
  bodies := k.bodies

theorem adds_bindNew (a : Operand) : Adds {} s (s.bindNew bind name false a) := by
  refine adds_of_kept fun U E k => k.bindNew keeps slotted ((k.alloca name).push ?_ ?_)
  · intro c mem
    have lt : c.slot < s.nextSlot := (Array.getElem?_eq_some_iff.mp (k.named c mem)).1
    exact beq_eq_false_iff_ne.mpr (Nat.ne_of_gt lt)
  · intro slot stores
    cases beq_iff_eq.mp stores
    exact Nat.lt_of_lt_of_eq (Nat.lt_succ_self _) (Array.size_push ..).symm

end Variables

/-- A constant is new to the unit, and control has not gone on from the block that stores to it. -/
theorem adds_const (h : s.Open) (a : Operand) :
    Adds { constants := [⟨name, false⟩] } s (s.bindNew UnitState.bindInner name true a) := by
  intro U E k
  have added := k.bindNew (bindInner_keeps · name) (fun _ _ _ => .bindInner) (k.introduce h name a)
  refine ⟨[⟨⟨name, false⟩, s.nextSlot, s.block⟩], rfl, ?_⟩
  change Kept (U ++ []) _ _
  rw [List.append_nil]
  exact added

theorem adds_bindAll (pairs : List (String × Operand)) : Adds {} s (s.bindAll pairs) := by
  induction pairs generalizing s with
  | nil => exact adds_refl s
  | cons pair pairs ih =>
    have bound := adds_bindNew (s := s) (bindInner_keeps · pair.1) (fun _ _ _ => .bindInner) pair.2
    exact bound.before ih

theorem adds_enterScope (pairs : List (String × Operand)) : Adds {} s (s.enterScope pairs) := by
  refine Adds.before (adds_of_kept fun U E k => ?_) (adds_bindAll pairs)
  exact { k with
    registered := k.registered.of_module rfl rfl rfl
    slotted := k.slotted.pushScope }

theorem adds_leaveScope : Adds {} s s.leaveScope := adds_of_kept fun _ _ k =>
  { k with
    registered := k.registered.of_module rfl rfl rfl
    slotted := k.slotted.popScope }

theorem adds_intern (text : String) : Adds {} s (s.intern text).2 := by
  refine adds_of_kept fun U E k => ?_
  have registered := ((Trace.intern text).registered k.registered).1
  obtain ⟨strings, -, same⟩ := intern_eq s text
  rw [same] at registered ⊢
  exact { k with registered }

/-- Finding a unit leaves the code alone. -/
theorem Kept.finds (k : Kept U E s) {arity : Nat} {unit : UnitId}
    (finds : Finds s s₁ name arity unit) : Kept U E s₁ where
  toHouses := by
    change Builder.Houses E s₁.current.builder
    rw [finds.current]
    exact k.toHouses
  registered := finds.registered
  slotted := by
    change Slotted s₁.current.builder.slots.size s₁.current
    rw [finds.current]
    exact k.slotted
  bodies j x body hx hbody := k.bodies j x body (finds.bodies j x body hx hbody) hbody

theorem adds_callee {arity : Nat} {unit : UnitId} (found : s.callee? name arity = some (unit, s₁)) :
    Adds {} s s₁ :=
  adds_of_kept fun _ _ k => k.finds (finds_callee k.registered found)

/-! Forms that add blocks. -/

/-- A jump to a block that still waits closes no loop. -/
theorem adds_jump {target next : BlockId} (waits : s.builder.Idle target) :
    Adds {} s (s.jump target next) := by
  refine (adds_terminate fun q mem => ?_).before (adds_positionAt next)
  cases List.mem_singleton.mp mem
  exact waits

theorem adds_newBlocks : Adds {} s s.newBlock.newBlock.newBlock :=
  adds_newBlock.before (adds_newBlock.before adds_newBlock)

theorem adds_openArms (s : State) (c : ValueId) : Adds {} s (s.openArms c) := by
  obtain ⟨first, second, -⟩ := idle_newBlocks s
  refine adds_newBlocks.before ((adds_terminate fun q mem => ?_).before (adds_positionAt _))
  rcases List.mem_cons.mp mem with rfl | mem
  · exact first
  · cases List.mem_singleton.mp mem
    exact second

theorem adds_openLoop (s : State) : Adds {} s s.openLoop :=
  adds_newBlocks.before (adds_jump (idle_newBlocks s).1)

theorem adds_test {decides : Bool} {merge : BlockId} {truth : ValueId}
    (waits : s.builder.Idle merge) : Adds {} s (s.test decides merge truth) := by
  refine adds_newBlock.before ((adds_terminate fun q mem => ?_).before (adds_positionAt _))
  rcases mem_successors_leaving.mp mem with rfl | rfl
  · exact waits.newBlock
  · exact Builder.idle_newBlock s.builder

section Loop

variable {c : ValueId} (h : s.Open) (tested : s.openLoop.Region s₁)

include h tested

theorem adds_openBody : Adds {} s₁ (s₁.openBody s.nextBlock c) := by
  obtain ⟨second, third, -⟩ := idle_loopTest h tested
  refine (adds_terminate fun q mem => ?_).before (adds_positionAt _)
  rcases List.mem_cons.mp mem with rfl | mem
  · exact second
  · cases List.mem_singleton.mp mem
    exact third

/-- Control may come back to all that stands in a loop, and to nothing that was there before. -/
theorem adds_loop (body : (s₁.openBody s.nextBlock c).Region s₂) (test : Adds o s.openLoop s₁)
    (run : Adds o' (s₁.openBody s.nextBlock c) s₂) :
    Adds (o ++ o').inLoop s (s₂.jump s.nextBlock (s.nextBlock + 2)) := by
  intro U E k
  have inner : Adds (o ++ o') s s₂ :=
    (adds_openLoop s).before (test.andThen ((adds_openBody h tested).before run))
  obtain ⟨E', same, k'⟩ := inner U E k
  refine ⟨E'.map Home.inLoop, ?_, ?_⟩
  · unfold Outline.inLoop
    rw [← same, List.map_map, List.map_map]
    rfl
  · have region := region_loop h tested body
    -- the edge back is judged over the whole loop, as code that begins where the loop does
    have back : Builder.Houses (E ++ E'.map Home.inLoop)
        (s₂.builder.terminate (.br s.nextBlock)) := by
      refine k'.toHouses.inLoop.terminate_of_leaves fun c mem plain => ?_
      rcases List.mem_append.mp mem with mem | mem
      · exact region.leaves (k.lt mem) (k.leaves c mem plain)
      · obtain ⟨c', -, rfl⟩ := List.mem_map.mp mem
        cases plain
    exact k'.edit (f := fun b => (b.terminate (.br s.nextBlock)).positionAt (s.nextBlock + 2))
      (back.positionAt _) (Nat.le_refl _)

end Loop

section Units

variable {unit : UnitId} {params : List String} {result : Operand}

theorem houses_new (arity : Nat) : Builder.Houses [] (Builder.new arity) where
  slots := rfl
  named := nofun
  known slot _ p := by
    unfold Builder.storesIn
    rw [Builder.instrsAt_new]
    rfl
  single := nofun
  leaves := nofun

/-- A definition is a unit with the constants of its body. -/
theorem adds_defun {ms : List Mention} (defined : s.define? name params.length = some (unit, s₁))
    (trace : Trace ms (s₁.enterUnit unit params) s₂) (body : Adds o (s₁.enterUnit unit params) s₂) :
    Adds (o.ofUnit name) s (s₂.leaveUnit unit result s₁) := by
  intro U E k
  obtain ⟨finds, -, x, hx, empty⟩ := finds_define k.registered defined
  obtain ⟨-, -, registered, grows, y, hy, named, -⟩ := trace.unit_of_define k.registered defined
  have found := k.finds finds
  have bare : Registered (s₁.begin unit params.length) :=
    (registered_enterUnit [] finds.registered hx empty).of_module rfl rfl rfl
  have begun : Kept U [] (s₁.begin unit params.length) :=
    ⟨houses_new _, bare, ⟨nofun, nofun⟩, found.bodies⟩
  -- the unit begins without constants: its parameters are none
  obtain ⟨E', same, k'⟩ := ((adds_bindAll _).before body) U [] begun
  have left := registered_leaveUnit result k.registered defined grows registered
  -- outside, nothing has changed but that one more unit has a body
  refine ⟨[], rfl, ?_, left.1, found.slotted, fun j z code hz hcode => ?_⟩
  · rw [List.append_nil]
    exact found.toHouses
  · -- the unit that is finished, then one that was finished before
    rcases unit_leaveUnit_cases hz with ⟨rfl, w, hw, rfl⟩ | ⟨-, hz⟩
    · cases hy.symm.trans hw
      cases hcode
      refine ⟨o.constants, ?_, ?_⟩
      · rw [← named]
        exact List.mem_append_right _ List.mem_cons_self
      · rw [← same]
        exact (k'.toHouses.terminate (t := .ret result) nofun).holds
    · obtain ⟨constants, mem, holds⟩ := k'.bodies j z code hz hcode
      refine ⟨constants, ?_, holds⟩
      rcases List.mem_append.mp mem with mem | mem
      · exact List.mem_append_left _ mem
      · exact List.mem_append_right _ (List.mem_cons_of_mem _ mem)

end Units

end TwinLisp.Graph.Lowering
