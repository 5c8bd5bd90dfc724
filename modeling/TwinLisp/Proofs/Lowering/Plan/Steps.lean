import Mathlib.Data.List.Forall2
import TwinLisp.Graph.Plan
import TwinLisp.Proofs.Lowering.Order.Steps

/-! Lowering keeps to the plan of the source: every step prints what the plan says, where it says so. -/

namespace TwinLisp.Graph.Lowering

/-- What instructions print are these texts. -/
def Printing (strings : Array String) (instrs : List Instr) (texts : List String) : Prop :=
  List.Forall₂ (fun id text => strings[id]? = some text) (instrs.filterMap Instr.string?) texts

/-- The blocks under construction print the texts that they should. -/
def Prepared (strings : Array String) (b : Builder) (texts : List (BlockId × String)) : Prop :=
  ∀ p, Printing strings (b.instrsAt p) (textsIn texts p)

/-- The blocks of a finished body print the texts that they should. -/
def Printed (strings : Array String) (body : Body) (texts : List (BlockId × String)) : Prop :=
  ∀ p, List.Forall₂ (fun id text => strings[id]? = some text) (body.printedIn p) (textsIn texts p)

/-- The unit under construction is where the plan is and has printed what the plan says, and so has
every unit that has been finished. -/
structure OnPlan (plan : Plan) (s : State) : Prop where
  registered : Registered s
  block : s.block = plan.block
  next : s.nextBlock = plan.next
  texts : Prepared s.module.strings s.builder plan.texts
  bodies : ∀ (j : Nat) x body, s.module.units[j]? = some x → x.body = some body →
    ∃ texts, (x.name, texts) ∈ plan.units ∧ Printed s.module.strings body texts

variable {plan : Plan} {s s₁ s₂ s' : State} {name text : String} {b : Builder}
  {texts : List (BlockId × String)} {strings : Array String}

/-- Only an instruction that prints a text adds to the texts of a block. -/
theorem Prepared.push (h : Prepared strings b texts) {i : Instr} (quiet : i.string? = none) :
    Prepared strings (b.push i) texts := by
  intro p
  rw [Builder.instrsAt_push]
  split
  · unfold Printing
    rw [List.filterMap_append, List.filterMap_cons_none quiet, List.filterMap_nil, List.append_nil]
    exact h p
  · exact h p

/-- The current block prints one more text. -/
theorem Prepared.print (h : Prepared strings b texts) (opened : b.Open) {id : StringId}
    (known : strings[id]? = some text) :
    Prepared strings (b.push (.perform (.printStr id))) (texts ++ [(b.current, text)]) := by
  intro p
  rw [Builder.instrsAt_push, textsIn_append]
  -- only the current block prints one more text
  by_cases here : p = b.current
  · subst here
    rw [if_pos ⟨rfl, opened.lt⟩, if_pos rfl]
    unfold Printing
    rw [List.filterMap_append]
    exact List.rel_append (h _) (.cons known .nil)
  · rw [if_neg fun both => here both.1, if_neg (Ne.symm here), List.append_nil]
    exact h p

theorem Prepared.newBlock (h : Prepared strings b texts) : Prepared strings b.newBlock.2 texts := by
  intro p
  rw [Builder.instrsAt_newBlock]
  exact h p

theorem Prepared.terminate (h : Prepared strings b texts) (t : Terminator) :
    Prepared strings (b.terminate t) texts := by
  intro p
  rw [Builder.instrsAt_terminate]
  exact h p

/-- The allocations at the beginning of a finished body print nothing. -/
theorem Prepared.finish (h : Prepared strings b texts) : Printed strings b.finish texts := by
  intro p
  have same : b.finish.printedIn p = (b.instrsAt p).filterMap Instr.string? := by
    unfold Body.printedIn
    by_cases inside : p < b.size
    · rw [Builder.finish_block? inside]
      change ((if p = 0 then b.allocas else []) ++ b.instrsAt p).filterMap Instr.string? = _
      rw [List.filterMap_append]
      split
      · -- what finishing adds are the slots of the frame
        have quiet : b.allocas.filterMap Instr.string? = [] :=
          List.filterMap_eq_nil_iff.mpr fun i mem => by
            obtain ⟨slot, -, rfl⟩ := List.mem_map.mp mem
            rfl
        rw [quiet, List.nil_append]
      · rfl
    · rw [List.getElem?_eq_none (Builder.length_finish ▸ Nat.not_lt.mp inside),
        Builder.instrsAt_of_size_le (Nat.not_lt.mp inside)]
      rfl
  rw [same]
  exact h p

/-- Texts keep their numbers. -/
theorem Prepared.grow {strings' : Array String} (h : Prepared strings b texts)
    (kept : ∀ (i : Nat) t, strings[i]? = some t → strings'[i]? = some t) :
    Prepared strings' b texts :=
  fun p => (h p).imp fun id text => kept id text

/-- Strings that are added later change no text that is printed already. -/
theorem Printed.grow {strings' : Array String} {body : Body} (h : Printed strings body texts)
    (kept : ∀ (i : Nat) t, strings[i]? = some t → strings'[i]? = some t) :
    Printed strings' body texts :=
  fun p => (h p).imp fun id text => kept id text

namespace OnPlan

/-- Only the unit under construction has changed. -/
theorem edit (h : OnPlan plan s) {f : Builder → Builder} {plan' : Plan}
    (block : (f s.builder).current = plan'.block) (next : (f s.builder).size = plan'.next)
    (texts : Prepared s.module.strings (f s.builder) plan'.texts)
    (units : plan'.units = plan.units) : OnPlan plan' (s.edit f) where
  registered := h.registered.of_module rfl rfl rfl
  block := block
  next := next
  texts := texts
  bodies j x body hx hbody := units ▸ h.bodies j x body hx hbody

section Steps

variable (h : OnPlan plan s)

include h

theorem emit (operation : Operation) : OnPlan plan (s.emit operation) :=
  h.edit h.block ((Builder.size_push _).trans h.next)
    (h.texts.push (b := { s.builder with types := s.builder.types.push operation.ty }) rfl) rfl

/-- An effect that prints no text. -/
theorem perform {effect : Effect} (quiet : (Instr.perform effect).string? = none) :
    OnPlan plan (s.perform effect) :=
  h.edit h.block ((Builder.size_push _).trans h.next) (h.texts.push quiet) rfl

theorem newBlock : OnPlan (plan.make 1) s.newBlock :=
  h.edit h.block (Builder.size_newBlock.trans (congrArg (· + 1) h.next)) h.texts.newBlock rfl

theorem positionAt {p q : BlockId} (same : p = q) :
    OnPlan (plan.moveTo q) (s.positionAt p) :=
  h.edit same h.next h.texts rfl

theorem terminate (t : Terminator) : OnPlan plan (s.terminate t) :=
  h.edit h.block ((Builder.size_terminate t).trans h.next) (h.texts.terminate t) rfl

theorem jump (target : BlockId) {next q : BlockId} (same : next = q) :
    OnPlan (plan.moveTo q) (s.jump target next) :=
  (h.terminate _).positionAt same

/-- Three blocks at once: those of a branch or a loop. -/
theorem newBlocks : OnPlan (plan.make 3) s.newBlock.newBlock.newBlock :=
  h.newBlock.newBlock.newBlock

theorem openArms (c : ValueId) : OnPlan ((plan.make 3).moveTo plan.next) (s.openArms c) :=
  (h.newBlocks.terminate _).positionAt h.next

theorem openLoop : OnPlan ((plan.make 3).moveTo plan.next) s.openLoop :=
  h.newBlocks.jump _ h.next

theorem test (decides : Bool) (merge : BlockId) (truth : ValueId) :
    OnPlan ((plan.make 1).moveTo plan.next) (s.test decides merge truth) :=
  (h.newBlock.terminate _).positionAt h.next

theorem bindNew {bind : UnitState → String → SlotId → UnitState}
    (keeps : ∀ u slot, (bind u name slot).unit = u.unit ∧ (bind u name slot).builder = u.builder)
    (frozen : Bool) (value : Operand) : OnPlan plan (s.bindNew bind name frozen value) := by
  have same := builder_bindNew (s := s) keeps frozen value
  refine ⟨h.registered.of_module rfl rfl rfl, ?_, ?_, ?_, h.bodies⟩
  · change (s.bindNew bind name frozen value).builder.current = _
    rw [same]
    exact h.block
  · change (s.bindNew bind name frozen value).builder.size = _
    rw [same]
    exact (Builder.size_push _).trans h.next
  · rw [same]
    exact Prepared.push (b := (s.builder.alloca name frozen).2) h.texts rfl

theorem bindAll (pairs : List (String × Operand)) : OnPlan plan (s.bindAll pairs) := by
  induction pairs generalizing s with
  | nil => exact h
  | cons pair pairs ih => exact ih (h.bindNew (bindInner_keeps · pair.1) false pair.2)

theorem enterScope (pairs : List (String × Operand)) : OnPlan plan (s.enterScope pairs) := by
  have pushed : OnPlan plan { s with current := s.current.pushScope } :=
    { h with registered := h.registered.of_module rfl rfl rfl }
  exact pushed.bindAll pairs

theorem leaveScope : OnPlan plan s.leaveScope :=
  { h with registered := h.registered.of_module rfl rfl rfl }

theorem intern (text : String) : OnPlan plan (s.intern text).2 := by
  have registered := ((Trace.intern text).registered h.registered).1
  obtain ⟨strings, kept, same⟩ := intern_eq s text
  rw [same] at registered ⊢
  refine ⟨registered, h.block, h.next, h.texts.grow kept, fun j x body hx hbody => ?_⟩
  obtain ⟨texts, mem, printed⟩ := h.bodies j x body hx hbody
  exact ⟨texts, mem, printed.grow kept⟩

/-- A text is interned and printed. -/
theorem print (opened : s.Open) (text : String) :
    OnPlan (plan.print text) ((s.intern text).2.perform (.printStr (s.intern text).1)) := by
  have interned := h.intern text
  have same : (s.intern text).2.builder = s.builder := by
    obtain ⟨strings, -, same⟩ := intern_eq s text
    rw [same]
  refine interned.edit interned.block ((Builder.size_push _).trans interned.next) ?_ rfl
  have printed := interned.texts.print (same ▸ opened) (strings_intern s text)
  -- the plan is in the block that prints
  have block : (s.intern text).2.builder.current = plan.block := interned.block
  rwa [block] at printed

/-- Finding a unit leaves the code alone. -/
theorem finds {arity : Nat} {unit : UnitId} (found : Finds s s₁ name arity unit) :
    OnPlan plan s₁ where
  registered := found.registered
  block := by
    unfold State.block
    rw [found.current]
    exact h.block
  next := by
    unfold State.nextBlock
    rw [found.current]
    exact h.next
  texts := by
    unfold State.builder
    rw [found.current, found.strings]
    exact h.texts
  bodies j x body hx hbody := by
    rw [found.strings]
    exact h.bodies j x body (found.bodies j x body hx hbody) hbody

end Steps

section Units

variable {unit : UnitId} {params : List String} {result : Operand}

theorem prepared_new (strings : Array String) (arity : Nat) :
    Prepared strings (Builder.new arity) [] := by
  intro p
  rw [Builder.instrsAt_new]
  exact .nil

/-- A definition is a unit with a plan of its own. -/
theorem defun {ms : List Mention} {inner : Plan} (h : OnPlan plan s)
    (defined : s.define? name params.length = some (unit, s₁))
    (trace : Trace ms (s₁.enterUnit unit params) s₂)
    (body : OnPlan plan.openUnit (s₁.enterUnit unit params) → OnPlan inner s₂) :
    OnPlan (plan.closeUnit name inner) (s₂.leaveUnit unit result s₁) := by
  -- the unit is found, a body is begun in it, and code is added to that
  obtain ⟨finds, -, x, hx, empty⟩ := finds_define h.registered defined
  obtain ⟨-, -, registered, grows, y, hy, named, -⟩ := trace.unit_of_define h.registered defined
  have found := h.finds finds
  have bare : Registered (s₁.begin unit params.length) :=
    (registered_enterUnit [] finds.registered hx empty).of_module rfl rfl rfl
  have begun : OnPlan plan.openUnit (s₁.begin unit params.length) :=
    ⟨bare, rfl, rfl, prepared_new _ _, found.bodies⟩
  have built := body (begun.bindAll _)
  have left := registered_leaveUnit result h.registered defined grows registered
  -- outside, the plan is where it was, and the finished body is one of the units
  refine ⟨left.1, found.block, found.next, found.texts.grow ?_, fun j z code hz hcode => ?_⟩
  · obtain ⟨u, -, same⟩ := enterUnit_eq s₁ unit params
    rw [same] at grows
    exact grows.strings
  · rcases unit_leaveUnit_cases hz with ⟨rfl, w, hw, rfl⟩ | ⟨-, hz⟩
    · cases hy.symm.trans hw
      cases hcode
      refine ⟨inner.texts, List.mem_append_right _ ?_, (built.texts.terminate _).finish⟩
      rw [← named]
      exact List.mem_singleton.mpr rfl
    · obtain ⟨texts, mem, printed⟩ := built.bodies j z code hz hcode
      exact ⟨texts, List.mem_append_left _ mem, printed⟩

end Units

end OnPlan

end TwinLisp.Graph.Lowering
