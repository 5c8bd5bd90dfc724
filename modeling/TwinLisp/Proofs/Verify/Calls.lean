import TwinLisp.Graph.Linking
import TwinLisp.Proofs.Verify.Exact

/-! Where nothing but calls can be wrong with a body, verification reports nothing but calls. -/

namespace TwinLisp.Graph

namespace Body

/-- The instruction fits, or it calls a unit, perhaps with a wrong number of arguments. -/
inductive FitsButCalls (m : Module) (body : Body) (position index : Nat) (instr : Instr) : Prop
  | fits (h : body.FitsInstr m position index instr)
  | call {value callee args} (same : instr = .define value (.call callee args))
    (known : callee < m.units.size) (typed : body.types[value]? = some .i64)
    (reads : ∀ use ∈ args.flatMap Operand.uses,
      body.Available use.1 position index ∧ body.types[use.1]? = some use.2)

/-- The body is well-formed, except that calls may pass wrong numbers of arguments. -/
structure WellFormedButCalls (m : Module) (arity : Nat) (body : Body) : Prop
    extends Structured body where
  blocks_ne_nil : body.blocks ≠ []
  params_length : body.params.length = arity
  phis_lead : ∀ position i j earlier later, i < j →
    body.instrAt? position i = some earlier → body.instrAt? position j = some later →
      later.isPhi → earlier.isPhi
  instrs : ∀ position index instr, body.instrAt? position index = some instr →
    body.FitsButCalls m position index instr
  exits : ∀ position (k : Block) t, body.blocks[position]? = some k → k.terminator = some t →
    ∀ use ∈ t.uses,
      body.Available use.1 position k.instrs.length ∧ body.types[use.1]? = some use.2

/-- With the calls settled the body is well-formed. -/
theorem WellFormedButCalls.wellFormed {m : Module} {arity : Nat} {body : Body}
    (h : body.WellFormedButCalls m arity)
    (calls : ∀ position index value callee args,
      body.instrAt? position index = some (.define value (.call callee args)) →
      ∃ unit, m.units[callee]? = some unit ∧ unit.arity = args.length) : body.WellFormed m arity where
  toStructured := h.toStructured
  blocks_ne_nil := h.blocks_ne_nil
  params_length := h.params_length
  phis_lead := h.phis_lead
  instrs position index instr found := by
    cases h.instrs position index instr found with
    | fits fits => exact fits
    | call same known typed reads =>
      subst same
      refine ⟨nofun, reads, fun v op same => ?_, fun v callee' args' same => ?_, nofun, nofun⟩
      · cases same
        exact typed
      · cases same
        exact calls position index _ _ _ found
  exits := h.exits

end Body

/-- The check succeeds, or fails with an error of a kind. -/
def FailsOnly {ε α : Type} (kind : ε → Prop) (x : Except ε α) : Prop :=
  ∀ e, x = .error e → kind e

section FailsOnly

variable {ε δ α β : Type} {kind : ε → Prop} {x : Except ε α}

/-- What succeeds fails in no other way. -/
theorem failsOnly_of_ok {a : α} (h : x = .ok a) : FailsOnly kind x := by
  rintro e rfl
  cases h

/-- A sequence fails in the ways of its parts. -/
theorem FailsOnly.bind {f : α → Except ε β} (first : FailsOnly kind x)
    (rest : ∀ a, x = .ok a → FailsOnly kind (f a)) : FailsOnly kind (x >>= f) := by
  cases x with
  | error e =>
    intro e' same
    cases same
    exact first e rfl
  | ok a => exact rest a rfl

theorem FailsOnly.forM {f : α → Except ε Unit} {xs : List α}
    (each : ∀ a ∈ xs, FailsOnly kind (f a)) : FailsOnly kind (xs.forM f) := by
  induction xs with
  | nil => exact failsOnly_of_ok rfl
  | cons a xs ih =>
    obtain ⟨first, rest⟩ := List.forall_mem_cons.mp each
    exact FailsOnly.bind first fun _ _ => ih rest

theorem FailsOnly.mapError {f : ε → δ} {kind' : δ → Prop} (h : FailsOnly kind x)
    (sub : ∀ e, kind e → kind' (f e)) : FailsOnly kind' (x.mapError f) := by
  cases x with
  | error e =>
    intro e' same
    cases same
    exact sub e (h e rfl)
  | ok a => exact failsOnly_of_ok rfl

end FailsOnly

namespace Checker

open Event

variable {c : Checker} {position index : Nat}

/-- If the callee is known, only the number of arguments can be wrong. -/
theorem failsOnly_checkCallee {callee : UnitId} (known : callee < c.module.units.size)
    (args : Nat) : FailsOnly Defect.IsCallArity (c.checkCallee callee args) := by
  unfold checkCallee
  rw [Array.getElem?_eq_getElem known]
  intro defect h
  change (if _ then _ else _) = _ at h
  -- the callee is there, so the failure is about the arguments
  split at h
  · cases h
  · cases h
    exact ⟨_, _, _, rfl⟩

variable (informed : c.Informed) (entry : position < c.body.blocks.length)

include informed entry

theorem failsOnly_checkInstr {instr : Instr}
    (fits : c.body.FitsButCalls c.module position index instr) :
    FailsOnly Defect.IsCallArity (c.checkInstr position index instr) := by
  cases fits with
  | fits h => exact failsOnly_of_ok ((checkInstr_ok_iff informed entry).mpr h)
  | call same known typed reads =>
    subst same
    -- type and operands are in order, and between them the callee is looked at
    refine FailsOnly.bind (failsOnly_of_ok (checkTy_ok_iff.mpr typed)) fun _ _ => ?_
    refine FailsOnly.bind (failsOnly_checkCallee known _) fun _ _ => ?_
    refine failsOnly_of_ok (forM_ok_iff.mpr fun arg harg => ?_)
    refine (checkOperand_ok_iff informed).mpr fun use huse => ?_
    exact reads use (List.mem_flatMap.mpr ⟨arg, harg, huse⟩)

theorem failsOnly_checkInstrs {leading : Bool} {instrs : List Instr}
    (phis : ∀ (j : Nat) (later : Instr), instrs[j]? = some later → later.isPhi → leading = true ∧
      ∀ (i : Nat) (earlier : Instr), i < j → instrs[i]? = some earlier → earlier.isPhi)
    (fits : ∀ (j : Nat) instr, instrs[j]? = some instr →
      c.body.FitsButCalls c.module position (index + j) instr) :
    FailsOnly Defect.IsCallArity (c.checkInstrs position index leading instrs) := by
  induction instrs generalizing index leading with
  | nil => exact failsOnly_of_ok rfl
  | cons first rest ih =>
    -- phis lead, so this check passes
    refine FailsOnly.bind (failsOnly_of_ok (require_ok_iff.mpr ?_)) fun _ _ => ?_
    · cases isPhi : first.isPhi with
      | false => rfl
      | true => exact (phis 0 first rfl isPhi).1
    · refine FailsOnly.bind (failsOnly_checkInstr informed entry (fits 0 first rfl)) fun _ _ => ?_
      refine ih (fun j later found isPhi => ?_) fun j instr found => ?_
      · obtain ⟨leads, before⟩ := phis (j + 1) later found isPhi
        refine ⟨Bool.and_eq_true_iff.mpr ⟨leads, before 0 first (Nat.succ_pos j) rfl⟩, ?_⟩
        exact fun i earlier lt found' => before (i + 1) earlier (Nat.succ_lt_succ lt) found'
      · exact Nat.succ_add_eq_add_succ index j ▸ fits (j + 1) instr found

omit entry in
/-- A block that is well-formed but for calls can only be refused for one. -/
theorem failsOnly_checkBlock {arity : Nat}
    (sound : c.body.WellFormedButCalls c.module arity) {k : Block}
    (found : c.body.blocks[position]? = some k) :
    FailsOnly Defect.IsCallArity (c.checkBlock k) := by
  obtain ⟨entry, -⟩ := List.getElem?_eq_some_iff.mp found
  have here (i : Nat) : c.body.instrAt? position i = k.instrs[i]? := by
    unfold Body.instrAt?
    rw [found, Option.bind_some]
  have ids : k.id = position := sound.ids position k found
  have instrs : FailsOnly Defect.IsCallArity (c.checkInstrs position 0 true k.instrs) := by
    refine failsOnly_checkInstrs informed entry (fun j later hlater isPhi => ?_)
      fun j instr hinstr => ?_
    · refine ⟨rfl, fun i earlier lt hearlier => ?_⟩
      rw [← here] at hlater hearlier
      exact sound.phis_lead position i j earlier later lt hearlier hlater isPhi
    · rw [← here] at hinstr
      rw [Nat.zero_add]
      exact sound.instrs position j instr hinstr
  -- the end of a block calls nothing, so that it passes
  have ends : c.checkTerminator k = .ok ⟨⟩ := by
    refine (checkTerminator_ok_iff informed).mpr fun t ended => ?_
    rw [ids]
    exact sound.exits position k t found ended
  unfold checkBlock
  rw [ids]
  exact instrs.bind fun _ _ => failsOnly_of_ok ends

end Checker

open Checker Event

variable {m : Module}

/-- A unit whose body may only be wrong in its calls. -/
theorem failsOnly_verifyUnit {unit : CodeUnit}
    (h : ∀ body, unit.body = some body → body.WellFormedButCalls m unit.arity) :
    FailsOnly VerifyError.IsLink (m.verifyUnit unit) := by
  unfold Module.verifyUnit
  split
  next =>
    rintro e same
    cases same
    exact .inl ⟨_, rfl⟩
  next body found =>
    -- the first pass only looks at the structure, which is in order
    have sound := h body found
    obtain ⟨facts, collected⟩ :=
      collect_of_inOrder (inOrder_ofBody_iff.mpr sound.toStructured) unit.name
    obtain ⟨-, recorded⟩ := recorded_of_collect collected
    have informed : Informed ⟨m, body, facts⟩ := ⟨sound.toStructured, recorded⟩
    refine FailsOnly.bind (failsOnly_of_ok (require_ok_iff.mpr ?_)) fun _ _ => ?_
    · rw [Bool.not_eq_true', List.isEmpty_eq_false_iff]
      exact sound.blocks_ne_nil
    refine FailsOnly.bind (failsOnly_of_ok (require_ok_iff.mpr ?_)) fun _ _ => ?_
    · exact decide_eq_true sound.params_length
    refine FailsOnly.bind (failsOnly_of_ok collected) fun facts' collected' => ?_
    cases collected.symm.trans collected'
    refine FailsOnly.forM fun k hk => ?_
    obtain ⟨position, found⟩ := List.mem_iff_getElem?.mp hk
    have block : FailsOnly Defect.IsCallArity (checkBlock ⟨m, body, facts⟩ k) :=
      failsOnly_checkBlock informed sound found
    exact block.mapError fun defect isCall => .inr ⟨_, _, _, rfl, isCall⟩

end TwinLisp.Graph
