import TwinLisp.Proofs.Verify.Check

/-! Verification accepts exactly the well-formed modules. -/

namespace TwinLisp.Graph

open Checker Event

variable {m : Module}

theorem atBlock_ok_iff {α : Type} {unit : String} {block : BlockId} {check : Except Defect α}
    {a : α} : atBlock unit block check = .ok a ↔ check = .ok a := by
  cases check with
  | error defect => exact ⟨fun h => (nomatch h), fun h => (nomatch h)⟩
  | ok b => exact Except.ok.injEq b a ▸ Except.ok.injEq b a ▸ Iff.rfl

/-- The conditions on one block, given the position where it stands. -/
theorem checkBlock_ok_iff {c : Checker} (informed : c.Informed) {position : Nat} {k : Block}
    (found : c.body.blocks[position]? = some k) : c.checkBlock k = .ok ⟨⟩ ↔
      ((∀ i j earlier later, i < j → c.body.instrAt? position i = some earlier →
          c.body.instrAt? position j = some later → later.isPhi → earlier.isPhi) ∧
        ∀ index instr, c.body.instrAt? position index = some instr →
          c.body.FitsInstr c.module position index instr) ∧
      ∀ t, k.terminator = some t → Reads c.body position k.instrs.length t.uses := by
  obtain ⟨entry, -⟩ := List.getElem?_eq_some_iff.mp found
  -- the conditions speak of places in the body, the check of places in the block
  have here : ∀ index, c.body.instrAt? position index = k.instrs[index]? := fun index => by
    unfold Body.instrAt?
    rw [found, Option.bind_some]
  unfold checkBlock
  rw [seq_ok_iff, informed.structured.ids position k found, checkInstrs_ok_iff informed entry,
    checkTerminator_ok_iff informed, informed.structured.ids position k found]
  simp only [here, true_and, Nat.zero_add]
  refine and_congr_left fun _ => and_congr_left fun _ => ?_
  constructor
  · intro h i j earlier later before hearlier hlater isPhi
    exact h j later hlater isPhi i earlier before hearlier
  · intro h j later hlater isPhi i earlier before hearlier
    exact h i j earlier later before hearlier hlater isPhi

/-- The conditions on the instructions and ends of all blocks. -/
theorem checkBlocks_ok_iff {c : Checker} {unit : String} :
    (c.body.blocks.forM fun k => atBlock unit k.id (c.checkBlock k)) = .ok ⟨⟩ ↔
      ∀ (position : Nat) (k : Block), c.body.blocks[position]? = some k →
        c.checkBlock k = .ok ⟨⟩ := by
  rw [forM_ok_iff]
  simp only [atBlock_ok_iff]
  constructor
  · exact fun h position k found => h k (List.mem_of_getElem? found)
  · intro h k hk
    obtain ⟨position, found⟩ := List.mem_iff_getElem?.mp hk
    exact h position k found

/-- A unit passes exactly where it has a body that is well-formed. -/
theorem verifyUnit_ok_iff {unit : CodeUnit} : m.verifyUnit unit = .ok ⟨⟩ ↔
    ∃ body, unit.body = some body ∧ body.WellFormed m unit.arity := by
  unfold Module.verifyUnit
  cases unit.body with
  | none => exact ⟨fun h => (nomatch h), fun ⟨_, h, _⟩ => (nomatch h)⟩
  | some body =>
    simp only [Option.some.injEq, exists_eq_left']
    rw [seq_ok_iff, seq_ok_iff, require_ok_iff, require_ok_iff, except_bind_ok_iff,
      Bool.not_eq_true', List.isEmpty_eq_false_iff, decide_eq_true_eq]
    constructor
    · -- the second pass reads the facts of the first, which say of the body what is so
      rintro ⟨blocks, params, facts, collected, checked⟩
      obtain ⟨inOrder, recorded⟩ := recorded_of_collect collected
      have structured := inOrder_ofBody_iff.mp inOrder
      have informed : Informed ⟨m, body, facts⟩ := ⟨structured, recorded⟩
      have each := (checkBlocks_ok_iff (c := ⟨m, body, facts⟩)).mp checked
      -- phis lead, the instructions fit, and so do the ends of the blocks
      refine ⟨structured, blocks, params, ?_, ?_, ?_⟩
      · intro position i j earlier later before hearlier hlater
        obtain ⟨k, found, -⟩ := Body.instrAt?_eq_some_iff.mp hearlier
        exact ((checkBlock_ok_iff informed found).mp (each position k found)).1.1
          i j earlier later before hearlier hlater
      · intro position index instr hinstr
        obtain ⟨k, found, -⟩ := Body.instrAt?_eq_some_iff.mp hinstr
        exact ((checkBlock_ok_iff informed found).mp (each position k found)).1.2 index instr hinstr
      · intro position k t found ended
        exact ((checkBlock_ok_iff informed found).mp (each position k found)).2 t ended
    · intro wellFormed
      -- a structured body has facts, and by those all checks of the second pass succeed
      obtain ⟨facts, collected⟩ :=
        collect_of_inOrder (inOrder_ofBody_iff.mpr wellFormed.toStructured) unit.name
      obtain ⟨-, recorded⟩ := recorded_of_collect collected
      have informed : Informed ⟨m, body, facts⟩ := ⟨wellFormed.toStructured, recorded⟩
      refine ⟨wellFormed.blocks_ne_nil, wellFormed.params_length, facts, collected, ?_⟩
      refine (checkBlocks_ok_iff (c := ⟨m, body, facts⟩)).mpr fun position k found => ?_
      refine (checkBlock_ok_iff informed found).mpr ⟨⟨?_, ?_⟩, ?_⟩
      · exact wellFormed.phis_lead position
      · exact wellFormed.instrs position
      · exact fun t ended => wellFormed.exits position k t found ended

/-- The check of the names succeeds if they are distinct. -/
theorem checkDistinct_ok_iff {seen names : List String} :
    (checkDistinct seen names : Except VerifyError Unit) = .ok ⟨⟩ ↔
      names.Nodup ∧ ∀ name ∈ names, name ∉ seen := by
  induction names generalizing seen with
  | nil => exact ⟨fun _ => ⟨List.nodup_nil, fun _ h => absurd h List.not_mem_nil⟩, fun _ => rfl⟩
  | cons name rest ih =>
    unfold checkDistinct
    rw [seq_ok_iff, require_ok_iff, ih, Bool.not_eq_true', ← Bool.not_eq_true,
      List.contains_iff_mem, List.nodup_cons, List.forall_mem_cons]
    constructor
    · rintro ⟨new, nodup, apart⟩
      refine ⟨⟨fun h => apart name h List.mem_cons_self, nodup⟩, new, fun other hother h => ?_⟩
      exact apart other hother (List.mem_cons_of_mem _ h)
    · rintro ⟨⟨unseen, nodup⟩, new, apart⟩
      refine ⟨new, nodup, fun other hother h => ?_⟩
      rcases List.mem_cons.mp h with rfl | h
      · exact unseen hother
      · exact apart other hother h

/-- The checks on a module, one after the other. -/
theorem verify_ok_iff_checks : m.verify = .ok ⟨⟩ ↔ m.main < m.units.size ∧
    (m.units.toList.map (·.name)).Nodup ∧ ∀ unit ∈ m.units.toList,
      ∃ body, unit.body = some body ∧ body.WellFormed m unit.arity := by
  unfold Module.verify
  rw [seq_ok_iff, seq_ok_iff, require_ok_iff, checkDistinct_ok_iff, forM_ok_iff,
    decide_eq_true_eq]
  simp only [verifyUnit_ok_iff, List.not_mem_nil, not_false_eq_true, implies_true, and_true]

/-- A module is accepted if and only if it is well-formed. -/
theorem verify_ok_iff_wellFormed (m : Module) : m.verify = .ok ⟨⟩ ↔ m.WellFormed := by
  rw [verify_ok_iff_checks]
  constructor
  · rintro ⟨main, names, bodies⟩
    exact ⟨main, names, bodies⟩
  · intro h
    exact ⟨h.main_lt, h.names_nodup, h.bodies⟩

end TwinLisp.Graph
