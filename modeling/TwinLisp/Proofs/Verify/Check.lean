import Mathlib.Data.List.Perm.Subperm
import TwinLisp.Proofs.Verify.Structure

/-! The second pass over a body: each check succeeds exactly where what it looks at fits. -/

namespace TwinLisp.Graph

namespace Checker

open Event

/-- The facts of the checker are those of its body, whose structure is in order. -/
structure Informed (c : Checker) : Prop where
  structured : c.body.Structured
  recorded : Recorded c.body c.facts (ofBody c.body)

variable {c : Checker} {position index : Nat}

/-- A type is read from the table of the body. -/
theorem checkTy_ok_iff {value : ValueId} {ty : Ty} :
    c.checkTy value ty = .ok ⟨⟩ ↔ c.body.types[value]? = some ty := by
  unfold checkTy
  cases c.body.types[value]? with
  | none => exact ⟨fun h => (nomatch h), fun h => (nomatch h)⟩
  | some found =>
    simp only [require_ok_iff, decide_eq_true_eq, Option.some.injEq]

theorem forM_ok_iff {ε α : Type} {f : α → Except ε Unit} {xs : List α} :
    xs.forM f = .ok ⟨⟩ ↔ ∀ x ∈ xs, f x = .ok ⟨⟩ := by
  induction xs with
  | nil => exact ⟨fun _ _ h => absurd h List.not_mem_nil, fun _ => rfl⟩
  | cons x xs ih =>
    change (f x >>= fun _ => xs.forM f) = _ ↔ _
    rw [except_bind_ok_iff, List.forall_mem_cons]
    constructor
    · rintro ⟨⟨⟩, hx, hxs⟩
      exact ⟨hx, ih.mp hxs⟩
    · rintro ⟨hx, hxs⟩
      exact ⟨⟨⟩, hx, ih.mpr hxs⟩

/-- A check followed by another one. -/
theorem seq_ok_iff {ε : Type} {x y : Except ε Unit} :
    (x >>= fun _ => y) = .ok ⟨⟩ ↔ x = .ok ⟨⟩ ∧ y = .ok ⟨⟩ := by
  rw [except_bind_ok_iff]
  constructor
  · rintro ⟨⟨⟩, hx, hy⟩
    exact ⟨hx, hy⟩
  · rintro ⟨hx, hy⟩
    exact ⟨⟨⟩, hx, hy⟩

variable (informed : c.Informed)

include informed

/-- A value has the site of the event that defines it. -/
theorem siteOf_ok_iff {value : ValueId} {site : Site} :
    c.siteOf value = .ok site ↔ define value site ∈ ofBody c.body := by
  rw [← informed.recorded.sites value site]
  unfold siteOf
  split
  next found known =>
    simp only [known, Except.ok.injEq, Option.some.injEq]
  next unknown =>
    constructor
    · exact fun h => nomatch h
    · exact fun h => absurd h (unknown site)

theorem mem_defined_of_siteOf {value : ValueId} {site : Site} (h : c.siteOf value = .ok site) :
    value ∈ c.body.params ++ c.body.results := by
  rw [← values_ofBody, mem_value?_iff]
  exact ⟨site, (siteOf_ok_iff informed).mp h⟩

theorem siteOf_of_mem_defined {value : ValueId} (h : value ∈ c.body.params ++ c.body.results) :
    ∃ site, c.siteOf value = .ok site := by
  rw [← values_ofBody, mem_value?_iff] at h
  obtain ⟨site, hsite⟩ := h
  exact ⟨site, (siteOf_ok_iff informed).mpr hsite⟩

/-- A value is available where its definition does not come too late. -/
theorem available_iff {value : ValueId} : c.body.Available value position index ↔
    ∃ site, c.siteOf value = .ok site ∧ isLate site position index = false := by
  constructor
  · rintro (param | ⟨p, i, operation, hdefine, early⟩)
    · exact ⟨.param, (siteOf_ok_iff informed).mpr (define_mem_iff.mpr (.inl ⟨param, rfl⟩)), rfl⟩
    · obtain ⟨k, hk, hi⟩ := Body.instrAt?_eq_some_iff.mp hdefine
      refine ⟨.instr k.id i, (siteOf_ok_iff informed).mpr
        (define_mem_iff.mpr (.inr ⟨p, k, i, operation, hk, hi, rfl⟩)), ?_⟩
      rw [informed.structured.ids p k hk]
      simp only [isLate, Bool.and_eq_false_imp, decide_eq_true_eq, decide_eq_false_iff_not,
        Nat.not_le]
      exact early
  · rintro ⟨site, hsite, early⟩
    rcases define_mem_iff.mp ((siteOf_ok_iff informed).mp hsite) with
      ⟨param, rfl⟩ | ⟨p, k, i, operation, hk, hi, rfl⟩
    · exact .inl param
    · refine .inr ⟨p, i, operation, Body.instrAt?_eq_some_iff.mpr ⟨k, hk, hi⟩, ?_⟩
      rw [informed.structured.ids p k hk] at early
      simpa only [isLate, Bool.and_eq_false_imp, decide_eq_true_eq, decide_eq_false_iff_not,
        Nat.not_le] using early

/-- A use is accepted where its value is available with the type. -/
theorem checkValue_ok_iff {value : ValueId} {ty : Ty} :
    c.checkValue position index value ty = .ok ⟨⟩ ↔
      c.body.Available value position index ∧ c.body.types[value]? = some ty := by
  rw [available_iff informed, ← checkTy_ok_iff]
  unfold checkValue
  rw [except_bind_ok_iff]
  constructor
  · rintro ⟨site, hsite, h⟩
    obtain ⟨early, hty⟩ := seq_ok_iff.mp h
    exact ⟨⟨site, hsite, by simpa only [require_ok_iff, Bool.not_eq_true'] using early⟩, hty⟩
  · rintro ⟨⟨site, hsite, early⟩, hty⟩
    refine ⟨site, hsite, seq_ok_iff.mpr ⟨?_, hty⟩⟩
    rw [require_ok_iff, early]
    rfl

/-- What is read at a place is available there and has the type that is expected. -/
abbrev Reads (body : Body) (position index : Nat) (uses : List (ValueId × Ty)) : Prop :=
  ∀ use ∈ uses, body.Available use.1 position index ∧ body.types[use.1]? = some use.2

theorem checkOperand_ok_iff {operand : Operand} :
    c.checkOperand position index operand = .ok ⟨⟩ ↔ Reads c.body position index operand.uses := by
  cases operand with
  | const n => exact ⟨fun _ _ h => absurd h List.not_mem_nil, fun _ => rfl⟩
  | value v =>
    refine (checkValue_ok_iff informed).trans ?_
    simp only [Operand.uses, Reads, List.forall_mem_singleton]

/-- A slot is accepted if it is allocated somewhere in the body. -/
theorem checkSlot_ok_iff {slot : SlotId} :
    c.checkSlot slot = .ok ⟨⟩ ↔ slot ∈ c.body.allocated := by
  rw [← slots_ofBody, mem_slot?_iff, ← informed.recorded.allocated slot]
  unfold checkSlot
  rw [require_ok_iff, List.contains_iff_mem]

omit informed in
theorem checkCallee_ok_iff {callee : UnitId} {args : Nat} :
    c.checkCallee callee args = .ok ⟨⟩ ↔
      ∃ unit, c.module.units[callee]? = some unit ∧ unit.arity = args := by
  unfold checkCallee
  cases c.module.units[callee]? with
  | none => exact ⟨fun h => (nomatch h), fun ⟨_, h, _⟩ => (nomatch h)⟩
  | some unit =>
    simp only [require_ok_iff, decide_eq_true_eq, Option.some.injEq, exists_eq_left']

theorem checkIncoming_ok_iff {operand : Operand} :
    c.checkIncoming operand = .ok ⟨⟩ ↔ ∀ use ∈ operand.uses,
      use.1 ∈ c.body.params ++ c.body.results ∧ c.body.types[use.1]? = some use.2 := by
  cases operand with
  | const n => exact ⟨fun _ _ h => absurd h List.not_mem_nil, fun _ => rfl⟩
  | value v =>
    simp only [Operand.uses, List.forall_mem_singleton]
    rw [← checkTy_ok_iff]
    unfold checkIncoming
    rw [except_bind_ok_iff]
    constructor
    · rintro ⟨site, hsite, hty⟩
      exact ⟨mem_defined_of_siteOf informed hsite, hty⟩
    · rintro ⟨defined, hty⟩
      obtain ⟨site, hsite⟩ := siteOf_of_mem_defined informed defined
      exact ⟨site, hsite, hty⟩

/-- By induction on the pairs that are left; those behind are covered. -/
theorem checkEdges_ok_iff {preds covered : List BlockId} {incoming : List (BlockId × Operand)} :
    c.checkEdges preds covered incoming = .ok ⟨⟩ ↔
      ((∀ edge ∈ incoming, edge.1 ∈ preds) ∧ (∀ edge ∈ incoming, edge.1 ∉ covered) ∧
        (incoming.map (·.1)).Nodup ∧ covered.length + incoming.length = preds.length) ∧
      ∀ edge ∈ incoming, ∀ use ∈ edge.2.uses,
        use.1 ∈ c.body.params ++ c.body.results ∧ c.body.types[use.1]? = some use.2 := by
  induction incoming generalizing covered with
  | nil =>
    unfold checkEdges
    simp only [require_ok_iff, decide_eq_true_eq, List.not_mem_nil, false_imp_iff, implies_true,
      List.map_nil, List.nodup_nil, List.length_nil, Nat.add_zero, true_and, and_true]
  | cons edge rest ih =>
    -- one predecessor at a time, each crossed off the list
    obtain ⟨pred, operand⟩ := edge
    unfold checkEdges
    rw [seq_ok_iff, seq_ok_iff, seq_ok_iff, ih, checkIncoming_ok_iff informed, require_ok_iff,
      require_ok_iff, List.contains_iff_mem, Bool.not_eq_true', ← Bool.not_eq_true,
      List.contains_iff_mem]
    -- the first pair is covered for those behind it, so it must not be among them
    simp only [List.forall_mem_cons, List.map_cons, List.nodup_cons, List.length_cons]
    constructor
    · rintro ⟨known, new, fits, ⟨later, apart, nodup, count⟩, rest_fits⟩
      refine ⟨⟨⟨known, later⟩, ⟨new, fun e he hm => ?_⟩, ⟨?_, nodup⟩, by omega⟩, fits, rest_fits⟩
      · exact apart e he (List.mem_cons_of_mem _ hm)
      · rintro hm
        obtain ⟨e, he, same⟩ := List.mem_map.mp hm
        exact apart e he (same ▸ List.mem_cons_self)
    · rintro ⟨⟨⟨known, later⟩, ⟨new, apart⟩, ⟨unseen, nodup⟩, count⟩, fits, rest_fits⟩
      refine ⟨known, new, fits, ⟨later, fun e he hm => ?_, nodup, by omega⟩, rest_fits⟩
      rcases List.mem_cons.mp hm with same | hm
      · exact unseen (List.mem_map.mpr ⟨e, he, same⟩)
      · exact apart e he hm

theorem preds_of_informed (entry : position < c.body.blocks.length) :
    ((c.facts.preds[position]?).getD []).Nodup ∧
      ∀ p, p ∈ (c.facts.preds[position]?).getD [] ↔ c.body.Leads p position := by
  have bound : position < c.facts.preds.size := informed.recorded.preds_size.symm ▸ entry
  have found := Array.getElem?_eq_getElem bound
  rw [found]
  refine ⟨informed.recorded.preds_nodup position _ found, fun p => ?_⟩
  refine (informed.recorded.preds position _ found p).trans (edge_mem_iff.trans ?_)
  constructor
  · rintro ⟨source, k, t, hk, ht, htarget, rfl⟩
    rw [informed.structured.ids source k hk]
    exact ⟨k, t, hk, ht, htarget⟩
  · rintro ⟨k, t, hk, ht, htarget⟩
    exact ⟨p, k, t, hk, ht, htarget, (informed.structured.ids p k hk).symm⟩

/-- The pairs of a phi pass where there is one for each block that leads to it. -/
theorem checkPhi_ok_iff (entry : position < c.body.blocks.length)
    {incoming : List (BlockId × Operand)} :
    c.checkEdges ((c.facts.preds[position]?).getD []) [] incoming = .ok ⟨⟩ ↔
      c.body.FitsPhi position incoming := by
  obtain ⟨nodup, mem⟩ := preds_of_informed informed entry
  rw [checkEdges_ok_iff informed]
  generalize (c.facts.preds[position]?).getD [] = preds at nodup mem
  constructor
  · rintro ⟨⟨known, -, once, count⟩, values⟩
    refine ⟨once, fun p => ?_, values⟩
    have inside : incoming.map (·.1) ⊆ preds := by
      intro p hp
      obtain ⟨edge, hedge, rfl⟩ := List.mem_map.mp hp
      exact known edge hedge
    have perm : (incoming.map (·.1)).Perm preds :=
      (List.subperm_of_subset once inside).perm_of_length_le (by rw [List.length_map]; simp at count; omega)
    rw [perm.mem_iff, mem p]
  · rintro ⟨once, leads, values⟩
    have perm : (incoming.map (·.1)).Perm preds :=
      (List.perm_ext_iff_of_nodup once nodup).mpr fun p => (leads p).trans (mem p).symm
    refine ⟨⟨fun edge hedge => ?_, fun _ _ => List.not_mem_nil, once, ?_⟩, values⟩
    · exact perm.mem_iff.mp (List.mem_map.mpr ⟨edge, hedge, rfl⟩)
    · rw [← perm.length_eq, List.length_map, List.length_nil, Nat.zero_add]

/-- An operation is accepted if all it refers to is there: slot, operands, callee, predecessors. -/
theorem checkOperation_ok_iff (entry : position < c.body.blocks.length) {operation : Operation} :
    c.checkOperation position index operation = .ok ⟨⟩ ↔
      (∀ slot, operation = .load slot → slot ∈ c.body.allocated) ∧
        Reads c.body position index operation.uses ∧
        (∀ callee args, operation = .call callee args →
          ∃ unit, c.module.units[callee]? = some unit ∧ unit.arity = args.length) ∧
        ∀ incoming, operation = .phi incoming → c.body.FitsPhi position incoming := by
  -- arithmetic and comparisons check their operands in the same way
  have two : ∀ {left right : Operand}, (do
      c.checkOperand position index left
      c.checkOperand position index right) = .ok ⟨⟩ ↔
        Reads c.body position index (left.uses ++ right.uses) := by
    intro left right
    rw [seq_ok_iff, checkOperand_ok_iff informed, checkOperand_ok_iff informed]
    exact List.forall_mem_append.symm
  unfold checkOperation
  cases operation with
  | load slot =>
    simp only [checkSlot_ok_iff informed, Operation.uses, Reads, List.not_mem_nil,
      Operation.load.injEq, forall_eq', reduceCtorEq, false_imp_iff, implies_true, and_true]
  | arith op left right =>
    simp only [two, Operation.uses, reduceCtorEq, false_imp_iff, implies_true, and_true, true_and]
  | compare op left right =>
    simp only [two, Operation.uses, reduceCtorEq, false_imp_iff, implies_true, and_true, true_and]
  | neg operand =>
    simp only [checkOperand_ok_iff informed, Operation.uses, reduceCtorEq, false_imp_iff,
      implies_true, and_true, true_and]
  | extend operand =>
    simp only [checkValue_ok_iff informed, Operation.uses, Reads, List.forall_mem_singleton,
      reduceCtorEq, false_imp_iff, implies_true, and_true, true_and]
  | call callee args =>
    refine seq_ok_iff.trans ?_
    rw [checkCallee_ok_iff, forM_ok_iff]
    constructor
    · rintro ⟨known, reads⟩
      refine ⟨fun _ h => (nomatch h), fun use huse => ?_, ?_, fun _ h => (nomatch h)⟩
      · obtain ⟨arg, harg, huse⟩ := List.mem_flatMap.mp huse
        exact (checkOperand_ok_iff informed).mp (reads arg harg) use huse
      · intro callee' args' same
        cases same
        exact known
    · rintro ⟨-, reads, known, -⟩
      refine ⟨known callee args rfl, fun arg harg => ?_⟩
      refine (checkOperand_ok_iff informed).mpr fun use huse => ?_
      exact reads use (List.mem_flatMap.mpr ⟨arg, harg, huse⟩)
  | phi incoming =>
    simp only [checkPhi_ok_iff informed entry, Operation.uses, Reads, List.not_mem_nil,
      Operation.phi.injEq, forall_eq', reduceCtorEq, false_imp_iff, implies_true, true_and]

theorem checkEffect_ok_iff {effect : Effect} :
    c.checkEffect position index effect = .ok ⟨⟩ ↔
      (∀ slot value, effect = .store slot value → slot ∈ c.body.allocated) ∧
        Reads c.body position index effect.uses ∧
        ∀ string, effect = .printStr string → string < c.module.strings.size := by
  unfold checkEffect
  cases effect with
  | store slot value =>
    refine seq_ok_iff.trans ?_
    rw [checkSlot_ok_iff informed, checkOperand_ok_iff informed]
    constructor
    · rintro ⟨known, reads⟩
      refine ⟨?_, reads, fun _ h => (nomatch h)⟩
      intro slot' value' same
      cases same
      exact known
    · rintro ⟨known, reads, -⟩
      exact ⟨known slot value rfl, reads⟩
  | printInt value =>
    simp only [checkOperand_ok_iff informed, Effect.uses, reduceCtorEq, false_imp_iff,
      implies_true, true_and, and_true]
  | printStr string =>
    simp only [require_ok_iff, decide_eq_true_eq, Effect.uses, Reads, List.not_mem_nil,
      Effect.printStr.injEq, forall_eq', reduceCtorEq, false_imp_iff, implies_true, true_and]

/-- An instruction passes exactly where it fits. -/
theorem checkInstr_ok_iff (entry : position < c.body.blocks.length) {instr : Instr} :
    c.checkInstr position index instr = .ok ⟨⟩ ↔
      c.body.FitsInstr c.module position index instr := by
  cases instr with
  | alloca slot =>
    -- an allocation is checked in the first pass already
    refine ⟨fun _ => ⟨fun _ h => (nomatch h), fun _ h => absurd h List.not_mem_nil,
      fun _ _ h => (nomatch h), fun _ _ _ h => (nomatch h), fun _ h => (nomatch h),
      fun _ _ h => (nomatch h)⟩, fun _ => rfl⟩
  | define dst operation =>
    refine seq_ok_iff.trans ?_
    rw [checkTy_ok_iff, checkOperation_ok_iff informed entry]
    constructor
    · -- what the checks say of the operation, they say of the instruction that defines it
      rintro ⟨typed, slots, reads, known, phi⟩
      refine ⟨fun slot hslot => ?_, reads, ?_, ?_, fun _ h => (nomatch h), ?_⟩
      · cases operation with
        | load slot' =>
          cases hslot
          exact slots slot rfl
        | _ => cases hslot
      · intro value op same
        cases same
        exact typed
      · intro value callee args same
        cases same
        exact known callee args rfl
      · intro value incoming same
        cases same
        exact phi incoming rfl
    · intro fits
      refine ⟨fits.result dst operation rfl, ?_, fits.uses, ?_, ?_⟩
      · rintro slot rfl
        exact fits.slot slot rfl
      · rintro callee args rfl
        exact fits.call dst callee args rfl
      · rintro incoming rfl
        exact fits.phi dst incoming rfl
  | perform effect =>
    refine (checkEffect_ok_iff informed).trans ?_
    constructor
    · rintro ⟨slots, reads, strings⟩
      refine ⟨fun slot hslot => ?_, reads, fun _ _ h => (nomatch h), fun _ _ _ h => (nomatch h), ?_,
        fun _ _ h => (nomatch h)⟩
      · cases effect with
        | store slot' value =>
          cases hslot
          exact slots slot value rfl
        | _ => cases hslot
      · intro string same
        cases same
        exact strings string rfl
    · intro fits
      refine ⟨?_, fits.uses, ?_⟩
      · rintro slot value rfl
        exact fits.slot slot rfl
      · rintro string rfl
        exact fits.string string rfl

/-- Instructions pass where each fits and phis come first. -/
theorem checkInstrs_ok_iff (entry : position < c.body.blocks.length) {leading : Bool}
    {instrs : List Instr} :
    c.checkInstrs position index leading instrs = .ok ⟨⟩ ↔
      (∀ (j : Nat) (later : Instr), instrs[j]? = some later → later.isPhi → leading = true ∧
        ∀ (i : Nat) (earlier : Instr), i < j → instrs[i]? = some earlier → earlier.isPhi) ∧
      ∀ j instr, instrs[j]? = some instr → c.body.FitsInstr c.module position (index + j) instr := by
  induction instrs generalizing index leading with
  | nil =>
    unfold checkInstrs
    simp only [List.getElem?_nil, reduceCtorEq, false_imp_iff, implies_true, and_true]
  | cons first rest ih =>
    unfold checkInstrs
    rw [seq_ok_iff, seq_ok_iff, ih, checkInstr_ok_iff informed entry, require_ok_iff,
      Bool.or_eq_true, Bool.not_eq_true', Bool.and_eq_true]
    constructor
    · rintro ⟨lead, fits, phis, rest_fits⟩
      constructor
      · intro j later hlater isPhi
        -- the first instruction leads if the flag says so, the others if all before them are phis
        cases j with
        | zero =>
          cases hlater
          refine ⟨lead.resolve_left fun h => ?_, fun _ _ h => absurd h (Nat.not_lt_zero _)⟩
          exact Bool.noConfusion (h.symm.trans isPhi)
        | succ j =>
          obtain ⟨⟨leads, firstPhi⟩, before⟩ := phis j later hlater isPhi
          refine ⟨leads, fun i earlier hi hearlier => ?_⟩
          cases i with
          | zero =>
            cases hearlier
            exact firstPhi
          | succ i => exact before i earlier (Nat.lt_of_succ_lt_succ hi) hearlier
      · intro j instr hinstr
        cases j with
        | zero =>
          cases hinstr
          exact fits
        | succ j => exact Nat.succ_add_eq_add_succ index j ▸ rest_fits j instr hinstr
    · -- the flag is passed on as long as there are only phis
      rintro ⟨phis, fits⟩
      refine ⟨?_, fits 0 first rfl, fun j later hlater isPhi => ?_, fun j instr hinstr => ?_⟩
      · cases isPhi : first.isPhi with
        | false => exact .inl rfl
        | true => exact .inr (phis 0 first rfl isPhi).1
      · obtain ⟨leads, before⟩ := phis (j + 1) later hlater isPhi
        refine ⟨⟨leads, before 0 first (Nat.succ_pos j) rfl⟩, fun i earlier hi hearlier => ?_⟩
        exact before (i + 1) earlier (Nat.succ_lt_succ hi) hearlier
      · exact Nat.succ_add_eq_add_succ index j ▸ fits (j + 1) instr hinstr

/-- The end of a block passes where what it reads is there. -/
theorem checkTerminator_ok_iff {block : Block} :
    c.checkTerminator block = .ok ⟨⟩ ↔ ∀ t, block.terminator = some t →
      Reads c.body block.id block.instrs.length t.uses := by
  unfold checkTerminator
  cases block.terminator with
  | none => exact ⟨fun _ _ h => (nomatch h), fun _ => rfl⟩
  | some t =>
    simp only [Option.some.injEq, forall_eq']
    cases t with
    | ret value => exact checkOperand_ok_iff informed
    | br target => exact ⟨fun _ _ h => absurd h List.not_mem_nil, fun _ => rfl⟩
    | condBr cond yes no =>
      refine (checkValue_ok_iff informed).trans ?_
      simp only [Terminator.uses, Reads, List.forall_mem_singleton]

end Checker

end TwinLisp.Graph
