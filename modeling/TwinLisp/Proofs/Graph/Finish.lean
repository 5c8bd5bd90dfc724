import Mathlib.Data.List.Nodup
import TwinLisp.Proofs.Graph.Valid
import TwinLisp.Proofs.Verify.Calls

/-! The finished body of a builder whose blocks are in order is well-formed. -/

namespace TwinLisp.Graph.Builder

variable {D : Known} {b : Builder} {p q : BlockId} {i : Instr} {v : ValueId} {n : Nat}

/-- How many allocations come before the instructions of a block. -/
def offset (b : Builder) (p : BlockId) : Nat := if p = 0 then b.slots.size else 0

/-- The allocations that come before the instructions of a block. -/
def front (b : Builder) (p : BlockId) : List Instr := if p = 0 then b.allocas else []

theorem length_front : (b.front p).length = b.offset p := by
  unfold front offset
  split
  · rw [allocas, List.length_map, List.length_range]
  · rfl

theorem length_block : ((if p = 0 then b.allocas else []) ++ b.instrsAt p).length
    = b.offset p + (b.instrsAt p).length := by
  rw [List.length_append]
  exact congrArg (· + _) length_front

theorem mem_front (h : (b.front p)[n]? = some i) : p = 0 ∧ n < b.slots.size ∧ i = .alloca n := by
  unfold front allocas at h
  split at h
  next here =>
    rw [List.getElem?_map] at h
    obtain ⟨slot, found, rfl⟩ := Option.map_eq_some_iff.mp h
    obtain ⟨lt, rfl⟩ := List.getElem?_eq_some_iff.mp found
    rw [List.length_range] at lt
    exact ⟨here, lt, by rw [List.getElem_range]⟩
  next => cases h

/-- An index of a finished block, counted from the allocations in front. -/
theorem instrAt_finish : b.finish.instrAt? p n = if p < b.size then
    (b.front p ++ b.instrsAt p)[n]? else none := by
  unfold Body.instrAt?
  split
  next lt => rw [finish_block? lt, Option.bind_some, front]
  next ge =>
    rw [List.getElem?_eq_none (Nat.le_trans (Nat.le_of_eq length_finish) (Nat.not_lt.mp ge))]
    rfl

/-- An instruction of the finished body allocates a slot, or is one of the builder. -/
theorem instrAt_finish_cases (h : b.finish.instrAt? p n = some i) :
    (p = 0 ∧ n < b.slots.size ∧ i = .alloca n) ∨
      ∃ k, n = b.offset p + k ∧ (b.instrsAt p)[k]? = some i := by
  rw [instrAt_finish] at h
  split at h
  next =>
    -- the allocations stand in front, and the rest is numbered behind them
    by_cases before : n < (b.front p).length
    · rw [List.getElem?_append_left before] at h
      exact .inl (mem_front h)
    · have le := Nat.not_lt.mp before
      rw [List.getElem?_append_right le, length_front] at h
      refine .inr ⟨n - b.offset p, ?_, h⟩
      rw [length_front] at le
      exact (Nat.add_sub_of_le le).symm
  next => cases h

theorem instrAt_finish_of_get? {k : Nat} (h : (b.instrsAt p)[k]? = some i) :
    b.finish.instrAt? p (b.offset p + k) = some i := by
  have lt := lt_size_of_mem (List.mem_of_getElem? h)
  rw [instrAt_finish, if_pos lt, ← length_front, List.getElem?_append_right (Nat.le_add_right _ _),
    Nat.add_sub_cancel_left, h]

/-- Finishing adds no edge and removes none. -/
theorem leads_finish : b.finish.Leads p q ↔ b.Leads p q := by
  constructor
  · rintro ⟨k, t, found, ended, mem⟩
    rw [finish_block? (lt_of_finish_block? found)] at found
    cases found
    exact ⟨t, ended, mem⟩
  · rintro ⟨t, ended, mem⟩
    exact ⟨_, t, finish_block? (lt_size_of_endAt ended), ended, mem⟩

theorem define_of_makes {j : Instr} (h : Fact.value v ∈ j.makes) :
    ∃ operation, j = .define v operation := by
  unfold Instr.makes at h
  split at h
  next dst operation =>
    cases List.mem_singleton.mp h
    exact ⟨operation, rfl⟩
  next => cases List.mem_singleton.mp h
  next => exact absurd h List.not_mem_nil

theorem eq_phi (h : i.isPhi) : ∃ dst incoming, i = .define dst (.phi incoming) := by
  unfold Instr.isPhi at h
  split at h
  next dst incoming => exact ⟨dst, incoming, rfl⟩
  next => cases h

theorem mem_results_of_mem {i : Instr} (hi : i ∈ b.instrsAt p) (result : i.result? = some v) :
    v ∈ b.finish.results := by
  obtain ⟨k, hk, mem⟩ := mem_finish_of_mem hi
  exact List.mem_flatMap.mpr ⟨k, hk, List.mem_filterMap.mpr ⟨i, mem, result⟩⟩

/-- A result is that of an instruction that was pushed. -/
theorem result_of_mem_results (h : v ∈ b.finish.results) :
    ∃ p, ∃ i ∈ b.instrsAt p, i.result? = some v := by
  obtain ⟨k, hk, mem⟩ := List.mem_flatMap.mp h
  obtain ⟨i, hi, result⟩ := List.mem_filterMap.mp mem
  rcases mem_finish hk hi with ⟨slot, rfl⟩ | ⟨p, hp⟩
  · cases result
  · exact ⟨p, i, hp, result⟩

theorem filterMap_front (p : BlockId) : (b.front p).filterMap Instr.result? = [] := by
  refine List.filterMap_eq_nil_iff.mpr fun i hi => ?_
  obtain ⟨n, hn⟩ := List.mem_iff_getElem?.mp hi
  obtain ⟨-, -, rfl⟩ := mem_front hn
  rfl

theorem blocks_finish (b : Builder) : b.finish.blocks =
    (List.range b.size).map fun p => ⟨p, b.front p ++ b.instrsAt p, b.endAt p⟩ := by
  refine List.ext_getElem? fun p => ?_
  rw [List.getElem?_map]
  by_cases lt : p < b.size
  · rw [finish_block? lt, List.getElem?_range lt]
    rfl
  · have ge := Nat.not_lt.mp lt
    rw [List.getElem?_eq_none (Nat.le_trans (Nat.le_of_eq length_finish) ge),
      List.getElem?_eq_none (by rwa [List.length_range])]
    rfl

/-- What is listed of a finished body, block by block. -/
theorem flatMap_finish {α : Type} (f : Instr → Option α) :
    b.finish.blocks.flatMap (fun k => k.instrs.filterMap f) =
      (List.range b.size).flatMap fun p => (b.front p ++ b.instrsAt p).filterMap f := by
  rw [blocks_finish, List.flatMap_map]

namespace Valid

variable (h : Valid D b)

include h

/-- What can be read before an instruction of a block is available there. -/
theorem available {k : Nat} (known : D p (.value v) ∨
    ∃ j ∈ (b.instrsAt p).take k, Fact.value v ∈ j.makes) :
    b.finish.Available v p (b.offset p + k) := by
  -- known on entry, as a parameter or from another block, or defined earlier in this one
  rcases known with known | ⟨j, hj, made⟩
  · rcases h.origin p v known with param | ⟨q, other, i, hi, made⟩
    · exact .inl (List.mem_range.mpr param)
    · obtain ⟨operation, rfl⟩ := define_of_makes made
      obtain ⟨k', found⟩ := List.mem_iff_getElem?.mp hi
      exact .inr ⟨q, _, operation, instrAt_finish_of_get? found, fun same => absurd same other⟩
  · obtain ⟨operation, rfl⟩ := define_of_makes made
    obtain ⟨k', found⟩ := List.mem_iff_getElem?.mp hj
    rw [List.getElem?_take] at found
    split at found
    next lt =>
      exact .inr ⟨p, _, operation, instrAt_finish_of_get? found, fun _ =>
        Nat.add_lt_add_left lt _⟩
    next => cases found

/-- What is known of values is known of those that the body defines. -/
theorem mem_defined (known : b.Avail D p (.value v)) :
    v ∈ b.finish.params ++ b.finish.results := by
  rcases h.origin_of_avail known with param | ⟨q, i, hi, made⟩
  · exact List.mem_append_left _ (List.mem_range.mpr param)
  · obtain ⟨operation, rfl⟩ := define_of_makes made
    exact List.mem_append_right _ (mem_results_of_mem hi rfl)

/-- Values are defined once within a block. -/
theorem nodup_block (p : BlockId) : ((b.instrsAt p).filterMap Instr.result?).Nodup := by
  refine List.pairwise_filterMap.mpr (List.pairwise_iff_getElem.mpr ?_)
  rintro k n hk hn lt v hv w result rfl
  have found : (b.instrsAt p)[n]? = some (b.instrsAt p)[n] := List.getElem?_eq_getElem hn
  have fits := h.instrs p n _ found
  cases same : (b.instrsAt p)[n] with
  | define dst operation =>
    rw [same] at result fits
    cases result
    -- the second definition would be of a value that an earlier instruction has made
    have earlier : (b.instrsAt p)[k] ∈ (b.instrsAt p).take n :=
      List.mem_take_iff_getElem.mpr ⟨k, by omega, rfl⟩
    exact (fits.result v operation rfl).2.2 _ earlier hv
  | _ =>
    rw [same] at result
    cases result

/-- No value is the result of two instructions. -/
theorem nodup_results : b.finish.results.Nodup := by
  unfold Body.results
  rw [flatMap_finish, List.nodup_flatMap]
  -- once within a block, and in no two blocks
  refine ⟨fun p _ => ?_, ?_⟩
  · rw [List.filterMap_append, filterMap_front, List.nil_append]
    exact h.nodup_block p
  · refine List.nodup_range.imp fun {p q} other v hp hq => ?_
    change v ∈ (b.front p ++ b.instrsAt p).filterMap Instr.result? at hp
    change v ∈ (b.front q ++ b.instrsAt q).filterMap Instr.result? at hq
    rw [List.filterMap_append, filterMap_front, List.nil_append] at hp hq
    obtain ⟨i, hi, result⟩ := List.mem_filterMap.mp hp
    obtain ⟨j, hj, result'⟩ := List.mem_filterMap.mp hq
    exact h.apart p q v other ⟨i, hi, result⟩ ⟨j, hj, result'⟩

theorem nodup_defined : (b.finish.params ++ b.finish.results).Nodup := by
  refine List.nodup_append.mpr ⟨List.nodup_range, h.nodup_results, fun v hv w hw same => ?_⟩
  obtain ⟨p, i, hi, result⟩ := result_of_mem_results hw
  have lt := List.mem_range.mp hv
  obtain ⟨n, hn⟩ := List.mem_iff_getElem?.mp hi
  have fits := h.instrs p n i hn
  cases i with
  | define dst operation =>
    cases result
    -- results are numbered from the parameters on
    have ge := (fits.result w operation rfl).1
    exact Nat.lt_irrefl _ (Nat.lt_of_lt_of_le (same ▸ lt) ge)
  | _ => cases result

/-- Every slot is allocated once, in order. -/
theorem allocated_finish : b.finish.allocated = List.range b.slots.size := by
  have none (p : BlockId) : (b.instrsAt p).filterMap Instr.allocated? = [] := by
    refine List.filterMap_eq_nil_iff.mpr fun i hi => ?_
    obtain ⟨n, hn⟩ := List.mem_iff_getElem?.mp hi
    exact (h.instrs p n i hn).noAlloca
  have first : b.allocas.filterMap Instr.allocated? = List.range b.slots.size := by
    unfold allocas
    rw [List.filterMap_map]
    exact List.filterMap_some
  obtain ⟨n, size⟩ : ∃ n, b.size = n + 1 := ⟨b.size - 1, (Nat.succ_pred_eq_of_pos h.pos).symm⟩
  unfold Body.allocated
  -- the first block apart from the others
  rw [flatMap_finish, size, List.range_succ_eq_map, List.flatMap_cons, List.filterMap_append, none,
    List.append_nil, List.flatMap_map]
  -- no block but the first has allocations, and it has them in front
  have rest : ((List.range n).flatMap fun p =>
      (b.front (p + 1) ++ b.instrsAt (p + 1)).filterMap Instr.allocated?) = [] := by
    refine List.flatMap_eq_nil_iff.mpr fun p _ => ?_
    rw [List.filterMap_append, none]
    rfl
  rw [rest, List.append_nil]
  exact first

theorem lt_types {v : ValueId} (mem : v ∈ b.finish.params ++ b.finish.results) :
    v < b.types.size := by
  rcases List.mem_append.mp mem with param | result
  · exact Nat.lt_of_lt_of_le (List.mem_range.mp param) h.arity_le
  · obtain ⟨p, i, hi, same⟩ := result_of_mem_results result
    exact h.lt_of_result hi same

/-- The finished body is structured, if no block has been left open. -/
theorem structured (ended : ∀ p < b.size, b.endAt p ≠ none) : b.finish.Structured where
  ids p k found := by
    rw [finish_block? (lt_of_finish_block? found)] at found
    cases found
    rfl
  terminated k hk := by
    obtain ⟨p, found⟩ := List.mem_iff_getElem?.mp hk
    have lt := lt_of_finish_block? found
    rw [finish_block? lt] at found
    cases found
    exact Option.isSome_iff_ne_none.mpr (ended p lt)
  targets p q leads := Nat.lt_of_lt_of_eq (h.targets p q (leads_finish.mp leads)) length_finish.symm
  -- allocations are in front of the first block, and nothing that was pushed is one
  allocated_entry p n slot found := by
    rcases instrAt_finish_cases found with ⟨first, -⟩ | ⟨k, -, found⟩
    · exact first
    · cases (h.instrs p k _ found).noAlloca
  allocated_lt slot mem := by
    rw [h.allocated_finish] at mem
    exact List.mem_range.mp mem
  allocated_nodup := by
    rw [h.allocated_finish]
    exact List.nodup_range
  defined_lt v mem := h.lt_types mem
  defined_nodup := h.nodup_defined

theorem fitsPhi {incoming : List (BlockId × Operand)} (found : b.finish.instrAt? p n = some i)
    (same : i = .define v (.phi incoming)) : b.finish.FitsPhi p incoming := by
  subst same
  rcases instrAt_finish_cases found with ⟨-, -, isAlloca⟩ | ⟨k, -, hk⟩
  · cases isAlloca
  · obtain ⟨-, joins⟩ := (h.instrs p k _ hk).phi v incoming rfl
    refine ⟨joins.nodup, fun q => (joins.preds q).trans leads_finish.symm, fun edge mem use hu => ?_⟩
    obtain ⟨known, typed⟩ := joins.reads edge mem use hu
    exact ⟨h.mem_defined known, typed⟩

/-- Each instruction fits, if the units and texts exist that it calls and prints. -/
theorem fitsButCalls {m : Module} (found : b.finish.instrAt? p n = some i)
    (callee : ∀ dst callee args, i = .define dst (.call callee args) → callee < m.units.size)
    (string : ∀ string, i = .perform (.printStr string) → string < m.strings.size) :
    b.finish.FitsButCalls m p n i := by
  -- an allocation fits by itself; anything else was pushed
  rcases instrAt_finish_cases found with ⟨rfl, lt, rfl⟩ | ⟨k, rfl, hk⟩
  · exact .fits ⟨nofun, nofun, nofun, nofun, nofun, nofun⟩
  have fits := h.instrs p k i hk
  have uses : ∀ use ∈ i.uses, b.finish.Available use.1 p (b.offset p + k) ∧
      b.finish.types[use.1]? = some use.2 := fun use mem =>
    ⟨h.available (fits.uses use mem).1, (fits.uses use mem).2⟩
  have result (v : ValueId) (op : Operation) (same : i = .define v op) :
      b.finish.types[v]? = some op.ty := (fits.result v op same).2.1
  -- whether a call has as many arguments as its unit takes is left open
  by_cases call : ∃ dst callee args, i = .define dst (.call callee args)
  · obtain ⟨dst, callee', args, rfl⟩ := call
    exact .call rfl (callee dst callee' args rfl) (result dst _ rfl) uses
  · refine .fits ⟨fun slot hslot => ?_, uses, result, fun dst callee' args same => ?_, string,
      fun dst incoming same => h.fitsPhi found same⟩
    · rw [h.allocated_finish]
      exact List.mem_range.mpr (fits.slot slot hslot)
    · exact absurd ⟨dst, callee', args, same⟩ call

/-- The finished body is well-formed up to calls, if no block has been left open. -/
theorem wellFormedButCalls {m : Module} (ended : ∀ p < b.size, b.endAt p ≠ none)
    (callee : ∀ k ∈ b.finish.blocks, ∀ i ∈ k.instrs, ∀ dst callee args,
      i = .define dst (.call callee args) → callee < m.units.size)
    (string : ∀ k ∈ b.finish.blocks, ∀ i ∈ k.instrs, ∀ string,
      i = .perform (.printStr string) → string < m.strings.size) :
    b.finish.WellFormedButCalls m b.arity where
  toStructured := h.structured ended
  blocks_ne_nil := by
    refine List.ne_nil_of_length_pos ?_
    rw [length_finish]
    exact h.pos
  params_length := List.length_range
  phis_lead p m n earlier later lt hearlier hlater isPhi := by
    rcases instrAt_finish_cases hlater with ⟨-, -, rfl⟩ | ⟨k, rfl, hk⟩
    · cases isPhi
    obtain ⟨dst, incoming, rfl⟩ := eq_phi isPhi
    obtain ⟨leading, joins⟩ := (h.instrs p k _ hk).phi dst incoming rfl
    rcases instrAt_finish_cases hearlier with ⟨rfl, -, -⟩ | ⟨j, rfl, hj⟩
    · -- a phi does not stand in the first block, so the allocations come before none
      exact absurd rfl joins.inner
    · -- both come from the pushed instructions, among which phis lead
      refine leading earlier (List.mem_of_getElem? (i := j) ?_)
      rw [List.getElem?_take, if_pos (Nat.lt_of_add_lt_add_left lt), hj]
  instrs p n i found := by
    obtain ⟨k, hk, hi⟩ := Body.instrAt?_eq_some_iff.mp found
    have mem := List.mem_of_getElem? hk
    have mem' := List.mem_of_getElem? hi
    exact h.fitsButCalls found (callee k mem i mem') (string k mem i mem')
  exits p k t found ended' use hu := by
    have lt := lt_of_finish_block? found
    rw [finish_block? lt] at found
    cases found
    obtain ⟨known, typed⟩ := h.ends p t ended' use hu
    refine ⟨?_, typed⟩
    rw [length_block]
    -- at the end of the block all of its instructions are behind
    refine h.available (known.imp id ?_)
    rw [List.take_length]
    exact id

end Valid

end TwinLisp.Graph.Builder
