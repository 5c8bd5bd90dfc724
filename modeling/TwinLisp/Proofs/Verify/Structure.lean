import TwinLisp.Proofs.Verify.Events

/-! The events of a body are in order exactly where its structure is. -/

namespace TwinLisp.Graph

namespace Body

variable {body : Body} {position index : Nat} {instr : Instr} {k : Block}

theorem instrAt?_eq_some_iff : body.instrAt? position index = some instr ↔
    ∃ k, body.blocks[position]? = some k ∧ k.instrs[index]? = some instr :=
  Option.bind_eq_some_iff

theorem mem_results_iff {value : ValueId} : value ∈ body.results ↔
    ∃ position index operation, body.instrAt? position index = some (.define value operation) := by
  unfold results
  simp only [List.mem_flatMap, List.mem_filterMap, instrAt?_eq_some_iff]
  constructor
  · rintro ⟨k, hk, instr, hinstr, hv⟩
    obtain ⟨position, hposition⟩ := List.mem_iff_getElem?.mp hk
    obtain ⟨index, hindex⟩ := List.mem_iff_getElem?.mp hinstr
    -- only definitions have results
    cases instr with
    | define dst operation =>
      cases hv
      exact ⟨position, index, operation, k, hposition, hindex⟩
    | _ => cases hv
  · rintro ⟨position, index, operation, k, hposition, hindex⟩
    exact ⟨k, List.mem_of_getElem? hposition, _, List.mem_of_getElem? hindex, rfl⟩

theorem mem_defined_of_available {value : ValueId} (h : body.Available value position index) :
    value ∈ body.params ++ body.results := by
  rcases h with param | ⟨p, i, operation, found, -⟩
  · exact List.mem_append_left _ param
  · exact List.mem_append_right _ (mem_results_iff.mpr ⟨p, i, operation, found⟩)

theorem mem_allocated_iff {slot : SlotId} : slot ∈ body.allocated ↔
    ∃ position index, body.instrAt? position index = some (.alloca slot) := by
  unfold allocated
  simp only [List.mem_flatMap, List.mem_filterMap, instrAt?_eq_some_iff]
  constructor
  · rintro ⟨k, hk, instr, hinstr, hs⟩
    obtain ⟨position, hposition⟩ := List.mem_iff_getElem?.mp hk
    obtain ⟨index, hindex⟩ := List.mem_iff_getElem?.mp hinstr
    cases instr with
    | alloca slot' =>
      cases hs
      exact ⟨position, index, k, hposition, hindex⟩
    | _ => cases hs
  · rintro ⟨position, index, k, hposition, hindex⟩
    exact ⟨k, List.mem_of_getElem? hposition, _, List.mem_of_getElem? hindex, rfl⟩

end Body

namespace Event

variable {body : Body}

theorem mem_ofBlock_iff {e : Event} {k : Block} {position : Nat} : e ∈ ofBlock k position ↔
    e = header k.id position k.terminator.isSome ∨
      (∃ index instr, k.instrs[index]? = some instr ∧ e ∈ ofInstr k.id instr index) ∨
      ∃ t target, k.terminator = some t ∧ target ∈ t.successors ∧ e = edge k.id target := by
  unfold ofBlock
  simp only [List.mem_append, List.mem_cons, List.mem_flatMap, List.mem_map, Prod.exists,
    List.mem_zipIdx_iff_getElem?, Option.mem_toList, or_assoc]
  refine or_congr_right (or_congr ?_ ?_)
  · exact exists_comm
  · constructor
    · rintro ⟨target, ⟨t, ht, htarget⟩, rfl⟩
      exact ⟨t, target, ht, htarget, rfl⟩
    · rintro ⟨t, target, ht, htarget, rfl⟩
      exact ⟨target, ⟨t, ht, htarget⟩, rfl⟩

theorem mem_ofBody_iff {e : Event} : e ∈ ofBody body ↔
    (∃ param ∈ body.params, e = define param .param) ∨
      ∃ position k, body.blocks[position]? = some k ∧ e ∈ ofBlock k position := by
  unfold ofBody
  simp only [List.mem_append, List.mem_map, List.mem_flatMap, Prod.exists,
    List.mem_zipIdx_iff_getElem?]
  refine or_congr ⟨?_, ?_⟩ exists_comm
  · rintro ⟨param, hparam, rfl⟩
    exact ⟨param, hparam, rfl⟩
  · rintro ⟨param, hparam, rfl⟩
    exact ⟨param, hparam, rfl⟩

/-- There is one header for each block. -/
theorem header_mem_iff {id position : Nat} {terminated : Bool} :
    header id position terminated ∈ ofBody body ↔
      ∃ k : Block, body.blocks[position]? = some k ∧ id = k.id ∧ terminated = k.terminator.isSome := by
  rw [mem_ofBody_iff]
  constructor
  · rintro (⟨param, -, h⟩ | ⟨p, k, hk, h⟩)
    · cases h
    · rcases mem_ofBlock_iff.mp h with h | ⟨i, instr, -, h⟩ | ⟨t, target, -, -, h⟩
      · cases h
        exact ⟨k, hk, rfl, rfl⟩
      · -- no instruction has a header among its events
        cases instr <;> simp only [ofInstr, List.mem_singleton, List.not_mem_nil, reduceCtorEq] at h
      · cases h
  · rintro ⟨k, hk, rfl, rfl⟩
    exact .inr ⟨position, k, hk, mem_ofBlock_iff.mpr (.inl rfl)⟩

/-- A definition is that of a parameter or of an instruction. -/
theorem define_mem_iff {value : ValueId} {site : Site} : define value site ∈ ofBody body ↔
    (value ∈ body.params ∧ site = .param) ∨
      ∃ (position : Nat) (k : Block) (index : Nat) (operation : Operation),
        body.blocks[position]? = some k ∧ k.instrs[index]? = some (.define value operation) ∧
          site = .instr k.id index := by
  rw [mem_ofBody_iff]
  constructor
  · rintro (⟨param, hparam, h⟩ | ⟨p, k, hk, h⟩)
    · cases h
      exact .inl ⟨hparam, rfl⟩
    · rcases mem_ofBlock_iff.mp h with h | ⟨i, instr, hi, h⟩ | ⟨t, target, -, -, h⟩
      · cases h
      · cases instr with
        | define dst operation =>
          cases List.mem_singleton.mp h
          exact .inr ⟨p, k, i, operation, hk, hi, rfl⟩
        | alloca slot => cases List.mem_singleton.mp h
        | perform effect => cases h
      · cases h
  · rintro (⟨hparam, rfl⟩ | ⟨p, k, i, operation, hk, hi, rfl⟩)
    · exact .inl ⟨value, hparam, rfl⟩
    · exact .inr ⟨p, k, hk, mem_ofBlock_iff.mpr (.inr (.inl ⟨i, _, hi, List.mem_cons_self⟩))⟩

theorem allocate_mem_iff {slot : SlotId} {block : BlockId} :
    allocate slot block ∈ ofBody body ↔ ∃ (position : Nat) (k : Block) (index : Nat),
      body.blocks[position]? = some k ∧ k.instrs[index]? = some (.alloca slot) ∧ block = k.id := by
  rw [mem_ofBody_iff]
  constructor
  · rintro (⟨param, -, h⟩ | ⟨p, k, hk, h⟩)
    · cases h
    · rcases mem_ofBlock_iff.mp h with h | ⟨i, instr, hi, h⟩ | ⟨t, target, -, -, h⟩
      · cases h
      · cases instr with
        | alloca slot =>
          cases List.mem_singleton.mp h
          exact ⟨p, k, i, hk, hi, rfl⟩
        | define dst operation => cases List.mem_singleton.mp h
        | perform effect => cases h
      · cases h
  · rintro ⟨p, k, i, hk, hi, rfl⟩
    exact .inr ⟨p, k, hk, mem_ofBlock_iff.mpr (.inr (.inl ⟨i, _, hi, List.mem_cons_self⟩))⟩

/-- The edges of a body are the targets of its terminators. -/
theorem edge_mem_iff {source target : BlockId} : edge source target ∈ ofBody body ↔
    ∃ (position : Nat) (k : Block) (t : Terminator), body.blocks[position]? = some k ∧
      k.terminator = some t ∧ target ∈ t.successors ∧ source = k.id := by
  rw [mem_ofBody_iff]
  constructor
  · rintro (⟨param, -, h⟩ | ⟨p, k, hk, h⟩)
    · cases h
    · rcases mem_ofBlock_iff.mp h with h | ⟨i, instr, -, h⟩ | ⟨t, target, ht, htarget, h⟩
      · cases h
      · cases instr <;> simp only [ofInstr, List.mem_singleton, List.not_mem_nil, reduceCtorEq] at h
      · cases h
        exact ⟨p, k, t, hk, ht, htarget, rfl⟩
  · rintro ⟨p, k, t, hk, ht, htarget, rfl⟩
    exact .inr ⟨p, k, hk, mem_ofBlock_iff.mpr (.inr (.inr ⟨t, target, ht, htarget, rfl⟩))⟩

theorem flatMap_zipIdx {α β : Type} (f : α × Nat → List β) (g : α → List β)
    (h : ∀ p, f p = g p.1) (xs : List α) (n : Nat) : (xs.zipIdx n).flatMap f = xs.flatMap g := by
  induction xs generalizing n with
  | nil => rfl
  | cons x xs ih => rw [List.zipIdx_cons, List.flatMap_cons, List.flatMap_cons, h, ih]

/-- The part of the events of a block that `f` picks, if it picks from instructions only. -/
theorem filterMap_ofBlock {α : Type} (f : Event → Option α) (g : Instr → Option α)
    (instrs : ∀ block instr index, (ofInstr block instr index).filterMap f = (g instr).toList)
    (headers : ∀ id position terminated, f (header id position terminated) = none)
    (edges : ∀ source target, f (edge source target) = none) (k : Block) (position : Nat) :
    (ofBlock k position).filterMap f = k.instrs.filterMap g := by
  have noEdges : ∀ targets : List BlockId, (targets.map (edge k.id ·)).filterMap f = [] := by
    intro targets
    rw [List.filterMap_map, List.filterMap_eq_nil_iff]
    exact fun target _ => edges k.id target
  -- what is left is the events of the instructions, at most one each
  unfold ofBlock
  rw [List.cons_append, List.filterMap_cons_none (headers _ _ _), List.filterMap_append, noEdges,
    List.append_nil, List.filterMap_flatMap,
    flatMap_zipIdx _ (fun instr => (g instr).toList) fun p => instrs k.id p.1 p.2]
  induction k.instrs with
  | nil => rfl
  | cons instr rest ih =>
    rw [List.flatMap_cons, ih, List.filterMap_cons]
    cases g instr <;> rfl

theorem filterMap_ofBody {α : Type} (f : Event → Option α) (g : Instr → Option α)
    (instrs : ∀ block instr index, (ofInstr block instr index).filterMap f = (g instr).toList)
    (headers : ∀ id position terminated, f (header id position terminated) = none)
    (edges : ∀ source target, f (edge source target) = none) (body : Body) :
    (ofBody body).filterMap f = (body.params.map (define · .param)).filterMap f ++
      body.blocks.flatMap fun k => k.instrs.filterMap g := by
  unfold ofBody
  rw [List.filterMap_append, List.filterMap_flatMap]
  exact congrArg _ (flatMap_zipIdx _ _ (fun p => filterMap_ofBlock f g instrs headers edges p.1 p.2)
    body.blocks 0)

/-- The values that events define are the parameters and the results. -/
theorem values_ofBody (body : Body) :
    (ofBody body).filterMap value? = body.params ++ body.results := by
  rw [filterMap_ofBody value? Instr.result? (fun _ instr _ => by cases instr <;> rfl)
    (fun _ _ _ => rfl) (fun _ _ => rfl)]
  -- parameters are values, too
  have params : (body.params.map (define · .param)).filterMap value? = body.params := by
    rw [List.filterMap_map]
    exact List.filterMap_some
  rw [params]
  rfl

theorem slots_ofBody (body : Body) : (ofBody body).filterMap slot? = body.allocated := by
  rw [filterMap_ofBody slot? Instr.allocated? (fun _ instr _ => by cases instr <;> rfl)
    (fun _ _ _ => rfl) (fun _ _ => rfl)]
  -- a parameter is no slot
  have params : (body.params.map (define · .param)).filterMap slot? = [] := by
    rw [List.filterMap_map, List.filterMap_eq_nil_iff]
    exact fun _ _ => rfl
  rw [params]
  rfl

/-- What the first pass demands of a body is that its structure is in order. -/
theorem inOrder_ofBody_iff : InOrder body (ofBody body) ↔ body.Structured := by
  constructor
  · intro h
    have nodup := h.defined_nodup
    rw [values_ofBody] at nodup
    have once := h.allocated_nodup
    rw [slots_ofBody] at once
    have ids : ∀ position (k : Block), body.blocks[position]? = some k → k.id = position :=
      fun position k hk => (h.headers _ _ _ (header_mem_iff.mpr ⟨k, hk, rfl, rfl⟩)).1
    -- each part is what the events of one kind say, found by the place that they name
    refine ⟨ids, ?_, ?_, ?_, ?_, once, ?_, nodup⟩
    · intro k hk
      obtain ⟨position, hposition⟩ := List.mem_iff_getElem?.mp hk
      exact (h.headers _ _ _ (header_mem_iff.mpr ⟨k, hposition, rfl, rfl⟩)).2
    · rintro source target ⟨k, t, hk, ht, htarget⟩
      exact h.targets k.id target (edge_mem_iff.mpr ⟨source, k, t, hk, ht, htarget, rfl⟩)
    · intro position index slot hslot
      obtain ⟨k, hk, hindex⟩ := Body.instrAt?_eq_some_iff.mp hslot
      have entry := (h.allocated slot k.id
        (allocate_mem_iff.mpr ⟨position, k, index, hk, hindex, rfl⟩)).1
      exact (ids position k hk).symm.trans entry
    · intro slot hslot
      rw [← slots_ofBody, mem_slot?_iff] at hslot
      obtain ⟨block, hblock⟩ := hslot
      exact (h.allocated slot block hblock).2
    · intro value hvalue
      rw [← values_ofBody, mem_value?_iff] at hvalue
      obtain ⟨site, hsite⟩ := hvalue
      exact h.defined_lt value site hsite
  · intro h
    -- the other way round, an event is traced to the place that it comes from
    refine ⟨?_, ?_, ?_, ?_, ?_, ?_⟩
    · intro id position terminated hm
      obtain ⟨k, hk, rfl, rfl⟩ := header_mem_iff.mp hm
      exact ⟨h.ids position k hk, h.terminated k (List.mem_of_getElem? hk)⟩
    · rw [values_ofBody]
      exact h.defined_nodup
    · intro value site hm
      refine h.defined_lt value ?_
      rw [← values_ofBody, mem_value?_iff]
      exact ⟨site, hm⟩
    · rw [slots_ofBody]
      exact h.allocated_nodup
    · intro slot block hm
      obtain ⟨position, k, index, hk, hindex, rfl⟩ := allocate_mem_iff.mp hm
      have at_ := Body.instrAt?_eq_some_iff.mpr ⟨k, hk, hindex⟩
      refine ⟨(h.ids position k hk).trans (h.allocated_entry position index slot at_), ?_⟩
      exact h.allocated_lt slot (Body.mem_allocated_iff.mpr ⟨position, index, at_⟩)
    · intro source target hm
      obtain ⟨position, k, t, hk, ht, htarget, rfl⟩ := edge_mem_iff.mp hm
      exact h.targets position target ⟨k, t, hk, ht, htarget⟩

end Event

end TwinLisp.Graph
