import TwinLisp.Proofs.Graph.Finish

/-! What is known at a block has happened on every way to it. -/

namespace TwinLisp.Graph.Builder

variable {D : Known} {b : Builder} {p : BlockId} {f : Fact} {before : List BlockId} {v : ValueId}

/-- By induction on the way: what is known at a block is known at the end of the block before. -/
theorem Flow.happened (h : Flow D b) (path : b.finish.Path before p) (known : D p f) :
    (∃ v < b.arity, f = .value v) ∨ ∃ q ∈ before, ∃ i ∈ b.instrsAt q, f ∈ i.makes := by
  induction path with
  | entry => exact .inl (h.entry f known)
  | @step before p q path leads ih =>
    rcases h.edge p q f (leads_finish.mp leads) known with known | made
    · refine (ih known).imp id ?_
      rintro ⟨r, mem, made⟩
      exact ⟨r, List.mem_cons_of_mem _ mem, made⟩
    · exact .inr ⟨p, List.mem_cons_self, made⟩

/-- What is known before an instruction of the builder has happened on every way to it. -/
theorem Flow.earlier (h : Flow D b) (path : b.finish.Path before p) {k : Nat} {kind : Instr → Prop}
    (kinds : ∀ i, f ∈ i.makes → kind i)
    (known : D p f ∨ ∃ j ∈ (b.instrsAt p).take k, f ∈ j.makes) :
    (∃ v < b.arity, f = .value v) ∨ b.finish.Earlier before p (b.offset p + k) kind := by
  have found {q : BlockId} {i : Instr} (hi : i ∈ b.instrsAt q) (made : f ∈ i.makes) :
      ∃ n instr, b.finish.instrAt? q n = some instr ∧ kind instr := by
    obtain ⟨n, hn⟩ := List.mem_iff_getElem?.mp hi
    exact ⟨_, i, instrAt_finish_of_get? hn, kinds i made⟩
  rcases known with known | ⟨j, hj, made⟩
  · refine (h.happened path known).imp id ?_
    rintro ⟨q, mem, i, hi, made⟩
    exact .inl ⟨q, mem, found hi made⟩
  · obtain ⟨n, hn⟩ := List.mem_iff_getElem?.mp hj
    rw [List.getElem?_take] at hn
    split at hn
    next lt =>
      exact .inr (.inr ⟨_, Nat.add_lt_add_left lt _, j, instrAt_finish_of_get? hn, kinds j made⟩)
    next => cases hn

namespace Valid

variable (h : Valid D b)

include h

/-- What is known before an index of a block has been defined on every way to it. -/
theorem dominated {k : Nat} (known : D p (.value v) ∨
    ∃ j ∈ (b.instrsAt p).take k, Fact.value v ∈ j.makes) :
    b.finish.Dominated v p (b.offset p + k) := by
  by_cases param : v < b.arity
  · exact .inl (List.mem_range.mpr param)
  refine .inr fun before path => ?_
  have kinds (i : Instr) (made : Fact.value v ∈ i.makes) : i.result? = some v := by
    obtain ⟨operation, rfl⟩ := define_of_makes made
    rfl
  refine (h.toFlow.earlier path kinds known).resolve_left ?_
  rintro ⟨w, lt, same⟩
  cases same
  exact param lt

/-- The same at the end of a block. -/
theorem dominated_end (known : b.Avail D p (.value v)) :
    b.finish.Dominated v p (b.offset p + (b.instrsAt p).length) := by
  refine h.dominated (known.imp id ?_)
  rw [List.take_length]
  exact id

/-- In the finished body all is defined before it is used. -/
theorem definesBeforeUse : b.finish.DefinesBeforeUse where
  instrs p n i found use mem := by
    rcases instrAt_finish_cases found with ⟨-, -, rfl⟩ | ⟨k, rfl, hk⟩
    · exact absurd mem List.not_mem_nil
    · exact h.dominated ((h.instrs p k i hk).uses use mem).1
  exits p k t found ended use mem := by
    rw [finish_block? (lt_of_finish_block? found)] at found
    cases found
    rw [length_block]
    exact h.dominated_end (h.ends p t ended use mem).1
  phis p n dst incoming found edge mem use hu := by
    rcases instrAt_finish_cases found with ⟨-, -, same⟩ | ⟨k, rfl, hk⟩
    · cases same
    -- a phi reads at the end of the block that control comes from, which has been ended
    obtain ⟨-, joins⟩ := (h.instrs p k _ hk).phi dst incoming rfl
    obtain ⟨t, ended, -⟩ := (joins.preds edge.1).mp (List.mem_map_of_mem mem)
    have lt : edge.1 < b.size := lt_size_of_endAt ended
    refine ⟨_, finish_block? lt, ?_⟩
    rw [length_block]
    exact h.dominated_end (joins.reads edge mem use hu).1

end Valid

end TwinLisp.Graph.Builder
