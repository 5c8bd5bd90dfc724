import TwinLisp.Proofs.Graph.Paths

/-! Bodies under construction whose loads come after stores, whatever way control takes. -/

namespace TwinLisp.Graph.Builder

variable {D : Known} {b : Builder} {P : BlockId → Prop} {F : Fact → Prop}

/-- Edges lead to blocks, and a load reads a slot that is known to have been stored to. -/
structure Stores (D : Known) (b : Builder) : Prop extends Flow D b where
  pos : 0 < b.size
  targets : ∀ p q, b.Leads p q → q < b.size
  loads : ∀ p (n : Nat) dst slot, (b.instrsAt p)[n]? = some (.define dst (.load slot)) →
    D p (.stored slot) ∨ ∃ i ∈ (b.instrsAt p).take n, .stored slot ∈ i.makes

namespace Stores

variable (h : Stores D b)

include h

theorem positionAt (p : BlockId) : Stores D (b.positionAt p) :=
  { h with toFlow := h.toFlow.positionAt p }

theorem withTypes (ty : Ty) : Stores D { b with types := b.types.push ty } :=
  { h with toFlow := h.toFlow.grow rfl (fun _ _ => id) fun _ _ => id }

theorem alloca (name : String) (frozen : Bool) : Stores D (b.alloca name frozen).2 :=
  { h with toFlow := h.toFlow.grow rfl (fun _ _ => id) fun _ _ => id }

theorem newBlock : Stores D b.newBlock.2 where
  toFlow := h.toFlow.newBlock
  pos := by
    rw [size_newBlock]
    exact Nat.succ_pos _
  targets p q leads := by
    rw [size_newBlock]
    exact Nat.lt_succ_of_lt (h.targets p q (leads_newBlock.mp leads))
  loads p n dst slot hi := by
    rw [instrsAt_newBlock] at hi ⊢
    exact h.loads p n dst slot hi

/-- An instruction is added; a load, only of a slot that has been stored to. -/
theorem push (i : Instr)
    (stored : ∀ dst slot, i = .define dst (.load slot) → b.Avail D b.current (.stored slot)) :
    Stores D (b.push i) where
  toFlow := h.toFlow.push i
  pos := by
    rw [size_push]
    exact h.pos
  targets p q leads := by
    rw [size_push]
    exact h.targets p q (leads_push.mp leads)
  loads p n dst slot hi := by
    -- an old load is behind what it was behind, and a new one at the end of the block
    rcases getElem?_instrsAt_push_cases hi with ⟨old, same⟩ | ⟨rfl, made, same⟩
    · rw [same]
      exact h.loads p n dst slot old
    · rw [same]
      exact stored dst slot made.symm

/-- An edge may be added where all is known that its target takes for known. -/
theorem terminate {t : Terminator} (inside : ∀ q ∈ t.successors, q < b.size)
    (known : ∀ q ∈ t.successors, ∀ f, D q f → b.Avail D b.current f) :
    Stores D (b.terminate t) where
  toFlow := h.toFlow.terminate known
  pos := by
    rw [size_terminate]
    exact h.pos
  targets p q leads := by
    rw [size_terminate]
    rcases leads_terminate leads with leads | ⟨-, mem⟩
    · exact h.targets p q leads
    · exact inside q mem
  loads p n dst slot hi := by
    rw [instrsAt_terminate] at hi ⊢
    exact h.loads p n dst slot hi

/-- What is known at blocks that wait may be chosen as long as nothing leads there. -/
theorem on (waits : ∀ q, P q → b.Idle q ∧ q ≠ 0 ∧ ∀ p, ¬b.Leads p q)
    (origin : ∀ v, F (.value v) → b.Avail D b.current (.value v)) : Stores (D.on P F) b where
  toFlow := h.toFlow.on waits fun v hf => h.origin_of_avail (origin v hf)
  pos := h.pos
  targets := h.targets
  loads p n dst slot hi := by
    -- a block that waits has no loads yet
    have elsewhere : ¬P p := by
      intro here
      rw [(waits p here).1.empty] at hi
      cases hi
    rw [on_other elsewhere]
    exact h.loads p n dst slot hi

/-- In the finished body every load comes after a store. -/
theorem storesBeforeLoad : b.finish.StoresBeforeLoad := by
  intro p n dst slot found before path
  rcases instrAt_finish_cases found with ⟨-, -, same⟩ | ⟨k, rfl, hk⟩
  · cases same
  -- what makes a slot known to have been stored to is a store
  have kinds (i : Instr) (made : Fact.stored slot ∈ i.makes) :
      ∃ value, i = .perform (.store slot value) := by
    cases i with
    | perform effect =>
      cases effect with
      | store slot' value =>
        cases List.mem_singleton.mp made
        exact ⟨value, rfl⟩
      | _ => exact absurd made List.not_mem_nil
    | define dst operation => cases List.mem_singleton.mp made
    | alloca => exact absurd made List.not_mem_nil
  refine (h.toFlow.earlier path kinds (h.loads p k dst slot hk)).resolve_left ?_
  rintro ⟨v, -, same⟩
  cases same

end Stores

end TwinLisp.Graph.Builder
