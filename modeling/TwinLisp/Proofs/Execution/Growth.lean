import TwinLisp.Proofs.Lowering.Regions
import TwinLisp.Proofs.Lowering.Units

/-! What is built stays: blocks grow at their ends, and not after they have been ended. -/

namespace TwinLisp.Graph

namespace Builder

/-- The second builder has everything that the first one has. -/
structure Grown (b f : Builder) : Prop where
  size_le : b.size ≤ f.size
  types_le : b.types.size ≤ f.types.size
  slots_le : b.slots.size ≤ f.slots.size
  instrs : ∀ p, b.instrsAt p <+: f.instrsAt p
  ended : ∀ p t, b.endAt p = some t → f.endAt p = some t ∧ f.instrsAt p = b.instrsAt p

variable {b b' f : Builder}

namespace Grown

theorem refl (b : Builder) : Grown b b :=
  ⟨Nat.le_refl _, Nat.le_refl _, Nat.le_refl _, fun _ => List.prefix_refl _, fun _ _ h => ⟨h, rfl⟩⟩

/-- What has grown twice has grown. -/
theorem trans (first : Grown b b') (rest : Grown b' f) : Grown b f where
  size_le := Nat.le_trans first.size_le rest.size_le
  types_le := Nat.le_trans first.types_le rest.types_le
  slots_le := Nat.le_trans first.slots_le rest.slots_le
  instrs p := (first.instrs p).trans (rest.instrs p)
  ended p t h := by
    obtain ⟨h', same⟩ := first.ended p t h
    obtain ⟨h'', same'⟩ := rest.ended p t h'
    exact ⟨h'', same'.trans same⟩

end Grown

/-- An array that holds what another one does is no shorter. -/
theorem size_le_of_prefix {α : Type} {xs ys : Array α}
    (h : ∀ (i : Nat) x, xs[i]? = some x → ys[i]? = some x) : xs.size ≤ ys.size := by
  refine Nat.le_of_not_lt fun lt => ?_
  have found := h ys.size _ (Array.getElem?_eq_getElem lt)
  rw [Array.getElem?_eq_none (Nat.le_refl _)] at found
  cases found

/-- A piece of code only adds to what is there. -/
theorem Frame.grown {live out : BlockId → Prop} (h : Frame b live out b') (started : b.Open) :
    Grown b b' where
  size_le := h.size_le
  types_le := size_le_of_prefix h.types
  slots_le := size_le_of_prefix h.slots
  instrs p := by
    -- the current block has been extended, old ones are as they
    -- were, and new ones had no code before
    by_cases old : p < b.size
    · by_cases here : p = b.current
      · subst here
        obtain ⟨new, grown, -⟩ := h.entry
        exact ⟨new, grown.symm⟩
      · exact ⟨[], (List.append_nil _).trans (h.others p old here).1.symm⟩
    · rw [instrsAt_of_size_le (Nat.not_lt.mp old)]
      exact List.nil_prefix
  ended p t ended := by
    -- the current block is going on, so that a block with an end is another one
    have other : p ≠ b.current := by
      rintro rfl
      rw [started.going] at ended
      cases ended
    obtain ⟨instrs, ends⟩ := h.others p (lt_size_of_endAt ended) other
    exact ⟨ends.trans ended, instrs⟩

theorem grown_push (opened : b.Open) (i : Instr) : Grown b (b.push i) where
  size_le := Nat.le_of_eq (size_push i).symm
  types_le := Nat.le_refl _
  slots_le := Nat.le_refl _
  instrs p := by
    rw [instrsAt_push]
    split
    next => exact List.prefix_append _ _
    next => exact List.prefix_refl _
  ended p t h := by
    -- a block that is ended is not the current one, which is still open
    have other : p ≠ b.current := by
      rintro rfl
      rw [opened.going] at h
      cases h
    rw [endAt_push, instrsAt_push, if_neg (fun both => other both.1)]
    exact ⟨h, rfl⟩

theorem open_push (opened : b.Open) (i : Instr) : (b.push i).Open where
  lt := Nat.lt_of_lt_of_eq opened.lt (size_push i).symm
  going := (endAt_push i).trans opened.going

theorem grown_newBlock (b : Builder) : Grown b b.newBlock.2 where
  size_le := by
    rw [size_newBlock]
    exact Nat.le_succ _
  types_le := Nat.le_refl _
  slots_le := Nat.le_refl _
  instrs _ := ⟨[], (List.append_nil _).trans instrsAt_newBlock.symm⟩
  ended p t h := by
    rw [endAt_newBlock, instrsAt_newBlock]
    exact ⟨h, rfl⟩

/-- To go on elsewhere takes nothing away. -/
theorem grown_positionAt (b : Builder) (p : BlockId) : Grown b (b.positionAt p) :=
  ⟨Nat.le_refl _, Nat.le_refl _, Nat.le_refl _, fun _ => List.prefix_refl _, fun _ _ h => ⟨h, rfl⟩⟩

/-- Where the builder stands does not matter. -/
theorem Grown.of_positionAt {p : BlockId} (h : Grown (b.positionAt p) f) : Grown b f :=
  ⟨h.size_le, h.types_le, h.slots_le, h.instrs, h.ended⟩

/-- A block that is going on can be ended. -/
theorem grown_terminate (going : b.endAt b.current = none) (t : Terminator) :
    Grown b (b.terminate t) where
  size_le := Nat.le_of_eq (size_terminate t).symm
  types_le := Nat.le_refl _
  slots_le := Nat.le_refl _
  instrs _ := ⟨[], (List.append_nil _).trans (instrsAt_terminate t).symm⟩
  ended p t' h := by
    rw [endAt_terminate, instrsAt_terminate, if_neg]
    · exact ⟨h, rfl⟩
    · rintro ⟨rfl, -⟩
      rw [going] at h
      cases h

end Builder

namespace Lowering

variable {s s' : State}

theorem grown_emit (h : s.Open) (operation : Operation) :
    s.builder.Grown (s.emit operation).builder := by
  -- first comes the type of the value, which is no code, then the instruction
  let typed : Builder := { s.builder with types := s.builder.types.push operation.ty }
  have types : s.builder.Grown typed := by
    refine ⟨Nat.le_refl _, ?_, Nat.le_refl _, fun _ => List.prefix_refl _, fun _ _ h => ⟨h, rfl⟩⟩
    exact Nat.le_trans (Nat.le_succ _) (Nat.le_of_eq (Array.size_push _).symm)
  have opened : typed.Open := ⟨h.lt, h.going⟩
  exact types.trans (Builder.grown_push opened _)

theorem open_emit (h : s.Open) (operation : Operation) : (s.emit operation).Open :=
  Builder.open_push (b := { s.builder with types := s.builder.types.push operation.ty })
    ⟨h.lt, h.going⟩ _

theorem grown_perform (h : s.Open) (effect : Effect) : s.builder.Grown (s.perform effect).builder :=
  Builder.grown_push h _

theorem open_perform (h : s.Open) (effect : Effect) : (s.perform effect).Open :=
  Builder.open_push h _

theorem grown_jump (h : s.Open) (target next : BlockId) :
    s.builder.Grown (s.jump target next).builder :=
  (Builder.grown_terminate h.going _).trans (Builder.grown_positionAt _ next)

theorem grown_newBlocks (s : State) : s.builder.Grown s.newBlock.newBlock.newBlock.builder :=
  ((Builder.grown_newBlock _).trans (Builder.grown_newBlock _)).trans (Builder.grown_newBlock _)

/-- New blocks leave the current one as it is, and that has not been ended. -/
theorem going_newBlocks (h : s.Open) :
    s.newBlock.newBlock.newBlock.builder.endAt s.block = none := by
  refine (Builder.endAt_newBlock).trans ?_
  refine (Builder.endAt_newBlock).trans ?_
  exact (Builder.endAt_newBlock).trans h.going

theorem grown_openArms (h : s.Open) (c : ValueId) : s.builder.Grown (s.openArms c).builder :=
  ((grown_newBlocks s).trans (Builder.grown_terminate (going_newBlocks h) _)).trans
    (Builder.grown_positionAt _ _)

theorem grown_openLoop (h : s.Open) : s.builder.Grown s.openLoop.builder :=
  ((grown_newBlocks s).trans (Builder.grown_terminate (going_newBlocks h) _)).trans
    (Builder.grown_positionAt _ _)

theorem grown_test (h : s.Open) (decides : Bool) (merge : BlockId) (truth : ValueId) :
    s.builder.Grown (s.test decides merge truth).builder :=
  ((Builder.grown_newBlock _).trans
    (Builder.grown_terminate (Builder.endAt_newBlock.trans h.going) _)).trans
    (Builder.grown_positionAt _ _)

end Lowering

end TwinLisp.Graph
