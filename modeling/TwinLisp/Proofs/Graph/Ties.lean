import Mathlib.Logic.Relation
import TwinLisp.Proofs.Graph.Valid

/-! Pieces of code whose blocks hang together, from the block where they begin to the one where they end. -/

namespace TwinLisp.Graph.Builder

def Reaches (b : Builder) : BlockId → BlockId → Prop := Relation.ReflTransGen b.Leads

/-- No block or edge is lost from `b` to `b'`, and no block returns that did not return before. -/
structure Preserves (b b' : Builder) : Prop where
  size_le : b.size ≤ b'.size
  leads : ∀ p q, b.Leads p q → b'.Leads p q
  returns : ∀ p value, b'.endAt p = some (.ret value) → b.endAt p = some (.ret value)

/-- The blocks that the code from `b` to `b'` may stand in: the one where it begins, and new ones. -/
def Covers (b b' : Builder) (p : BlockId) : Prop :=
  p < b'.size ∧ (p = b.current ∨ b.size ≤ p)

/-- The code from `b` to `b'` hangs together: from the block where it begins control can come to
each block that it covers, and from there to the block where it ends. -/
structure Ties (b b' : Builder) : Prop extends Preserves b b' where
  isOpen : b'.Open
  ending : b.Covers b' b'.current
  forth : ∀ p, b.Covers b' p → b'.Reaches b.current p
  back : ∀ p, b.Covers b' p → b'.Reaches p b'.current

variable {b b' b'' : Builder} {p q : BlockId}

theorem Reaches.trans {r : BlockId} (first : b.Reaches p q) (rest : b.Reaches q r) :
    b.Reaches p r :=
  Relation.ReflTransGen.trans first rest

/-- No way is lost when code is added. -/
theorem Reaches.kept (h : b.Reaches p q) (later : Preserves b b') : b'.Reaches p q :=
  Relation.ReflTransGen.mono later.leads p q h

namespace Preserves

theorem trans (first : Preserves b b') (rest : Preserves b' b'') : Preserves b b'' where
  size_le := Nat.le_trans first.size_le rest.size_le
  leads p q leads := rest.leads p q (first.leads p q leads)
  returns p value ended := first.returns p value (rest.returns p value ended)

theorem newBlock (b : Builder) : Preserves b b.newBlock.2 where
  size_le := size_newBlock (b := b) ▸ Nat.le_succ _
  leads _ _ leads := leads_newBlock.mpr leads
  returns _ _ ended := endAt_newBlock (b := b) ▸ ended

theorem positionAt (b : Builder) (p : BlockId) : Preserves b (b.positionAt p) :=
  ⟨Nat.le_refl _, fun _ _ => id, fun _ _ => id⟩

/-- The block that is ended was open, so that it led nowhere. -/
theorem terminate (h : b.Open) {t : Terminator} (quiet : ∀ value, t ≠ .ret value) :
    Preserves b (b.terminate t) where
  size_le := Nat.le_of_eq (size_terminate t).symm
  leads p q leads := leads.terminate h t
  returns p value ended := by
    rw [endAt_terminate] at ended
    split at ended
    next => exact absurd (Option.some.inj ended) (quiet value)
    next => exact ended

end Preserves

/-- Control can go where the current block is ended to lead. -/
theorem reaches_of_mem_successors (h : b.Open) {t : Terminator} (mem : q ∈ t.successors) :
    (b.terminate t).Reaches b.current q := by
  refine .single ⟨t, ?_, mem⟩
  rw [endAt_terminate, if_pos ⟨rfl, h.lt⟩]

namespace Ties

/-- Code that stays in its block. -/
theorem straight (h : b.Open) (size : b'.size = b.size) (current : b'.current = b.current)
    (ends : ∀ p, b'.endAt p = b.endAt p) : Ties b b' := by
  -- straight code stays in one block
  have only (p : BlockId) (here : b.Covers b' p) : p = b.current :=
    here.2.resolve_right (Nat.not_le.mpr (size ▸ here.1))
  have lt : b'.current < b'.size := by
    rw [current, size]
    exact h.lt
  refine ⟨⟨Nat.le_of_eq size.symm, fun p q leads => ?_, fun p value ended => ends p ▸ ended⟩,
    ⟨lt, ?_⟩, ⟨lt, .inl current⟩, fun p here => ?_, fun p here => ?_⟩
  · unfold Leads
    rwa [ends]
  · rw [ends, current, h.going]
  · rw [only p here]
    exact .refl
  · rw [only p here, current]
    exact .refl

theorem refl (h : b.Open) : Ties b b := straight h rfl rfl fun _ => rfl

/-- A piece of code is followed by another. -/
theorem trans (first : Ties b b') (rest : Ties b' b'') : Ties b b'' := by
  have split (p : BlockId) (here : b.Covers b'' p) : b.Covers b' p ∨ b'.Covers b'' p :=
    (Nat.lt_or_ge p b'.size).imp (⟨·, here.2⟩) (⟨here.1, .inr ·⟩)
  -- the two pieces share the block in which the first ends and the second begins
  have middle : b'.Covers b'' b'.current :=
    ⟨Nat.lt_of_lt_of_le first.isOpen.lt rest.size_le, .inl rfl⟩
  -- forth into either piece, and back from either piece to the end of the second
  refine ⟨first.toPreserves.trans rest.toPreserves, rest.isOpen, ⟨rest.isOpen.lt, ?_⟩,
    fun p here => ?_, fun p here => ?_⟩
  · rcases rest.ending.2 with same | new
    · exact same ▸ first.ending.2
    · exact .inr (Nat.le_trans first.size_le new)
  · rcases split p here with here | here
    · exact (first.forth p here).kept rest.toPreserves
    · exact ((first.forth _ first.ending).kept rest.toPreserves).trans (rest.forth p here)
  · rcases split p here with here | here
    · exact ((first.back p here).kept rest.toPreserves).trans (rest.back _ middle)
    · exact rest.back p here

end Ties

/-- The code from `b` to `b'` has two parts, and three blocks of its own that the parts begin in and
it ends in. -/
structure Parts (b b₁ b₁' b₂ b₂' b' : Builder) : Prop where
  before : Preserves b b₁
  between : Preserves b₁' b₂
  after : Preserves b₂' b'
  first : b₁.current = b.size
  second : b₂.current = b.size + 1
  last : b'.current = b.size + 2
  added : b₁.size = b.size + 3
  same : b₂.size = b₁'.size
  same' : b'.size = b₂'.size
  isOpen : b'.Open

namespace Parts

variable {b₁ b₁' b₂ b₂' : Builder} (parts : Parts b b₁ b₁' b₂ b₂' b')

include parts

/-- The code stands where it begins, where it ends, or in one of its parts. -/
theorem places (here : b.Covers b' p) :
    p = b.current ∨ p = b'.current ∨ b₁.Covers b₁' p ∨ b₂.Covers b₂' p := by
  obtain ⟨lt, new⟩ := here
  -- as numbers, so that `omega` has few of them to look at
  have place {start n size size' p : Nat} (lt : p < size') (new : p = start ∨ n ≤ p) :
      p = start ∨ p = n + 2 ∨ (p < size ∧ (p = n ∨ n + 3 ≤ p)) ∨
        p < size' ∧ (p = n + 1 ∨ size ≤ p) := by omega
  unfold Covers
  rw [parts.first, parts.second, parts.last, parts.added, parts.same]
  exact place (parts.same' ▸ lt) new

/-- It hangs together if each part does, is come to from the beginning and goes on to the end. -/
theorem ties (one : Ties b₁ b₁') (two : Ties b₂ b₂')
    (enter₁ : b'.Reaches b.current b₁.current) (enter₂ : b'.Reaches b.current b₂.current)
    (leave₁ : b'.Reaches b₁'.current b'.current) (leave₂ : b'.Reaches b₂'.current b'.current) :
    Ties b b' := by
  have later : Preserves b₁' b' := parts.between.trans (two.toPreserves.trans parts.after)
  have through : b'.Reaches b.current b'.current :=
    enter₁.trans (((one.forth _ one.ending).kept later).trans leave₁)
  have whole : Preserves b b' := parts.before.trans (one.toPreserves.trans later)
  refine ⟨whole, parts.isOpen, ⟨parts.isOpen.lt, .inr ?_⟩, fun p here => ?_, fun p here => ?_⟩
  · rw [parts.last]
    exact Nat.le_add_right _ 2
  · -- the block where the code begins, the one where it ends, and those of the two parts
    rcases parts.places here with rfl | rfl | here | here
    · exact .refl
    · exact through
    · exact enter₁.trans ((one.forth p here).kept later)
    · exact enter₂.trans ((two.forth p here).kept parts.after)
  · rcases parts.places here with rfl | rfl | here | here
    · exact through
    · exact .refl
    · exact ((one.back p here).kept later).trans leave₁
    · exact ((two.back p here).kept parts.after).trans leave₂

end Parts

end TwinLisp.Graph.Builder
