import TwinLisp.Graph.Paths
import TwinLisp.Proofs.Graph.Region

/-!
What is known to have happened when control comes to a block. A builder is annotated with what is
known at the entry of each block; the annotation has to follow from each block that leads there.
-/

namespace TwinLisp.Graph

/-- A thing that an instruction brings about: a value is defined, or a slot is stored to. -/
inductive Fact
  | value (id : ValueId)
  | stored (slot : SlotId)

/-- What an instruction brings about. -/
def Instr.makes : Instr → List Fact
  | define dst _ => [.value dst]
  | perform (.store slot _) => [.stored slot]
  | _ => []

/-- What is known at the entry of each block. -/
abbrev Known := BlockId → Fact → Prop

/-- The annotation of some blocks is replaced. -/
def Known.on (D : Known) (P : BlockId → Prop) (F : Fact → Prop) : Known :=
  fun p f => P p ∧ F f ∨ ¬P p ∧ D p f

namespace Builder

variable {D : Known} {b b' : Builder} {p q : BlockId} {f : Fact} {P : BlockId → Prop}
  {F : Fact → Prop}

/-- What is known at the end of a block, as far as it has been built. -/
def Avail (D : Known) (b : Builder) (p : BlockId) (f : Fact) : Prop :=
  D p f ∨ ∃ i ∈ b.instrsAt p, f ∈ i.makes

/-- Only parameters are known at first; what is known at a block is known at the end of each block
that leads to it, and has not been defined by the block itself. -/
structure Flow (D : Known) (b : Builder) : Prop where
  entry : ∀ f, D 0 f → ∃ v < b.arity, f = .value v
  edge : ∀ p q f, b.Leads p q → D q f → b.Avail D p f
  origin : ∀ p v, D p (.value v) → v < b.arity ∨
    ∃ q, q ≠ p ∧ ∃ i ∈ b.instrsAt q, Fact.value v ∈ i.makes

theorem on_same (here : P p) : D.on P F p f ↔ F f := by
  simp only [Known.on, here, true_and, not_true, false_and, or_false]

theorem on_other (elsewhere : ¬P p) : D.on P F p f ↔ D p f := by
  simp only [Known.on, elsewhere, false_and, false_or, not_false_eq_true, true_and]

theorem avail_on_other (elsewhere : ¬P p) : b.Avail (D.on P F) p f ↔ b.Avail D p f := by
  unfold Avail
  rw [on_other elsewhere]

/-- What has been brought about stays so when the block grows. -/
theorem Avail.mono (h : b.Avail D p f) (instrs : ∀ i ∈ b.instrsAt p, i ∈ b'.instrsAt p) :
    b'.Avail D p f := by
  rcases h with known | ⟨i, hi, made⟩
  · exact .inl known
  · exact .inr ⟨i, instrs i hi, made⟩

namespace Flow

variable (h : Flow D b)

include h

/-- Instructions are added, and no edges. -/
theorem grow (arity : b'.arity = b.arity) (instrs : ∀ p, ∀ i ∈ b.instrsAt p, i ∈ b'.instrsAt p)
    (leads : ∀ p q, b'.Leads p q → b.Leads p q) : Flow D b' where
  entry f known := arity ▸ h.entry f known
  edge p q f hpq known := (h.edge p q f (leads p q hpq) known).mono (instrs p)
  origin p v known := by
    rcases h.origin p v known with param | ⟨q, other, i, hi, made⟩
    · exact .inl (arity ▸ param)
    · exact .inr ⟨q, other, i, instrs q i hi, made⟩

theorem newBlock : Flow D b.newBlock.2 :=
  h.grow rfl (fun _ _ hi => by rwa [instrsAt_newBlock]) fun _ _ => leads_newBlock.mp

theorem push (i : Instr) : Flow D (b.push i) :=
  h.grow rfl (fun _ _ hi => mem_instrsAt_push_of_mem hi) fun _ _ => leads_push.mp

theorem positionAt (p : BlockId) : Flow D (b.positionAt p) :=
  h.grow rfl (fun _ _ => id) fun _ _ => id

/-- An edge may be added where all is known that its target takes for known. -/
theorem terminate {t : Terminator}
    (known : ∀ q ∈ t.successors, ∀ f, D q f → b.Avail D b.current f) : Flow D (b.terminate t) where
  entry := h.entry
  edge p q f leads hf := by
    have same : ∀ i ∈ b.instrsAt p, i ∈ (b.terminate t).instrsAt p := fun i hi => by
      rwa [instrsAt_terminate]
    obtain ⟨t', ended, mem⟩ := leads
    rw [endAt_terminate] at ended
    split at ended
    -- the new edges lead from the current block
    next here =>
      cases ended
      exact (here.1 ▸ known q mem f hf : b.Avail D p f).mono same
    next => exact (h.edge p q f ⟨t', ended, mem⟩ hf).mono same
  origin p v known := by
    rcases h.origin p v known with param | ⟨q, other, i, hi, made⟩
    · exact .inl param
    · exact .inr ⟨q, other, i, by rwa [instrsAt_terminate], made⟩

/-- What is known at blocks that wait may be chosen as long as nothing leads there. -/
theorem on (waits : ∀ q, P q → b.Idle q ∧ q ≠ 0 ∧ ∀ p, ¬b.Leads p q)
    (origin : ∀ v, F (.value v) → v < b.arity ∨ ∃ p, ∃ i ∈ b.instrsAt p, Fact.value v ∈ i.makes) :
    Flow (D.on P F) b where
  entry f known := h.entry f ((on_other fun here => (waits 0 here).2.1 rfl).mp known)
  edge p r f leads known := by
    have target : ¬P r := fun here => (waits r here).2.2 p leads
    -- a block that waits has not been ended, so no edge comes from it
    have source : ¬P p := by
      intro here
      obtain ⟨t, ended, -⟩ := leads
      rw [(waits p here).1.going] at ended
      cases ended
    rw [avail_on_other source]
    exact h.edge p r f leads ((on_other target).mp known)
  origin p v known := by
    -- in a block that waits the new facts are known; they come from elsewhere, as it is empty
    by_cases here : P p
    · refine (origin v ((on_same here).mp known)).imp id ?_
      rintro ⟨r, i, hi, made⟩
      refine ⟨r, ?_, i, hi, made⟩
      rintro rfl
      rw [(waits r here).1.empty] at hi
      exact absurd hi List.not_mem_nil
    · exact h.origin p v ((on_other here).mp known)

/-- What is known at the end of a block comes from somewhere. -/
theorem origin_of_avail {v : ValueId} (known : b.Avail D p (.value v)) :
    v < b.arity ∨ ∃ q, ∃ i ∈ b.instrsAt q, Fact.value v ∈ i.makes := by
  rcases known with known | ⟨i, hi, made⟩
  · refine (h.origin p v known).imp id ?_
    rintro ⟨q, -, i, hi, made⟩
    exact ⟨q, i, hi, made⟩
  · exact .inr ⟨p, i, hi, made⟩

end Flow

/-- A piece of code keeps what is known: at old blocks, and where code is added. -/
structure Carries (D : Known) (b : Builder) (D' : Known) (b' : Builder) : Prop where
  agree : ∀ p < b.size, ∀ f, D' p f ↔ D p f
  avail : ∀ f, b.Avail D b.current f → b'.Avail D' b'.current f

theorem carries_refl (D : Known) (b : Builder) : Carries D b D b :=
  ⟨fun _ _ _ => .rfl, fun _ => id⟩

/-- What two pieces of code keep one after the other, they keep together. -/
theorem Carries.trans {D' D'' : Known} {b'' : Builder} (first : Carries D b D' b')
    (size_le : b.size ≤ b'.size) (rest : Carries D' b' D'' b'') : Carries D b D'' b'' where
  agree p lt f := (rest.agree p (Nat.lt_of_lt_of_le lt size_le) f).trans (first.agree p lt f)
  avail f known := rest.avail f (first.avail f known)

end Builder

end TwinLisp.Graph
