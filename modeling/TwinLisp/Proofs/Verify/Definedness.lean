import TwinLisp.Graph.Paths
import TwinLisp.Proofs.Verify.Exact

/-!
What verification says about the values that are read when a unit runs. The order of definition and
use is checked inside a block only: on a way that goes past the block of a definition, the value is
read all the same.
-/

namespace TwinLisp.Graph

namespace Body

variable {m : Module} {arity : Nat} {body : Body} {before : List BlockId} {position index : Nat}
  {value : ValueId}

/-- The value is defined by an instruction of a block that control has not come through. -/
def DefinedAside (body : Body) (before : List BlockId) (position : Nat) (value : ValueId) : Prop :=
  ∃ p i operation, p ∉ position :: before ∧ body.instrAt? p i = some (.define value operation)

/-- At the end of a block everything is available that is defined in the unit. -/
theorem available_of_mem_defined {k : Block} (found : body.blocks[position]? = some k)
    (h : value ∈ body.params ++ body.results) :
    body.Available value position k.instrs.length := by
  rcases List.mem_append.mp h with param | result
  · exact .inl param
  obtain ⟨p, i, operation, defined⟩ := mem_results_iff.mp result
  refine .inr ⟨p, i, operation, defined, fun same => ?_⟩
  subst same
  obtain ⟨k', found', hi⟩ := instrAt?_eq_some_iff.mp defined
  cases found.symm.trans found'
  exact (List.getElem?_eq_some_iff.mp hi).1

/-- A value that is read in a well-formed body is available where it is read. -/
theorem WellFormed.available_of_reads (h : body.WellFormed m arity)
    (reads : body.Reads before position index value) : body.Available value position index := by
  cases reads with
  | instr _ found mem => exact ((h.instrs _ _ _ found).uses _ mem).1
  | exit _ found ended mem => exact (h.exits _ _ _ found ended _ mem).1
  | edge _ _ source found pair mem =>
    -- of what a phi reads only the definition is checked, not its place
    have joins := (h.instrs _ _ _ found).phi _ _ rfl
    exact available_of_mem_defined source (joins.values _ pair _ mem).1

/-- What is available has been defined, or control has not come through the block of its
definition. -/
theorem Available.definedOn_or_aside (h : body.Available value position index) :
    body.DefinedOn before position index value ∨ body.DefinedAside before position value := by
  rcases h with param | ⟨p, i, operation, found, earlier⟩
  · exact .inl (.inl param)
  by_cases here : p = position
  · subst here
    exact .inl (.inr (.inr ⟨i, earlier rfl, _, found, rfl⟩))
  by_cases passed : p ∈ before
  · exact .inl (.inr (.inl ⟨p, passed, i, _, found, rfl⟩))
  · exact .inr ⟨p, i, operation, by simp [here, passed], found⟩

end Body

/-- A value that an accepted module reads is defined exactly once in its unit. On the way that control
has taken the definition comes earlier, unless control has not come through its block at all. -/
theorem definedOn_or_aside_of_verify {m : Module} (verified : m.verify = .ok ⟨⟩) {unit : CodeUnit}
    (mem : unit ∈ m.units.toList) {body : Body} (code : unit.body = some body)
    {before : List BlockId} {position index : Nat} {value : ValueId}
    (reads : body.Reads before position index value) :
    (body.params ++ body.results).count value = 1 ∧
      (body.DefinedOn before position index value ∨ body.DefinedAside before position value) := by
  obtain ⟨-, -, units⟩ := verify_ok_iff_checks.mp verified
  obtain ⟨body', code', wellFormed⟩ := units unit mem
  cases code.symm.trans code'
  have available := wellFormed.available_of_reads reads
  refine ⟨?_, available.definedOn_or_aside⟩
  exact List.count_eq_one_of_mem wellFormed.defined_nodup (Body.mem_defined_of_available available)

/-- Two arms, of which the first defines a value, and a block after both that yields it. -/
def oneArmDefines : Body where
  params := []
  blocks := [
    ⟨0, [.define 0 (.compare .lt (.const 1) (.const 2))], some (.condBr 0 1 2)⟩,
    ⟨1, [.define 1 (.neg (.const 5))], some (.br 3)⟩,
    ⟨2, [], some (.br 3)⟩,
    ⟨3, [], some (.ret (.value 1))⟩]
  types := #[.i1, .i64]
  slots := #[]

/-- The way through the arm that defines the value. -/
theorem definedOn_or_aside_of_verify_firstArm :
    let m : Module := { name := "arms", units := #[⟨"main", 0, some oneArmDefines⟩] }
    m.verify = .ok ⟨⟩ ∧ oneArmDefines.Reads [1, 0] 3 0 1 ∧
      (oneArmDefines.params ++ oneArmDefines.results).count 1 = 1 ∧
      (oneArmDefines.DefinedOn [1, 0] 3 0 1 ∨ oneArmDefines.DefinedAside [1, 0] 3 1) := by
  intro m
  have verified : m.verify = .ok ⟨⟩ := by rfl
  have path : oneArmDefines.Path [1, 0] 3 := by
    refine (Body.Path.entry.step ?_).step ?_
    · exact ⟨_, _, rfl, rfl, by simp [Terminator.successors]⟩
    · exact ⟨_, _, rfl, rfl, by simp [Terminator.successors]⟩
  have reads : oneArmDefines.Reads [1, 0] 3 0 ((1, .i64) : ValueId × Ty).1 :=
    .exit path rfl rfl (by simp [Terminator.uses, Operand.uses])
  exact ⟨verified, reads,
    definedOn_or_aside_of_verify verified (List.mem_singleton.mpr rfl) rfl reads⟩

/-- Verification accepts a module where a value is read on a way that has not defined it: the way
through the other arm. -/
theorem not_definedOn_otherArm :
    ¬∀ (m : Module), m.verify = .ok ⟨⟩ → ∀ unit ∈ m.units.toList, ∀ body, unit.body = some body →
      ∀ before position index value, body.Reads before position index value →
        body.DefinedOn before position index value := by
  intro claim
  have path : oneArmDefines.Path [2, 0] 3 := by
    refine (Body.Path.entry.step ?_).step ?_
    · exact ⟨_, _, rfl, rfl, by simp [Terminator.successors]⟩
    · exact ⟨_, _, rfl, rfl, by simp [Terminator.successors]⟩
  have reads : oneArmDefines.Reads [2, 0] 3 0 ((1, .i64) : ValueId × Ty).1 :=
    .exit path rfl rfl (by simp [Terminator.uses, Operand.uses])
  rcases claim { name := "arms", units := #[⟨"main", 0, some oneArmDefines⟩] } rfl _
    (List.mem_singleton.mpr rfl) oneArmDefines rfl _ _ _ _ reads with param | earlier
  · exact absurd param List.not_mem_nil
  · rcases earlier with ⟨p, mem, i, instr, found, result⟩ | ⟨i, lt, -⟩
    · -- the blocks on this way define the condition and nothing else
      simp only [List.mem_cons, List.not_mem_nil, or_false] at mem
      rcases mem with rfl | rfl
      · cases found
      · cases i with
        | zero =>
          cases found
          cases result
        | succ i => cases found
    · exact absurd lt (Nat.not_lt_zero i)

end TwinLisp.Graph
