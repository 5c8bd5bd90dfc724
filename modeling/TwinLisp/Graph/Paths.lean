import TwinLisp.Graph.WellFormed

/-! The ways that control can take through the blocks of a body, and what has happened on them. -/

namespace TwinLisp.Graph.Body

/-- Control can come to a block through the blocks before, latest first. -/
inductive Path (body : Body) : List BlockId → BlockId → Prop
  | entry : Path body [] 0
  | step {before p q} (path : Path body before p) (leads : body.Leads p q) :
    Path body (p :: before) q

/-- An instruction of a kind is run on the way through the blocks before, or in the block at
`position` at an earlier index. -/
def Earlier (body : Body) (before : List BlockId) (position index : Nat) (kind : Instr → Prop) :
    Prop :=
  (∃ p ∈ before, ∃ i instr, body.instrAt? p i = some instr ∧ kind instr) ∨
    ∃ i < index, ∃ instr, body.instrAt? position i = some instr ∧ kind instr

/-- Whatever way control has taken to an index of a block, the value has been defined. -/
def Dominated (body : Body) (value : ValueId) (position index : Nat) : Prop :=
  value ∈ body.params ∨ ∀ before, body.Path before position →
    body.Earlier before position index (·.result? = some value)

/-- What is used has been defined: by an instruction, by the end of a block, and by a phi at the end
of the block that control comes from. -/
structure DefinesBeforeUse (body : Body) : Prop where
  instrs : ∀ position index instr, body.instrAt? position index = some instr →
    ∀ use ∈ instr.uses, body.Dominated use.1 position index
  exits : ∀ position (k : Block) t, body.blocks[position]? = some k → k.terminator = some t →
    ∀ use ∈ t.uses, body.Dominated use.1 position k.instrs.length
  phis : ∀ position index dst incoming,
    body.instrAt? position index = some (.define dst (.phi incoming)) →
    ∀ edge ∈ incoming, ∀ use ∈ edge.2.uses, ∃ k, body.blocks[edge.1]? = some k ∧
      body.Dominated use.1 edge.1 k.instrs.length

/-- Whatever way control has taken to a load, its slot has been stored to. -/
def StoresBeforeLoad (body : Body) : Prop :=
  ∀ position index dst slot, body.instrAt? position index = some (.define dst (.load slot)) →
    ∀ before, body.Path before position →
      body.Earlier before position index fun i => ∃ value, i = .perform (.store slot value)

/-- Control comes through the blocks before to an index of the block at `position`, where a value is
read. A phi reads at the end of the block that control comes from. -/
inductive Reads (body : Body) : List BlockId → BlockId → Nat → ValueId → Prop
  | instr {before position index instr use} (path : body.Path before position)
    (found : body.instrAt? position index = some instr) (mem : use ∈ instr.uses) :
    Reads body before position index use.1
  | exit {before position k t use} (path : body.Path before position)
    (found : body.blocks[position]? = some k) (ended : k.terminator = some t) (mem : use ∈ t.uses) :
    Reads body before position k.instrs.length use.1
  | edge {before p q k index dst incoming operand use} (path : body.Path before p)
    (leads : body.Leads p q) (source : body.blocks[p]? = some k)
    (found : body.instrAt? q index = some (.define dst (.phi incoming)))
    (pair : (p, operand) ∈ incoming) (mem : use ∈ operand.uses) :
    Reads body before p k.instrs.length use.1

/-- On the way through the blocks before to an index of the block at `position`, the value has been
defined: as a parameter, or by an instruction that has been run. -/
def DefinedOn (body : Body) (before : List BlockId) (position index : Nat) (value : ValueId) : Prop :=
  value ∈ body.params ∨ body.Earlier before position index (·.result? = some value)

end TwinLisp.Graph.Body
