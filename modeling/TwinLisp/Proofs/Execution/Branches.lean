import TwinLisp.Proofs.Execution.Sequences
import TwinLisp.Proofs.Lowering.Order.Blocks

/-!
Code that may be run or not, and code that is run again. It is seen with the scope of the whole unit
that it leads to, so that all ways through it are seen alike.
-/

namespace TwinLisp.Execution

open TwinLisp.Graph TwinLisp.Graph.Lowering TwinLisp.Graph.Exec TwinLisp.Eval TwinLisp.Expr

variable {program : List Expr} {m : Module} {c : Scene program m} {p : Place} {xs : List String}
  {s s₁ s₂ s₃ s' t : State} {a b : Operand} {w w₁ w' : World} {v : TwinLisp.Value}
  {x y : Activation} {n : Int64} {eval : Expr → EvalM TwinLisp.Value} {P : Activation → Prop}

/-- The scene with the scope of the whole unit as it will be. -/
def Scene.settle (c : Scene program m) (base : Table SlotId) : Scene program m :=
  { c with outlook := .later base }

/-- Conditional code is seen with the scope of the whole unit that it leads to. -/
theorem reaches_settled (stage : Stage c p s s')
    (passage : Passage (Reserved program) (p.under true) xs s s') (synced : Synced c s w x)
    (inner : ∀ base, Stage (c.settle base) (p.under true) s s' → Synced (c.settle base) s w x →
      Reaches (c.settle base) s s' w w' x P) : Reaches c s s' w w' x P := by
  let base := c.outlook.base s'.current.base
  have widens := passage.widens
  have unconditional : (p.under true).unconditional = false := Bool.and_false _
  have settled : Stage (c.settle base) (p.under true) s s' := by
    refine ⟨stage.going.under true, ?_, stage.inside⟩
    rw [unconditional]
    exact stage.coming.settle passage.after.tidy
  rw [unconditional] at widens
  have frames := synced.frames.outlook widens stage.inside
  obtain ⟨ls, y, ⟨runs, ⟨here, frames⟩, keeps, output⟩, h⟩ := inner base settled ⟨synced.here, frames⟩
  exact ⟨ls, y, ⟨runs, ⟨here, frames⟩, keeps, output⟩, h⟩

/-! How blocks end. -/

section Ends

theorem nextBlock_ne_zero (opened : s.Open) (k : Nat) : s.nextBlock + k ≠ 0 :=
  Nat.ne_of_gt (Nat.add_pos_left (Nat.zero_lt_of_lt opened.lt) k)

/-- A block that is added changes nothing where the activation stands. -/
theorem at_newBlock {f : Builder} (here : f.At s.builder x) : f.At s.newBlock.builder x :=
  here.of_same rfl Builder.instrsAt_newBlock

theorem at_newBlocks {f : Builder} (here : f.At s.builder x) :
    f.At s.newBlock.newBlock.newBlock.builder x :=
  at_newBlock (at_newBlock (at_newBlock here))

theorem open_newBlocks (opened : s.Open) : s.newBlock.newBlock.newBlock.Open :=
  open_newBlock (open_newBlock (open_newBlock opened))

/-- A jump from where a state stands to a block that another state begins. -/
theorem reaches_jump {target next : BlockId} (opened : s.Open)
    (ahead : Ahead m c.code (s.jump target next)) (synced : Synced c s w x) (goal : t.block = target)
    (nonzero : target ≠ 0) (empty : t.builder.instrsAt target = [])
    (locals : t.current.locals = s.current.locals)
    (base : c.outlook.base t.current.base = c.outlook.base s.current.base) :
    Reaches c s t w w x fun y => y.arrival = some (s.block, x.values) := by
  subst goal
  obtain ⟨done, ended⟩ := synced.here.terminate opened ahead.grown.of_positionAt
  refine (reaches_goto (runs_br done ended) synced nonzero empty locals base).mono ?_
  rintro y - rfl
  exact congrArg (fun block => some (block, x.values)) synced.here.block

end Ends

/-- A test that may settle the result goes to `merge` if it does. -/
theorem runs_leaving {decides truth : Bool} {merge next : BlockId} {cond : ValueId}
    (done : x.instr? = none) (ended : x.terminator? = some (leaving decides merge cond next))
    (known : x.values cond = some (.truth truth)) :
    Runs m x [] (x.goto (if truth = decides then merge else next)) := by
  cases decides with
  | false =>
    cases truth with
    | false => exact runs_condBr done ended known
    | true => exact runs_condBr done ended known
  | true =>
    cases truth with
    | false => exact runs_condBr done ended known
    | true => exact runs_condBr done ended known

/-- A test is left for `merge`, which `t` begins, if it settles the result, and else for a new block. -/
theorem reaches_leaving {decides truth : Bool} {merge : BlockId} {cond : ValueId} (opened : s.Open)
    (ahead : Ahead m c.code (s.test decides merge cond)) (known : x.values cond = some (.truth truth))
    (synced : Synced c s w x) (goal : t.block = merge) (nonzero : merge ≠ 0)
    (empty : t.builder.instrsAt merge = []) (locals : t.current.locals = s.current.locals)
    (base : c.outlook.base t.current.base = c.outlook.base s.current.base) :
    (truth = decides → Reaches c s t w w x fun y => y.arrival = some (s.block, x.values)) ∧
      (truth ≠ decides → Reaches c s (s.test decides merge cond) w w x fun _ => True) := by
  subst goal
  obtain ⟨done, ended⟩ := (at_newBlock synced.here).terminate (open_newBlock opened)
    ahead.grown.of_positionAt
  have leave := runs_leaving (m := m) done ended known
  -- the two ways of the branch: to the block where the result is taken, or to the next operand
  constructor
  · intro decided
    rw [if_pos decided] at leave
    refine (reaches_goto leave synced nonzero empty locals base).mono ?_
    rintro y - rfl
    exact congrArg (fun block => some (block, x.values)) synced.here.block
  · intro undecided
    rw [if_neg undecided] at leave
    have fresh := (Builder.idle_newBlock s.builder).terminate
      (ne_block_of_le opened (Nat.le_refl _)) (leaving decides t.block cond s.nextBlock)
    exact (reaches_goto (t := s.test decides t.block cond) leave synced (nextBlock_ne_zero opened 0)
      fresh.empty rfl rfl).mono fun _ _ _ => trivial

/-- The phi of `and` or `or` gives the settled result to every edge of an operand. -/
theorem lookup_edges {exits : List BlockId} {exit last : BlockId} (mem : exit ∈ exits) :
    (exits.map (·, a) ++ [(last, b)]).lookup exit = some a := by
  induction exits with
  | nil => cases mem
  | cons first exits ih =>
    rw [List.map_cons, List.cons_append, List.lookup_cons]
    by_cases same : exit = first
    · rw [beq_iff_eq.mpr same]
    · rw [beq_false_of_ne same]
      exact ih ((List.mem_cons.mp mem).resolve_left same)

/-- The last edge is found behind the others: it comes from a block of its own. -/
theorem lookup_last {exits : List BlockId} {last : BlockId} (other : last ∉ exits) :
    (exits.map (·, a) ++ [(last, b)]).lookup last = some b := by
  induction exits with
  | nil => exact List.lookup_cons_self
  | cons first exits ih =>
    obtain ⟨ne, others⟩ := not_or.mp (fun h => other (List.mem_cons.mpr h))
    rw [List.map_cons, List.cons_append, List.lookup_cons, beq_false_of_ne ne]
    exact ih others

/-- The first operand of `and` or `or` settles the result, or leaves it to the others. -/
theorem logic_cons_ok {e : Expr} {es : List Expr} {decides : Bool}
    (run : (if decides then evalOr eval (e :: es) else evalAnd eval (e :: es)) w = .ok v w') :
    ∃ u w₁, eval e w = .ok u w₁ ∧
      (u.isTruthy = decides ∧ v = .ofBool decides ∧ w' = w₁ ∨
        u.isTruthy ≠ decides ∧ (if decides then evalOr eval es else evalAnd eval es) w₁ = .ok v w') := by
  cases decides with
  | false =>
    obtain ⟨u, w₁, evaluated, run⟩ := bind_ok_iff.mp run
    refine ⟨u, w₁, evaluated, ?_⟩
    -- the first operand settles the result, or it is left to the others
    cases truth : u.isTruthy with
    | false =>
      rw [truth] at run
      obtain ⟨rfl, rfl⟩ := pure_ok_iff.mp run
      exact .inl ⟨rfl, rfl, rfl⟩
    | true =>
      rw [truth] at run
      exact .inr ⟨nofun, run⟩
  | true =>
    obtain ⟨u, w₁, evaluated, run⟩ := bind_ok_iff.mp run
    refine ⟨u, w₁, evaluated, ?_⟩
    cases truth : u.isTruthy with
    | false =>
      rw [truth] at run
      exact .inr ⟨nofun, run⟩
    | true =>
      rw [truth] at run
      obtain ⟨rfl, rfl⟩ := pure_ok_iff.mp run
      exact .inl ⟨rfl, rfl, rfl⟩

/-- A loop that ends well is left, or goes through its body and on, whatever its limit is. -/
theorem iterations_ok {cond : Expr} {body : List Expr} {limit : Option Nat}
    {fuel done : Nat} (run : evalIterations eval limit cond body (fuel + 1) done w = .ok v w') :
    ∃ truth w₁, evalCondition eval cond w = .ok truth w₁ ∧
      (truth = false ∧ v = .int 0 ∧ w' = w₁ ∨ truth = true ∧ ∃ u w₂, evalBody eval body w₁ = .ok u w₂ ∧
        evalIterations eval limit cond body fuel (done + 1) w₂ = .ok v w') := by
  obtain ⟨truth, w₁, evaluated, run⟩ := bind_ok_iff.mp run
  refine ⟨truth, w₁, evaluated, ?_⟩
  -- the loop is left, or there is one round more
  cases truth with
  | false =>
    obtain ⟨rfl, rfl⟩ := pure_ok_iff.mp run
    exact .inl ⟨rfl, rfl, rfl⟩
  | true =>
    obtain ⟨u, w₂, turned, run⟩ := bind_ok_iff.mp run
    refine .inr ⟨rfl, u, w₂, turned, ?_⟩
    split at run
    next n =>
      split at run
      next => cases run
      next => exact run
    next => exact run

section

variable (sim : Simulates program m eval)

include sim

/-- A condition is tested where its code ends or behind blocks that are made there, in `s₂`; control
goes on in the block that is chosen, which `t` begins. -/
theorem reaches_branch {e : Expr} {cond : ValueId} {truth : Bool} {yes no : BlockId}
    (tested : Test e s cond s₁) (settled : Settled (Reserved program) p e) (stage : Stage c p s s₁)
    (here : ∀ y, c.code.At s₁.builder y → c.code.At s₂.builder y) (opened : s₂.Open)
    (grown : (s₂.builder.terminate (.condBr cond yes no)).Grown c.code)
    (goal : t.block = if truth then yes else no)
    (waits : t.block ≠ 0 ∧ t.builder.instrsAt t.block = [])
    (locals : t.current.locals = s₁.current.locals)
    (base : c.outlook.base t.current.base = c.outlook.base s₁.current.base)
    (run : evalCondition eval e w = .ok truth w₁) (synced : Synced c s w x) :
    Reaches c s t w w₁ x fun _ => True := by
  have passage := tested.passage stage.going settled
  have reached := reaches_test sim tested settled stage run synced
  refine reached.trans passage.fresh_le fun y synced _ known => ?_
  obtain ⟨done, ended⟩ := (here y synced.here).terminate opened grown
  have runs := runs_condBr (m := m) done ended known
  rw [← goal] at runs
  exact (reaches_goto runs synced waits.1 waits.2 locals base).mono fun _ _ _ => trivial

/-- An arm is run through and left for the block where both arms meet, which `t` begins. -/
theorem reaches_arm {e : Expr} {target next : BlockId} {base : Table SlotId}
    (value : Lowering.Value e s₁ a s₂) (settled : Settled (Reserved program) p e)
    (stage : Stage (c.settle base) p s₁ s₂) (ahead : Ahead m c.code (s₂.jump target next))
    (goal : t.block = target) (waits : target ≠ 0 ∧ t.builder.instrsAt target = [])
    (locals : t.current.locals = s₂.current.locals) (run : eval e w = .ok v w')
    (synced : Synced (c.settle base) s₁ w x) :
    Reaches (c.settle base) s₁ t w w' x fun y =>
      ∃ n values, v = .int n ∧ y.arrival = some (s₂.block, values) ∧ values.int? a = some n := by
  have passage := value.passage stage.going settled
  refine (sim value settled stage run synced).trans passage.fresh_le fun y synced _ yields => ?_
  obtain ⟨n, rfl, held⟩ := yields
  have left := reaches_jump (c := c.settle base) passage.after.isOpen ahead synced goal waits.1
    waits.2 locals rfl
  exact left.mono fun z _ arrival => ⟨n, y.values, rfl, arrival, held.int⟩

/-- Two arms and the block where they meet. -/
theorem reaches_cond {cond yes no : Expr} {t : ValueId} {base : Table SlotId}
    (tested : Test cond s t s₁) (first : Lowering.Value yes (s₁.openArms t) a s₂)
    (second : Lowering.Value no (s₂.jump (s₁.nextBlock + 2) (s₁.nextBlock + 1)) b s₃)
    (merged : s' = (s₃.jump (s₁.nextBlock + 2) (s₁.nextBlock + 2)).emit
      (.phi [(s₂.block, a), (s₃.block, b)]))
    (settled : SettledAll (Reserved program) p [cond, yes, no]) (unconditional : p.unconditional = false)
    (stage : Stage (c.settle base) p s s')
    (run : (do if ← evalCondition eval cond then eval yes else eval no) w = .ok v w')
    (synced : Synced (c.settle base) s w x) :
    Reaches (c.settle base) s s' w w' x (Yields s'.fresh (.value s₃.fresh) v) := by
  subst merged
  obtain ⟨truth, w₁, evaluated, run⟩ := bind_ok_iff.mp run
  -- the passages that lowering goes through
  have condition := tested.passage stage.going settled.first
  have opened := condition.after.isOpen
  have arms := condition.after.moved (moved_openArms opened t) (open_openArms opened t)
  have yesPassage := first.passage arms settled.rest.first
  have yesRegion := first.region arms.isOpen
  have crossed := moved_jump (s := s₂) yesRegion.isOpen (s₁.nextBlock + 2) (s₁.nextBlock + 1)
  have between := yesPassage.after.moved crossed (open_secondArm opened yesRegion)
  have noPassage := second.passage between settled.rest.rest.first
  have noRegion := second.region between.isOpen
  have left := moved_jump (s := s₃) noRegion.isOpen (s₁.nextBlock + 2) (s₁.nextBlock + 2)
  have merge := noPassage.after.moved left (open_merge opened yesRegion noRegion)
  -- what is still to come at each of them
  have last := stage.coming.back_moved (moved_emit merge.isOpen (.phi [(s₂.block, a), (s₃.block, b)]))
  have atNoEnd := last.back_moved left
  have atNo := atNoEnd.back noPassage rfl
  have atYesEnd := atNo.back_moved crossed
  have atYes := atYesEnd.back yesPassage rfl
  have atTest := atYes.back_moved (moved_openArms opened t)
  -- conditional code leaves the local scopes as they are
  have yesLocals := yesPassage.widens.locals unconditional
  have noLocals := noPassage.widens.locals unconditional
  obtain ⟨firstArm, -, -⟩ := idle_openArms opened t
  obtain ⟨third, other⟩ := idle_secondArm opened yesRegion noRegion
  have meet := idle_jump (s₁.nextBlock + 2) (s₁.nextBlock + 2) third other
  have after := nextBlock_ne_zero opened 2
  have grown := atYes.ahead.grown.of_positionAt
  -- one of the arms is run; the other is only a stretch of blocks that is passed over
  cases truth with
  | true =>
    have chosen := reaches_branch sim (t := s₁.openArms t) tested settled.first
      ⟨stage.going, atTest, stage.inside⟩ (fun _ => at_newBlocks) (open_newBlocks opened) grown rfl
      ⟨nextBlock_ne_zero opened 0, firstArm.empty⟩ rfl rfl evaluated synced
    refine chosen.trans condition.fresh_le fun y synced _ _ => ?_
    -- the arm ends with the jump to where both meet, and its value is picked there
    have reached := reaches_arm sim (t := s₃.jump (s₁.nextBlock + 2) (s₁.nextBlock + 2)) first
      settled.rest.first ⟨arms, atYesEnd, stage.inside⟩ atNo.ahead rfl ⟨after, meet.empty⟩ noLocals run synced
    refine reached.trans (Nat.le_trans yesPassage.fresh_le noPassage.fresh_le) fun z synced _ arrival => ?_
    obtain ⟨n, values, rfl, arrival, held⟩ := arrival
    have edge : [(s₂.block, a), (s₃.block, b)].lookup s₂.block = some a := List.lookup_cons_self
    exact reaches_int merge.isOpen stage.coming.ahead synced (compute_phi arrival edge held)
  | false =>
    have waits := (idle_jump (s₁.nextBlock + 2) (s₁.nextBlock + 1) (idle_firstArm opened yesRegion).1
      (idle_firstArm opened yesRegion).2.2.1).empty
    have chosen := reaches_branch sim (t := s₂.jump (s₁.nextBlock + 2) (s₁.nextBlock + 1)) tested
      settled.first ⟨stage.going, atTest, stage.inside⟩ (fun _ => at_newBlocks) (open_newBlocks opened)
      grown rfl ⟨nextBlock_ne_zero opened 1, waits⟩ yesLocals rfl evaluated synced
    refine chosen.trans (Nat.le_trans condition.fresh_le yesPassage.fresh_le) fun y synced _ _ => ?_
    have reached := reaches_arm sim (t := s₃.jump (s₁.nextBlock + 2) (s₁.nextBlock + 2)) second
      settled.rest.rest.first ⟨between, atNoEnd, stage.inside⟩ last.ahead rfl ⟨after, meet.empty⟩ rfl run synced
    refine reached.trans noPassage.fresh_le fun z synced _ arrival => ?_
    obtain ⟨n, values, rfl, arrival, held⟩ := arrival
    -- the second edge is found, as the first arm is left from another block
    have other := exits_differ opened yesRegion noRegion
    have edge : [(s₂.block, a), (s₃.block, b)].lookup s₃.block = some b := by
      rw [List.lookup_cons, beq_false_of_ne other.symm]
      exact List.lookup_cons_self
    exact reaches_int merge.isOpen stage.coming.ahead synced (compute_phi arrival edge held)

/-- A condition, a body that leads back to it, and the block after both. -/
theorem reaches_loop {cond e : Expr} {es : List Expr} {t : ValueId} {results : List Operand}
    {base : Table SlotId} {limit : Option Nat} {fuel : Nat}
    (tested : Test cond s.openLoop t s₁)
    (body : Values (e :: es) (s₁.openBody s.nextBlock t) results s₂)
    (left : s' = s₂.jump s.nextBlock (s.nextBlock + 2))
    (settled : SettledAll (Reserved program) p (cond :: e :: es))
    (unconditional : p.unconditional = false) (stage : Stage (c.settle base) p s s')
    (run : evalIterations eval limit cond (e :: es) fuel 0 w = .ok v w')
    (synced : Synced (c.settle base) s w x) :
    Reaches (c.settle base) s s' w w' x (Yields s'.fresh (.const 0) v) := by
  subst left
  -- the passages that lowering goes through
  have opened := stage.going.isOpen
  have going := stage.going.moved (moved_openLoop opened) (open_openLoop opened)
  have condition := tested.passage going settled.first
  have testRegion := tested.region going.isOpen
  have entered := condition.after.moved (moved_openBody condition.after.isOpen s.nextBlock t)
    (open_openBody opened testRegion)
  have bodyPassage := body.passage entered settled.rest
  have bodyRegion := body.region entered.isOpen
  -- what is still to come at each of them
  have last := stage.coming
  have atBodyEnd := last.back_moved (moved_jump bodyRegion.isOpen s.nextBlock (s.nextBlock + 2))
  have atBody := atBodyEnd.back bodyPassage rfl
  have atTestEnd := atBody.back_moved (moved_openBody condition.after.isOpen s.nextBlock t)
  have atTest := atTestEnd.back condition rfl
  -- conditional code leaves the local scopes as they are
  have testLocals := condition.widens.locals unconditional
  have bodyLocals := bodyPassage.widens.locals unconditional
  obtain ⟨header, -, -⟩ := idle_openLoop opened
  obtain ⟨third, other⟩ := idle_loopBody opened testRegion bodyRegion
  have after := idle_jump s.nextBlock (s.nextBlock + 2) third other
  -- from the condition on, by induction on the turns that are left
  have turns : ∀ fuel done w x, evalIterations eval limit cond (e :: es) fuel done w = .ok v w' →
      Synced (c.settle base) s.openLoop w x →
      Reaches (c.settle base) s.openLoop (s₂.jump s.nextBlock (s.nextBlock + 2)) w w' x
        fun _ => v = .int 0 := by
    intro fuel
    induction fuel with
    | zero =>
      intro done w x run synced
      cases run
    | succ fuel ih =>
      intro done w x run synced
      obtain ⟨truth, w₁, evaluated, run⟩ := iterations_ok run
      have grown := atBody.ahead.grown.of_positionAt
      -- the condition fails, or the body is run and control comes back to the condition
      rcases run with ⟨rfl, rfl, rfl⟩ | ⟨rfl, u, w₂, turned, run⟩
      · have ended := reaches_branch sim (t := s₂.jump s.nextBlock (s.nextBlock + 2)) tested settled.first
          ⟨going, atTestEnd, stage.inside⟩ (fun _ => id) condition.after.isOpen grown rfl
          ⟨nextBlock_ne_zero opened 2, after.empty⟩ bodyLocals rfl evaluated synced
        exact ended.mono fun _ _ _ => rfl
      · have turn : Reaches (c.settle base) s.openLoop s.openLoop w w₂ x fun _ => True := by
          have begun := reaches_branch sim (t := s₁.openBody s.nextBlock t) tested settled.first
            ⟨going, atTestEnd, stage.inside⟩ (fun _ => id) condition.after.isOpen grown rfl
            ⟨nextBlock_ne_zero opened 1, (idle_openBody opened testRegion).1.empty⟩ rfl rfl evaluated synced
          refine begun.trans condition.fresh_le fun y synced _ _ => ?_
          have reached := reaches_body sim (List.cons_ne_nil e es) body settled.rest
            ⟨entered, atBodyEnd, stage.inside⟩ turned synced
          refine reached.trans bodyPassage.fresh_le fun y synced _ _ => ?_
          have back := (bodyLocals.trans testLocals).symm
          exact (reaches_jump (t := s.openLoop) bodyRegion.isOpen last.ahead synced rfl
            (nextBlock_ne_zero opened 0) header.empty back rfl).mono fun _ _ _ => trivial
        exact turn.trans (Nat.le_refl _) fun y synced _ _ => ih (done + 1) w₂ y run synced
  -- the jump into the condition, before the first turn
  obtain ⟨done, ended⟩ := (at_newBlocks synced.here).terminate (open_newBlocks opened)
    atTest.ahead.grown.of_positionAt
  refine (reaches_goto (t := s.openLoop) (runs_br done ended) synced (nextBlock_ne_zero opened 0)
    header.empty rfl rfl).trans (Nat.le_refl _) fun y synced _ _ => ?_
  refine (turns fuel 0 w y run synced).mono fun z _ same => ?_
  exact ⟨0, same, held_const _ z 0⟩

/-- Operands are tested until one settles the result: then control is in the block `merge`, which `t`
begins, and else it is where the last operand leads. -/
theorem reaches_tests {es : List Expr} {decides : Bool} {merge : BlockId} {exits : List BlockId}
    {base : Table SlotId} (h : Tests decides merge es s exits s')
    (settled : SettledAll (Reserved program) p es) (unconditional : p.unconditional = false)
    (stage : Stage (c.settle base) p s s') (waits : s.builder.Idle merge) (other : merge ≠ s.block)
    (goal : t.block = merge) (nonzero : merge ≠ 0) (empty : t.builder.instrsAt merge = [])
    (locals : t.current.locals = s.current.locals)
    (run : (if decides then evalOr eval es else evalAnd eval es) w = .ok v w')
    (synced : Synced (c.settle base) s w x) :
    (v = .ofBool decides ∧ Reaches (c.settle base) s t w w' x
      fun y => ∃ exit ∈ exits, ∃ values, y.arrival = some (exit, values)) ∨
    (v = .ofBool (!decides) ∧ Reaches (c.settle base) s s' w w' x fun _ => True) := by
  induction es generalizing p s w x exits with
  | nil =>
    cases h
    refine .inr ?_
    cases decides with
    | false =>
      obtain ⟨rfl, rfl⟩ := pure_ok_iff.mp run
      exact ⟨rfl, .still synced trivial⟩
    | true =>
      obtain ⟨rfl, rfl⟩ := pure_ok_iff.mp run
      exact ⟨rfl, .still synced trivial⟩
  | cons e es ih =>
    cases h with
    | @cons _ _ _ _ _ a s₁ exits _ value rest =>
      obtain ⟨u, w₁, evaluated, decision⟩ := logic_cons_ok run
      let s₂ := s₁.emit (.compare .ne a (.const 0))
      have here := value.passage stage.going settled.first
      have compared := moved_emit here.after.isOpen (.compare .ne a (.const 0))
      have emitted := here.after.moved compared (open_emit here.after.isOpen _)
      have tested := moved_test emitted.isOpen decides merge s₁.fresh
      have going := emitted.moved tested (open_test emitted.isOpen)
      have region : s.Region s₂ := (value.region stage.going.isOpen).andThen stage.going.isOpen
        fun h => region_emit h (by simp)
      have apart := region.idle waits other
      obtain ⟨waits, other⟩ : (s₂.test decides merge s₁.fresh).builder.Idle merge ∧
          merge ≠ (s₂.test decides merge s₁.fresh).block := idle_test apart.1 apart.2
      have there := rest.passage going settled.rest waits other
      -- what is still to come
      have afterTest := stage.coming.back there rfl
      have afterCompare := afterTest.back_moved tested
      have valueLocals := here.widens.locals unconditional
      have le : s.fresh ≤ s₂.fresh := Nat.le_trans here.fresh_le compared.fresh_le
      -- the operand has run, and its truth is at hand
      obtain ⟨n, rfl, ls, y, ran, known⟩ := reaches_compared sim .ne value settled.first
        ⟨stage.going, afterCompare, stage.inside⟩ evaluated synced
      change y.values s₁.fresh = some (.truth (TwinLisp.Value.int n).isTruthy) at known
      obtain ⟨settles, leaves⟩ := reaches_leaving emitted.isOpen afterTest.ahead known ran.synced goal
        nonzero empty (locals.trans valueLocals.symm) rfl
      rcases decision with ⟨decided, rfl, rfl⟩ | ⟨undecided, run⟩
      · refine .inl ⟨rfl, (ran.andThen le (settles decided)).mono fun z _ arrival => ?_⟩
        exact ⟨s₁.block, List.mem_cons_self, y.values, arrival⟩
      · obtain ⟨ls', z, ran', -⟩ := ran.andThen le (leaves undecided)
        have le := Nat.le_trans le tested.fresh_le
        rcases ih rest settled.rest unconditional ⟨going, stage.coming, stage.inside⟩ waits other
          (locals.trans valueLocals.symm) run ran'.synced with ⟨rfl, others⟩ | ⟨rfl, others⟩
        · refine .inl ⟨rfl, (ran'.andThen le others).mono ?_⟩
          rintro z - ⟨exit, mem, arrival⟩
          exact ⟨exit, List.mem_cons_of_mem _ mem, arrival⟩
        · exact .inr ⟨rfl, ran'.andThen le others⟩

/-- The operands of `and` or `or`, and the block where they meet. -/
theorem reaches_logic {es : List Expr} {decides : Bool} {exits : List BlockId} {base : Table SlotId}
    (h : Tests decides s.nextBlock es s.newBlock exits s₁)
    (merged : s' = (s₁.jump s.nextBlock s.nextBlock).emit
      (.phi (exits.map (·, decided decides) ++ [(s₁.block, undecided decides)])))
    (settled : SettledAll (Reserved program) p es) (unconditional : p.unconditional = false)
    (stage : Stage (c.settle base) p s s')
    (run : (if decides then evalOr eval es else evalAnd eval es) w = .ok v w')
    (synced : Synced (c.settle base) s w x) :
    Reaches (c.settle base) s s' w w' x (Yields s'.fresh (.value s₁.fresh) v) := by
  subst merged
  have opened := stage.going.isOpen
  have going := stage.going.moved (moved_newBlock s) (open_newBlock opened)
  have waits := Builder.idle_newBlock s.builder
  have other := ne_block_of_le opened (Nat.le_refl s.nextBlock)
  have operands := h.passage going settled waits other
  have branches := h.branches going.isOpen waits other
  obtain ⟨third, elsewhere⟩ := idle_branches (s := s.newBlock) waits other branches
  have meet := idle_jump s.nextBlock s.nextBlock third elsewhere
  have left := moved_jump (s := s₁) branches.isOpen s.nextBlock s.nextBlock
  have merge := operands.after.moved left ⟨meet.lt, meet.going⟩
  -- what is still to come
  have atMerge := stage.coming.back_moved (moved_emit merge.isOpen _)
  have atEnd := atMerge.back_moved left
  have locals := operands.widens.locals unconditional
  have nonzero := nextBlock_ne_zero opened 0
  have begun : Synced (c.settle base) s.newBlock w x := ⟨at_newBlock synced.here, synced.frames⟩
  refine (Reaches.still (P := (· = x)) begun rfl).trans (Nat.le_refl _) fun y begun _ _ => ?_
  rcases reaches_tests sim (t := s₁.jump s.nextBlock s.nextBlock) h settled unconditional
    ⟨going, atEnd, stage.inside⟩ waits other rfl nonzero meet.empty locals run begun
    with ⟨rfl, reached⟩ | ⟨rfl, reached⟩
  · -- some operand has settled the result
    refine reached.trans operands.fresh_le fun z synced _ arrival => ?_
    obtain ⟨exit, mem, values, arrival⟩ := arrival
    exact reaches_int merge.isOpen stage.coming.ahead synced
      (compute_phi arrival (lookup_edges mem) rfl)
  · -- no operand has: control comes by the last edge
    refine reached.trans operands.fresh_le fun z synced _ _ => ?_
    refine (reaches_jump (t := s₁.jump s.nextBlock s.nextBlock) branches.isOpen atMerge.ahead synced rfl
      nonzero meet.empty rfl rfl).trans (Nat.le_refl _) fun z synced _ arrival => ?_
    have last : s₁.block ∉ exits := fun mem => (branches.done _ mem).2 rfl
    have reached := reaches_int merge.isOpen stage.coming.ahead synced
      (compute_phi arrival (lookup_last last) rfl)
    cases decides with
    | false => exact reached
    | true => exact reached

end

end TwinLisp.Execution
