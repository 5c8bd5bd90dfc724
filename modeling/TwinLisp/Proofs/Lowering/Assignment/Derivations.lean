import TwinLisp.Proofs.Lowering.Assignment.Blocks

/-! Every derivation follows the variables of its source. -/

namespace TwinLisp.Graph.Lowering

variable {w w₁ w' : Variables} {s s₁ s' : State}

/-- A variable that is stored to is sure from there on. -/
theorem follows_set (h : s.Open) {name : String} {slot : SlotId} (a : Operand)
    (known : s.current.lookup name = some slot) :
    Follows w s (w.assign name) (s.perform (.store slot a)) := by
  intro D o
  unfold Variables.assign
  rw [← o.find?, known]
  exact follows_store h slot a D o

/-- A new variable is stored to when it is made. -/
theorem follows_introduce (h : s.Open) {name : String} (a : Operand)
    (unknown : s.current.lookup name = none) :
    Follows w s (w.assign name) (s.bindNew UnitState.bindOuter name false a) := by
  intro D o
  unfold Variables.assign
  rw [← o.find?, unknown]
  exact follows_bindNew h declares_outer false a D o

/-- An operation that is no load is added. -/
theorem Follows.emit (first : Follows w s w' s₁) (region : s.Region s₁) {operation : Operation}
    (noLoad : ∀ slot, operation ≠ .load slot) : Follows w s w' (s₁.emit operation) :=
  first.andThen region.size_le (follows_operation noLoad)

theorem Follows.letIn (first : Follows w s w₁ s₁) (h : s.Open) (region : s.Region s₁)
    {names : List String} {values : List Operand} (length : names.length ≤ values.length)
    (inner : (s₁.enterScope (names.zip values)).Region s')
    (body : Follows (w₁.enter names) (s₁.enterScope (names.zip values)) w' s') :
    Follows w s w'.leave s'.leaveScope := by
  have entered := region.trans h (region_enterScope region.isOpen (names.zip values))
  have started := first.andThen region.size_le (follows_enterScope region.isOpen length)
  have run := started.andThen entered.size_le body
  exact run.andThen (entered.trans h inner).size_le follows_leaveScope

mutual

theorem Value.follows : ∀ {e : Expr} {s : State} {a : Operand} {s' : State}, Value e s a s' →
    s.Open → ∀ {w w'}, w.after? e = some w' → Follows w s w' s'
  | _, s, _, _, .int, _, w, _, after => by
    cases after
    exact follows_refl w s
  -- a variable that is read is sure, or the program would not be definitely assigned
  | _, _, _, _, .variable known, _, _, _, after => by
    obtain ⟨assigned, rfl⟩ := Variables.after?_ident.mp after
    exact follows_load known assigned
  | _, _, _, _, .letIn initial inner, h, _, _, after => by
    obtain ⟨w₁, w₂, bound, run, rfl⟩ := Variables.after?_letIn.mp after
    rw [Variables.afterBindings?_eq] at bound
    have region := initial.region h
    have length := Nat.le_of_eq initial.length_eq.symm
    rw [List.length_map, ← List.length_map (·.name)] at length
    exact
      have opened := (region_enterScope region.isOpen _).isOpen
      (initial.follows h bound).letIn h region length (inner.region opened)
        (inner.follows opened run)
  | _, _, _, _, .print form _ printed, h, _, _, after =>
    printed.follows h ((Variables.after?_plain (by grind)).symm.trans after)
  -- the value first, then the variable
  | _, _, _, _, .store form value known _, h, _, _, after => by
    obtain ⟨w₁, before, rfl⟩ := (Variables.after?_set form).mp after
    have region := value.region h
    exact (value.follows h before).andThen region.size_le (follows_set region.isOpen _ known)
  | _, _, _, _, .introduce form value unknown, h, _, _, after => by
    obtain ⟨w₁, before, rfl⟩ := (Variables.after?_set form).mp after
    have region := value.region h
    exact (value.follows h before).andThen region.size_le (follows_introduce region.isOpen _ unknown)
  | _, _, _, _, .const form value _, h, _, _, after => by
    obtain ⟨w₁, before, rfl⟩ := (Variables.after?_const form).mp after
    have region := value.region h
    exact (value.follows h before).andThen region.size_le
      (follows_bindNew region.isOpen declares_inner true _)
  -- what is sure behind a branch is so in both arms
  | _, _, _, _, .cond form tested first second, h, _, _, after => by
    obtain ⟨w₁, w₂, w₃, before, yes, no, rfl⟩ := (Variables.after?_cond form).mp after
    have region := tested.region h
    have opened := open_openArms region.isOpen
    have arm := first.region (opened _)
    have arms := open_secondArm region.isOpen arm
    have met := follows_arms region.isOpen arm (second.region arms)
      (first.follows (opened _) yes) (second.follows arms no)
    have size_le := (region_arms region.isOpen arm (second.region arms)).size_le
    exact ((tested.follows h before).andThen region.size_le met).andThen
      (Nat.le_trans region.size_le size_le) (follows_operation nofun)
  | _, _, _, _, .not form value, h, _, _, after => by
    rw [Variables.after?_plain (by grind)] at after
    obtain ⟨w₁, before, same⟩ := Variables.afterAll?_cons.mp after
    cases same
    have region := value.region h
    exact ((value.follows h before).emit region (by nofun)).emit
      (region.andThen h fun h₁ => region_emit h₁ (by nofun)) nofun
  | _, s, _, _, .logicEmpty form, _, w, _, after => by
    cases (Variables.after?_logicEmpty form).mp after
    exact follows_refl w s
  | _, s, _, _, .logic form (.cons value rest), h, _, _, after => by
    obtain ⟨w₁, w₂, before, later, rfl⟩ := (Variables.after?_logic form).mp after
    have elsewhere := ne_block_of_le h (Nat.le_refl s.nextBlock)
    have added := Builder.idle_newBlock s.builder
    have opened := open_newBlock h
    have operands := (Tests.cons value rest).branches opened added elsewhere
    have region := value.region opened
    exact
      have compared : State.Region _ (State.emit _ (.compare .ne _ (.const 0))) :=
        region.andThen opened fun h₁ => region_emit h₁ (by nofun)
      -- the block where the operands meet waits until all of them have branched
      have apart := compared.idle added elsewhere
      have apart' := idle_test apart.1 apart.2
      have met := follows_logic h compared operands ((value.follows opened before).emit region (by nofun))
        fun D o known => rest.follows (open_test compared.isOpen) apart'.1 apart'.2 later D o known
      met.andThen (region_logic h operands).size_le (follows_operation nofun)
  | _, _, _, _, .loop form tested body, h, _, _, after => by
    obtain ⟨w₁, w₂, before, run, rfl⟩ := (Variables.after?_loop form).mp after
    have condition := tested.region (open_openLoop h)
    exact
      have entered := open_openBody h condition
      follows_loop h condition (body.region entered) (tested.follows (open_openLoop h) before)
        (body.follows entered run)
  | _, _, _, _, .defun form listed defined body, h, _, _, after => by
    obtain ⟨names, w₂, listed', run, rfl⟩ := (Variables.after?_defun form).mp after
    cases listed.symm.trans listed'
    -- the body has variables of its own, and those around it are as before
    exact follows_defun (current_of_define? defined).1 (body_of_define? defined)
      (body.follows region_enterUnit.isOpen run)
  -- a lambda that is not called assigns nothing
  | _, s, _, _, .lambda form, _, w, _, after => by
    cases (Variables.after?_lambda form).mp after
    exact follows_refl w s
  | _, _, _, _, .neg form value, h, _, _, after => by
    rw [Variables.after?_plain (by grind)] at after
    obtain ⟨w₁, before, same⟩ := Variables.afterAll?_cons.mp after
    cases same
    exact (value.follows h before).emit (value.region h) nofun
  | _, _, _, _, .arith form first rest, h, _, _, after => by
    rw [Variables.after?_plain (by grind)] at after
    obtain ⟨w₁, before, later⟩ := Variables.afterAll?_cons.mp after
    have region := first.region h
    exact (first.follows h before).andThen region.size_le (rest.follows region.isOpen later)
  | _, _, _, _, .call noForm _ arguments found, h, _, _, after => by
    rw [Variables.after?_plain (by grind)] at after
    have region := arguments.region h
    -- the callee may be announced now, which leaves the code alone
    have same := congrArg (·.builder.size) (current_of_callee? found).1
    exact ((arguments.follows h after).andThen region.size_le
      (follows_of_current (current_of_callee? found).1 (body_of_callee? found))).andThen
        (Nat.le_trans region.size_le (Nat.le_of_eq same.symm)) (follows_operation nofun)

theorem Test.follows : ∀ {e : Expr} {s : State} {v : ValueId} {s' : State}, Test e s v s' →
    s.Open → ∀ {w w'}, w.after? e = some w' → Follows w s w' s'
  | _, _, _, _, .compare form first second, h, _, _, after => by
    rw [Variables.after?_plain (by grind)] at after
    obtain ⟨w₁, before, later⟩ := Variables.afterAll?_cons.mp after
    obtain ⟨w₂, later, same⟩ := Variables.afterAll?_cons.mp later
    cases same
    have region := first.region h
    have region' := second.region region.isOpen
    exact ((first.follows h before).andThen region.size_le (second.follows region.isOpen later)).emit
      (region.trans h region') nofun
  | _, _, _, _, .nonzero _ value, h, _, _, after =>
    (value.follows h after).emit (value.region h) nofun

theorem Values.follows : ∀ {es : List Expr} {s : State} {as : List Operand} {s' : State},
    Values es s as s' → s.Open → ∀ {w w'}, w.afterAll? es = some w' → Follows w s w' s'
  | _, s, _, _, .nil, _, w, _, after => by
    cases after
    exact follows_refl w s
  | _, _, _, _, .cons first rest, h, _, _, after => by
    obtain ⟨w₁, before, later⟩ := Variables.afterAll?_cons.mp after
    have region := first.region h
    exact (first.follows h before).andThen region.size_le (rest.follows region.isOpen later)

theorem Prints.follows : ∀ {es : List Expr} {s s' : State}, Prints es s s' → s.Open →
    ∀ {w w'}, w.afterAll? es = some w' → Follows w s w' s'
  | _, s, _, .nil, _, w, _, after => by
    cases after
    exact follows_refl w s
  | _, s, _, .str rest, h, _, _, after => by
    obtain ⟨w₁, before, later⟩ := Variables.afterAll?_cons.mp after
    cases before
    exact
      have region : s.Region (State.perform _ _) := region_perform (s := (s.intern _).2) h _
      ((follows_intern _).andThen (Nat.le_refl _) (follows_perform _)).andThen region.size_le
        (rest.follows region.isOpen later)
  | _, _, _, .int value rest, h, _, _, after => by
    obtain ⟨w₁, before, later⟩ := Variables.afterAll?_cons.mp after
    have region := value.region h
    exact
      have printed := region_perform region.isOpen (.printInt _)
      ((value.follows h before).andThen region.size_le (follows_perform _)).andThen
        (region.trans h printed).size_le (rest.follows printed.isOpen later)

theorem Operands.follows : ∀ {op : ArithOp} {acc : Operand} {es : List Expr} {s : State}
    {r : Operand} {s' : State}, Operands op acc es s r s' → s.Open →
    ∀ {w w'}, w.afterAll? es = some w' → Follows w s w' s'
  | _, _, _, s, _, _, .nil, _, w, _, after => by
    cases after
    exact follows_refl w s
  | _, _, _, _, _, _, .cons value _ rest, h, _, _, after => by
    obtain ⟨w₁, before, later⟩ := Variables.afterAll?_cons.mp after
    have region := value.region h
    exact
      have combined : State.Region _ (State.emit _ (.arith _ _ _)) :=
        region_emit region.isOpen (by nofun)
      ((value.follows h before).emit region (by nofun)).andThen (region.trans h combined).size_le
        (rest.follows combined.isOpen later)

theorem Tests.follows : ∀ {decides : Bool} {merge : BlockId} {es : List Expr} {s : State}
    {exits : List BlockId} {s' : State}, Tests decides merge es s exits s' → s.Open →
    s.builder.Idle merge → merge ≠ s.block → ∀ {w w'}, w.afterAll? es = some w' →
    ∀ D, Assigned w D s → (∀ f, D merge f → s.Avail D f) →
    ∃ D', Builder.Carries D s.builder D' s'.builder ∧ Assigned w' D' s'
  | _, _, _, s, _, _, .nil, _, _, _, _, _, after, D, o, _ => by
    cases after
    exact ⟨D, Builder.carries_refl D s.builder, o⟩
  | _, _, _, _, _, _, .cons value rest, h, waits, other, _, _, after, D, o, known => by
    obtain ⟨w₁, before, later⟩ := Variables.afterAll?_cons.mp after
    have region := value.region h
    exact
      -- an operand is compared with zero, and branches to the merge or on
      have compared : State.Region _ (State.emit _ (.compare .ne _ (.const 0))) :=
        region.andThen h fun h₁ => region_emit h₁ (by nofun)
      have apart := compared.idle waits other
      have apart' := idle_test apart.1 apart.2
      have tested := follows_tests compared o ((value.follows h before).emit region (by nofun)) waits
        other (fun f hf => .inl (known f hf)) fun D o known =>
          rest.follows (open_test compared.isOpen) apart'.1 apart'.2 later D o known
      tested.imp fun _ found => ⟨found.1, found.2.1⟩

end

end TwinLisp.Graph.Lowering
