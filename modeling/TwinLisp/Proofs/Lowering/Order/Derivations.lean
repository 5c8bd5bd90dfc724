import TwinLisp.Proofs.Lowering.Order.Blocks

/-! Every derivation keeps the bodies in order, and what it yields can be read. -/

namespace TwinLisp.Graph.Lowering

variable {s s₁ s' : State} {D : Known} {u v : List (ValueId × Ty)} {as : List Operand}

/-- A step after which no more is known than before. -/
theorem Keeps.step (first : Keeps s s₁ u) (region : s.Region s₁)
    (rest : ∀ D, Ordered D s₁ → s₁.Reads D u → Carried D s₁ D s' ∧ s'.Reads D v) : Keeps s s' v :=
  first.andThen region.size_le fun D o reads => ⟨D, rest D o reads⟩

/-- The value of a body is one of the values of its forms. -/
theorem uses_lastOf {use : ValueId × Ty} (mem : use ∈ (lastOf as).uses) :
    use ∈ as.flatMap Operand.uses := by
  rw [lastOf, List.getLastD_eq_getLast?] at mem
  cases last : as.getLast? with
  | none =>
    rw [last] at mem
    exact absurd mem List.not_mem_nil
  | some a =>
    rw [last] at mem
    exact List.mem_flatMap.mpr ⟨a, List.mem_of_getLast? last, mem⟩

theorem reads_zip {names : List String} (reads : s.Reads D (as.flatMap Operand.uses))
    {pair : String × Operand} (mem : pair ∈ names.zip as) : s.Reads D pair.2.uses :=
  fun use hu => reads use (List.mem_flatMap.mpr ⟨pair.2, (List.of_mem_zip mem).2, hu⟩)

/-- A comparison with a constant uses what the other operand uses. -/
theorem uses_compare {op : CmpOp} {a : Operand} {n : Int64} {use : ValueId × Ty}
    (mem : use ∈ (Operation.compare op a (.const n)).uses) : use ∈ a.uses := by
  have mem : use ∈ a.uses ++ [] := mem
  rwa [List.append_nil] at mem

/-- An operation is added whose operands have been computed. -/
theorem Keeps.emit (first : Keeps s s₁ u) (region : s.Region s₁) (operation : Operation)
    (plain : ∀ incoming, operation ≠ .phi incoming) (noLoad : ∀ slot, operation ≠ .load slot)
    (uses : ∀ {use}, use ∈ operation.uses → use ∈ u) :
    Keeps s (s₁.emit operation) [(s₁.fresh, operation.ty)] :=
  first.step region fun _ o reads => carried_emit region.isOpen o operation plain
    (fun slot same => absurd same (noLoad slot)) fun use mem => reads use (uses mem)

theorem Keeps.bindNew (first : Keeps s s₁ u) (region : s.Region s₁) {value : Operand}
    {bind : UnitState → String → SlotId → UnitState} {name : String} {frozen : Bool}
    (keeps : ∀ u slot, (bind u name slot).unit = u.unit ∧ (bind u name slot).builder = u.builder)
    (slotted : ∀ u n slot, Slotted n u → slot < n → Slotted n (bind u name slot))
    (uses : value.uses = u) : Keeps s (s₁.bindNew bind name frozen value) value.uses :=
  first.step region fun _ o reads =>
    have bound := carried_bindNew o keeps slotted frozen (uses ▸ reads)
    ⟨bound, bound.reads (region_bindNew region.isOpen keeps frozen value) (uses ▸ reads)⟩

/-- A call reads its arguments, which are available. -/
theorem carried_call (o : Ordered D s) (h : s.Open) {name : String} {unit : UnitId}
    (found : s.callee? name as.length = some (unit, s₁))
    (reads : s.Reads D (as.flatMap Operand.uses)) :
    Carried D s D (s₁.emit (.call unit as)) ∧
      (s₁.emit (.call unit as)).Reads D [(s₁.fresh, .i64)] := by
  have same := (current_of_callee? found).1
  have carried := carried_of_current o same (body_of_callee? found)
  have opened := open_of_current same h
  have reads₁ : s₁.Reads D (as.flatMap Operand.uses) := by
    unfold State.Reads State.block State.builder
    rwa [same]
  obtain ⟨called, result⟩ :=
    carried_emit opened carried.toOrdered (.call unit as) (by simp) (by simp) reads₁
  have size_le : s.nextBlock ≤ s₁.nextBlock :=
    Nat.le_of_eq (congrArg (·.builder.blocks.size) same.symm)
  exact ⟨{ carried.toCarries.trans size_le called.toCarries, called.toOrdered with }, result⟩

/-- An operand is combined with what the earlier ones yield, and then the others are. -/
theorem carried_combined {op : ArithOp} {acc a : Operand}
    (value : ∃ D', Carried D s D' s₁ ∧ s₁.Reads D' a.uses) (region : s.Region s₁)
    (reads : s.Reads D acc.uses)
    (rest : ∀ D', Ordered D' (s₁.emit (.arith op acc a)) →
      (s₁.emit (.arith op acc a)).Reads D' [(s₁.fresh, .i64)] →
      ∃ D'', Carried D' (s₁.emit (.arith op acc a)) D'' s' ∧ s'.Reads D'' u) :
    ∃ D', Carried D s D' s' ∧ s'.Reads D' u := by
  obtain ⟨D₁, carried, right⟩ := value
  have both : s₁.Reads D₁ (acc.uses ++ a.uses) :=
    reads_append.mpr ⟨carried.reads region reads, right⟩
  obtain ⟨combined, result⟩ :=
    carried_emit region.isOpen carried.toOrdered (.arith op acc a) (by simp) (by simp) both
  obtain ⟨D₂, carried', reads'⟩ := rest D₁ combined.toOrdered result
  have first := carried.toCarries.trans region.size_le combined.toCarries
  have size_le : s.nextBlock ≤ (s₁.emit (.arith op acc a)).nextBlock := by
    refine Nat.le_trans region.size_le (Nat.le_of_eq ?_)
    exact (Builder.size_push _).symm
  exact ⟨D₂, { first.trans size_le carried'.toCarries, carried'.toOrdered with }, reads'⟩

/-- The first operand is tested, and then the others. -/
theorem carried_tests {merge : BlockId} {decides : Bool} {c : ValueId}
    (tested : ∃ D', Carried D s D' s₁ ∧ s₁.Reads D' [(c, .i1)])
    (region : s.Region s₁) (waits : s.builder.Idle merge) (other : merge ≠ s.block)
    (known : ∀ f, D merge f → s.Avail D f)
    (rest : ∀ D', Ordered D' (s₁.test decides merge c) →
      (∀ f, D' merge f → (s₁.test decides merge c).Avail D' f) →
      ∃ D'', Carried D' (s₁.test decides merge c) D'' s') : ∃ D', Carried D s D' s' := by
  obtain ⟨D₁, carried, truth⟩ := tested
  obtain ⟨waits₁, other₁⟩ := region.idle waits other
  -- the merge was given its facts before the operands, and they still hold behind this one
  have known₁ (f : Fact) (hf : D₁ merge f) : s₁.Avail D₁ f :=
    carried.avail f (known f ((carried.agree merge waits.lt f).mp hf))
  have left := carried_test decides region.isOpen carried.toOrdered waits₁ other₁ known₁ truth
  obtain ⟨D₂, carried'⟩ := rest _ left.toOrdered fun f hf =>
    left.avail f (known₁ f ((left.agree merge waits₁.lt f).mp hf))
  have grown : s₁.nextBlock ≤ (s₁.test decides merge c).nextBlock := by
    rw [nextBlock_test]
    exact Nat.le_succ _
  have size_le := region.size_le
  have whole := (carried.toCarries.trans size_le left.toCarries).trans
    (Nat.le_trans size_le grown) carried'.toCarries
  exact ⟨D₂, { whole, carried'.toOrdered with }⟩

theorem Keeps.not {a : Operand} (first : Keeps s s₁ a.uses) (h : s.Open) (region : s.Region s₁) :
    Keeps s ((s₁.emit (.compare .eq a (.const 0))).emit (.extend s₁.fresh))
      [(s₁.fresh + 1, .i64)] := by
  have compared : s₁.Region (s₁.emit (.compare .eq a (.const 0))) :=
    region_emit region.isOpen (by simp)
  have truth := first.emit region (.compare .eq a (.const 0)) (by simp) (by simp) uses_compare
  have extended := truth.emit (region.trans h compared) (.extend s₁.fresh) (by simp) (by simp) id
  rwa [fresh_emit] at extended

mutual

theorem Value.keeps : ∀ {e : Expr} {s : State} {a : Operand} {s' : State}, Value e s a s' →
    s.Open → Keeps s s' a.uses
  | _, s, _, _, .int, _ => keeps_refl s
  -- a load reads a slot and no value
  | _, _, _, _, .variable known, h => fun D o =>
    ⟨D, carried_emit h o (.load _) nofun (fun slot same => by cases same; exact o.slotted.lt_of_lookup known)
      reads_nil⟩
  | _, _, _, _, .letIn initial inner, h =>
    have region := initial.region h
    have entered := region_enterScope region.isOpen _
    (initial.keeps h).andThen region.size_le fun D o reads =>
      have bound := carried_enterScope o _ (fun pair => reads_zip reads) region.isOpen
      (inner.keeps entered.isOpen D bound.toOrdered).imp fun D' found =>
        have whole := bound.toCarries.trans entered.size_le found.1.toCarries
        ⟨{ (carried_leaveScope found.1.toOrdered).toOrdered with
            agree := whole.agree, avail := whole.avail },
          fun use mem => found.2 use (uses_lastOf mem)⟩
  | _, _, _, _, .print _ _ printed, h => printed.keeps h
  -- the slot of a bound name is one of the frame
  | _, _, _, _, .store _ value known _, h =>
    have region := value.region h
    (value.keeps h).step region fun D o reads =>
      have stored := carried_perform o (.store _ _)
        (fun slot value same => by cases same; exact o.slotted.lt_of_lookup known) reads
      ⟨stored, stored.reads (region_perform region.isOpen _) reads⟩
  | _, _, _, _, .introduce _ value _, h =>
    (value.keeps h).bindNew (value.region h) (fun _ _ => ⟨rfl, rfl⟩) (fun _ _ _ => .bindOuter) rfl
  | _, _, _, _, .const _ value _, h =>
    (value.keeps h).bindNew (value.region h) (fun u slot => bindInner_keeps u _ slot)
      (fun _ _ _ => .bindInner) rfl
  -- the value of a branch is that of its phi node
  | _, _, _, _, .cond _ tested first second, h =>
    have region := tested.region h
    have yes := first.region (open_openArms region.isOpen _)
    have no := second.region (open_secondArm region.isOpen yes)
    (tested.keeps h).andThen region.size_le fun D o truth =>
      carried_cond region.isOpen yes no o truth (first.keeps (open_openArms region.isOpen _))
        (second.keeps (open_secondArm region.isOpen yes))
  | _, _, _, _, .not _ value, h =>
    (value.keeps h).not h (value.region h)
  | _, s, _, _, .logicEmpty _, _ => keeps_refl s
  | _, s, _, _, .logic _ tests, h => fun D o =>
    have elsewhere := ne_block_of_le h (Nat.le_refl s.nextBlock)
    have added := Builder.idle_newBlock s.builder
    carried_logic h o (tests.branches (open_newBlock h) added elsewhere)
      fun D o known => tests.keeps (open_newBlock h) added elsewhere D o known
  -- a loop has the value zero, which reads nothing
  | _, _, _, _, .loop _ tested body, h => fun D o =>
    have condition := tested.region (open_openLoop h)
    have entered := open_openBody h condition
    have looped := carried_loop h condition (body.region entered) o (tested.keeps (open_openLoop h))
      (body.keeps entered)
    looped.imp fun D' carried => ⟨carried, reads_nil⟩
  | _, _, _, _, .defun _ _ defined body, h => fun D o =>
    have same := (current_of_define? defined).1
    have found := carried_of_current o same (body_of_define? defined)
    have entered := region_enterUnit.isOpen
    -- the body is checked as a unit of its own, the code around it reads nothing of it
    have finished := carried_leaveUnit o same (body.region entered)
      ((body.keeps entered).mono fun use => uses_lastOf) found.toOrdered
    ⟨D, finished, reads_nil⟩
  | _, s, _, _, .lambda _, _ => keeps_refl s
  | _, _, _, _, .neg _ value, h =>
    (value.keeps h).emit (value.region h) (.neg _) nofun nofun id
  | _, _, _, _, .arith _ first rest, h =>
    have region := first.region h
    (first.keeps h).andThen region.size_le (rest.keeps region.isOpen)
  | _, _, _, _, .call _ _ arguments found, h =>
    have region := arguments.region h
    (arguments.keeps h).andThen region.size_le fun D o reads =>
      ⟨D, carried_call o region.isOpen found reads⟩

theorem Test.keeps : ∀ {e : Expr} {s : State} {v : ValueId} {s' : State}, Test e s v s' →
    s.Open → Keeps s s' [(v, .i1)]
  | _, _, _, _, .compare _ first second, h =>
    have region := first.region h
    have region' := second.region region.isOpen
    ((first.keeps h).append region (second.keeps region.isOpen) region').emit
      (region.trans h region') (.compare _ _ _) nofun nofun id
  | _, _, _, _, .nonzero _ value, h =>
    (value.keeps h).emit (value.region h) (.compare _ _ _) nofun nofun uses_compare

theorem Values.keeps : ∀ {es : List Expr} {s : State} {as : List Operand} {s' : State},
    Values es s as s' → s.Open → Keeps s s' (as.flatMap Operand.uses)
  | _, s, _, _, .nil, _ => keeps_refl s
  | _, _, _, _, .cons first rest, h =>
    have region := first.region h
    (first.keeps h).append region (rest.keeps region.isOpen) (rest.region region.isOpen)

theorem Prints.keeps : ∀ {es : List Expr} {s s' : State}, Prints es s s' → s.Open → Keeps s s' []
  | _, s, _, .nil, _ => keeps_refl s
  -- a text is interned and printed by number, an integer is read
  | _, s, _, .str rest, h => fun _ o =>
    have interned := carried_intern o _
    have printed := carried_perform interned.toOrdered (.printStr _) nofun reads_nil
    have region : s.Region (State.perform _ _) := region_perform (s := (s.intern _).2) h _
    (rest.keeps region.isOpen _ printed.toOrdered).imp fun _ found =>
      have first := interned.toCarries.trans (Nat.le_refl _) printed.toCarries
      ⟨{ first.trans region.size_le found.1.toCarries, found.1.toOrdered with }, reads_nil⟩
  | _, _, _, .int value rest, h =>
    have region := value.region h
    have printed := region_perform region.isOpen (.printInt _)
    ((value.keeps h).step region fun _ o reads =>
      ⟨carried_perform o (.printInt _) nofun reads, reads_nil⟩).andThen
        (region.trans h printed).size_le fun D o _ => rest.keeps printed.isOpen D o

theorem Operands.keeps : ∀ {op : ArithOp} {acc : Operand} {es : List Expr} {s : State}
    {r : Operand} {s' : State}, Operands op acc es s r s' → s.Open → ∀ D, Ordered D s →
    s.Reads D acc.uses → ∃ D', Carried D s D' s' ∧ s'.Reads D' r.uses
  | _, _, _, s, _, _, .nil, _ => fun D o reads =>
    ⟨D, { Builder.carries_refl D s.builder, o with }, reads⟩
  | _, _, _, _, _, _, .cons value _ rest, h => fun D o reads =>
    have region := value.region h
    have combined : State.Region _ (State.emit _ (.arith _ _ _)) :=
      region_emit region.isOpen (by nofun)
    carried_combined (value.keeps h D o) region reads fun D' o' reads' =>
      rest.keeps combined.isOpen D' o' reads'

theorem Tests.keeps : ∀ {decides : Bool} {merge : BlockId} {es : List Expr} {s : State}
    {exits : List BlockId} {s' : State}, Tests decides merge es s exits s' → s.Open →
    s.builder.Idle merge → merge ≠ s.block → ∀ D, Ordered D s →
    (∀ f, D merge f → s.Avail D f) → ∃ D', Carried D s D' s'
  | _, _, _, s, _, _, .nil, _, _, _ => fun D o _ =>
    ⟨D, { Builder.carries_refl D s.builder, o with }⟩
  | _, _, _, _, _, _, .cons value rest, h, waits, other => fun D o known =>
    have region := value.region h
    have compared : State.Region _ (State.emit _ (.compare .ne _ (.const 0))) :=
      region.andThen h fun h₁ => region_emit h₁ (by nofun)
    have apart := compared.idle waits other
    have apart' := idle_test apart.1 apart.2
    have tested := (value.keeps h).emit region (.compare .ne _ (.const 0)) nofun nofun uses_compare
    carried_tests (tested D o) compared waits other known fun D' o' known' =>
      rest.keeps (open_test compared.isOpen) apart'.1 apart'.2 D' o' known'

end

end TwinLisp.Graph.Lowering
