import TwinLisp.Proofs.Lowering.Order.Steps

/-! Forms that add blocks keep the bodies in order. -/

namespace TwinLisp.Graph.Lowering

variable {s s₁ s₂ s' : State} {D D' : Known} {u : List (ValueId × Ty)} {P : BlockId → Prop}
  {F : Fact → Prop} {c : ValueId}

theorem Ordered.newBlock (o : Ordered D s) : Ordered D s.newBlock :=
  o.edit (f := fun b => b.newBlock.2) o.valid.newBlock (Nat.le_refl _)

theorem Ordered.positionAt (o : Ordered D s) (p : BlockId) : Ordered D (s.positionAt p) :=
  o.edit (f := (·.positionAt p)) (o.valid.positionAt p) (Nat.le_refl _)

theorem Ordered.terminate (o : Ordered D s) (h : s.Open) {t : Terminator} (reads : s.Reads D t.uses)
    (targets : ∀ q ∈ t.successors, q < s.nextBlock ∧
      (∀ i ∈ s.builder.instrsAt q, i.isPhi = false) ∧ ∀ f, D q f → s.Avail D f) :
    Ordered D (s.terminate t) :=
  o.edit (f := (·.terminate t)) (o.valid.terminate h reads (fun q mem => (targets q mem).1)
    (fun q mem => (targets q mem).2.1) fun q mem => (targets q mem).2.2) (Nat.le_refl _)

/-- Blocks that nothing leads to may be given what is known where code is added. -/
theorem Ordered.on (o : Ordered D s)
    (waits : ∀ q, P q → s.builder.Idle q ∧ q ≠ 0 ∧ ∀ p, ¬s.builder.Leads p q)
    (known : ∀ f, F f → s.Avail D f) : Ordered (D.on P F) s where
  valid := o.valid.on waits fun _ here => o.valid.origin_of_avail (known _ here)
  slotted := o.slotted
  bodies := o.bodies

/-- A block that waits has no phi. -/
theorem plain_of_idle {q : BlockId} (waits : s.builder.Idle q) :
    ∀ i ∈ s.builder.instrsAt q, i.isPhi = false := by
  intro i hi
  rw [waits.empty] at hi
  exact absurd hi List.not_mem_nil

theorem leads_newBlock {p q : BlockId} : s.newBlock.builder.Leads p q ↔ s.builder.Leads p q :=
  Builder.leads_newBlock

theorem avail_newBlock {p : BlockId} {f : Fact} :
    s.newBlock.builder.Avail D p f ↔ s.builder.Avail D p f := by
  unfold Builder.Avail
  change (_ ∨ ∃ i ∈ s.builder.newBlock.2.instrsAt p, _) ↔ _
  rw [Builder.instrsAt_newBlock]

theorem avail_terminate {t : Terminator} {p : BlockId} {f : Fact} :
    (s.terminate t).builder.Avail D p f ↔ s.builder.Avail D p f := by
  unfold Builder.Avail
  change (_ ∨ ∃ i ∈ (s.builder.terminate t).instrsAt p, _) ↔ _
  rw [Builder.instrsAt_terminate]

theorem Ordered.not_leads (o : Ordered D s) {p q : BlockId} (new : s.nextBlock ≤ q) :
    ¬s.builder.Leads p q :=
  fun leads => absurd (o.valid.targets p q leads) (Nat.not_lt.mpr new)

/-- The three blocks that begin at `n`. -/
def Triple (n p : Nat) : Prop := p = n ∨ p = n + 1 ∨ p = n + 2

theorem Triple.le {n p : Nat} (h : Triple n p) : n ≤ p := by
  unfold Triple at h
  omega

theorem Triple.lt {n p : Nat} (h : Triple n p) : p < n + 3 := by
  unfold Triple at h
  omega

/-- The second and the third of the blocks that begin at `n`. -/
def Later (n p : Nat) : Prop := p = n + 1 ∨ p = n + 2

theorem Later.bounds {n p : Nat} (h : Later n p) : n < p ∧ p < n + 3 := by
  unfold Later at h
  omega

/-- Three new blocks are given what is known where code is added. -/
theorem Ordered.triple (o : Ordered D s) :
    Ordered (D.on (Triple s.nextBlock) (s.Avail D)) s.newBlock.newBlock.newBlock := by
  obtain ⟨first, second, third⟩ := idle_newBlocks s
  refine o.newBlock.newBlock.newBlock.on (fun q here => ⟨?_, ?_, fun p => ?_⟩) fun f known => ?_
  · rcases here with rfl | rfl | rfl
    · exact first
    · exact second
    · exact third
  · exact Nat.ne_of_gt (Nat.lt_of_lt_of_le o.valid.pos here.le)
  · rw [leads_newBlock, leads_newBlock, leads_newBlock]
    exact o.not_leads here.le
  · exact avail_newBlock.mpr (avail_newBlock.mpr (avail_newBlock.mpr known))

theorem not_triple (h : s.Open) : ¬Triple s.nextBlock s.block :=
  fun here => absurd h.lt (Nat.not_lt.mpr here.le)

/-- Making the blocks of a branch or a loop changes nothing of what is available. -/
theorem avail_triple (h : s.Open) {f : Fact} :
    (s.newBlock.newBlock.newBlock).Avail (D.on (Triple s.nextBlock) (s.Avail D)) f
      ↔ s.Avail D f :=
  avail_newBlock.trans (avail_newBlock.trans (avail_newBlock.trans
    (Builder.avail_on_other (not_triple h))))

theorem open_newBlocks (h : s.Open) : s.newBlock.newBlock.newBlock.Open :=
  open_newBlock (open_newBlock (open_newBlock h))

theorem ordered_openArms (o : Ordered D s) (h : s.Open) (truth : s.Reads D [(c, .i1)]) :
    Ordered (D.on (Triple s.nextBlock) (s.Avail D)) (s.openArms c) := by
  obtain ⟨first, second, -⟩ := idle_newBlocks s
  have reads : s.newBlock.newBlock.newBlock.Reads (D.on (Triple s.nextBlock) (s.Avail D))
      [(c, .i1)] := fun use mem => ⟨(avail_triple h).mpr (truth use mem).1, (truth use mem).2⟩
  refine (o.triple.terminate (open_newBlocks h) (t := .condBr c s.nextBlock (s.nextBlock + 1)) reads
    fun q mem => ?_).positionAt _
  rcases List.mem_cons.mp mem with rfl | mem
  · exact ⟨first.lt, plain_of_idle first, fun f known =>
      (avail_triple h).mpr ((Builder.on_same (.inl rfl)).mp known)⟩
  · cases List.mem_singleton.mp mem
    exact ⟨second.lt, plain_of_idle second, fun f known =>
      (avail_triple h).mpr ((Builder.on_same (.inr (.inl rfl))).mp known)⟩

theorem ordered_jump (o : Ordered D s) (h : s.Open) {target : BlockId} (next : BlockId)
    (inside : target < s.nextBlock) (plain : ∀ i ∈ s.builder.instrsAt target, i.isPhi = false)
    (known : ∀ f, D target f → s.Avail D f) : Ordered D (s.jump target next) := by
  refine (o.terminate h (t := .br target) reads_nil fun q mem => ?_).positionAt next
  cases List.mem_singleton.mp mem
  exact ⟨inside, plain, known⟩

/-- The three blocks of a loop begin with what is available before it. -/
theorem ordered_openLoop (o : Ordered D s) (h : s.Open) :
    Ordered (D.on (Triple s.nextBlock) (s.Avail D)) s.openLoop := by
  obtain ⟨first, -, -⟩ := idle_newBlocks s
  exact ordered_jump o.triple (open_newBlocks h) _ first.lt (plain_of_idle first) fun f known =>
    (avail_triple h).mpr ((Builder.on_same (.inl rfl)).mp known)

/-- A jump adds the edge to its target and no other. -/
theorem leads_jump (h : s.Open) {target next p q : BlockId} :
    (s.jump target next).builder.Leads p q ↔
      s.builder.Leads p q ∨ p = s.block ∧ q = target := by
  constructor
  · intro leads
    rcases Builder.leads_terminate leads with leads | ⟨here, mem⟩
    · exact .inl leads
    · exact .inr ⟨here, List.mem_singleton.mp mem⟩
  · rintro (leads | ⟨rfl, rfl⟩)
    · exact leads.terminate h _
    · refine ⟨.br q, ?_, List.mem_singleton.mpr rfl⟩
      change (s.builder.terminate _).endAt _ = _
      rw [Builder.endAt_terminate, if_pos ⟨rfl, h.lt⟩]

theorem reads_jump {target next p : BlockId} (reads : s.builder.Reads D p u) :
    (s.jump target next).builder.Reads D p u :=
  fun use mem => ⟨avail_terminate.mpr (reads use mem).1, (reads use mem).2⟩

/-- What can be read at the end of an old block can be read there later. -/
theorem Carried.reads_old (h : Carried D s D' s') (region : s.Region s') {p : BlockId}
    (old : p < s.nextBlock) (other : p ≠ s.block) (reads : s.builder.Reads D p u) :
    s'.builder.Reads D' p u := by
  refine reads.mono region.types fun f known => ?_
  obtain ⟨same, -⟩ := region.others p old other
  rcases known with known | made
  · exact .inl ((h.agree p old f).mpr known)
  · exact .inr (same.symm ▸ made)

theorem not_leads_openArms (o : Ordered D s) {p : BlockId} :
    ¬(s.openArms c).builder.Leads p (s.nextBlock + 2) := by
  intro leads
  rcases Builder.leads_terminate leads with leads | ⟨-, mem⟩
  · rw [leads_newBlock, leads_newBlock, leads_newBlock] at leads
    exact o.not_leads (Nat.le_add_right _ 2) leads
  · simp [Terminator.successors] at mem

section Arms

variable (h : s.Open) {s₂ s₃ : State} (first : (s.openArms c).Region s₂)
  (second : (s₂.jump (s.nextBlock + 2) (s.nextBlock + 1)).Region s₃)

include h first

/-- The first arm ends in a block that the second does not touch. -/
theorem exit_firstArm : s₂.block < (s₂.jump (s.nextBlock + 2) (s.nextBlock + 1)).nextBlock ∧
    s₂.block ≠ s.nextBlock + 1 := by
  obtain ⟨-, -, apart, -⟩ := idle_firstArm h first
  exact ⟨Nat.lt_of_lt_of_eq first.isOpen.lt (nextBlock_jump _ _).symm, apart.symm⟩

include second

/-- The arms of a branch end in two blocks. -/
theorem exits_differ : s₂.block ≠ s₃.block := by
  obtain ⟨old, apart⟩ := exit_firstArm h first
  exact second.within.ne_of_old old apart

/-- The block where the arms meet is entered from where they end. -/
theorem leads_merge (o : Ordered D s) (p : BlockId) :
    (s₃.jump (s.nextBlock + 2) (s.nextBlock + 2)).builder.Leads p (s.nextBlock + 2) ↔
      p = s₂.block ∨ p = s₃.block := by
  obtain ⟨-, third, -, -⟩ := idle_firstArm h first
  have old : s.nextBlock + 2 < (s₂.jump (s.nextBlock + 2) (s.nextBlock + 1)).nextBlock :=
    Nat.lt_of_lt_of_eq third.lt (nextBlock_jump _ _).symm
  have none : ¬(s.openArms c).builder.Leads p (s.nextBlock + 2) := not_leads_openArms o
  rw [leads_jump second.isOpen, second.leads_iff (open_secondArm h first) old,
    leads_jump first.isOpen, first.leads_iff (open_openArms h c) (idle_openArms h c).2.2.lt,
    or_iff_right none]
  simp only [and_true]

/-- Two arms whose values meet. -/
theorem carried_arms (o : Ordered D s) (truth : s.Reads D [(c, .i1)]) {a b : Operand}
    (yes : Keeps (s.openArms c) s₂ a.uses)
    (no : Keeps (s₂.jump (s.nextBlock + 2) (s.nextBlock + 1)) s₃ b.uses) :
    ∃ D', Carried D s D' (s₃.jump (s.nextBlock + 2) (s.nextBlock + 2)) ∧
      (s₃.jump (s.nextBlock + 2) (s.nextBlock + 2)).builder.Reads D' s₂.block a.uses ∧
      (s₃.jump (s.nextBlock + 2) (s.nextBlock + 2)).builder.Reads D' s₃.block b.uses := by
  obtain ⟨-, third₂, -, -⟩ := idle_firstArm h first
  obtain ⟨third₃, -⟩ := idle_secondArm h first second
  obtain ⟨D₁, carried₁, reads₁⟩ := yes _ (ordered_openArms o h truth)
  have size : (s.openArms c).nextBlock = s.nextBlock + 3 := nextBlock_openArms c
  have le₁ : s.nextBlock + 3 ≤ s₂.nextBlock := size ▸ first.size_le
  have old₁ {q : Nat} (hq : q < s.nextBlock + 3) : q < (s.openArms c).nextBlock :=
    Nat.lt_of_lt_of_eq hq size.symm
  -- the arms and the block after them know what was known before the branch
  have same₁ {q : Nat} (hq : Triple s.nextBlock q) (f : Fact) : D₁ q f ↔ s.Avail D f :=
    (carried₁.agree q (old₁ hq.lt) f).trans (Builder.on_same hq)
  have known₁ (f : Fact) (hf : s.Avail D f) : s₂.Avail D₁ f :=
    carried₁.avail f (.inl ((Builder.on_same (.inl rfl)).mpr hf))
  -- the second arm is entered with what was known before the branch, not after the first arm
  have crossed := ordered_jump carried₁.toOrdered first.isOpen (s.nextBlock + 1) third₂.lt
    (plain_of_idle third₂) fun f hf => known₁ f ((same₁ (.inr (.inr rfl)) f).mp hf)
  obtain ⟨D₂, carried₂, reads₂⟩ := no D₁ crossed
  have old₂ {q : Nat} (hq : q < s.nextBlock + 3) :
      q < (s₂.jump (s.nextBlock + 2) (s.nextBlock + 1)).nextBlock :=
    Nat.lt_of_lt_of_eq (Nat.lt_of_lt_of_le hq le₁) (nextBlock_jump _ _).symm
  have same₂ {q : Nat} (hq : Triple s.nextBlock q) (f : Fact) : D₂ q f ↔ s.Avail D f :=
    (carried₂.agree q (old₂ hq.lt) f).trans (same₁ hq f)
  have known₂ (f : Fact) (hf : s.Avail D f) : s₃.Avail D₂ f :=
    carried₂.avail f (.inl ((same₁ (.inr (.inl rfl)) f).mpr hf))
  have merged := ordered_jump carried₂.toOrdered second.isOpen (s.nextBlock + 2) third₃.lt
    (plain_of_idle third₃) fun f hf => known₂ f ((same₂ (.inr (.inr rfl)) f).mp hf)
  obtain ⟨old, apart⟩ := exit_firstArm h first
  -- the invariant, and that each arm's value can be read at the end of it
  refine ⟨D₂, { merged with agree := fun p lt f => ?_, avail := fun f hf => ?_ }, ?_, ?_⟩
  · have older : p < s.nextBlock + 3 := Nat.lt_of_lt_of_le lt (Nat.le_add_right _ 3)
    rw [carried₂.agree p (old₂ older), carried₁.agree p (old₁ older)]
    exact Builder.on_other fun here => absurd lt (Nat.not_lt.mpr here.le)
  · exact .inl ((same₂ (.inr (.inr rfl)) f).mpr hf)
  · exact reads_jump (carried₂.reads_old second old apart (reads_jump reads₁))
  · exact reads_jump reads₂

/-- A conditional yields what its arms yield. -/
theorem carried_cond (o : Ordered D s) (truth : s.Reads D [(c, .i1)]) {a b : Operand}
    (yes : Keeps (s.openArms c) s₂ a.uses)
    (no : Keeps (s₂.jump (s.nextBlock + 2) (s.nextBlock + 1)) s₃ b.uses) :
    ∃ D', Carried D s D' ((s₃.jump (s.nextBlock + 2) (s.nextBlock + 2)).emit
        (.phi [(s₂.block, a), (s₃.block, b)])) ∧
      ((s₃.jump (s.nextBlock + 2) (s.nextBlock + 2)).emit
        (.phi [(s₂.block, a), (s₃.block, b)])).Reads D' [(s₃.fresh, .i64)] := by
  obtain ⟨D', carried, reads₂, reads₃⟩ := carried_arms h first second o truth yes no
  obtain ⟨third, apart⟩ := idle_secondArm h first second
  have differ := exits_differ h first second
  -- the arms are the predecessors of the merge, and each has its value
  have joins : (s₃.jump (s.nextBlock + 2) (s.nextBlock + 2)).builder.Joins D' (s.nextBlock + 2)
      [(s₂.block, a), (s₃.block, b)] := by
    refine ⟨Nat.succ_ne_zero _, by simpa using differ, fun p => ?_, fun edge mem => ?_⟩
    · rw [leads_merge h first second o]
      exact List.mem_cons.trans (or_congr_right List.mem_singleton)
    · rcases List.mem_cons.mp mem with rfl | mem
      · exact reads₂
      · cases List.mem_singleton.mp mem
        exact reads₃
  obtain ⟨phi, reads'⟩ := carried_phi (open_merge h first second) carried.toOrdered
    (idle_jump _ _ third apart).empty joins
  have size_le := (region_arms h first second).size_le
  exact ⟨D', { carried.toCarries.trans size_le phi.toCarries, phi.toOrdered with }, reads'⟩

end Arms

section Loop

variable (h : s.Open) {s₁ s₂ : State} (tested : s.openLoop.Region s₁)
  (body : (s₁.openBody s.nextBlock c).Region s₂)

include h tested

/-- While the condition is built nothing leads to the body or to the block after. -/
theorem not_leads_loopTest (o : Ordered D s) {q : BlockId} (later : Later s.nextBlock q)
    (p : BlockId) : ¬s₁.builder.Leads p q := by
  have inside : q < s.openLoop.nextBlock := by
    rw [nextBlock_openLoop]
    exact later.bounds.2
  rw [tested.leads_iff (open_openLoop h) inside]
  change ¬(State.jump _ _ _).builder.Leads p q
  rw [leads_jump (open_newBlocks h), leads_newBlock, leads_newBlock, leads_newBlock]
  rintro (leads | ⟨-, same⟩)
  · exact o.not_leads (Nat.le_of_lt later.bounds.1) leads
  · exact Nat.ne_of_gt later.bounds.1 same

/-- The block of the condition has no phi. -/
theorem plain_loopTest : ∀ i ∈ s₁.builder.instrsAt s.nextBlock, i.isPhi = false := by
  obtain ⟨new, grown, plain⟩ := tested.entry
  change s₁.builder.instrsAt s.nextBlock = s.openLoop.builder.instrsAt s.nextBlock ++ new at grown
  rw [(idle_openLoop h).1.empty, List.nil_append] at grown
  rw [grown]
  exact plain

/-- The body and the block after are given what is known once the condition is tested. -/
theorem ordered_openBody (o : Ordered D s) (o₁ : Ordered D' s₁) (truth : s₁.Reads D' [(c, .i1)]) :
    Ordered (D'.on (Later s.nextBlock) (s₁.Avail D')) (s₁.openBody s.nextBlock c) := by
  obtain ⟨second, third, apart, apart'⟩ := idle_loopTest h tested
  have elsewhere : ¬Later s.nextBlock s₁.block := by
    rintro (same | same)
    · exact apart same.symm
    · exact apart' same.symm
  have waits (q : BlockId) (here : Later s.nextBlock q) : s₁.builder.Idle q := by
    rcases here with rfl | rfl
    · exact second
    · exact third
  -- nothing leads to the two blocks yet, so they may know what the condition ends with
  have chosen := o₁.on (F := s₁.Avail D') (fun q here =>
    ⟨waits q here, Nat.ne_of_gt (Nat.zero_lt_of_lt here.bounds.1),
      not_leads_loopTest h tested o here⟩) fun _ => id
  have reads : s₁.Reads (D'.on (Later s.nextBlock) (s₁.Avail D')) [(c, .i1)] := fun use mem =>
    ⟨(Builder.avail_on_other elsewhere).mpr (truth use mem).1, (truth use mem).2⟩
  refine (chosen.terminate tested.isOpen (t := .condBr c (s.nextBlock + 1) (s.nextBlock + 2))
    reads fun q mem => ?_).positionAt _
  have here : Later s.nextBlock q := (List.mem_cons.mp mem).imp id List.mem_singleton.mp
  exact ⟨(waits q here).lt, plain_of_idle (waits q here), fun f known =>
    (Builder.avail_on_other elsewhere).mpr ((Builder.on_same here).mp known)⟩

include body

/-- A loop: its condition is tested again after each run of its body. -/
theorem carried_loop (o : Ordered D s) (test : Keeps s.openLoop s₁ [(c, .i1)])
    (run : Keeps (s₁.openBody s.nextBlock c) s₂ u) :
    ∃ D', Carried D s D' (s₂.jump s.nextBlock (s.nextBlock + 2)) := by
  obtain ⟨D₁, carried₁, truth⟩ := test _ (ordered_openLoop o h)
  obtain ⟨D₂, carried₂, -⟩ := run _ (ordered_openBody h tested o carried₁.toOrdered truth)
  have size : s.openLoop.nextBlock = s.nextBlock + 3 := nextBlock_openLoop
  have size' : (s₁.openBody s.nextBlock c).nextBlock = s₁.nextBlock := nextBlock_terminate _
  have old₁ {q : Nat} (hq : q < s.nextBlock + 3) : q < s.openLoop.nextBlock :=
    Nat.lt_of_lt_of_eq hq size.symm
  have old₂ {q : Nat} (hq : q < s.nextBlock + 3) : q < (s₁.openBody s.nextBlock c).nextBlock :=
    Nat.lt_of_lt_of_eq (Nat.lt_of_lt_of_le (old₁ hq) tested.size_le) size'.symm
  -- the block of the condition knows what was known before the loop, the others what is known
  -- once the condition has been tested
  have head (f : Fact) : D₁ s.nextBlock f ↔ s.Avail D f :=
    (carried₁.agree _ (old₁ (Nat.lt_add_of_pos_right (by decide))) f).trans
      (Builder.on_same (.inl rfl))
  have entered (f : Fact) (hf : s.Avail D f) : s₁.Avail D₁ f :=
    carried₁.avail f (.inl ((Builder.on_same (.inl rfl)).mpr hf))
  have inner {q : Nat} (hq : Later s.nextBlock q) (f : Fact) : D₂ q f ↔ s₁.Avail D₁ f :=
    (carried₂.agree q (old₂ hq.bounds.2) f).trans (Builder.on_same hq)
  have outside {q : Nat} (hq : q ≤ s.nextBlock) (f : Fact) : D₂ q f ↔ D₁ q f := by
    refine (carried₂.agree q (old₂ (Nat.lt_of_le_of_lt hq (by omega))) f).trans ?_
    exact Builder.on_other fun here => absurd here.bounds.1 (Nat.not_lt.mpr hq)
  -- what was known before the loop is known when the body jumps back
  have again (f : Fact) (hf : s.Avail D f) : s₂.Avail D₂ f :=
    carried₂.avail f (.inl ((Builder.on_same (.inl rfl)).mpr (entered f hf)))
  -- a jump back asks for a head without phi nodes
  have plain : ∀ i ∈ s₂.builder.instrsAt s.nextBlock, i.isPhi = false := by
    have unchanged := (body.others s.nextBlock (old₂ (Nat.lt_add_of_pos_right (by decide)))
      (Nat.ne_of_lt (Nat.lt_succ_self _))).1
    rw [unchanged]
    intro i hi
    change i ∈ (s₁.builder.terminate _).instrsAt s.nextBlock at hi
    rw [Builder.instrsAt_terminate] at hi
    exact plain_loopTest h tested i hi
  have left := ordered_jump carried₂.toOrdered body.isOpen (s.nextBlock + 2)
    (Nat.lt_of_lt_of_le (old₂ (Nat.lt_add_of_pos_right (by decide))) body.size_le) plain
    fun f hf => again f ((head f).mp ((outside (Nat.le_refl _) f).mp hf))
  refine ⟨D₂, { left with agree := fun p lt f => ?_, avail := fun f hf => ?_ }⟩
  · have older : p < s.nextBlock + 3 := Nat.lt_of_lt_of_le lt (Nat.le_add_right _ 3)
    rw [outside (Nat.le_of_lt lt), carried₁.agree p (old₁ older)]
    exact Builder.on_other fun here => absurd lt (Nat.not_lt.mpr here.le)
  · exact .inl ((inner (.inr rfl) f).mpr (entered f hf))

end Loop

section Logic

/-- A new block is given what is known where code is added. -/
theorem Ordered.next (o : Ordered D s) :
    Ordered (D.on (· = s.nextBlock) (s.Avail D)) s.newBlock := by
  refine o.newBlock.on (fun q here => ?_) fun f hf => avail_newBlock.mpr hf
  subst here
  refine ⟨Builder.idle_newBlock s.builder, Nat.ne_of_gt o.valid.pos, fun p => ?_⟩
  rw [leads_newBlock]
  exact o.not_leads (Nat.le_refl _)

theorem avail_next (h : s.Open) {f : Fact} :
    s.newBlock.Avail (D.on (· = s.nextBlock) (s.Avail D)) f ↔ s.Avail D f :=
  avail_newBlock.trans (Builder.avail_on_other (Nat.ne_of_lt h.lt))

variable {merge : BlockId} {decides : Bool} {exits : List BlockId}

/-- Where an operand does not settle the result, the next begins with what is known. -/
theorem carried_test (decides : Bool) (h : s.Open) (o : Ordered D s) (waits : s.builder.Idle merge)
    (apart : merge ≠ s.block) (known : ∀ f, D merge f → s.Avail D f)
    (truth : s.Reads D [(c, .i1)]) :
    Carried D s (D.on (· = s.nextBlock) (s.Avail D)) (s.test decides merge c) := by
  have next := Builder.idle_newBlock s.builder
  have reads : s.newBlock.Reads (D.on (· = s.nextBlock) (s.Avail D)) [(c, .i1)] :=
    fun use mem => ⟨(avail_next h).mpr (truth use mem).1, (truth use mem).2⟩
  have left : Ordered (D.on (· = s.nextBlock) (s.Avail D)) (s.test decides merge c) := by
    refine (o.next.terminate (open_newBlock h) (t := leaving decides merge c s.nextBlock) ?_
      fun q mem => ?_).positionAt _
    · cases decides
      · exact reads
      · exact reads
    · -- to the merge, which knows less, or on to the next operand
      rcases mem_successors_leaving.mp mem with rfl | rfl
      · exact ⟨waits.newBlock.lt, plain_of_idle (s := s.newBlock) waits.newBlock, fun f hf =>
          (avail_next h).mpr (known f
            ((Builder.on_other (P := (· = s.nextBlock)) (Nat.ne_of_lt waits.lt)).mp hf))⟩
      · exact ⟨next.lt, plain_of_idle (s := s.newBlock) next, fun f hf =>
          (avail_next h).mpr ((Builder.on_same rfl).mp hf)⟩
  exact { left with
    agree := fun p lt f => Builder.on_other (Nat.ne_of_lt lt)
    avail := fun f hf => .inl ((Builder.on_same rfl).mpr hf) }

/-- The operands of `and` or `or`, the last of which goes on to where they meet. -/
theorem carried_logic (h : s.Open) (o : Ordered D s)
    (branches : Branches s.nextBlock s.newBlock exits s')
    (tests : ∀ D, Ordered D s.newBlock → (∀ f, D s.nextBlock f → s.newBlock.Avail D f) →
      ∃ D', Carried D s.newBlock D' s') :
    ∃ D', Carried D s D' ((s'.jump s.nextBlock s.nextBlock).emit
        (.phi (exits.map (·, decided decides) ++ [(s'.block, undecided decides)]))) ∧
      ((s'.jump s.nextBlock s.nextBlock).emit
        (.phi (exits.map (·, decided decides) ++ [(s'.block, undecided decides)]))).Reads D'
          [(s'.fresh, .i64)] := by
  have elsewhere := ne_block_of_le h (Nat.le_refl s.nextBlock)
  have added := Builder.idle_newBlock s.builder
  obtain ⟨waits, apart⟩ := idle_branches (s := s.newBlock) added elsewhere branches
  have opened := (region_logic h branches).isOpen
  obtain ⟨D₁, carried⟩ := tests _ o.next fun f hf =>
    (avail_next h).mpr ((Builder.on_same rfl).mp hf)
  -- the block behind the operands knows what was known before them
  have kept (f : Fact) : D₁ s.nextBlock f ↔ s.Avail D f :=
    (carried.agree _ added.lt f).trans (Builder.on_same rfl)
  have left := ordered_jump carried.toOrdered branches.isOpen s.nextBlock waits.lt
    (plain_of_idle waits) fun f hf => carried.avail f ((avail_next h).mpr ((kept f).mp hf))
  -- the predecessors of the last block are the exits and the end of the last operand
  have preds (q : BlockId) : (s'.jump s.nextBlock s.nextBlock).builder.Leads q s.nextBlock ↔
      q ∈ exits ∨ q = s'.block := by
    have none : ¬s.newBlock.builder.Leads q s.nextBlock := by
      rw [leads_newBlock]
      exact o.not_leads (Nat.le_refl _)
    rw [leads_jump branches.isOpen, branches.leads_merge, or_iff_right none]
    simp only [and_true]
  have sources : (exits.map (·, decided decides) ++ [(s'.block, undecided decides)]).map (·.1)
      = exits ++ [s'.block] := by
    simp [Function.comp_def]
  -- so the phi has one edge for each of them
  have joins : (s'.jump s.nextBlock s.nextBlock).builder.Joins D₁ s.nextBlock
      (exits.map (·, decided decides) ++ [(s'.block, undecided decides)]) := by
    refine ⟨Nat.ne_of_gt o.valid.pos, ?_, fun q => ?_, fun edge mem use hu => ?_⟩
    · rw [sources]
      refine List.nodup_append.mpr ⟨branches.nodup, List.pairwise_singleton _ _, ?_⟩
      intro p mem q mem'
      cases List.mem_singleton.mp mem'
      exact (branches.done p mem).2
    · rw [sources, List.mem_append, List.mem_singleton]
      exact (preds q).symm
    · -- the edges carry constants
      rcases List.mem_append.mp mem with mem | mem
      · obtain ⟨p, -, rfl⟩ := List.mem_map.mp mem
        exact absurd hu List.not_mem_nil
      · cases List.mem_singleton.mp mem
        exact absurd hu List.not_mem_nil
  have phi := carried_phi opened left (idle_jump _ _ waits apart).empty joins
  refine ⟨D₁, { phi.1.toOrdered with agree := fun p lt f => ?_, avail := fun f hf => ?_ }, phi.2⟩
  · rw [carried.agree p (Nat.lt_of_lt_of_eq (Nat.lt_succ_of_lt lt) Builder.size_newBlock.symm)]
    exact Builder.on_other (Nat.ne_of_lt lt)
  · exact phi.1.avail f (.inl ((kept f).mpr hf))

end Logic

end TwinLisp.Graph.Lowering
