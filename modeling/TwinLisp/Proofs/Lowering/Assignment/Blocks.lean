import TwinLisp.Proofs.Lowering.Assignment.Steps

/-! Forms that add blocks follow the variables of the source. -/

namespace TwinLisp.Graph.Lowering

variable {w w₁ w₂ w₃ w' : Variables} {s s₁ s₂ s₃ s' : State} {D : Known} {P Q : BlockId → Prop}
  {F G : Fact → Prop} {c : ValueId} {sure : List Nat}

theorem Assigned.newBlock (o : Assigned w D s) : Assigned w D s.newBlock :=
  ⟨o.toStores.newBlock, ⟨o.count, o.locals, o.base, fun v mem => avail_newBlock.mpr (o.sure v mem)⟩,
    o.bodies⟩

/-- Blocks that nothing leads to may be given what is known where code is added, and more slots that
have been stored to. -/
theorem Assigned.on (o : Assigned w D s)
    (waits : ∀ q, P q → s.builder.Idle q ∧ q ≠ 0 ∧ ∀ p, ¬s.builder.Leads p q)
    (elsewhere : ¬P s.block) (origin : ∀ v, F (.value v) → s.Avail D (.value v)) :
    Assigned w (D.on P F) s :=
  ⟨o.toStores.on waits origin, ⟨o.count, o.locals, o.base, fun v mem =>
    (Builder.avail_on_other elsewhere).mpr (o.sure v mem)⟩, o.bodies⟩

/-- The current block is ended, and code is added to a block where `sure` have been stored to. -/
theorem Assigned.goto (o : Assigned w D s) {t : Terminator} {next : BlockId}
    (targets : ∀ q ∈ t.successors, q < s.nextBlock ∧ ∀ f, D q f → s.Avail D f)
    (stored : ∀ v ∈ sure, D next (.stored v)) :
    Assigned { w with sure } D ((s.terminate t).positionAt next) where
  toStores := (o.toStores.terminate (fun q mem => (targets q mem).1)
    fun q mem => (targets q mem).2).positionAt next
  count := o.count
  locals := o.locals
  base := o.base
  sure v mem := .inl (stored v mem)
  bodies := o.bodies

theorem not_leads_newBlocks (o : Assigned w D s) {q : BlockId} (new : s.nextBlock ≤ q) (p : BlockId) :
    ¬s.newBlock.newBlock.newBlock.builder.Leads p q := by
  rw [leads_newBlock, leads_newBlock, leads_newBlock]
  exact fun leads => absurd (o.targets p q leads) (Nat.not_lt.mpr new)

/-- What is known for sure is known in the block where it was foreseen. -/
theorem origin_knows {v : ValueId} (known : s.Knows D sure (.value v)) : s.Avail D (.value v) := by
  refine known.resolve_right ?_
  rintro ⟨slot, -, same⟩
  cases same

/-- What is to be known in three new blocks: in some what is known where code is added, in others also
the slots that will have been stored to. -/
def State.foresee (s : State) (D : Known) (P Q : BlockId → Prop) (sure : List Nat) : Known :=
  (D.on P (s.Avail D)).on Q (s.Knows D sure)

/-- A block that is entered behind a branch knows what will be sure there. -/
theorem foresee_later {q : BlockId} (here : Q q) (f : Fact) :
    s.foresee D P Q sure q f ↔ s.Knows D sure f :=
  Builder.on_same here

theorem foresee_first {q : BlockId} (here : P q) (apart : ¬Q q) (f : Fact) :
    s.foresee D P Q sure q f ↔ s.Avail D f :=
  (Builder.on_other apart).trans (Builder.on_same here)

section Foresee

variable (first : ∀ q, P q → Triple s.nextBlock q) (later : ∀ q, Q q → Triple s.nextBlock q)

include first later

/-- What is foreseen for new blocks does not touch an old one. -/
theorem foresee_old {q : BlockId} (old : q < s.nextBlock) (f : Fact) :
    s.foresee D P Q sure q f ↔ D q f :=
  (Builder.on_other fun here => absurd (later q here).le (Nat.not_le.mpr old)).trans
    (Builder.on_other fun here => absurd (first q here).le (Nat.not_le.mpr old))

theorem avail_foresee (h : s.Open) {f : Fact} :
    s.newBlock.newBlock.newBlock.Avail (s.foresee D P Q sure) f ↔ s.Avail D f :=
  (Builder.avail_on_other fun here => not_triple h (later _ here)).trans
    ((Builder.avail_on_other fun here => not_triple h (first _ here)).trans
      (avail_newBlock.trans (avail_newBlock.trans avail_newBlock)))

theorem Assigned.triple (o : Assigned w D s) (h : s.Open) (sure : List Nat) :
    Assigned w (s.foresee D P Q sure) s.newBlock.newBlock.newBlock := by
  have waits (q : BlockId) (here : Triple s.nextBlock q) :
      s.newBlock.newBlock.newBlock.builder.Idle q ∧ q ≠ 0 ∧
        ∀ p, ¬s.newBlock.newBlock.newBlock.builder.Leads p q := by
    obtain ⟨one, two, three⟩ := idle_newBlocks s
    refine ⟨?_, Nat.ne_of_gt (Nat.lt_of_lt_of_le o.pos here.le), not_leads_newBlocks o here.le⟩
    rcases here with rfl | rfl | rfl
    · exact one
    · exact two
    · exact three
  have opened : ¬P s.block := fun here => not_triple h (first _ here)
  have opened' : ¬Q s.block := fun here => not_triple h (later _ here)
  have kept (f : Fact) : (s.newBlock.newBlock.newBlock).Avail D f ↔ s.Avail D f :=
    avail_newBlock.trans (avail_newBlock.trans avail_newBlock)
  -- the facts are set in two steps: first for the blocks entered at once, then for the others
  have chosen := o.newBlock.newBlock.newBlock.on (F := s.Avail D) (fun q here => waits q (first q here))
    opened fun v known => (kept _).mpr known
  refine chosen.on (fun q here => waits q (later q here)) opened' fun v known => ?_
  exact (Builder.avail_on_other opened).mpr ((kept _).mpr (origin_knows known))

end Foresee

/-- The first blocks of the two arms, out of three new blocks from `n` on; they meet in the third. -/
def Arm (n q : BlockId) : Prop := q = n ∨ q = n + 1

theorem Arm.triple {n q : BlockId} (here : Arm n q) : Triple n q :=
  here.imp id .inl

theorem triple_merge {n q : BlockId} (here : q = n + 2) : Triple n q :=
  .inr (.inr here)

/-- Both arms begin with what is known before them. -/
theorem foresee_arm {q : BlockId} (here : Arm s.nextBlock q) (f : Fact) :
    s.foresee D (Arm s.nextBlock) (· = s.nextBlock + 2) sure q f ↔ s.Avail D f := by
  refine foresee_first here (fun there => ?_) f
  rcases here with rfl | rfl
  · exact absurd there (Nat.ne_of_lt (Nat.lt_add_of_pos_right (by decide)))
  · exact absurd there (Nat.ne_of_lt (Nat.lt_succ_self _))

theorem Assigned.openArms (o : Assigned w D s) (h : s.Open) (c : ValueId) (sure : List Nat) :
    Assigned w (s.foresee D (Arm s.nextBlock) (· = s.nextBlock + 2) sure) (s.openArms c) := by
  have inArm (q : BlockId) (here : Arm s.nextBlock q) := here.triple
  have atMerge (q : BlockId) (here : q = s.nextBlock + 2) := triple_merge here
  refine (o.triple inArm atMerge h sure).goto (t := .condBr c s.nextBlock (s.nextBlock + 1))
    (fun q mem => ?_) fun v mem => (foresee_arm (.inl rfl) _).mpr (o.sure v mem)
  have here : Arm s.nextBlock q := (List.mem_cons.mp mem).imp id List.mem_singleton.mp
  refine ⟨?_, fun f known => (avail_foresee inArm atMerge h).mpr ((foresee_arm here f).mp known)⟩
  obtain ⟨one, two, -⟩ := idle_newBlocks s
  rcases here with rfl | rfl
  · exact one.lt
  · exact two.lt

/-- The condition of a loop begins with what is known before the loop, as control also comes back
to it. -/
theorem foresee_head (f : Fact) :
    s.foresee D (· = s.nextBlock) (Later s.nextBlock) sure s.nextBlock f ↔ s.Avail D f :=
  foresee_first (P := (· = s.nextBlock)) rfl
    (fun here => absurd here.bounds.1 (Nat.lt_irrefl _)) f

/-- The head of a loop knows what is known before it, the blocks behind also what its condition
assigns. -/
theorem Assigned.openLoop (o : Assigned w D s) (h : s.Open) (sure : List Nat) :
    Assigned w (s.foresee D (· = s.nextBlock) (Later s.nextBlock) sure) s.openLoop := by
  have atHead (q : BlockId) (here : q = s.nextBlock) : Triple s.nextBlock q := .inl here
  have behind (q : BlockId) (here : Later s.nextBlock q) : Triple s.nextBlock q := .inr here
  refine (o.triple atHead behind h sure).goto (t := .br s.nextBlock) (fun q mem => ?_)
    fun v mem => (foresee_head _).mpr (o.sure v mem)
  cases List.mem_singleton.mp mem
  obtain ⟨one, -, -⟩ := idle_newBlocks s
  exact ⟨one.lt, fun f known => (avail_foresee atHead behind h).mpr ((foresee_head f).mp known)⟩

section Arms

variable (h : s.Open) (first : (s.openArms c).Region s₂)
  (second : (s₂.jump (s.nextBlock + 2) (s.nextBlock + 1)).Region s₃)

include h first second

/-- After both arms those variables are sure that are after each. -/
theorem follows_arms (yes : Follows w (s.openArms c) w₂ s₂)
    (no : Follows { w₂ with sure := w.sure } (s₂.jump (s.nextBlock + 2) (s.nextBlock + 1)) w₃ s₃) :
    Follows w s (w₃.meet w₂.sure) (s₃.jump (s.nextBlock + 2) (s.nextBlock + 2)) := by
  intro D o
  let both := (w₃.meet w₂.sure).sure
  have mem_both {v : Nat} (mem : v ∈ both) : v ∈ w₃.sure ∧ v ∈ w₂.sure := by
    obtain ⟨left, right⟩ := List.mem_filter.mp mem
    exact ⟨left, List.contains_iff_mem.mp right⟩
  -- the arms begin with what is known before them, and where they meet `both` will be sure
  let E : Known := s.foresee D (Arm s.nextBlock) (· = s.nextBlock + 2) both
  have meets {u : State} {v : Variables} {D' : Known} (o' : Assigned v D' u)
      (kept : ∀ f, s.Avail D f → u.Avail D' f) (sub : ∀ x ∈ both, x ∈ v.sure) (f : Fact)
      (hf : E (s.nextBlock + 2) f) : u.Avail D' f := by
    rcases (foresee_later rfl f).mp hf with known | ⟨x, mem, rfl⟩
    · exact kept f known
    · exact o'.sure x (sub x mem)
  have size : (s.openArms c).nextBlock = s.nextBlock + 3 := nextBlock_openArms c
  -- the first arm is run, and goes to where both meet
  obtain ⟨D₂, carried₂, o₂⟩ := yes E (o.openArms h c both)
  have agree₂ {q : BlockId} (hq : q < s.nextBlock + 3) (f : Fact) : D₂ q f ↔ E q f :=
    carried₂.agree q (Nat.lt_of_lt_of_eq hq size.symm) f
  have known₂ (f : Fact) (hf : s.Avail D f) : s₂.Avail D₂ f :=
    carried₂.avail f (.inl ((foresee_arm (.inl rfl) f).mpr hf))
  have le₂ : s.nextBlock + 3 ≤ s₂.nextBlock := size ▸ first.size_le
  have crossed : Assigned { w₂ with sure := w.sure } D₂
      (s₂.jump (s.nextBlock + 2) (s.nextBlock + 1)) := by
    refine o₂.goto (t := .br (s.nextBlock + 2)) (fun q mem => ?_) fun v mem => ?_
    · cases List.mem_singleton.mp mem
      refine ⟨Nat.lt_of_lt_of_le (Nat.lt_succ_self _) le₂, fun f hf => ?_⟩
      exact meets o₂ known₂ (fun x mem => (mem_both mem).2) f ((agree₂ (Nat.lt_succ_self _) f).mp hf)
    · exact (agree₂ (Nat.lt_succ_of_lt (Nat.lt_succ_self _)) _).mpr
        ((foresee_arm (.inr rfl) _).mpr (o.sure v mem))
  -- so does the second one
  obtain ⟨D₃, carried₃, o₃⟩ := no D₂ crossed
  have agree₃ {q : BlockId} (hq : q < s.nextBlock + 3) (f : Fact) : D₃ q f ↔ E q f :=
    (carried₃.agree q (Nat.lt_of_lt_of_eq (Nat.lt_of_lt_of_le hq le₂) (nextBlock_jump _ _).symm)
      f).trans (agree₂ hq f)
  have known₃ (f : Fact) (hf : s.Avail D f) : s₃.Avail D₃ f := by
    refine carried₃.avail f (.inl ((agree₂ ?_ f).mpr ((foresee_arm (.inr rfl) f).mpr hf)))
    exact Nat.lt_succ_of_lt (Nat.lt_succ_self _)
  have le₃ : s.nextBlock + 3 ≤ s₃.nextBlock :=
    Nat.le_trans le₂ (Nat.le_trans (Nat.le_of_eq (nextBlock_jump _ _).symm) second.size_le)
  have met : Assigned (w₃.meet w₂.sure) D₃ (s₃.jump (s.nextBlock + 2) (s.nextBlock + 2)) := by
    refine o₃.goto (t := .br (s.nextBlock + 2)) (fun q mem => ?_) fun v mem => ?_
    · cases List.mem_singleton.mp mem
      refine ⟨Nat.lt_of_lt_of_le (Nat.lt_succ_self _) le₃, fun f hf => ?_⟩
      exact meets o₃ known₃ (fun x mem => (mem_both mem).1) f ((agree₃ (Nat.lt_succ_self _) f).mp hf)
    · exact (agree₃ (Nat.lt_succ_self _) _).mpr ((foresee_later rfl _).mpr (.inr ⟨v, mem, rfl⟩))
  -- old blocks know what they did, and the merge all that was known before
  refine ⟨D₃, ⟨fun p lt f => ?_, fun f hf => ?_⟩, met⟩
  · exact (agree₃ (Nat.lt_of_lt_of_le lt (Nat.le_add_right _ 3)) f).trans
      (foresee_old (fun _ here => here.triple) (fun _ here => triple_merge here) lt f)
  · exact .inl ((agree₃ (Nat.lt_succ_self _) f).mpr ((foresee_later rfl f).mpr (.inl hf)))

end Arms

section Loop

variable (h : s.Open) (tested : s.openLoop.Region s₁) (body : (s₁.openBody s.nextBlock c).Region s₂)

include h tested body

/-- After a loop those variables are sure that are after its condition. -/
theorem follows_loop (test : Follows w s.openLoop w₁ s₁)
    (run : Follows w₁ (s₁.openBody s.nextBlock c) w₂ s₂) :
    Follows w s { w₂ with sure := w₁.sure } (s₂.jump s.nextBlock (s.nextBlock + 2)) := by
  intro D o
  -- the head is foreseen what is known now; a round may be the first one or not
  let E : Known := s.foresee D (· = s.nextBlock) (Later s.nextBlock) w₁.sure
  have inner {q : BlockId} (here : Later s.nextBlock q) (f : Fact) :
      E q f ↔ s.Knows D w₁.sure f := foresee_later here f
  have size : s.openLoop.nextBlock = s.nextBlock + 3 := nextBlock_openLoop
  have size' : (s₁.openBody s.nextBlock c).nextBlock = s₁.nextBlock := nextBlock_terminate _
  obtain ⟨D₁, carried₁, o₁⟩ := test E (o.openLoop h w₁.sure)
  have agree₁ {q : BlockId} (hq : q < s.nextBlock + 3) (f : Fact) : D₁ q f ↔ E q f :=
    carried₁.agree q (Nat.lt_of_lt_of_eq hq size.symm) f
  have known₁ (f : Fact) (hf : s.Knows D w₁.sure f) : s₁.Avail D₁ f := by
    rcases hf with known | ⟨v, mem, rfl⟩
    · exact carried₁.avail f (.inl ((foresee_head f).mpr known))
    · exact o₁.sure v mem
  have le₁ : s.nextBlock + 3 ≤ s₁.nextBlock := size ▸ tested.size_le
  -- what is sure after the condition is so in the body and behind the loop
  have split : Assigned w₁ D₁ (s₁.openBody s.nextBlock c) := by
    refine o₁.goto (t := .condBr c (s.nextBlock + 1) (s.nextBlock + 2)) (fun q mem => ?_)
      fun v mem => ?_
    · have here : Later s.nextBlock q := (List.mem_cons.mp mem).imp id List.mem_singleton.mp
      refine ⟨Nat.lt_of_lt_of_le here.bounds.2 le₁, fun f hf => known₁ f ?_⟩
      exact (inner here f).mp ((agree₁ here.bounds.2 f).mp hf)
    · exact (agree₁ (Nat.lt_succ_of_lt (Nat.lt_succ_self _)) _).mpr
        ((inner (.inl rfl) _).mpr (.inr ⟨v, mem, rfl⟩))
  obtain ⟨D₂, carried₂, o₂⟩ := run D₁ split
  have agree₂ {q : BlockId} (hq : q < s.nextBlock + 3) (f : Fact) : D₂ q f ↔ E q f :=
    (carried₂.agree q (Nat.lt_of_lt_of_eq (Nat.lt_of_lt_of_le hq le₁) size'.symm) f).trans
      (agree₁ hq f)
  have first : s.nextBlock < s.nextBlock + 3 := Nat.lt_add_of_pos_right (by decide)
  -- the body comes back with what was known before the loop
  have again (f : Fact) (hf : s.Avail D f) : s₂.Avail D₂ f := by
    refine carried₂.avail f (.inl ((agree₁ ?_ f).mpr ((inner (.inl rfl) f).mpr (.inl hf))))
    exact Nat.lt_succ_of_lt (Nat.lt_succ_self _)
  have left : Assigned { w₂ with sure := w₁.sure } D₂ (s₂.jump s.nextBlock (s.nextBlock + 2)) := by
    refine o₂.goto (t := .br s.nextBlock) (fun q mem => ?_) fun v mem => ?_
    · cases List.mem_singleton.mp mem
      refine ⟨Nat.lt_of_lt_of_le first (Nat.le_trans le₁ (size' ▸ body.size_le)), fun f hf => ?_⟩
      exact again f ((foresee_head f).mp ((agree₂ first f).mp hf))
    · exact (agree₂ (Nat.lt_succ_self _) _).mpr ((inner (.inr rfl) _).mpr (.inr ⟨v, mem, rfl⟩))
  refine ⟨D₂, ⟨fun p lt f => ?_, fun f hf => ?_⟩, left⟩
  · exact (agree₂ (Nat.lt_trans lt first) f).trans (foresee_old (fun _ => .inl) (fun _ => .inr) lt f)
  · exact .inl ((agree₂ (Nat.lt_succ_self _) f).mpr ((inner (.inr rfl) f).mpr (.inl hf)))

end Loop

section Logic

variable {merge : BlockId} {decides : Bool}

/-- Where an operand does not settle the result, the next begins with what is known. -/
theorem assigned_test (decides : Bool) (h : s.Open) (o : Assigned w D s)
    (waits : s.builder.Idle merge) (known : ∀ f, D merge f → s.Avail D f) :
    Assigned w (D.on (· = s.nextBlock) (s.Avail D)) (s.test decides merge c) := by
  have next := Builder.idle_newBlock s.builder
  have chosen : Assigned w (D.on (· = s.nextBlock) (s.Avail D)) s.newBlock := by
    refine o.newBlock.on (fun q here => ?_) (Nat.ne_of_lt h.lt) fun v hv => avail_newBlock.mpr hv
    subst here
    refine ⟨next, Nat.ne_of_gt o.pos, fun p => ?_⟩
    rw [leads_newBlock]
    exact fun leads => absurd (o.targets p _ leads) (Nat.lt_irrefl _)
  refine chosen.goto (t := leaving decides merge c s.nextBlock) (fun q mem => ?_)
    fun v mem => (Builder.on_same rfl).mpr (o.sure v mem)
  -- the two blocks after an operand: the merge, and the next one
  rcases mem_successors_leaving.mp mem with rfl | rfl
  · refine ⟨waits.newBlock.lt, fun f hf => (avail_next h).mpr (known f ?_)⟩
    exact (Builder.on_other (P := (· = s.nextBlock)) (Nat.ne_of_lt waits.lt)).mp hf
  · exact ⟨next.lt, fun f hf => (avail_next h).mpr ((Builder.on_same rfl).mp hf)⟩

/-- An operand is tested before the others are. -/
theorem follows_tests (region : s.Region s₁) (o : Assigned w D s)
    (first : Follows w s w₁ s₁) (waits : s.builder.Idle merge) (apart : merge ≠ s.block)
    (known : ∀ f, D merge f → s.Avail D f ∨ ∃ v ∈ w₁.sure, f = .stored v)
    (rest : ∀ D', Assigned w₁ D' (s₁.test decides merge c) →
      (∀ f, D' merge f → (s₁.test decides merge c).Avail D' f) →
      ∃ D'', Builder.Carries D' (s₁.test decides merge c).builder D'' s'.builder ∧
        Assigned w' D'' s') :
    ∃ D', Builder.Carries D s.builder D' s'.builder ∧ Assigned w' D' s' ∧
      ∀ f, s.Avail D f ∨ (∃ v ∈ w₁.sure, f = .stored v) → s'.Avail D' f := by
  obtain ⟨D₁, carried, o₁⟩ := first D o
  obtain ⟨waits₁, -⟩ := region.idle waits apart
  -- what the block where all meet asks for is known as soon as the first operand is computed
  have reached (f : Fact) (hf : s.Avail D f ∨ ∃ v ∈ w₁.sure, f = .stored v) : s₁.Avail D₁ f := by
    rcases hf with hf | ⟨v, mem, rfl⟩
    · exact carried.avail f hf
    · exact o₁.sure v mem
  have known₁ (f : Fact) (hf : D₁ merge f) : s₁.Avail D₁ f :=
    reached f (known f ((carried.agree merge waits.lt f).mp hf))
  have tested := assigned_test (c := c) decides region.isOpen o₁ waits₁ known₁
  have passed : Builder.Carries D₁ s₁.builder (D₁.on (· = s₁.nextBlock) (s₁.Avail D₁))
      (s₁.test decides merge c).builder :=
    ⟨fun p lt f => Builder.on_other (Nat.ne_of_lt lt), fun f hf => .inl ((Builder.on_same rfl).mpr hf)⟩
  -- the others are tested in a new block, to which all of this is passed on
  obtain ⟨D₂, carried', o₂⟩ := rest _ tested fun f hf =>
    passed.avail f (known₁ f ((passed.agree merge waits₁.lt f).mp hf))
  have grown : s₁.builder.size ≤ (s₁.test decides merge c).builder.size := by
    refine Nat.le_trans (Nat.le_succ _) (Nat.le_of_eq ?_)
    exact nextBlock_test.symm
  have later := passed.trans grown carried'
  exact ⟨D₂, carried.trans region.size_le later, o₂, fun f hf => later.avail f (reached f hf)⟩

/-- After `and` or `or` those variables are sure that are after the first operand. -/
theorem follows_logic {exits : List BlockId} (h : s.Open) (region : s.newBlock.Region s₁)
    (branches : Branches s.nextBlock s.newBlock exits s') (first : Follows w s.newBlock w₁ s₁)
    (rest : ∀ D', Assigned w₁ D' (s₁.test decides s.nextBlock c) →
      (∀ f, D' s.nextBlock f → (s₁.test decides s.nextBlock c).Avail D' f) →
      ∃ D'', Builder.Carries D' (s₁.test decides s.nextBlock c).builder D'' s'.builder ∧
        Assigned w₂ D'' s') :
    Follows w s { w₂ with sure := w₁.sure } (s'.jump s.nextBlock s.nextBlock) := by
  intro D o
  have added := Builder.idle_newBlock s.builder
  have elsewhere := ne_block_of_le h (Nat.le_refl s.nextBlock)
  obtain ⟨waits, -⟩ := idle_branches (s := s.newBlock) added elsewhere branches
  -- the operands are left from many blocks, so only what the first assigns is sure there
  have chosen : Assigned w (D.on (· = s.nextBlock) (s.Knows D w₁.sure)) s.newBlock := by
    refine o.newBlock.on (fun q here => ?_) elsewhere.symm
      fun v hv => avail_newBlock.mpr (origin_knows hv)
    subst here
    refine ⟨added, Nat.ne_of_gt o.pos, fun p => ?_⟩
    rw [leads_newBlock]
    exact fun leads => absurd (o.targets p _ leads) (Nat.lt_irrefl _)
  have kept (f : Fact) : s.newBlock.Avail (D.on (· = s.nextBlock) (s.Knows D w₁.sure)) f ↔
      s.Avail D f := avail_newBlock.trans (Builder.avail_on_other elsewhere.symm)
  obtain ⟨D₂, carried, o₂, reached⟩ := follows_tests region chosen first added
    elsewhere (fun f hf => ((Builder.on_same rfl).mp hf).imp (kept f).mpr id) rest
  have lt : s.nextBlock < s.newBlock.builder.size := added.lt
  -- the merge knows what it was foreseen, whatever operands follow
  have merge (f : Fact) : D₂ s.nextBlock f ↔ s.Knows D w₁.sure f :=
    (carried.agree _ lt f).trans (Builder.on_same rfl)
  -- the last operand goes there as well
  have left : Assigned { w₂ with sure := w₁.sure } D₂ (s'.jump s.nextBlock s.nextBlock) := by
    refine o₂.goto (t := .br s.nextBlock) (fun q mem => ?_)
      fun v mem => (merge _).mpr (.inr ⟨v, mem, rfl⟩)
    cases List.mem_singleton.mp mem
    exact ⟨waits.lt, fun f hf => reached f (((merge f).mp hf).imp (kept f).mpr id)⟩
  refine ⟨D₂, ⟨fun p hp f => ?_, fun f hf => .inl ((merge f).mpr (.inl hf))⟩, left⟩
  exact (carried.agree p (Nat.lt_trans hp lt) f).trans (Builder.on_other (Nat.ne_of_lt hp))

end Logic

section Units

variable {unit : UnitId} {params : List String}

/-- A definition is followed on its own, from its parameters on. -/
theorem follows_defun (same : s₁.current = s.current)
    (bodies : ∀ {j : Nat} {x body}, s₁.module.units[j]? = some x → x.body = some body →
      ∃ y, s.module.units[j]? = some y ∧ y.body = some body)
    {result : Operand} (body : Follows (.ofParams params) (s₁.enterUnit unit params) w₂ s₂) :
    Follows w s w (s₂.leaveUnit unit result s₁) := by
  intro D o
  obtain ⟨D₁, carried, found⟩ := follows_of_current same bodies D o
  -- the unit begins without code, so without edges, loads or facts
  have begun : Assigned {} (fun _ _ => False) (s₁.begin unit params.length) := by
    have noEdge (p q : BlockId) : ¬(Builder.new params.length).Leads p q := by
      rintro ⟨t, ended, -⟩
      rw [endAt_new] at ended
      cases ended
    refine ⟨⟨⟨nofun, nofun, nofun⟩, Nat.one_pos, fun p q leads => absurd leads (noEdge p q), ?_⟩,
      ⟨rfl, rfl, rfl, nofun⟩, found.bodies⟩
    intro p n dst slot hi
    change ((Builder.new params.length).instrsAt p)[n]? = _ at hi
    rw [Builder.instrsAt_new] at hi
    cases hi
  obtain ⟨D₂, -, entered⟩ := follows_bindAll (open_new _)
    (params.zip ((List.range params.length).map .value)) _ begun
  rw [List.map_fst_zip (by simp)] at entered
  obtain ⟨D₃, -, done⟩ := body D₂ entered
  -- the body returns, which leads nowhere
  have finished : (s₂.builder.terminate (.ret result)).finish.StoresBeforeLoad :=
    (done.toStores.terminate (t := .ret result) nofun nofun).storesBeforeLoad
  refine ⟨D₁, carried, found.toStores, ⟨found.count, found.locals, found.base, found.sure⟩,
    fun j x code hx hcode => ?_⟩
  -- only the body that has been finished is new
  rcases unit_leaveUnit_cases hx with ⟨-, y, -, rfl⟩ | ⟨-, hx⟩
  · cases hcode
    exact finished
  · exact done.bodies j x code hx hcode

end Units

end TwinLisp.Graph.Lowering
