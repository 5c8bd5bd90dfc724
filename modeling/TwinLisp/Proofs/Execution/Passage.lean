import TwinLisp.Proofs.Execution.Growth
import TwinLisp.Proofs.Execution.Visibility

/-!
What lowering settled code gets through: where it can begin, what it leads to, and what can be said
about a point on its way from where it ends.
-/

namespace TwinLisp.Graph.Lowering

open TwinLisp.Expr

/-- Settled code can begin here. -/
structure Going (p : Place) (s : State) : Prop where
  isOpen : s.Open
  tidy : Tidy s.current
  registered : Registered s
  knows : Knows p s.current

/-- Settled code has been lowered; `names` are the constants that it defines. -/
structure Passage (reserved : String → Prop) (p : Place) (names : List String) (s s' : State) : Prop where
  grown : s.builder.Grown s'.builder
  grows : Grows s s'
  defines : Defines reserved p names s.current s'.current
  after : Going (p.binding names) s'

/-- Only the code of the unit under construction has grown. -/
def Moved (s s' : State) : Prop :=
  ∃ b, s' = s.edit (fun _ => b) ∧ b.slots = s.builder.slots ∧ s.builder.Grown b

variable {reserved : String → Prop} {p : Place} {xs ys : List String} {s s₁ s' : State} {e : Expr}
  {es : List Expr}

theorem Going.under (h : Going p s) (branches : Bool) : Going (p.under branches) s :=
  ⟨h.isOpen, h.tidy, h.registered, h.knows⟩

/-- Settled code can go on where only code has been added. -/
theorem Going.moved (h : Going p s) (moved : Moved s s') (isOpen : s'.Open) : Going p s' := by
  obtain ⟨b, rfl, slots, -⟩ := moved
  exact ⟨isOpen, h.tidy.of_same rfl rfl (congrArg Array.size slots), h.registered.of_module rfl rfl rfl,
    h.knows⟩

theorem Moved.fresh_le (moved : Moved s s') : s.fresh ≤ s'.fresh := by
  obtain ⟨b, rfl, -, grown⟩ := moved
  exact grown.types_le

theorem moved_emit (h : s.Open) (operation : Operation) : Moved s (s.emit operation) :=
  ⟨_, rfl, rfl, grown_emit h operation⟩

theorem moved_perform (h : s.Open) (effect : Effect) : Moved s (s.perform effect) :=
  ⟨_, rfl, rfl, grown_perform h effect⟩

theorem moved_jump (h : s.Open) (target next : BlockId) : Moved s (s.jump target next) :=
  ⟨_, rfl, rfl, grown_jump h target next⟩

theorem moved_openArms (h : s.Open) (c : ValueId) : Moved s (s.openArms c) :=
  ⟨_, rfl, rfl, grown_openArms h c⟩

theorem moved_openLoop (h : s.Open) : Moved s s.openLoop :=
  ⟨_, rfl, rfl, grown_openLoop h⟩

theorem moved_openBody (h : s.Open) (n : Nat) (c : ValueId) : Moved s (s.openBody n c) :=
  ⟨_, rfl, rfl, (Builder.grown_terminate h.going _).trans (Builder.grown_positionAt _ _)⟩

theorem moved_newBlock (s : State) : Moved s s.newBlock :=
  ⟨_, rfl, rfl, Builder.grown_newBlock _⟩

theorem moved_test (h : s.Open) (decides : Bool) (merge : BlockId) (truth : ValueId) :
    Moved s (s.test decides merge truth) :=
  ⟨_, rfl, rfl, grown_test h decides merge truth⟩

namespace Passage

theorem moved (h : Going p s) (moved : Moved s s') (isOpen : s'.Open) : Passage reserved p [] s s' where
  after := by
    rw [Place.binding_nil]
    exact h.moved moved isOpen
  grown := by
    obtain ⟨b, rfl, -, grown⟩ := moved
    exact grown
  grows := by
    obtain ⟨b, rfl, -, -⟩ := moved
    exact .of_module rfl rfl rfl
  defines := by
    obtain ⟨b, rfl, slots, -⟩ := moved
    exact (Defines.refl _).quietly rfl rfl (Nat.le_of_eq (congrArg Array.size slots).symm)

/-- One passage and then another, which knows the constants of the first. -/
theorem trans (first : Passage reserved p xs s s₁) (rest : Passage reserved (p.binding xs) ys s₁ s') :
    Passage reserved p (xs ++ ys) s s' where
  grown := first.grown.trans rest.grown
  grows := first.grows.trans rest.grows
  defines := first.defines.append rest.defines
  after := by
    rw [Place.binding_append]
    exact rest.after

/-- To keep a text changes no code. -/
theorem intern (h : Going p s) (text : String) : Passage reserved p [] s (s.intern text).2 := by
  obtain ⟨registered, grows⟩ := (Trace.intern text).registered h.registered
  obtain ⟨strings, -, same⟩ := intern_eq s text
  rw [same] at registered grows ⊢
  refine ⟨.refl _, grows, (Defines.refl _).quietly rfl rfl (Nat.le_refl _), ?_⟩
  rw [Place.binding_nil]
  exact ⟨h.isOpen, h.tidy, registered, h.knows⟩

/-- Then follows code that defines nothing. -/
theorem andMoved (first : Passage reserved p xs s s₁) (moved : Moved s₁ s') (isOpen : s'.Open) :
    Passage reserved p xs s s' := by
  have whole := first.trans (.moved first.after moved isOpen)
  rwa [List.append_nil] at whole

theorem widens (h : Passage reserved p xs s s') :
    Widens reserved p.unconditional p.inFunction s.current s'.current :=
  h.defines.toWidens

theorem fresh_le (h : Passage reserved p xs s s') : s.fresh ≤ s'.fresh :=
  h.grown.types_le

end Passage

/-- A piece of code that only adds to what is there. -/
theorem Going.passage {live out : BlockId → Prop} (h : Going p s)
    (frame : s.builder.Frame live out s'.builder) (isOpen : s'.Open)
    (registered : Registered s' ∧ Grows s s') (tidy : Tidy s'.current)
    (defines : Defines reserved p xs s.current s'.current) : Passage reserved p xs s s' where
  grown := frame.grown h.isOpen
  grows := registered.2
  defines := defines
  after := ⟨isOpen, tidy, registered.1, defines.knows h.knows⟩

section Derivations

variable (going : Going p s)

include going

theorem Value.passage {a : Operand} (h : Value e s a s') (settled : Settled reserved p e) :
    Passage reserved p (consts e) s s' :=
  have region := h.region going.isOpen
  going.passage region.toFrame region.isOpen (h.trace.registered going.registered) (h.tidy going.tidy)
    (h.defines settled going.knows)

theorem Test.passage {c : ValueId} (h : Test e s c s') (settled : Settled reserved p e) :
    Passage reserved p (consts e) s s' :=
  have region := h.region going.isOpen
  going.passage region.toFrame region.isOpen (h.trace.registered going.registered) (h.tidy going.tidy)
    (h.defines settled going.knows)

theorem Values.passage {as : List Operand} (h : Values es s as s') (settled : SettledAll reserved p es) :
    Passage reserved p (constsAll es) s s' :=
  have region := h.region going.isOpen
  going.passage region.toFrame region.isOpen (h.trace.registered going.registered) (h.tidy going.tidy)
    (h.defines settled going.knows)

theorem Prints.passage (h : Prints es s s') (settled : SettledAll reserved p es) :
    Passage reserved p (constsAll es) s s' :=
  have region := h.region going.isOpen
  going.passage region.toFrame region.isOpen (h.trace.registered going.registered) (h.tidy going.tidy)
    (h.defines settled going.knows)

theorem Operands.passage {op : ArithOp} {acc r : Operand} (h : Operands op acc es s r s')
    (settled : SettledAll reserved p es) : Passage reserved p (constsAll es) s s' :=
  have region := h.region going.isOpen
  going.passage region.toFrame region.isOpen (h.trace.registered going.registered) (h.tidy going.tidy)
    (h.defines settled going.knows)

theorem Tests.passage {decides : Bool} {merge : BlockId} {exits : List BlockId}
    (h : Tests decides merge es s exits s') (settled : SettledAll reserved p es)
    (waits : s.builder.Idle merge) (other : merge ≠ s.block) :
    Passage reserved p (constsAll es) s s' :=
  have branches := h.branches going.isOpen waits other
  going.passage branches.toFrame branches.isOpen (h.trace.registered going.registered)
    (h.tidy going.tidy) (h.defines settled going.knows)

end Derivations

/-- A new variable. -/
theorem Going.bindNew {bind : UnitState → String → SlotId → UnitState} {name : String} {frozen : Bool}
    {a : Operand} (h : Going p s)
    (keeps : ∀ u slot, (bind u name slot).unit = u.unit ∧ (bind u name slot).builder = u.builder)
    (tidy : Tidy (s.bindNew bind name frozen a).current)
    (defines : Defines reserved p xs s.current (s.bindNew bind name frozen a).current) :
    Passage reserved p xs s (s.bindNew bind name frozen a) :=
  have region := region_bindNew h.isOpen keeps frozen a
  h.passage region.toFrame region.isOpen ((Trace.bindNew keeps).registered h.registered) tidy defines

/-- A new variable of the whole program. -/
theorem Passage.introduce {name : String} (h : Going p s) (unknown : s.current.lookup name = none)
    (free : ¬reserved name) (outside : p.inFunction = false) (a : Operand) :
    Passage reserved p [] s (s.bindNew UnitState.bindOuter name false a) := by
  refine h.bindNew (fun _ _ => ⟨rfl, rfl⟩) (h.tidy.bindOuter name false a) ((Defines.refl _).andThen ?_)
  rw [outside]
  exact widens_introduce unknown free a

/-- A constant. -/
theorem Passage.const {name : String} (h : Going p s) (free : ¬reserved name)
    (unconditional : p.unconditional = true) (a : Operand) :
    Passage reserved p [] s (s.bindNew UnitState.bindInner name true a) := by
  refine h.bindNew (fun u slot => bindInner_keeps u name slot) (h.tidy.bindInner name true a)
    ((Defines.refl _).andThen ?_)
  rw [unconditional]
  exact widens_const free true a

/-- The scope of a `let` form is entered. -/
theorem Going.enterScope {names : List String} {inits : List Operand} (h : Going p s)
    (listed : names.length = inits.length) :
    Going (p.inLet names) (s.enterScope (names.zip inits)) where
  isOpen := (region_enterScope h.isOpen _).isOpen
  tidy := h.tidy.enterScope _
  registered := ((Trace.enterScope _).registered h.registered).1
  knows := by
    have nothing : Defines (fun _ => False) p [] s.current s.current := .refl _
    have knows := knows_enterScope nothing h.knows listed
    rwa [Place.binding_nil] at knows

/-- The scope of a `let` form is run through and left. -/
theorem Passage.letScope {names : List String} {inits : List Operand} (h : Going p s)
    (listed : names.length = inits.length) (free : ∀ x ∈ names, ¬reserved x)
    (inner : Passage reserved (p.inLet names) ys (s.enterScope (names.zip inits)) s') :
    Passage reserved p [] s s'.leaveScope := by
  have entered := (region_enterScope h.isOpen (names.zip inits)).grown h.isOpen
  have grows := ((Trace.enterScope (names.zip inits)).registered h.registered).2
  have defines : Defines reserved p [] s.current s'.leaveScope.current :=
    defines_letIn (.refl _) listed free inner.widens
  -- leaving the scope forgets names, but nothing that has been built
  refine ⟨entered.trans inner.grown, grows.trans (inner.grows.trans (.of_module rfl rfl rfl)), defines, ?_⟩
  exact ⟨inner.after.isOpen, inner.after.tidy.leaveScope, inner.after.registered.of_module rfl rfl rfl,
    defines.knows h.knows⟩

/-! What is still to come. -/

/-- The module and the finished code of the unit have everything that has been made so far. -/
structure Ahead (m : Module) (f : Builder) (s : State) : Prop where
  grown : s.builder.Grown f
  strings : ∀ (i : Nat) text, s.module.strings[i]? = some text → m.strings[i]? = some text
  units : ∀ (i : Nat) x, s.module.units[i]? = some x → ∃ y, m.units[i]? = some y ∧ y.name = x.name

/-- What the scope of the whole unit may become where nothing in it is replaced. -/
structure Future (u : UnitState) (base : Table SlotId) : Prop where
  kept : ∀ x k, u.base.get? x = some k → base.get? x = some k
  later : ∀ x k, base.get? x = some k → u.base.get? x = some k ∨ u.builder.slots.size ≤ k
  injective : ∀ x y k, base.get? x = some k → base.get? y = some k → x = y

/-- Which scope of the whole unit the running code is seen by: the one that lowering has at that
point or, in code that may be run again or not at all, one that it comes to later. -/
inductive Outlook
  | now
  | later (base : Table SlotId)

namespace Outlook

/-- The scope of the whole unit. -/
def base : Outlook → Table SlotId → Table SlotId
  | now, here => here
  | later base, _ => base

/-- The outlook is right for code that ends here. -/
def Allows (o : Outlook) (unconditional : Bool) (u : UnitState) : Prop :=
  ∀ base, o = later base → Future u base ∧ (unconditional = true → u.locals ≠ [])

end Outlook

variable {m : Module} {f : Builder} {o : Outlook} {u v : UnitState} {base : Table SlotId}
  {unconditional inFunction : Bool}

theorem Ahead.back (h : Ahead m f s') (grown : s.builder.Grown s'.builder) (grows : Grows s s') :
    Ahead m f s where
  grown := grown.trans h.grown
  strings i text known := h.strings i text (grows.strings i text known)
  units i x hx := by
    obtain ⟨y, hy, named, -⟩ := grows.units i x hx
    obtain ⟨z, hz, named'⟩ := h.units i y hy
    exact ⟨z, hz, named'.trans named⟩

theorem future_base (h : Tidy u) : Future u u.base where
  kept _ _ := id
  later _ _ := .inl
  injective := h.apart.injective u.base (List.mem_append_right _ List.mem_cons_self)

/-- What the scope of the unit may become later, it may become from here. -/
theorem Future.back (h : Future v base) (widens : Widens reserved unconditional inFunction u v)
    (nested : unconditional = true → u.locals ≠ []) : Future u base where
  kept x k known := h.kept x k (widens.base nested x k known)
  later x k known := by
    rcases h.later x k known with known | new
    · exact (widens.new x k known).imp id And.left
    · -- the name came in between, and its slot is newer than all that are known here
      exact .inr (Nat.le_trans widens.slots_le new)
  injective := h.injective

namespace Outlook.Allows

theorem back (h : o.Allows unconditional v) (widens : Widens reserved unconditional inFunction u v) :
    o.Allows unconditional u := by
  intro base same
  obtain ⟨future, nested⟩ := h base same
  have nested : unconditional = true → u.locals ≠ [] := by
    intro h' empty
    -- scopes have been entered and left in between, but as many are open as before
    refine nested h' (List.eq_nil_of_length_eq_zero ?_)
    rw [widens.length, empty]
    rfl
  exact ⟨future.back widens nested, nested⟩

/-- Seen from its end, conditional code only adds to the scope of the whole unit. -/
theorem settle (h : o.Allows unconditional u) (tidy : Tidy u) :
    (Outlook.later (o.base u.base)).Allows false u := by
  rintro base ⟨rfl⟩
  refine ⟨?_, nofun⟩
  -- where nothing comes later that may be seen, the scope is at its end as it is
  cases o with
  | now => exact future_base tidy
  | later base => exact (h base rfl).1

theorem resolve (h : o.Allows unconditional u) {x : String} {k : SlotId} (known : u.lookup x = some k) :
    (u.locals.findSome? (·.get? x)).or ((o.base u.base).get? x) = some k := by
  cases o with
  | now => exact known
  | later base =>
    rcases Option.or_eq_some_iff.mp known with inner | ⟨unknown, outer⟩
    · rw [inner]
      rfl
    · rw [unknown]
      exact (h base rfl).1.kept x k outer

/-- No two of the variables that are seen share a slot. -/
theorem apart (h : o.Allows unconditional u) (tidy : Tidy u) : Apart (u.locals ++ [o.base u.base]) := by
  cases o with
  | now => exact tidy.apart
  | later base =>
    -- only the scope of the whole unit is another one: a name in it is known
    -- by now, or it has a slot that does not exist yet
    have future := (h base rfl).1
    obtain ⟨inner, -, across⟩ := List.pairwise_append.mp tidy.apart.disjoint
    constructor
    · intro t mem
      rcases List.mem_append.mp mem with mem | mem
      · exact tidy.apart.injective t (List.mem_append_left _ mem)
      · cases List.mem_singleton.mp mem
        exact future.injective
    · refine List.pairwise_append.mpr ⟨inner, List.pairwise_singleton _ _, fun t mem t' mem' x y k hx hy => ?_⟩
      cases List.mem_singleton.mp mem'
      rcases future.later y k hy with old | new
      · exact across t mem u.base List.mem_cons_self x y k hx old
      · exact Nat.not_lt.mpr new (tidy.below t (List.mem_append_left _ mem) x k hx)

/-- The slot that a new variable of a local scope gets is that of no variable that is seen. -/
theorem unused (h : o.Allows unconditional v) (tidy : Tidy u) (same : v.base = u.base)
    (new : u.builder.slots.size < v.builder.slots.size) :
    ∀ t ∈ u.locals ++ [o.base u.base], ∀ x, t.get? x ≠ some u.builder.slots.size := by
  intro t mem x
  rcases List.mem_append.mp mem with mem | mem
  · exact tidy.fresh (List.mem_append_left _ mem) x
  cases List.mem_singleton.mp mem
  cases o with
  | now => exact tidy.fresh (List.mem_append_right _ List.mem_cons_self) x
  | later base =>
    intro used
    -- a later variable of the whole unit has a later slot than the new one
    rcases (h base rfl).1.later x _ used with old | later
    · rw [same] at old
      exact tidy.fresh (List.mem_append_right _ List.mem_cons_self) x old
    · exact Nat.not_lt.mpr later new

end Outlook.Allows

/-- What the code ends with is there in the finished unit, and the outlook is right. -/
structure Coming (m : Module) (f : Builder) (o : Outlook) (unconditional : Bool) (s : State) : Prop where
  ahead : Ahead m f s
  allows : o.Allows unconditional s.current

namespace Coming

theorem back (h : Coming m f o unconditional s') (passage : Passage reserved p xs s s')
    (same : p.unconditional = unconditional) : Coming m f o unconditional s := by
  subst same
  exact ⟨h.ahead.back passage.grown passage.grows, h.allows.back passage.widens⟩

/-- Nothing that is still to come is lost by looking at it from an earlier point. -/
theorem back_moved (h : Coming m f o unconditional s') (moved : Moved s s') :
    Coming m f o unconditional s := by
  obtain ⟨ahead, allows⟩ := h
  obtain ⟨b, rfl, slots, grown⟩ := moved
  have same : Widens (fun _ => False) unconditional false s.current (s.edit fun _ => b).current :=
    .of_same rfl rfl (Nat.le_of_eq (congrArg Array.size slots).symm)
  exact ⟨ahead.back grown (.of_module rfl rfl rfl), allows.back same⟩

/-- Before variables are added to the innermost scope. -/
theorem back_bindAll {pairs : List (String × Operand)} (h : Coming m f o true (s.bindAll pairs))
    (opened : s.Open) (registered : Registered s) (free : ∀ pair ∈ pairs, ¬reserved pair.1) :
    Coming m f o true s := by
  have widens : Widens reserved true false s.current (s.bindAll pairs).current := widens_bindAll free
  have grows := ((Trace.bindAll pairs).registered registered).2
  exact ⟨h.ahead.back ((region_bindAll opened pairs).grown opened) grows, h.allows.back widens⟩

/-- Inside a scope that is left then. -/
theorem inScope (h : Coming m f o unconditional s.leaveScope) (nested : s.current.locals ≠ []) :
    Coming m f o true s := by
  refine ⟨h.ahead.back (.refl _) (.of_module rfl rfl rfl), fun base same => ⟨?_, fun _ => nested⟩⟩
  -- only local scopes are left, of which the future of the whole unit says nothing
  obtain ⟨kept, later, injective⟩ := (h.allows base same).1
  exact ⟨kept, later, injective⟩

theorem settle (h : Coming m f o unconditional s) (tidy : Tidy s.current) :
    Coming m f (.later (o.base s.current.base)) false s :=
  ⟨h.ahead, h.allows.settle tidy⟩

end Coming

end TwinLisp.Graph.Lowering
