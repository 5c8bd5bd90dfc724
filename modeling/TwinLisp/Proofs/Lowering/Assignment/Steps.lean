import TwinLisp.Graph.Assignment
import TwinLisp.Proofs.Graph.Stores
import TwinLisp.Proofs.Lowering.Order.Blocks

/-! Lowering follows the variables of the source: those that are sure to have a value have slots that
have been stored to, whatever way control has taken. -/

namespace TwinLisp.Graph.Lowering

/-- The variables `w` are those of the unit under construction, and where code is added all that are
sure to have a value have been stored to. -/
structure Tracks (w : Variables) (D : Known) (s : State) : Prop where
  count : s.nextSlot = w.count
  locals : s.current.locals = w.locals
  base : s.current.base = w.base
  sure : ∀ v ∈ w.sure, s.Avail D (.stored v)

/-- Loads come after stores in all bodies, given what is known at the blocks of the body under
construction, whose variables are `w`. -/
structure Assigned (w : Variables) (D : Known) (s : State) : Prop
    extends Builder.Stores D s.builder, Tracks w D s where
  bodies : ∀ (u : Nat) x body, s.module.units[u]? = some x → x.body = some body →
    body.StoresBeforeLoad

/-- Code takes the variables `w` to `w'`, whatever is known before. -/
def Follows (w : Variables) (s : State) (w' : Variables) (s' : State) : Prop :=
  ∀ D, Assigned w D s → ∃ D', Builder.Carries D s.builder D' s'.builder ∧ Assigned w' D' s'

/-- What is known where code is added, and that the variables `sure` have been stored to. -/
def State.Knows (s : State) (D : Known) (sure : List Nat) (f : Fact) : Prop :=
  s.Avail D f ∨ ∃ v ∈ sure, f = .stored v

variable {w w₁ w₂ w' : Variables} {s s₁ s₂ s₃ s' : State} {D : Known} {P Q : BlockId → Prop}
  {F G : Fact → Prop} {name : String} {c : ValueId} {sure : List Nat}

theorem follows_refl (w : Variables) (s : State) : Follows w s w s :=
  fun D o => ⟨D, Builder.carries_refl D s.builder, o⟩

theorem Follows.andThen (first : Follows w s w₁ s₁) (size_le : s.nextBlock ≤ s₁.nextBlock)
    (rest : Follows w₁ s₁ w' s') : Follows w s w' s' := by
  intro D o
  obtain ⟨D₁, carried, o₁⟩ := first D o
  obtain ⟨D₂, carried', o₂⟩ := rest D₁ o₁
  exact ⟨D₂, carried.trans size_le carried', o₂⟩

/-- The variables of the analysis are those that are bound. -/
theorem Tracks.find? (h : Tracks w D s) : s.current.lookup name = w.find? name := by
  unfold UnitState.lookup Variables.find?
  rw [h.locals, h.base]

/-! Single instructions. -/

/-- An operation is added; a load, only of a slot that has been stored to. -/
theorem follows_emit {operation : Operation}
    (stored : ∀ D, Assigned w D s → ∀ slot, operation = .load slot → s.Avail D (.stored slot)) :
    Follows w s w (s.emit operation) := by
  intro D o
  have carried : Builder.Carries D s.builder D (s.emit operation).builder :=
    ⟨fun _ _ _ => .rfl, fun _ known => known.mono fun _ => Builder.mem_instrsAt_push_of_mem⟩
  refine ⟨D, carried, ?_, ⟨o.count, o.locals, o.base, fun v mem => ?_⟩, o.bodies⟩
  · refine (o.toStores.withTypes operation.ty).push _ fun dst slot same => ?_
    cases same
    exact stored D o slot rfl
  · exact carried.avail _ (o.sure v mem)

theorem follows_operation {operation : Operation} (noLoad : ∀ slot, operation ≠ .load slot) :
    Follows w s w (s.emit operation) :=
  follows_emit fun _ _ slot same => absurd same (noLoad slot)

/-- A load of a variable that is sure adds to what holds nothing but its value. -/
theorem follows_load {slot : SlotId} (known : s.current.lookup name = some slot)
    (assigned : ∃ v, w.find? name = some v ∧ v ∈ w.sure) : Follows w s w (s.emit (.load slot)) := by
  refine follows_emit fun D o slot' same => ?_
  cases same
  obtain ⟨v, found, mem⟩ := assigned
  cases (o.find?.symm.trans known).symm.trans found
  exact o.sure _ mem

theorem follows_perform (effect : Effect) : Follows w s w (s.perform effect) := by
  intro D o
  have carried : Builder.Carries D s.builder D (s.perform effect).builder :=
    ⟨fun _ _ _ => .rfl, fun _ known => known.mono fun _ => Builder.mem_instrsAt_push_of_mem⟩
  refine ⟨D, carried, o.push _ nofun, ⟨o.count, o.locals, o.base, fun v mem => ?_⟩, o.bodies⟩
  exact carried.avail _ (o.sure v mem)

/-- A store makes one more variable sure. -/
theorem follows_store (h : s.Open) (slot : SlotId) (a : Operand) :
    Follows w s { w with sure := slot :: w.sure } (s.perform (.store slot a)) := by
  intro D o
  obtain ⟨D', carried, o'⟩ := follows_perform (.store slot a) D o
  refine ⟨D', carried, o'.toStores, ⟨o'.count, o'.locals, o'.base, fun v mem => ?_⟩, o'.bodies⟩
  rcases List.mem_cons.mp mem with rfl | mem
  · have here : .perform (.store v a) ∈ (s.perform (.store v a)).builder.instrsAt s.block := by
      change _ ∈ (s.builder.push _).instrsAt s.block
      rw [Builder.instrsAt_push, if_pos ⟨rfl, h.lt⟩]
      exact List.mem_append_right _ List.mem_cons_self
    exact .inr ⟨_, here, List.mem_singleton.mpr rfl⟩
  · exact o'.sure v mem

/-! Variables that are introduced. -/

/-- A unit makes a slot known as the source makes a variable known. -/
structure Declares (bind : UnitState → String → SlotId → UnitState)
    (declare : Variables → String → Variables) : Prop where
  builder : ∀ u name slot, (bind u name slot).builder = u.builder
  count : ∀ w name, (declare w name).count = w.count + 1
  sure : ∀ w name, (declare w name).sure = w.count :: w.sure
  locals : ∀ u (w : Variables) name, u.locals = w.locals →
    (bind u name w.count).locals = (declare w name).locals
  base : ∀ u (w : Variables) name, u.locals = w.locals → u.base = w.base →
    (bind u name w.count).base = (declare w name).base

theorem declares_outer : Declares UnitState.bindOuter Variables.declareOuter where
  builder _ _ _ := rfl
  count _ _ := rfl
  sure _ _ := rfl
  locals _ _ _ := id
  base _ _ _ _ same := congrArg (Table.insert · _ _) same

theorem declares_inner : Declares UnitState.bindInner Variables.declareInner where
  builder u name slot := (bindInner_keeps u name slot).2
  count w name := by
    unfold Variables.declareInner
    split <;> rfl
  sure w name := by
    unfold Variables.declareInner
    split <;> rfl
  -- without an inner scope the name goes to the outermost one, in both
  locals u w name same := by
    obtain ⟨unit, builder, locals, base⟩ := u
    obtain ⟨count, locals', base', sure⟩ := w
    cases same
    cases locals <;> rfl
  base u w name same same' := by
    obtain ⟨unit, builder, locals, base⟩ := u
    obtain ⟨count, locals', base', sure⟩ := w
    cases same
    cases same'
    cases locals <;> rfl

theorem follows_bindNew (h : s.Open) {bind : UnitState → String → SlotId → UnitState}
    {declare : Variables → String → Variables} (declares : Declares bind declare) (frozen : Bool)
    (a : Operand) : Follows w s (declare w name) (s.bindNew bind name frozen a) := by
  intro D o
  let allocated : UnitState := { s.current with
    builder := (s.current.builder.alloca name frozen).2 }
  let bound : State := { s with current := bind allocated name s.nextSlot }
  have same : bound.builder = (s.current.builder.alloca name frozen).2 := declares.builder _ _ _
  have opened : bound.Open := by
    unfold State.Open
    rw [same]
    exact ⟨h.lt, h.going⟩
  have size : bound.nextSlot = s.nextSlot + 1 := by
    change bound.builder.slots.size = _
    rw [same]
    exact Array.size_push ..
  have carried : Builder.Carries D s.builder D bound.builder := by
    rw [same]
    exact ⟨fun _ _ _ => .rfl, fun _ => id⟩
  -- the slot has its name before it is stored to
  have known : Assigned { declare w name with sure := w.sure } D bound := by
    -- the stores, then the count, the scopes and what is sure
    refine ⟨?_, ⟨?_, ?_, ?_, fun v mem => carried.avail _ (o.sure v mem)⟩, o.bodies⟩
    · rw [same]
      exact o.toStores.alloca name frozen
    · rw [size, o.count]
      exact (declares.count w name).symm
    · change (bind allocated name s.nextSlot).locals = _
      rw [o.count]
      exact declares.locals allocated w name o.locals
    · change (bind allocated name s.nextSlot).base = _
      rw [o.count]
      exact declares.base allocated w name o.locals o.base
  obtain ⟨D', carried', stored⟩ := follows_store opened s.nextSlot a D known
  have size_le : s.builder.size ≤ bound.builder.size := by
    rw [same]
    exact Nat.le_refl _
  -- the store makes the new variable a sure one
  refine ⟨D', carried.trans size_le carried', stored.toStores,
    ⟨stored.count, stored.locals, stored.base, fun v mem => stored.sure v ?_⟩, stored.bodies⟩
  rw [declares.sure, ← o.count] at mem
  exact mem

/-- The variables of a scope are all sure in its body. -/
theorem follows_bindAll (h : s.Open) (pairs : List (String × Operand)) :
    Follows w s ((pairs.map (·.1)).foldl Variables.declareInner w) (s.bindAll pairs) := by
  induction pairs generalizing s w with
  | nil => exact follows_refl w s
  | cons pair pairs ih =>
    have region := region_bindNew h (fun u slot => bindInner_keeps u pair.1 slot) false pair.2
    exact (follows_bindNew h declares_inner false pair.2).andThen region.size_le (ih region.isOpen)

theorem follows_enterScope (h : s.Open) {names : List String} {values : List Operand}
    (length : names.length ≤ values.length) :
    Follows w s (w.enter names) (s.enterScope (names.zip values)) := by
  intro D o
  have pushed : Assigned { w with locals := [] :: w.locals } D
      { s with current := s.current.pushScope } :=
    { o with locals := congrArg ([] :: ·) o.locals }
  have bound := follows_bindAll (s := { s with current := s.current.pushScope }) h
    (names.zip values) D pushed
  rwa [List.map_fst_zip length] at bound

theorem follows_leaveScope : Follows w s w.leave s.leaveScope := fun D o =>
  ⟨D, Builder.carries_refl D s.builder, { o with locals := congrArg List.tail o.locals }⟩

theorem follows_intern (text : String) : Follows w s w (s.intern text).2 := by
  intro D o
  obtain ⟨strings, -, same⟩ := intern_eq s text
  rw [same]
  exact ⟨D, Builder.carries_refl D s.builder, { o with }⟩

/-- Finding a unit leaves the code alone. -/
theorem follows_of_current (same : s₁.current = s.current)
    (bodies : ∀ {j : Nat} {x body}, s₁.module.units[j]? = some x → x.body = some body →
      ∃ y, s.module.units[j]? = some y ∧ y.body = some body) : Follows w s w s₁ := by
  intro D o
  have builder : s₁.builder = s.builder := congrArg UnitState.builder same
  refine ⟨D, ?_, ⟨?_, ⟨?_, ?_, ?_, fun v mem => ?_⟩, fun j x body hx hbody => ?_⟩⟩
  · rw [builder]
    exact Builder.carries_refl D s.builder
  · rw [builder]
    exact o.toStores
  · exact (congrArg (·.slots.size) builder).trans o.count
  · rw [same]
    exact o.locals
  · rw [same]
    exact o.base
  · change s₁.builder.Avail D s₁.builder.current _
    rw [builder]
    exact o.sure v mem
  · obtain ⟨y, hy, hbody'⟩ := bodies hx hbody
    exact o.bodies j y body hy hbody'

end TwinLisp.Graph.Lowering
