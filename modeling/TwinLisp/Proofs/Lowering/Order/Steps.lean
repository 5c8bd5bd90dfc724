import TwinLisp.Proofs.Graph.Valid
import TwinLisp.Proofs.Lowering.Regions
import TwinLisp.Proofs.Lowering.Units

/-! Bodies that are in order, the one under construction and those finished, and the steps that keep
them so. -/

namespace TwinLisp.Graph.Lowering

/-- A finished body comes from a builder in order whose blocks have all been ended. -/
def Finished (body : Body) : Prop :=
  ∃ D b, Builder.Valid D b ∧ (∀ p < b.size, b.endAt p ≠ none) ∧ body = b.finish

namespace State

/-- What is known where code is added. -/
abbrev Avail (D : Known) (s : State) (f : Fact) : Prop := s.builder.Avail D s.block f

/-- Values that can be read where code is added. -/
abbrev Reads (D : Known) (s : State) (uses : List (ValueId × Ty)) : Prop :=
  s.builder.Reads D s.block uses

end State

/-- The slots of a scope are among the first `n`. -/
def InSlots (n : Nat) (scope : Table SlotId) : Prop :=
  ∀ name slot, scope.get? name = some slot → slot < n

/-- The variables of a unit have slots among the first `n`. -/
structure Slotted (n : Nat) (u : UnitState) : Prop where
  base : InSlots n u.base
  locals : ∀ scope ∈ u.locals, InSlots n scope

/-- All bodies are in order, and variables have slots, given what is known at the blocks of the
body under construction. -/
structure Ordered (D : Known) (s : State) : Prop where
  valid : Builder.Valid D s.builder
  slotted : Slotted s.nextSlot s.current
  bodies : ∀ (u : Nat) x body, s.module.units[u]? = some x → x.body = some body → Finished body

/-- What is known carries on from one state to another. -/
structure Carried (D : Known) (s : State) (D' : Known) (s' : State) : Prop
    extends Builder.Carries D s.builder D' s'.builder, Ordered D' s'

/-- Code keeps everything in order, whatever is known before, and then values can be read. -/
def Keeps (s s' : State) (uses : List (ValueId × Ty)) : Prop :=
  ∀ D, Ordered D s → ∃ D', Carried D s D' s' ∧ s'.Reads D' uses

variable {s s₁ s₂ s' : State} {D D' : Known} {u v : List (ValueId × Ty)}

theorem reads_nil : s.Reads D [] := fun _ mem => absurd mem List.not_mem_nil

theorem reads_append : s.Reads D (u ++ v) ↔ s.Reads D u ∧ s.Reads D v :=
  List.forall_mem_append

/-- What can be read can still be read later. -/
theorem Carried.reads (h : Carried D s D' s') (region : s.Region s') (reads : s.Reads D u) :
    s'.Reads D' u :=
  reads.mono region.types h.avail

theorem keeps_refl (s : State) : Keeps s s [] :=
  fun D o => ⟨D, { Builder.carries_refl D s.builder, o with }, reads_nil⟩

/-- What two runs keep one after the other, both together keep. -/
theorem Keeps.andThen (first : Keeps s s₁ u) (size_le : s.nextBlock ≤ s₁.nextBlock)
    (rest : ∀ D, Ordered D s₁ → s₁.Reads D u → ∃ D', Carried D s₁ D' s' ∧ s'.Reads D' v) :
    Keeps s s' v := by
  intro D o
  obtain ⟨D₁, carried, reads⟩ := first D o
  obtain ⟨D₂, carried', reads'⟩ := rest D₁ carried.toOrdered reads
  exact ⟨D₂, { carried.toCarries.trans size_le carried'.toCarries, carried'.toOrdered with },
    reads'⟩

/-- Two pieces of code, and all that can be read after each. -/
theorem Keeps.append (first : Keeps s s₁ u) (region : s.Region s₁) (rest : Keeps s₁ s' v)
    (region' : s₁.Region s') : Keeps s s' (u ++ v) := by
  refine first.andThen region.size_le fun D o reads => ?_
  obtain ⟨D', carried, reads'⟩ := rest D o
  exact ⟨D', carried, reads_append.mpr ⟨carried.reads region' reads, reads'⟩⟩

/-- Less can be read. -/
theorem Keeps.mono (h : Keeps s s' u) (sub : ∀ use ∈ v, use ∈ u) : Keeps s s' v := by
  intro D o
  obtain ⟨D', carried, reads⟩ := h D o
  exact ⟨D', carried, fun use mem => reads use (sub use mem)⟩

theorem InSlots.insert {n : Nat} {scope : Table SlotId} (h : InSlots n scope) (name : String)
    {slot : SlotId} (lt : slot < n) : InSlots n (scope.insert name slot) := by
  intro other slot' found
  rw [Table.get?_insert] at found
  split at found
  · cases found
    exact lt
  · exact h other slot' found

namespace Slotted

variable {n m : Nat} {u : UnitState} {name : String} {slot : SlotId}

theorem mono (h : Slotted n u) (le : n ≤ m) : Slotted m u where
  base name slot known := Nat.lt_of_lt_of_le (h.base name slot known) le
  locals scope mem name slot known := Nat.lt_of_lt_of_le (h.locals scope mem name slot known) le

theorem bindOuter (h : Slotted n u) (lt : slot < n) : Slotted n (u.bindOuter name slot) where
  base := h.base.insert name lt
  locals := h.locals

theorem bindInner (h : Slotted n u) (lt : slot < n) : Slotted n (u.bindInner name slot) := by
  unfold UnitState.bindInner
  split
  next => exact h.bindOuter lt
  next scope outer same =>
    refine ⟨h.base, List.forall_mem_cons.mpr ⟨?_, fun scope' mem => ?_⟩⟩
    · exact (h.locals scope (same ▸ List.mem_cons_self)).insert name lt
    · exact h.locals scope' (same ▸ List.mem_cons_of_mem _ mem)

theorem pushScope (h : Slotted n u) : Slotted n u.pushScope where
  base := h.base
  locals := List.forall_mem_cons.mpr ⟨nofun, h.locals⟩

theorem popScope (h : Slotted n u) : Slotted n u.popScope where
  base := h.base
  locals scope mem := h.locals scope (List.mem_of_mem_tail mem)

/-- A name that is bound has a slot of the frame. -/
theorem lt_of_lookup (h : Slotted n u) (known : u.lookup name = some slot) : slot < n := by
  rcases Option.or_eq_some_iff.mp known with found | ⟨-, found⟩
  · obtain ⟨scope, mem, found⟩ := List.exists_of_findSome?_eq_some found
    exact h.locals scope mem name slot found
  · exact h.base name slot found

/-- A new variable has the slot that has been added for it. -/
theorem bindNew (h : Slotted s.nextSlot s.current) {bind : UnitState → String → SlotId → UnitState}
    (keeps : ∀ u slot, (bind u name slot).unit = u.unit ∧ (bind u name slot).builder = u.builder)
    (slotted : ∀ u n slot, Slotted n u → slot < n → Slotted n (bind u name slot)) (frozen : Bool)
    (value : Operand) : Slotted (s.bindNew bind name frozen value).nextSlot
      (s.bindNew bind name frozen value).current := by
  let allocated : UnitState := { s.current with
    builder := (s.current.builder.alloca name frozen).2 }
  -- the slot is there before the name is bound to it
  have size : (s.bindNew bind name frozen value).nextSlot = s.nextSlot + 1 := by
    change (s.bindNew bind name frozen value).builder.slots.size = _
    rw [builder_bindNew keeps]
    exact Array.size_push ..
  have old : Slotted (s.nextSlot + 1) allocated :=
    ⟨(h.mono (Nat.le_succ _)).base, (h.mono (Nat.le_succ _)).locals⟩
  have known := slotted allocated _ s.nextSlot old (Nat.lt_succ_self _)
  rw [size]
  exact ⟨known.base, known.locals⟩

end Slotted

/-- Only the body under construction has changed. -/
theorem Ordered.edit (o : Ordered D s) {f : Builder → Builder}
    (valid : Builder.Valid D' (f s.builder)) (slots : s.nextSlot ≤ (s.edit f).nextSlot) :
    Ordered D' (s.edit f) where
  valid := valid
  slotted := ⟨(o.slotted.mono slots).base, (o.slotted.mono slots).locals⟩
  bodies := o.bodies

section Steps

variable (h : s.Open) (o : Ordered D s)

include o

/-- A scope ends without an instruction. -/
theorem carried_leaveScope : Carried D s D s.leaveScope :=
  { o with
    slotted := o.slotted.popScope
    agree := fun _ _ _ => .rfl
    avail := fun _ => id }

theorem carried_intern (text : String) : Carried D s D (s.intern text).2 := by
  obtain ⟨strings, -, same⟩ := intern_eq s text
  rw [same]
  exact { o with
    agree := fun _ _ _ => .rfl
    avail := fun _ => id }

theorem carried_perform (effect : Effect)
    (slot : ∀ slot value, effect = .store slot value → slot < s.nextSlot)
    (reads : s.Reads D effect.uses) : Carried D s D (s.perform effect) := by
  have valid : Builder.Valid D (s.builder.push (.perform effect)) := by
    refine o.valid.push ⟨fun use mem => ?_, ?_, rfl, nofun, nofun⟩ nofun
    · obtain ⟨known, ty⟩ := reads use mem
      exact ⟨known, ty⟩
    · intro slot' same
      cases effect with
      | store slot'' value =>
        cases same
        exact slot slot' value rfl
      | _ => cases same
  exact { o.edit valid (Nat.le_refl _) with
    agree := fun _ _ _ => .rfl
    avail := fun f known => known.mono fun _ => Builder.mem_instrsAt_push_of_mem }

theorem carried_bindNew {bind : UnitState → String → SlotId → UnitState} {name : String}
    (keeps : ∀ u slot, (bind u name slot).unit = u.unit ∧ (bind u name slot).builder = u.builder)
    (slotted : ∀ u n slot, Slotted n u → slot < n → Slotted n (bind u name slot)) (frozen : Bool)
    {value : Operand} (reads : s.Reads D value.uses) :
    Carried D s D (s.bindNew bind name frozen value) := by
  have same := builder_bindNew (s := s) keeps frozen value
  refine ⟨⟨fun _ _ _ => .rfl, fun f known => ?_⟩, ?_, o.slotted.bindNew keeps slotted frozen value,
    o.bodies⟩
  · rw [same]
    exact known.mono fun _ => Builder.mem_instrsAt_push_of_mem
  · rw [same]
    refine (o.valid.alloca name frozen).push ⟨reads, fun slot used => ?_, rfl, nofun, nofun⟩ nofun
    cases used
    exact Nat.lt_of_lt_of_eq (Nat.lt_succ_self _) (Array.size_push ..).symm

include h

theorem carried_operation (operation : Operation)
    (slot : ∀ slot, operation = .load slot → slot < s.nextSlot)
    (phi : ∀ incoming, operation = .phi incoming →
      s.builder.instrsAt s.block = [] ∧ s.builder.Joins D s.block incoming)
    (reads : s.Reads D operation.uses) : Carried D s D (s.emit operation) ∧
      (s.emit operation).Reads D [(s.fresh, operation.ty)] := by
  have valid : Builder.Valid D (s.builder.emit operation).2 := o.valid.emit reads slot phi
  -- the instruction that has been added makes the value known
  have here : .define s.fresh operation ∈ (s.emit operation).builder.instrsAt s.block := by
    change _ ∈ ((_ : Builder).push _).instrsAt s.block
    rw [Builder.instrsAt_push, if_pos ⟨rfl, h.lt⟩]
    exact List.mem_append_right _ List.mem_cons_self
  refine ⟨{ o.edit valid (Nat.le_refl _) with
    agree := fun _ _ _ => .rfl
    avail := fun f known => ?_ }, fun use mem => ?_⟩
  · exact known.mono fun _ => Builder.mem_instrsAt_push_of_mem
  · cases List.mem_singleton.mp mem
    exact ⟨.inr ⟨_, here, List.mem_singleton.mpr rfl⟩, Array.getElem?_push_size⟩

/-- A phi begins its block. -/
theorem carried_phi {incoming : List (BlockId × Operand)}
    (empty : s.builder.instrsAt s.block = []) (joins : s.builder.Joins D s.block incoming) :
    Carried D s D (s.emit (.phi incoming)) ∧ (s.emit (.phi incoming)).Reads D [(s.fresh, .i64)] :=
  carried_operation h o _ nofun (fun _ same => by cases same; exact ⟨empty, joins⟩) reads_nil

theorem carried_emit (operation : Operation) (plain : ∀ incoming, operation ≠ .phi incoming)
    (slot : ∀ slot, operation = .load slot → slot < s.nextSlot)
    (reads : s.Reads D operation.uses) : Carried D s D (s.emit operation) ∧
      (s.emit operation).Reads D [(s.fresh, operation.ty)] :=
  carried_operation h o operation slot (fun incoming same => absurd same (plain incoming)) reads

end Steps

theorem carried_bindAll (o : Ordered D s) (pairs : List (String × Operand))
    (reads : ∀ pair ∈ pairs, s.Reads D pair.2.uses) (h : s.Open) :
    Carried D s D (s.bindAll pairs) := by
  induction pairs generalizing s with
  | nil => exact { o with agree := fun _ _ _ => .rfl, avail := fun _ => id }
  | cons pair pairs ih =>
    have region := region_bindNew h (fun u slot => bindInner_keeps u pair.1 slot) false pair.2
    have first := carried_bindNew o (fun u slot => bindInner_keeps u pair.1 slot)
      (fun _ _ _ => .bindInner) false (reads pair List.mem_cons_self)
    have rest := ih first.toOrdered (fun other mem =>
      first.reads region (reads other (List.mem_cons_of_mem _ mem))) region.isOpen
    exact { first.toCarries.trans region.size_le rest.toCarries, rest.toOrdered with }

theorem carried_enterScope (o : Ordered D s) (pairs : List (String × Operand))
    (reads : ∀ pair ∈ pairs, s.Reads D pair.2.uses) (h : s.Open) :
    Carried D s D (s.enterScope pairs) :=
  have pushed : Ordered D { s with current := s.current.pushScope } :=
    { o with slotted := o.slotted.pushScope }
  have bound := carried_bindAll pushed pairs reads h
  { bound.toOrdered with agree := bound.agree, avail := bound.avail }

theorem body_of_callee? {name : String} {arity : Nat} {unit : UnitId}
    (found : s.callee? name arity = some (unit, s₁)) {j : Nat} {x : CodeUnit} {body : Body}
    (hx : s₁.module.units[j]? = some x) (hbody : x.body = some body) :
    ∃ y, s.module.units[j]? = some y ∧ y.body = some body := by
  -- either the unit was known, or one without a body has been declared
  obtain ⟨_, _, _, _, rfl⟩ | ⟨_, _, rfl⟩ := callee?_cases found
  · exact ⟨x, hx, hbody⟩
  · change (s.module.units.push _)[j]? = some x at hx
    rw [Array.getElem?_push] at hx
    split at hx
    · cases hx
      cases hbody
    · exact ⟨x, hx, hbody⟩

theorem body_of_define? {name : String} {arity : Nat} {unit : UnitId}
    (found : s.define? name arity = some (unit, s₁)) {j : Nat} {x : CodeUnit} {body : Body}
    (hx : s₁.module.units[j]? = some x) (hbody : x.body = some body) :
    ∃ y, s.module.units[j]? = some y ∧ y.body = some body := by
  obtain ⟨_, _, _, _, _, rfl⟩ | ⟨_, _, rfl⟩ := define?_cases found
  · change (s.module.units.modify _ _)[j]? = some x at hx
    rw [Array.getElem?_modify] at hx
    split at hx
    · obtain ⟨y, hy, rfl⟩ := Option.map_eq_some_iff.mp hx
      exact ⟨y, hy, hbody⟩
    · exact ⟨x, hx, hbody⟩
  · -- a new unit has no body
    change (s.module.units.push _)[j]? = some x at hx
    rw [Array.getElem?_push] at hx
    split at hx
    · cases hx
      cases hbody
    · exact ⟨x, hx, hbody⟩

/-- Finding a unit leaves the code alone. -/
theorem carried_of_current (o : Ordered D s) (same : s₁.current = s.current)
    (bodies : ∀ {j : Nat} {x body}, s₁.module.units[j]? = some x → x.body = some body →
      ∃ y, s.module.units[j]? = some y ∧ y.body = some body) : Carried D s D s₁ where
  agree _ _ _ := .rfl
  avail f known := by
    change s₁.current.builder.Avail D s₁.current.builder.current f
    rw [same]
    exact known
  valid := by
    change Builder.Valid D s₁.current.builder
    rw [same]
    exact o.valid
  slotted := by
    change Slotted s₁.current.builder.slots.size s₁.current
    rw [same]
    exact o.slotted
  bodies j x body hx hbody := by
    obtain ⟨y, hy, hbody'⟩ := bodies hx hbody
    exact o.bodies j y body hy hbody'

/-! Units: a fresh one knows its parameters, and a finished one is in order. -/

/-- What is known on entry to a unit. -/
def entryKnown (arity : Nat) : Known := fun p f => p = 0 ∧ ∃ v < arity, f = .value v

theorem open_new (arity : Nat) : (Builder.new arity).Open where
  lt := Nat.one_pos
  going := rfl

theorem endAt_new (arity : Nat) (p : BlockId) : (Builder.new arity).endAt p = none := by
  unfold Builder.endAt Builder.new
  cases p with
  | zero => rfl
  | succ p => rfl

theorem types_new {arity v : Nat} (lt : v < arity) : (Builder.new arity).types[v]? = some .i64 := by
  unfold Builder.new
  rw [Array.getElem?_replicate, if_pos lt]

/-- An empty builder knows its parameters. -/
theorem valid_new (arity : Nat) : Builder.Valid (entryKnown arity) (Builder.new arity) := by
  -- without instructions and without ends there is next to nothing to keep in order
  have noEdge (p q : BlockId) : ¬(Builder.new arity).Leads p q := by
    rintro ⟨t, ended, -⟩
    rw [endAt_new] at ended
    cases ended
  refine ⟨⟨fun f known => known.2, fun p q f leads => absurd leads (noEdge p q), ?_⟩, Nat.one_pos,
    fun p q leads => absurd leads (noEdge p q), ?_, ?_, ?_, ?_⟩
  · rintro p v ⟨-, w, lt, same⟩
    cases same
    exact .inl lt
  · exact fun v lt => types_new lt
  · intro p n i hi
    rw [Builder.instrsAt_new] at hi
    cases hi
  · intro p t ended
    rw [endAt_new] at ended
    cases ended
  · rintro p q v - ⟨i, hi, -⟩
    rw [Builder.instrsAt_new] at hi
    exact absurd hi List.not_mem_nil

/-- A unit is finished where the code that has been begun in it ends. -/
theorem finished_of_region {arity : Nat} {b : Builder} (region : (Builder.new arity).Region b)
    (valid : Builder.Valid D b) {result : Operand} (reads : b.Reads D b.current result.uses) :
    Finished (b.terminate (.ret result)).finish := by
  refine ⟨D, b.terminate (.ret result), valid.terminate region.isOpen reads nofun nofun nofun,
    fun p lt going => ?_, rfl⟩
  rw [Builder.size_terminate] at lt
  rw [Builder.endAt_terminate] at going
  split at going
  next => cases going
  next elsewhere =>
    -- a block still going would be the one that ends now, or the first one, which has been left
    rcases region.going p lt going with here | ⟨first, other⟩
    · exact elsewhere ⟨here, lt⟩
    · exact other (Nat.lt_one_iff.mp first)

section Units

variable {unit : UnitId} {params : List String}

/-- A fresh unit before its parameters are stored. -/
abbrev State.begin (s : State) (unit : UnitId) (arity : Nat) : State :=
  { s with current := .new unit arity, inProgress := unit :: s.inProgress }

theorem region_enterUnit : (s.begin unit params.length).Region (s.enterUnit unit params) :=
  region_bindAll (s := s.begin unit params.length) (open_new _) _

/-- A body begins with its parameters known, and stores them one by one. -/
theorem ordered_enterUnit (o : Ordered D s) :
    Ordered (entryKnown params.length) (s.enterUnit unit params) := by
  have begun : Ordered (entryKnown params.length) (s.begin unit params.length) :=
    ⟨valid_new _, ⟨nofun, nofun⟩, o.bodies⟩
  refine (carried_bindAll begun _ (fun pair mem => ?_) (open_new _)).toOrdered
  -- what is stored is a parameter, which is known on entry
  obtain ⟨v, hv, same⟩ := List.mem_map.mp (List.of_mem_zip mem).2
  rw [← same]
  intro use hu
  cases List.mem_singleton.mp hu
  have lt : v < params.length := List.mem_range.mp hv
  exact ⟨.inl ⟨rfl, v, lt, rfl⟩, types_new lt⟩

theorem carried_leaveUnit (o : Ordered D s) (same : s₁.current = s.current)
    (region : (s₁.enterUnit unit params).Region s₂) {result : Operand}
    (body : Keeps (s₁.enterUnit unit params) s₂ result.uses)
    (entered : Ordered D s₁) : Carried D s D (s₂.leaveUnit unit result s₁) := by
  obtain ⟨D', carried, reads⟩ := body _ (ordered_enterUnit entered)
  -- the body begins with the stores of the parameters
  have whole : (s₁.begin unit params.length).Region s₂ :=
    region_enterUnit.trans (open_new _) region
  have finished := finished_of_region whole carried.valid reads
  -- around the unit all is as it was; only the bodies of the module have changed
  refine ⟨⟨fun _ _ _ => .rfl, fun f known => ?_⟩, ?_, ?_, fun j x code hx hcode => ?_⟩
  · change s₁.current.builder.Avail D s₁.current.builder.current f
    rw [same]
    exact known
  · change Builder.Valid D s₁.current.builder
    rw [same]
    exact o.valid
  · change Slotted s₁.current.builder.slots.size s₁.current
    rw [same]
    exact o.slotted
  · rcases unit_leaveUnit_cases hx with ⟨-, y, -, rfl⟩ | ⟨-, hx⟩
    · cases hcode
      exact finished
    · exact carried.bodies j x code hx hcode

end Units

end TwinLisp.Graph.Lowering
