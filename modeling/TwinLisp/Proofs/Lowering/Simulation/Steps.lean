import TwinLisp.Graph.Linking
import TwinLisp.Proofs.Graph.Alike
import TwinLisp.Proofs.Lowering.Regions
import TwinLisp.Proofs.Lowering.Units

/-!
Two runs of lowering side by side, which may differ in the units that are declared and in their
numbers. Whatever one run has built, so has the other, under the same name.
-/

namespace TwinLisp.Graph.Lowering

/-- Two units besides `main` have the same name. -/
def SameName (s t : State) (u u' : UnitId) : Prop :=
  u ≠ 0 ∧ u' ≠ 0 ∧ ∃ x y, s.module.units[u]? = some x ∧ t.module.units[u']? = some y ∧
    y.name = x.name

namespace State

/-- A unit of the name is in progress. -/
def Builds (s : State) (name : String) : Prop :=
  ∃ u ∈ s.inProgress, u ≠ 0 ∧ ∃ x, s.module.units[u]? = some x ∧ x.name = name

/-- A unit of the name has the body. -/
def Defines (s : State) (name : String) (body : Body) : Prop :=
  ∃ (u : Nat) (x : CodeUnit), u ≠ 0 ∧ s.module.units[u]? = some x ∧ x.name = name ∧
    x.body = some body

end State

/-- Two states are the same but for the units that are only declared, the numbers of units, and the
signatures. -/
structure Similar (s t : State) : Prop where
  code : s.builder.Alike (SameName s t) t.builder
  locals : t.current.locals = s.current.locals
  base : t.current.base = s.current.base
  strings : t.module.strings = s.module.strings
  builds : ∀ name, t.Builds name ↔ s.Builds name
  defines : ∀ name body, s.Defines name body →
    ∃ body', t.Defines name body' ∧ body.Alike (SameName s t) body'
  defined : ∀ name body', t.Defines name body' → ∃ body, s.Defines name body

/-- Two states of runs that lower what mentions `M`; the second knows signatures as they are
mentioned. -/
structure Paired (M : List Mention) (s t : State) : Prop extends Similar s t where
  agree : Mention.Agree M
  left : Registered s
  right : Registered t
  mentioned : ∀ name signature, t.signatures.get? name = some signature →
    ∃ mention ∈ M, mention.name = name ∧ mention.arity = signature.arity

variable {M ms : List Mention} {s s₁ s₂ s' t t₁ t₂ t' : State} {name : String} {arity : Nat}
  {unit unit' : UnitId}

/-- Units keep their names. -/
def NamesKept (s s' : State) : Prop :=
  ∀ (u : Nat) x, s.module.units[u]? = some x → ∃ y, s'.module.units[u]? = some y ∧ y.name = x.name

theorem Grows.namesKept (grows : Grows s s') : NamesKept s s' := by
  intro u x hx
  obtain ⟨y, hy, named, -⟩ := grows.units u x hx
  exact ⟨y, hy, named⟩

/-- Units that correspond go on doing so: a unit keeps its name. -/
theorem SameName.mono {u u' : UnitId} (h : SameName s t u u') (kept : NamesKept s s')
    (kept' : NamesKept t t') : SameName s' t' u u' := by
  obtain ⟨nonzero, nonzero', x, y, hx, hy, same⟩ := h
  obtain ⟨z, hz, named⟩ := kept u x hx
  obtain ⟨w, hw, named'⟩ := kept' u' y hy
  exact ⟨nonzero, nonzero', z, w, hz, hw, named'.trans (same.trans named.symm)⟩

/-- Which names are being built is the same when the lowering of a form is done. -/
theorem builds_of_grows (before : Registered s) (grows : Grows s s') :
    s'.Builds name ↔ s.Builds name := by
  unfold State.Builds
  rw [grows.inProgress]
  refine exists_congr fun u => and_congr_right fun busy => and_congr_right fun _ => ?_
  obtain ⟨x, hx, -⟩ := before.building u busy
  obtain ⟨y, hy, named, -⟩ := grows.units u x hx
  constructor
  · rintro ⟨z, hz, same⟩
    cases hy.symm.trans hz
    exact ⟨x, hx, named.symm.trans same⟩
  · rintro ⟨z, hz, same⟩
    cases hx.symm.trans hz
    exact ⟨y, hy, named.trans same⟩

theorem defines_of_finds (finds : Finds s s₁ name arity unit) {other : String} {body : Body} :
    s₁.Defines other body ↔ s.Defines other body := by
  constructor
  · rintro ⟨u, x, nonzero, hx, named, hbody⟩
    exact ⟨u, x, nonzero, finds.bodies u x body hx hbody, named, hbody⟩
  · rintro ⟨u, x, nonzero, hx, named, hbody⟩
    obtain ⟨y, hy, -, same, -⟩ := finds.grows.units u x hx
    cases same (hbody ▸ rfl)
    exact ⟨u, x, nonzero, hy, named, hbody⟩

/-- Two runs that look for one name find units that correspond. -/
theorem sameName_of_finds {arity' : Nat} (finds : Finds s s₁ name arity unit)
    (finds' : Finds t t₁ name arity' unit') : SameName s₁ t₁ unit unit' := by
  obtain ⟨x, hx, named, -⟩ := finds.found
  obtain ⟨y, hy, named', -⟩ := finds'.found
  exact ⟨finds.nonzero, finds'.nonzero, x, y, hx, hy, named'.trans named.symm⟩

/-- Both runs find the unit of a function. -/
theorem Similar.finds {arity' : Nat} (sim : Similar s t) (before : Registered s)
    (before' : Registered t) (finds : Finds s s₁ name arity unit)
    (finds' : Finds t t₁ name arity' unit') : Similar s₁ t₁ where
  code := by
    unfold State.builder
    rw [finds.current, finds'.current]
    exact sim.code.mono fun _ _ same => same.mono finds.grows.namesKept finds'.grows.namesKept
  locals := by rw [finds.current, finds'.current, sim.locals]
  base := by rw [finds.current, finds'.current, sim.base]
  strings := by rw [finds.strings, finds'.strings, sim.strings]
  builds other := by
    rw [builds_of_grows before finds.grows, builds_of_grows before' finds'.grows, sim.builds]
  defines other body known := by
    obtain ⟨body', known', alike⟩ := sim.defines other body ((defines_of_finds finds).mp known)
    refine ⟨body', (defines_of_finds finds').mpr known', alike.mono fun _ _ same => ?_⟩
    exact same.mono finds.grows.namesKept finds'.grows.namesKept
  defined other body' known' := by
    obtain ⟨body, known⟩ := sim.defined other body' ((defines_of_finds finds').mp known')
    exact ⟨body, (defines_of_finds finds).mpr known⟩

namespace Paired

/-- A function that is called is found in the second run as well: it has as many parameters there as
it is mentioned with. -/
theorem callee (p : Paired M s t) (mem : .call name arity ∈ M)
    (found : s.callee? name arity = some (unit, s₁)) : ∃ unit' t₁,
    t.callee? name arity = some (unit', t₁) ∧ Paired M s₁ t₁ ∧ SameName s₁ t₁ unit unit' := by
  have finds := finds_callee p.left found
  cases known : t.signatures.get? name with
  | some signature =>
    obtain ⟨mention, hm, named, fits⟩ := p.mentioned name signature known
    -- a function is mentioned with one arity only, so that of the second run fits as well
    have same : signature.arity = arity := fits.symm.trans (p.agree mention hm _ mem named)
    have found' : t.callee? name arity = some (signature.unit, t) := by
      unfold State.callee?
      rw [known]
      exact if_pos same
    have finds' := finds_callee p.right found'
    refine ⟨_, _, found', ⟨p.finds p.left p.right finds finds', p.agree, finds.registered,
      finds'.registered, p.mentioned⟩, sameName_of_finds finds finds'⟩
  -- the second run declares the unit now, its signature is that of this call
  | none =>
    have found' : t.callee? name arity = some (t.module.units.size, { t with
        module := (t.module.declareUnit name arity).2
        signatures := t.signatures.infer name t.module.units.size arity }) := by
      unfold State.callee?
      rw [known]
      rfl
    have finds' := finds_callee p.right found'
    refine ⟨_, _, found', ⟨p.finds p.left p.right finds finds', p.agree, finds.registered,
      finds'.registered, fun other signature hother => ?_⟩, sameName_of_finds finds finds'⟩
    dsimp only at hother
    rw [Signatures.infer, Table.get?_insert] at hother
    split at hother
    next same =>
      cases hother
      exact ⟨_, mem, same, rfl⟩
    next => exact p.mentioned other signature hother

/-- A unit that the first run can define has neither a body in the second, nor is it in progress. -/
theorem free (p : Paired M s t) (defined : s.define? name arity = some (unit, s₁))
    {signature : Signature} (known : t.signatures.get? name = some signature) :
    t.module.isDefined signature.unit = false ∧ signature.unit ∉ t.inProgress := by
  obtain ⟨finds, idle, x, hx, empty⟩ := finds_define p.left defined
  obtain ⟨nonzero, y, hy, named⟩ := p.right.known name signature known
  obtain ⟨z, hz, named', -⟩ := finds.found
  cases hz.symm.trans hx
  -- a unit of the same name in the first run can only be the one that is defined
  have only {u : Nat} {w : CodeUnit} (hu : u ≠ 0) (hw : s₁.module.units[u]? = some w)
      (hname : w.name = name) : u = unit :=
    finds.registered.eq_of_name hw hx hu finds.nonzero (hname.trans named'.symm)
  -- neither defined, nor in progress: either would show in the first run
  constructor
  · refine Bool.eq_false_iff.mpr fun isDefined => ?_
    unfold Module.isDefined at isDefined
    rw [hy] at isDefined
    obtain ⟨body', hbody'⟩ := Option.isSome_iff_exists.mp isDefined
    obtain ⟨body, u, w, hu, hw, hname, hbody⟩ :=
      p.defined name body' ⟨_, y, nonzero, hy, named, hbody'⟩
    obtain ⟨v, hv, -, same, -⟩ := finds.grows.units u w hw
    cases same (hbody ▸ rfl)
    cases only hu hv hname
    cases hv.symm.trans hx
    rw [empty] at hbody
    cases hbody
  · intro busy
    obtain ⟨u, busy, hu, w, hw, hname⟩ := (p.builds name).mp ⟨_, busy, nonzero, y, hy, named⟩
    obtain ⟨v, hv, same, -⟩ := finds.grows.units u w hw
    exact idle (only hu hv (same.trans hname) ▸ busy)

/-- A unit that is defined can be defined in the second run as well. -/
theorem define (p : Paired M s t) (mem : .defun name arity ∈ M)
    (defined : s.define? name arity = some (unit, s₁)) : ∃ unit' t₁,
    t.define? name arity = some (unit', t₁) ∧ Paired M s₁ t₁ ∧ SameName s₁ t₁ unit unit' := by
  obtain ⟨finds, -⟩ := finds_define p.left defined
  -- however the second run finds a unit, its signature afterwards is that of the definition
  have finish (unit' : UnitId) (t₁ : State)
      (defined' : t.define? name arity = some (unit', t₁))
      (signatures : t₁.signatures = t.signatures.declare name unit' arity) :
      ∃ unit' t₁, t.define? name arity = some (unit', t₁) ∧ Paired M s₁ t₁ ∧
        SameName s₁ t₁ unit unit' := by
    obtain ⟨finds', -⟩ := finds_define p.right defined'
    refine ⟨_, _, defined', ⟨p.finds p.left p.right finds finds', p.agree, finds.registered,
      finds'.registered, fun other signature hother => ?_⟩, sameName_of_finds finds finds'⟩
    rw [signatures, Signatures.declare, Table.get?_insert] at hother
    split at hother
    next same =>
      cases hother
      exact ⟨_, mem, same, rfl⟩
    next => exact p.mentioned other signature hother
  cases known : t.signatures.get? name with
  | some signature =>
    obtain ⟨undefined, idle⟩ := p.free defined known
    refine finish signature.unit { t with
      module := t.module.setArity signature.unit arity
      signatures := t.signatures.declare name signature.unit arity } ?_ rfl
    -- the unit is known already, but only from calls: it has no body and is not being built
    have unused : (t.module.isDefined signature.unit || t.inProgress.contains signature.unit)
        = false := by
      rw [undefined, Bool.false_or]
      exact Bool.eq_false_iff.mpr fun busy => idle (List.contains_iff_mem.mp busy)
    unfold State.define?
    rw [known]
    dsimp only
    rw [unused]
    rfl
  | none =>
    refine finish t.module.units.size { t with
      module := (t.module.declareUnit name arity).2
      signatures := t.signatures.declare name t.module.units.size arity } ?_ rfl
    unfold State.define?
    rw [known]
    rfl

section Edits

variable (p : Paired M s t)

include p

/-- Only the code under construction has changed. -/
theorem edit {f g : Builder → Builder} (code : (f s.builder).Alike (SameName s t) (g t.builder)) :
    Paired M (s.edit f) (t.edit g) :=
  { p with
    code := code
    left := p.left.of_module rfl rfl rfl
    right := p.right.of_module rfl rfl rfl }

theorem fresh : t.fresh = s.fresh := congrArg Array.size p.code.types

theorem block : t.block = s.block := p.code.current

theorem nextBlock : t.nextBlock = s.nextBlock := p.code.size

theorem nextSlot : t.nextSlot = s.nextSlot := congrArg Array.size p.code.slots

theorem lookup (name : String) : t.current.lookup name = s.current.lookup name := by
  unfold UnitState.lookup
  rw [p.locals, p.base]

theorem isFrozen (slot : SlotId) : t.current.isFrozen slot = s.current.isFrozen slot := by
  have same : t.current.builder.slots = s.current.builder.slots := p.code.slots
  unfold UnitState.isFrozen Builder.slot?
  rw [same]

theorem emit {operation : Operation} (quiet : ∀ u args, operation ≠ .call u args) :
    Paired M (s.emit operation) (t.emit operation) :=
  p.edit (p.code.emit quiet)

theorem emit_call (same : SameName s t unit unit') (args : List Operand) :
    Paired M (s.emit (.call unit args)) (t.emit (.call unit' args)) :=
  p.edit (p.code.emit_call same args)

theorem perform (effect : Effect) : Paired M (s.perform effect) (t.perform effect) :=
  p.edit (p.code.perform effect)

theorem newBlock : Paired M s.newBlock t.newBlock := p.edit p.code.newBlock

theorem positionAt (block : BlockId) : Paired M (s.positionAt block) (t.positionAt block) :=
  p.edit (p.code.positionAt block)

theorem terminate (end_ : Terminator) : Paired M (s.terminate end_) (t.terminate end_) :=
  p.edit (p.code.terminate end_)

theorem jump (target next : BlockId) : Paired M (s.jump target next) (t.jump target next) :=
  (p.terminate (.br target)).positionAt next

theorem openArms (c : ValueId) : Paired M (s.openArms c) (t.openArms c) := by
  unfold State.openArms
  rw [p.nextBlock]
  exact (p.newBlock.newBlock.newBlock.terminate _).positionAt _

theorem openLoop : Paired M s.openLoop t.openLoop := by
  unfold State.openLoop
  rw [p.nextBlock]
  exact p.newBlock.newBlock.newBlock.jump _ _

theorem test (decides : Bool) (merge : BlockId) (truth : ValueId) :
    Paired M (s.test decides merge truth) (t.test decides merge truth) := by
  unfold State.test
  rw [p.nextBlock]
  exact (p.newBlock.terminate _).positionAt _

theorem intern (text : String) : Paired M (s.intern text).2 (t.intern text).2 := by
  have strings : (t.intern text).2.module.strings = (s.intern text).2.module.strings := by
    -- the strings are the same in both runs, so the text is new in both or in none
    cases found : s.module.strings.findIdx? (· == text) with
    | none =>
      rw [intern_of_none found, intern_of_none (p.strings ▸ found), p.strings]
    | some id =>
      rw [intern_of_some found, intern_of_some (p.strings ▸ found)]
      exact p.strings
  obtain ⟨left, -, same⟩ := intern_eq s text
  obtain ⟨right, -, same'⟩ := intern_eq t text
  rw [same, same'] at strings ⊢
  exact { p with
    strings := strings
    left := ⟨p.left.main, p.left.known, p.left.named, p.left.building⟩
    right := ⟨p.right.main, p.right.known, p.right.named, p.right.building⟩ }

/-- A text gets the same number in both runs. -/
theorem interned (text : String) : (t.intern text).1 = (s.intern text).1 := by
  cases found : s.module.strings.findIdx? (· == text) with
  | none => rw [intern_of_none found, intern_of_none (p.strings ▸ found), p.strings]
  | some id => rw [intern_of_some found, intern_of_some (p.strings ▸ found)]

end Edits

/-- A way to make variables known that looks at nothing but the scopes. -/
def Binds (bind : UnitState → String → SlotId → UnitState) : Prop :=
  ∀ u v name slot, u.locals = v.locals → u.base = v.base →
    (bind u name slot).locals = (bind v name slot).locals ∧
    (bind u name slot).base = (bind v name slot).base ∧
    (bind u name slot).builder = u.builder

theorem binds_outer : Binds UnitState.bindOuter :=
  fun _ _ _ _ locals base => ⟨locals, congrArg (Table.insert · _ _) base, rfl⟩

theorem binds_inner : Binds UnitState.bindInner := by
  intro u v name slot locals base
  obtain ⟨unit, builder, scopes, outermost⟩ := u
  cases locals
  cases base
  unfold UnitState.bindInner UnitState.bindOuter
  cases v.locals <;> exact ⟨rfl, rfl, rfl⟩

theorem bindNew (p : Paired M s t) {bind : UnitState → String → SlotId → UnitState}
    (binds : Binds bind) (name : String) (frozen : Bool) (value : Operand) :
    Paired M (s.bindNew bind name frozen value) (t.bindNew bind name frozen value) := by
  let allocated (s : State) : UnitState := { s.current with
    builder := (s.current.builder.alloca name frozen).2 }
  obtain ⟨locals, base, builder⟩ := binds (allocated t) (allocated s) name s.nextSlot p.locals p.base
  obtain ⟨-, -, builder'⟩ := binds (allocated s) (allocated t) name s.nextSlot p.locals.symm
    p.base.symm
  -- first the slot and its name, then the store to it
  have bound : Paired M { s with current := bind (allocated s) name s.nextSlot }
      { t with current := bind (allocated t) name s.nextSlot } :=
    { p with
      code := by
        unfold State.builder
        dsimp only
        rw [builder, builder']
        exact p.code.alloca name frozen
      locals := locals
      base := base
      left := p.left.of_module rfl rfl rfl
      right := p.right.of_module rfl rfl rfl }
  unfold State.bindNew
  rw [p.nextSlot]
  exact bound.perform (.store s.nextSlot value)

theorem bindAll (p : Paired M s t) (pairs : List (String × Operand)) :
    Paired M (s.bindAll pairs) (t.bindAll pairs) := by
  induction pairs generalizing s t with
  | nil => exact p
  | cons pair pairs ih => exact ih (p.bindNew binds_inner pair.1 false pair.2)

theorem enterScope (p : Paired M s t) (pairs : List (String × Operand)) :
    Paired M (s.enterScope pairs) (t.enterScope pairs) := by
  have pushed : Paired M { s with current := s.current.pushScope }
      { t with current := t.current.pushScope } :=
    { p with
      locals := congrArg ([] :: ·) p.locals
      left := p.left.of_module rfl rfl rfl
      right := p.right.of_module rfl rfl rfl }
  exact pushed.bindAll pairs

theorem leaveScope (p : Paired M s t) : Paired M s.leaveScope t.leaveScope :=
  { p with
    locals := congrArg List.tail p.locals
    left := p.left.of_module rfl rfl rfl
    right := p.right.of_module rfl rfl rfl }

/-- Both runs begin the body of a unit. -/
theorem enterUnit (p : Paired M s t) (same : SameName s t unit unit') {x y : CodeUnit}
    (hx : s.module.units[unit]? = some x) (empty : x.body = none)
    (hy : t.module.units[unit']? = some y) (empty' : y.body = none) (params : List String) :
    Paired M (s.enterUnit unit params) (t.enterUnit unit' params) := by
  obtain ⟨nonzero, nonzero', x', y', hx', hy', named⟩ := same
  cases hx.symm.trans hx'
  cases hy.symm.trans hy'
  have builds {s : State} {unit : UnitId} {z : CodeUnit} (hz : s.module.units[unit]? = some z)
      (nonzero : unit ≠ 0) (other : String) :
      State.Builds { s with
        current := .new unit params.length
        inProgress := unit :: s.inProgress } other ↔ z.name = other ∨ s.Builds other := by
    constructor
    · rintro ⟨u, busy, hu, w, hw, same⟩
      rcases List.mem_cons.mp busy with rfl | busy
      · cases hz.symm.trans hw
        exact .inl same
      · exact .inr ⟨u, busy, hu, w, hw, same⟩
    · rintro (same | ⟨u, busy, hu, w, hw, same⟩)
      · exact ⟨unit, List.mem_cons_self, nonzero, z, hz, same⟩
      · exact ⟨u, List.mem_cons_of_mem _ busy, hu, w, hw, same⟩
  have building {s : State} {unit : UnitId} {z : CodeUnit} (h : Registered s)
      (hz : s.module.units[unit]? = some z) (empty : z.body = none) :
      Registered { s with
        current := .new unit params.length
        inProgress := unit :: s.inProgress } := by
    refine ⟨h.main, h.known, h.named, fun i busy => ?_⟩
    rcases List.mem_cons.mp busy with rfl | busy
    · exact ⟨z, hz, empty⟩
    · exact h.building i busy
  -- the two units differ in number only, since they have the same name
  have begun : Paired M
      { s with current := .new unit params.length, inProgress := unit :: s.inProgress }
      { t with current := .new unit' params.length, inProgress := unit' :: t.inProgress } :=
    { p with
      code := .new params.length
      locals := rfl
      base := rfl
      builds := fun other => by
        rw [builds hx nonzero, builds hy nonzero', p.builds, named]
      left := building p.left hx empty
      right := building p.right hy empty' }
  exact begun.bindAll _

end Paired

theorem namesKept_leaveUnit {result : Operand} : NamesKept s₂ (s₂.leaveUnit unit result s₁) := by
  intro u x hx
  obtain ⟨y, hy, named, -⟩ := unit_kept_leaveUnit hx
  exact ⟨y, hy, named⟩

/-- A unit that is finished has its body from then on. -/
theorem defines_leaveUnit {result : Operand} {x : CodeUnit} (nonzero : unit ≠ 0)
    (hx : s₂.module.units[unit]? = some x) (hollow : x.body = none) {other : String} {body : Body} :
    (s₂.leaveUnit unit result s₁).Defines other body ↔ s₂.Defines other body ∨
      other = x.name ∧ body = (s₂.builder.terminate (.ret result)).finish := by
  constructor
  · rintro ⟨u, y, hu, hy, named, hbody⟩
    rcases unit_leaveUnit_cases hy with ⟨rfl, z, hz, rfl⟩ | ⟨-, hy⟩
    · cases hx.symm.trans hz
      cases hbody
      exact .inr ⟨named.symm, rfl⟩
    · exact .inl ⟨u, y, hu, hy, named, hbody⟩
  · rintro (⟨u, y, hu, hy, named, hbody⟩ | ⟨rfl, rfl⟩)
    · -- what has a body already is another unit
      have other : u ≠ unit := by
        rintro rfl
        cases hy.symm.trans hx
        rw [hollow] at hbody
        cases hbody
      refine ⟨u, y, hu, ?_, named, hbody⟩
      rw [units_leaveUnit, if_neg other.symm, hy]
    · exact ⟨unit, _, nonzero, unit_leaveUnit_self hx, rfl, rfl⟩

namespace Paired

/-- Both runs begin a definition. -/
theorem beginUnit {params : List String} (p : Paired M s t) (mem : .defun name params.length ∈ M)
    (defined : s.define? name params.length = some (unit, s₁)) : ∃ unit' t₁,
    t.define? name params.length = some (unit', t₁) ∧
      Paired M (s₁.enterUnit unit params) (t₁.enterUnit unit' params) := by
  obtain ⟨unit', t₁, defined', p₁, same⟩ := p.define mem defined
  obtain ⟨-, -, x, hx, empty⟩ := finds_define p.left defined
  obtain ⟨-, -, y, hy, empty'⟩ := finds_define p.right defined'
  exact ⟨unit', t₁, defined', p₁.enterUnit same hx empty hy empty' params⟩

/-- Both runs end a definition. -/
theorem endUnit {params : List String} (p : Paired M s t)
    (defined : s.define? name params.length = some (unit, s₁))
    (defined' : t.define? name params.length = some (unit', t₁))
    (grows : Grows (s₁.enterUnit unit params) s₂) (grows' : Grows (t₁.enterUnit unit' params) t₂)
    (p₂ : Paired M s₂ t₂) (result : Operand) :
    Paired M (s₂.leaveUnit unit result s₁) (t₂.leaveUnit unit' result t₁) := by
  obtain ⟨finds, -⟩ := finds_define p.left defined
  obtain ⟨finds', -⟩ := finds_define p.right defined'
  obtain ⟨left, whole⟩ := registered_leaveUnit result p.left defined grows p₂.left
  obtain ⟨right, whole'⟩ := registered_leaveUnit result p.right defined' grows' p₂.right
  obtain ⟨z, hz, named, -, hollow⟩ := unit_of_grows finds grows p₂.left
  obtain ⟨w, hw, named', -, hollow'⟩ := unit_of_grows finds' grows' p₂.right
  have called : w.name = z.name := named'.trans named.symm
  -- code, scopes and names in progress are those around the definition, the bodies those after it
  refine ⟨⟨?_, ?_, ?_, p₂.strings, fun other => ?_, fun other body known => ?_,
    fun other body known => ?_⟩, p.agree, left, right, p₂.mentioned⟩
  · -- the code around the definition is what it was before
    change s₁.current.builder.Alike _ t₁.current.builder
    rw [finds.current, finds'.current]
    exact p.code.mono fun _ _ same => same.mono whole.namesKept whole'.namesKept
  · change t₁.current.locals = s₁.current.locals
    rw [finds.current, finds'.current, p.locals]
  · change t₁.current.base = s₁.current.base
    rw [finds.current, finds'.current, p.base]
  · rw [builds_of_grows p.left whole, builds_of_grows p.right whole', p.builds]
  · -- a body that was there has its counterpart, and the new one has that of the second run
    rcases (defines_leaveUnit finds.nonzero hz hollow).mp known with known | ⟨rfl, rfl⟩
    · obtain ⟨body', known', alike⟩ := p₂.defines other body known
      refine ⟨body', (defines_leaveUnit finds'.nonzero hw hollow').mpr (.inl known'), ?_⟩
      exact alike.mono fun _ _ same => same.mono namesKept_leaveUnit namesKept_leaveUnit
    · refine ⟨_, (defines_leaveUnit finds'.nonzero hw hollow').mpr (.inr ⟨called.symm, rfl⟩), ?_⟩
      exact (p₂.code.terminate _).finish.mono fun _ _ same =>
        same.mono namesKept_leaveUnit namesKept_leaveUnit
  · rcases (defines_leaveUnit finds'.nonzero hw hollow').mp known with known | ⟨rfl, rfl⟩
    · obtain ⟨body', known'⟩ := p₂.defined other body known
      exact ⟨body', (defines_leaveUnit finds.nonzero hz hollow).mpr (.inl known')⟩
    · exact ⟨_, (defines_leaveUnit finds.nonzero hz hollow).mpr (.inr ⟨called, rfl⟩)⟩

end Paired

end TwinLisp.Graph.Lowering
