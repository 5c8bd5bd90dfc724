import TwinLisp.Proofs.Execution.Scopes

/-!
Which variables settled code can see: no variable is lost, local scopes change only where a constant
may be defined, and the scope of the whole unit is only added to, in a function not even that.
-/

namespace TwinLisp.Graph.Lowering

open TwinLisp.Expr

/-- What settled code has made of the scopes `u`, where constants may be defined if
`unconditional`. -/
structure Widens (reserved : String → Prop) (unconditional inFunction : Bool) (u v : UnitState) :
    Prop where
  slots_le : u.builder.slots.size ≤ v.builder.slots.size
  outer : v.locals.tail = u.locals.tail
  length : v.locals.length = u.locals.length
  known : ∀ x, (u.lookup x).isSome → (v.lookup x).isSome
  locals : unconditional = false → v.locals = u.locals
  base : (unconditional = true → u.locals ≠ []) → ∀ x k, u.base.get? x = some k →
    v.base.get? x = some k
  new : ∀ x k, v.base.get? x = some k →
    u.base.get? x = some k ∨ u.builder.slots.size ≤ k ∧ ¬reserved x
  own : inFunction = true → (unconditional = true → u.locals ≠ []) → v.base = u.base

variable {reserved : String → Prop} {unconditional inFunction : Bool} {u v w : UnitState}
  {s s₁ s' : State} {name : String} {slot : SlotId}

theorem lookup_of_base {x : String} (locals : v.locals = u.locals)
    (base : ∀ k, u.base.get? x = some k → v.base.get? x = some k) (known : (u.lookup x).isSome) :
    (v.lookup x).isSome := by
  unfold UnitState.lookup at known ⊢
  rw [locals]
  -- an inner scope answers alike, so only the base is asked
  cases inner : u.locals.findSome? (·.get? x) with
  | some k => rfl
  | none =>
    rw [inner] at known
    obtain ⟨k, found⟩ := Option.isSome_iff_exists.mp known
    exact Option.isSome_iff_exists.mpr ⟨k, base k found⟩

namespace Widens

/-- Code that binds nothing leaves the scopes as they are. -/
theorem of_same (locals : v.locals = u.locals) (base : v.base = u.base)
    (slots : u.builder.slots.size ≤ v.builder.slots.size) :
    Widens reserved unconditional inFunction u v where
  slots_le := slots
  outer := by rw [locals]
  length := by rw [locals]
  known x := lookup_of_base locals (by rw [base]; exact fun _ => id)
  locals _ := locals
  base _ x k found := by rwa [base]
  new x k found := .inl (by rwa [base] at found)
  own _ _ := base

theorem refl (u : UnitState) : Widens reserved unconditional inFunction u u :=
  of_same rfl rfl (Nat.le_refl _)

/-- Scopes that are open stay open. -/
theorem locals_ne_nil (h : Widens reserved unconditional inFunction u v) (nested : u.locals ≠ []) :
    v.locals ≠ [] := by
  refine fun empty => nested (List.eq_nil_of_length_eq_zero ?_)
  rw [← h.length, empty]
  rfl

theorem trans (first : Widens reserved unconditional inFunction u v)
    (rest : Widens reserved unconditional inFunction v w) :
    Widens reserved unconditional inFunction u w where
  slots_le := Nat.le_trans first.slots_le rest.slots_le
  outer := rest.outer.trans first.outer
  length := rest.length.trans first.length
  known x h := rest.known x (first.known x h)
  locals h := (rest.locals h).trans (first.locals h)
  base nested x k found :=
    rest.base (fun h => first.locals_ne_nil (nested h)) x k (first.base nested x k found)
  new x k found := by
    rcases rest.new x k found with found | ⟨later, free⟩
    · exact first.new x k found
    · exact .inr ⟨Nat.le_trans first.slots_le later, free⟩
  own h nested :=
    (rest.own h fun h' => first.locals_ne_nil (nested h')).trans (first.own h nested)

/-- Where no constant may be defined, less changes than where one may be. -/
theorem weaken (h : Widens reserved false inFunction u v) :
    Widens reserved unconditional inFunction u v where
  slots_le := h.slots_le
  outer := h.outer
  length := h.length
  known := h.known
  locals _ := h.locals rfl
  base _ := h.base nofun
  new := h.new
  own h' _ := h.own h' nofun

end Widens

/-- A variable of the whole unit that was not known. -/
theorem widens_introduce (unknown : s.current.lookup name = none) (free : ¬reserved name)
    (a : Operand) : Widens reserved unconditional false s.current
      (s.bindNew UnitState.bindOuter name false a).current := by
  have new : s.current.base.get? name = none := by
    unfold UnitState.lookup at unknown
    exact (Option.or_eq_none_iff.mp unknown).2
  -- the new name was not there, so nothing is replaced
  have base : ∀ x k, s.current.base.get? x = some k →
      (s.current.base.insert name s.nextSlot).get? x = some k := by
    intro x k found
    rw [Table.get?_insert]
    split
    next same =>
      subst same
      rw [new] at found
      cases found
    next => exact found
  refine ⟨?_, rfl, rfl, fun x => lookup_of_base rfl (base x), fun _ => rfl, fun _ => base, ?_, nofun⟩
  · exact Nat.le_trans (Nat.le_succ _) (Nat.le_of_eq (Array.size_push _).symm)
  · intro x k found
    rcases get?_insert_cases found with ⟨rfl, rfl⟩ | found
    · exact .inr ⟨Nat.le_refl _, free⟩
    · exact .inl found

theorem isSome_insert {t : Table SlotId} {x : String} (known : x = name ∨ (t.get? x).isSome) :
    ((t.insert name slot).get? x).isSome := by
  rw [Table.get?_insert]
  split
  next => rfl
  next other => exact known.resolve_left (fun same => other same.symm)

/-- A variable is known if some scope has it. -/
theorem isSome_lookup {x : String} :
    (u.lookup x).isSome ↔ ∃ t ∈ u.scopes, (t.get? x).isSome := by
  unfold UnitState.lookup UnitState.scopes
  rw [Option.isSome_or, Bool.or_eq_true, List.findSome?_isSome_iff]
  simp only [List.mem_append, List.mem_singleton, or_and_right, exists_or, exists_eq_left]

/-- What is known stays known, and the new name becomes known. -/
theorem lookup_bindInner {x : String} {a : Operand} {frozen : Bool}
    (known : x = name ∨ (s.current.lookup x).isSome) :
    ((s.bindNew UnitState.bindInner name frozen a).current.lookup x).isSome := by
  rw [isSome_lookup] at known ⊢
  obtain ⟨module, signatures, ⟨unit, builder, scopes, base⟩, inProgress⟩ := s
  -- the scope that gets the name is the first one
  obtain ⟨t, rest, before, after⟩ : ∃ t rest, UnitState.scopes ⟨unit, builder, scopes, base⟩ = t :: rest ∧
      (State.bindNew ⟨module, signatures, ⟨unit, builder, scopes, base⟩, inProgress⟩
        UnitState.bindInner name frozen a).current.scopes
        = t.insert name builder.slots.size :: rest := by
    cases scopes with
    | nil => exact ⟨base, [], rfl, rfl⟩
    | cons scope scopes => exact ⟨scope, scopes ++ [base], rfl, rfl⟩
  rw [after]
  -- the name is the new one, or it was known in the first scope or in another
  rcases known with rfl | ⟨t', mem, found⟩
  · exact ⟨_, List.mem_cons_self, isSome_insert (.inl rfl)⟩
  · change t' ∈ UnitState.scopes ⟨unit, builder, scopes, base⟩ at mem
    rw [before] at mem
    rcases List.mem_cons.mp mem with rfl | mem
    · exact ⟨_, List.mem_cons_self, isSome_insert (.inr found)⟩
    · exact ⟨t', List.mem_cons_of_mem _ mem, found⟩

/-- A constant in the innermost scope. -/
theorem widens_const (free : ¬reserved name) (frozen : Bool) (a : Operand) :
    Widens reserved true inFunction s.current
      (s.bindNew UnitState.bindInner name frozen a).current := by
  have known {x : String} (known : x = name ∨ (s.current.lookup x).isSome) :
      ((s.bindNew UnitState.bindInner name frozen a).current.lookup x).isSome := lookup_bindInner known
  obtain ⟨module, signatures, ⟨unit, builder, scopes, base⟩, inProgress⟩ := s
  have slots_le : builder.slots.size ≤ (builder.slots.push ⟨name, frozen⟩).size :=
    Nat.le_trans (Nat.le_succ _) (Nat.le_of_eq (Array.size_push _).symm)
  -- without an inner scope the constant goes to the base, in place of an older one
  cases scopes with
  | nil =>
    refine ⟨slots_le, rfl, rfl, fun x h => known (.inr h), nofun, fun nested => absurd rfl (nested rfl),
      fun x k found => ?_, fun _ nested => absurd rfl (nested rfl)⟩
    rcases get?_insert_cases found with ⟨rfl, rfl⟩ | found
    · exact .inr ⟨Nat.le_refl _, free⟩
    · exact .inl found
  | cons scope scopes =>
    exact ⟨slots_le, rfl, rfl, fun x h => known (.inr h), nofun, fun _ _ _ => id,
      fun _ _ => .inl, fun _ _ => rfl⟩

/-- The variables of a new scope. -/
theorem widens_bindAll {pairs : List (String × Operand)} (free : ∀ p ∈ pairs, ¬reserved p.1) :
    Widens reserved true inFunction s.current (s.bindAll pairs).current := by
  induction pairs generalizing s with
  | nil => exact .refl _
  | cons pair pairs ih =>
    obtain ⟨here, others⟩ := List.forall_mem_cons.mp free
    exact (widens_const here false pair.2).trans (ih others)

theorem known_bindAll {pairs : List (String × Operand)} {x : String}
    (known : x ∈ pairs.map (·.1) ∨ (s.current.lookup x).isSome) :
    ((s.bindAll pairs).current.lookup x).isSome := by
  induction pairs generalizing s with
  | nil => exact known.resolve_left List.not_mem_nil
  | cons pair pairs ih =>
    refine ih ?_
    -- bound by the first pair, by a later one, or before
    rcases known with mem | known
    · rcases List.mem_cons.mp mem with rfl | mem
      · exact .inr (lookup_bindInner (.inl rfl))
      · exact .inl mem
    · exact .inr (lookup_bindInner (.inr known))

/-- What has happened inside a scope is forgotten when it is left, but for the variables of the whole
unit. -/
theorem widens_leaveScope (inner : Widens reserved true inFunction u.pushScope s.current) :
    Widens reserved unconditional inFunction u s.leaveScope.current := by
  have nested : true = true → u.pushScope.locals ≠ [] := fun _ => List.cons_ne_nil _ _
  have locals : s.leaveScope.current.locals = u.locals := inner.outer
  refine Widens.weaken ⟨inner.slots_le, ?_, ?_, fun x => ?_, fun _ => locals, fun _ => inner.base nested,
    inner.new, fun h _ => inner.own h nested⟩
  · rw [locals]
  · rw [locals]
  · exact lookup_of_base locals (inner.base nested x)

/-- The variables that are bound where the code stands are known. -/
def Knows (p : Place) (u : UnitState) : Prop :=
  p.inFunction = true → ∀ x ∈ p.bound, (u.lookup x).isSome

/-- What has become of the scopes, with constants that are known now. -/
structure Defines (reserved : String → Prop) (p : Place) (names : List String) (u v : UnitState) :
    Prop extends Widens reserved p.unconditional p.inFunction u v where
  defines : ∀ x ∈ names, (v.lookup x).isSome

namespace Defines

variable {p : Place} {xs ys : List String}

theorem refl (u : UnitState) : Defines reserved p [] u u :=
  { Widens.refl u with defines := nofun }

/-- What is bound behind the code is known: it was before, or the code has defined it. -/
theorem knows (h : Defines reserved p xs u v) (known : Knows p u) : Knows (p.binding xs) v := by
  intro inside x mem
  rcases List.mem_append.mp mem with mem | mem
  · exact h.known x (known inside x mem)
  · exact h.defines x mem

/-- Constants of both parts are known behind them. -/
theorem append (first : Defines reserved p xs u v)
    (rest : Defines reserved (p.binding xs) ys v w) : Defines reserved p (xs ++ ys) u w :=
  { first.toWidens.trans rest.toWidens with
    defines := fun x mem => by
      rcases List.mem_append.mp mem with mem | mem
      · exact rest.known x (first.defines x mem)
      · exact rest.defines x mem }

/-- Then follows code that defines nothing. -/
theorem andThen (first : Defines reserved p xs u v)
    (rest : Widens reserved p.unconditional p.inFunction v w) : Defines reserved p xs u w :=
  { first.toWidens.trans rest with defines := fun x mem => rest.known x (first.defines x mem) }

/-- Code before it defines nothing. -/
theorem after (rest : Defines reserved p xs v w)
    (first : Widens reserved p.unconditional p.inFunction u v) : Defines reserved p xs u w :=
  { first.trans rest.toWidens with defines := rest.defines }

/-- Code that binds nothing follows. -/
theorem quietly (first : Defines reserved p xs u v) (locals : w.locals = v.locals)
    (base : w.base = v.base) (slots : v.builder.slots.size ≤ w.builder.slots.size) :
    Defines reserved p xs u w :=
  first.andThen (.of_same locals base slots)

/-- Between two pieces of code stands some that binds nothing. -/
theorem appendQuiet {v' : UnitState} (first : Defines reserved p xs u v)
    (rest : Defines reserved (p.binding xs) ys v' w) (locals : v'.locals = v.locals)
    (base : v'.base = v.base) (slots : v.builder.slots.size ≤ v'.builder.slots.size) :
    Defines reserved p (xs ++ ys) u w :=
  first.append (rest.after (.of_same locals base slots))

/-- A function changes only variables that it knows. -/
theorem introduces {head name : String} {hs ns span : Span} {es : List Expr} (h : Defines reserved p xs u v)
    (form : Form.classify head = some .set)
    (settled : Settled reserved p (.list (.ident head hs :: .ident name ns :: es) span))
    (knows : Knows p u) (unknown : v.lookup name = none) : p.inFunction = false := by
  cases inside : p.inFunction with
  | false => rfl
  | true =>
    have known := h.known name (knows inside name (settled.fits.sets name (target?_list form) inside))
    rw [unknown] at known
    cases known

theorem of_under {branches : Bool} (h : Defines reserved (p.under branches) xs u v) :
    Defines reserved p xs u v := by
  cases branches with
  | false => rwa [Place.under_false] at h
  | true =>
    have widens := h.toWidens
    unfold Place.under at widens
    rw [Bool.not_true, Bool.and_false] at widens
    exact { widens.weaken with defines := h.defines }

end Defines

section Forms

variable {head : String} {hs ns span : Span} {args : List Expr} {init : Expr} {form : Form} {p : Place}

/-- A form defines what its operands define, unless it defines a constant or a function. -/
theorem consts_of_form (classified : Form.classify head = some form) (operands : form.hasOperands)
    (other : form ≠ .const) : consts (.list (.ident head hs :: args) span) = constsAll args := by
  unfold consts
  rw [classified]
  cases form with
  | const => exact absurd rfl other
  | defun => cases operands
  | lambda => cases operands
  | quote => cases operands
  | _ => rfl

theorem consts_of_logic {decides : Bool}
    (form : Form.classify head = some (if decides then .or else .and)) :
    consts (.list (.ident head hs :: args) span) = constsAll args := by
  cases decides with
  | true => exact consts_of_form form rfl nofun
  | false => exact consts_of_form form rfl nofun

theorem consts_of_call (noForm : Form.classify head = none) :
    consts (.list (.ident head hs :: args) span) = constsAll args := by
  unfold consts
  rw [noForm]

theorem constsAll_pair (e e' : Expr) : constsAll [e, e'] = consts e ++ consts e' := by
  rw [constsAll, constsAll, constsAll, List.append_nil]

theorem consts_of_const (form : Form.classify head = some .const) :
    consts (.list (.ident head hs :: args) span)
      = constsAll args ++ (args.head?.bind ident?).toList := by
  unfold consts
  rw [form]

theorem consts_const (form : Form.classify head = some .const) :
    consts (.list [.ident head hs, .ident name ns, init] span) = consts init ++ [name] := by
  rw [consts_of_const form, constsAll_pair]
  rfl

end Forms

/-- In the scope of a `let` form its variables are known. -/
theorem knows_enterScope {p : Place} {cs names : List String} {inits : List Operand}
    (initial : Defines reserved p cs s.current s₁.current) (knows : Knows p s.current)
    (listed : names.length = inits.length) :
    Knows ((p.binding cs).inLet names) (s₁.enterScope (names.zip inits)).current := by
  intro inside x mem
  refine known_bindAll (s := { s₁ with current := s₁.current.pushScope }) ?_
  rw [List.map_fst_zip (Nat.le_of_eq listed)]
  rcases List.mem_append.mp mem with mem | mem
  · exact .inr (initial.knows knows inside x mem)
  · exact .inl mem

/-- The variables of a `let` form are bound in a scope of their own. -/
theorem widens_enterScope {names : List String} {inits : List Operand}
    (listed : names.length = inits.length) (free : ∀ x ∈ names, ¬reserved x) :
    Widens reserved true inFunction s.current.pushScope (s.enterScope (names.zip inits)).current :=
  widens_bindAll (s := { s with current := s.current.pushScope }) fun pair mem =>
    free pair.1 (List.map_fst_zip (Nat.le_of_eq listed) ▸ List.mem_map_of_mem mem)

/-- A `let` form: its values are computed, its scope is entered, run through and left. -/
theorem defines_letIn {p : Place} {cs names : List String} {inits : List Operand}
    (initial : Defines reserved p cs s.current s₁.current) (listed : names.length = inits.length)
    (free : ∀ x ∈ names, ¬reserved x)
    (inner : Widens reserved true p.inFunction (s₁.enterScope (names.zip inits)).current s'.current) :
    Defines reserved p cs s.current s'.leaveScope.current :=
  initial.andThen (widens_leaveScope ((widens_enterScope listed free).trans inner))

/-- A `let` form defines nothing around it but what its initial values define. -/
theorem consts_letIn (bindings : List (LetBinding Expr)) (body : List Expr) (span : Span) :
    consts (.letIn bindings body span) = constsAll (bindings.map (·.init)) := by
  rw [consts, constsOfBindings_eq]

/-- The scopes of a unit are those of another one, and so are its slots. -/
structure SameScopes (u v : UnitState) : Prop where
  locals : v.locals = u.locals
  base : v.base = u.base
  slots : v.builder.slots = u.builder.slots

theorem sameScopes_openArms (s : State) (c : ValueId) :
    SameScopes s.current (s.openArms c).current := ⟨rfl, rfl, rfl⟩

theorem sameScopes_openLoop (s : State) : SameScopes s.current s.openLoop.current :=
  ⟨rfl, rfl, rfl⟩

theorem SameScopes.knows {p : Place} (same : SameScopes u v) (knows : Knows p u) : Knows p v := by
  intro inside x mem
  unfold UnitState.lookup
  rw [same.locals, same.base]
  exact knows inside x mem

/-- Where scopes are the same, nothing has been made of them. -/
theorem SameScopes.widens (same : SameScopes u v) :
    Widens reserved unconditional inFunction u v :=
  .of_same same.locals same.base (Nat.le_of_eq (congrArg Array.size same.slots.symm))

section Derivations

variable {p : Place}

mutual

/-- Settled code keeps to its scopes. -/
theorem Value.defines : ∀ {e : Expr} {s : State} {a : Operand} {s' : State} {p : Place},
    Value e s a s' → Settled reserved p e → Knows p s.current →
      Defines reserved p (consts e) s.current s'.current
  | _, _, _, _, _, .int, _, _ => .refl _
  | _, _, _, _, _, .variable _, _, _ => (Defines.refl _).quietly rfl rfl (Nat.le_refl _)
  | _, _, _, _, p, @Value.letIn bindings _ _ _ _ _ _ _ initial inner, settled, knows => by
    have here := initial.defines settled.inits knows
    have listed : (bindings.map (·.name)).length = _ :=
      (List.length_map _).trans ((List.length_map _).symm.trans initial.length_eq.symm)
    rw [consts_letIn]
    refine defines_letIn here listed settled.fits.names ?_
    have settled := settled.inner
    rw [constsOfBindings_eq] at settled
    exact (inner.defines settled (knows_enterScope here knows listed)).toWidens
  | _, _, _, _, p, .print form _ printed, settled, knows => by
    rw [consts_of_form form rfl nofun]
    have operands := settled.operands form rfl
    exact (printed.defines operands knows).of_under
  | _, _, _, _, p, .store form value _ _, settled, knows => by
    rw [consts_of_form form rfl nofun, constsAll_pair]
    exact (value.defines (settled.init form (.inl rfl)) knows).quietly rfl rfl (Nat.le_refl _)
  | _, _, _, _, p, .introduce form value unknown, settled, knows => by
    rw [consts_of_form form rfl nofun, constsAll_pair]
    have bound := value.defines (settled.init form (.inl rfl)) knows
    have free := settled.target form (.inl rfl)
    -- a new name is bound for the whole unit, and so not inside a function
    refine bound.andThen ?_
    rw [bound.introduces form settled knows unknown]
    exact widens_introduce unknown free _
  | _, _, _, _, p, .const form value mutable, settled, knows => by
    rw [consts_const form]
    have bound := value.defines (settled.init form (.inr rfl)) knows
    have free := settled.target form (.inr rfl)
    have unconditional := settled.fits.consts (form?_list form)
    refine { bound.toWidens.trans ?_ with defines := fun x mem => lookup_bindInner ?_ }
    · rw [unconditional]
      exact widens_const free true _
    · rcases List.mem_append.mp mem with mem | mem
      · exact .inr (bound.defines x mem)
      · exact .inl (List.mem_singleton.mp mem)
  | _, _, _, _, p, @Value.cond _ _ _ _ _ _ _ c s₁ _ _ _ _ form tested first second, settled, knows => by
    rw [consts_of_form form rfl nofun, constsAll, constsAll, constsAll, constsAll, List.append_nil]
    have operands := settled.operands form rfl
    have condition := tested.defines operands.first knows
    have opened := sameScopes_openArms s₁ c
    -- the first arm comes behind the condition
    have yes := first.defines operands.rest.first (opened.knows (condition.knows knows))
    -- the second arm runs where the constants of the condition and of the first arm are bound too
    have both := condition.append (yes.after opened.widens)
    have known := both.knows knows
    rw [Place.binding_append] at known
    have no := second.defines operands.rest.rest.first known
    rw [← Place.binding_append] at no
    have arms := both.appendQuiet no rfl rfl (Nat.le_refl _)
    rw [List.append_assoc] at arms
    exact arms.of_under.quietly rfl rfl (Nat.le_refl _)
  | _, _, _, _, p, .not form value, settled, knows => by
    rw [consts_of_form form rfl nofun, constsAll, constsAll, List.append_nil]
    have operand := value.defines (settled.operands form rfl).first knows
    exact operand.of_under.quietly rfl rfl (Nat.le_refl _)
  | _, _, _, _, _, .logicEmpty form, _, _ => by
    rw [consts_of_logic form]
    exact .refl _
  | _, s, _, _, p, .logic form tests, settled, knows => by
    rw [consts_of_logic form]
    have operands := tests.defines (settled.logic form) knows
    have operands := operands.after (u := s.current) (.of_same rfl rfl (Nat.le_refl _))
    exact operands.of_under.quietly rfl rfl (Nat.le_refl _)
  | _, s, _, _, p, .loop form tested body, settled, knows => by
    rw [consts_of_form form rfl nofun, constsAll]
    have operands := settled.operands form rfl
    have opened := sameScopes_openLoop s
    have condition := tested.defines operands.first (opened.knows knows)
    -- the constants of the condition are bound in the body as well
    have inner := body.defines operands.rest (condition.knows (opened.knows knows))
    have condition := condition.after opened.widens
    have turn := condition.appendQuiet inner rfl rfl (Nat.le_refl _)
    exact turn.of_under.quietly rfl rfl (Nat.le_refl _)
  | _, _, _, _, p, .defun form _ _ _, settled, _ =>
    absurd (form?_list form) settled.fits.noDefun
  | _, _, _, _, p, .lambda form, settled, _ =>
    absurd (form?_list form) settled.fits.noLambda
  | _, _, _, _, p, .neg form value, settled, knows => by
    rw [consts_of_form form rfl nofun, constsAll, constsAll, List.append_nil]
    have operand := value.defines (settled.operands form rfl).first knows
    exact operand.of_under.quietly rfl rfl (Nat.le_refl _)
  | _, _, _, _, p, .arith form first rest, settled, knows => by
    rw [consts_of_form form rfl nofun]
    have operands := settled.operands form rfl
    have here := first.defines operands.first knows
    exact (here.append (rest.defines operands.rest (here.knows knows))).of_under
  | _, _, _, _, p, .call noForm _ arguments found, settled, knows => by
    rw [consts_of_call noForm]
    -- to find the unit makes nothing known but the unit
    have passed := arguments.defines (settled.arguments noForm) knows
    rw [← (current_of_callee? found).1] at passed
    exact passed.quietly rfl rfl (Nat.le_refl _)

theorem Test.defines : ∀ {e : Expr} {s : State} {v : ValueId} {s' : State} {p : Place},
    Test e s v s' → Settled reserved p e → Knows p s.current →
      Defines reserved p (consts e) s.current s'.current
  | _, _, _, _, p, .compare form first second, settled, knows => by
    rw [consts_of_form form rfl nofun, constsAll_pair]
    have operands := settled.operands form rfl
    have here := first.defines operands.first knows
    have both := here.append (second.defines operands.rest.first (here.knows knows))
    exact both.of_under.quietly rfl rfl (Nat.le_refl _)
  | _, _, _, _, p, .nonzero _ value, settled, knows =>
    (value.defines settled knows).quietly rfl rfl (Nat.le_refl _)

theorem Values.defines : ∀ {es : List Expr} {s : State} {as : List Operand} {s' : State} {p : Place},
    Values es s as s' → SettledAll reserved p es → Knows p s.current →
      Defines reserved p (constsAll es) s.current s'.current
  | _, _, _, _, _, .nil, _, _ => .refl _
  | _, _, _, _, p, .cons first rest, settled, knows => by
    have here := first.defines settled.first knows
    exact here.append (rest.defines settled.rest (here.knows knows))

theorem Prints.defines : ∀ {es : List Expr} {s s' : State} {p : Place}, Prints es s s' →
    SettledAll reserved p es → Knows p s.current →
      Defines reserved p (constsAll es) s.current s'.current
  | _, _, _, _, .nil, _, _ => .refl _
  | _, _, _, p, .str rest, settled, knows => by
    have others := settled.rest
    rw [consts_str, Place.binding_nil] at others
    exact (rest.defines others knows).after (.of_same rfl rfl (Nat.le_refl _))
  | _, _, _, p, .int value rest, settled, knows => by
    have here := value.defines settled.first knows
    have others := rest.defines settled.rest (here.knows knows)
    exact here.appendQuiet others rfl rfl (Nat.le_refl _)

theorem Operands.defines : ∀ {op : ArithOp} {acc : Operand} {es : List Expr} {s : State}
    {r : Operand} {s' : State} {p : Place}, Operands op acc es s r s' → SettledAll reserved p es →
    Knows p s.current → Defines reserved p (constsAll es) s.current s'.current
  | _, _, _, _, _, _, _, .nil, _, _ => .refl _
  | _, _, _, _, _, _, p, .cons value _ rest, settled, knows => by
    have here := value.defines settled.first knows
    have others := rest.defines settled.rest (here.knows knows)
    exact here.appendQuiet others rfl rfl (Nat.le_refl _)

theorem Tests.defines : ∀ {decides : Bool} {merge : BlockId} {es : List Expr} {s : State}
    {exits : List BlockId} {s' : State} {p : Place}, Tests decides merge es s exits s' →
    SettledAll reserved p es → Knows p s.current →
      Defines reserved p (constsAll es) s.current s'.current
  | _, _, _, _, _, _, _, .nil, _, _ => .refl _
  | _, _, _, _, _, _, p, .cons value rest, settled, knows => by
    have here := value.defines settled.first knows
    have others := rest.defines settled.rest (here.knows knows)
    exact here.appendQuiet others rfl rfl (Nat.le_refl _)

end

end Derivations

end TwinLisp.Graph.Lowering
