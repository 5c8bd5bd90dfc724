import TwinLisp.Proofs.Lowering.Trace

/-! How units and signatures fit together while a program is lowered. -/

namespace TwinLisp.Graph.Lowering

/-- The first unit is `main`, every other unit is known by its name, and a unit in progress has no
body yet. -/
structure Registered (s : State) : Prop where
  main : ∃ x, s.module.units[0]? = some x ∧ x.name = "main" ∧ x.arity = 0
  known : ∀ name signature, s.signatures.get? name = some signature →
    signature.unit ≠ 0 ∧ ∃ x, s.module.units[signature.unit]? = some x ∧ x.name = name
  named : ∀ (i : Nat) x, s.module.units[i]? = some x → i ≠ 0 →
    ∃ origin, s.signatures.get? x.name = some ⟨i, x.arity, origin⟩
  building : ∀ i ∈ s.inProgress, ∃ x, s.module.units[i]? = some x ∧ x.body = none

/-- Units keep their names; a unit that has a body or is in progress keeps its arity, and a body is
never replaced. Texts keep their numbers. -/
structure Grows (s s' : State) : Prop where
  moduleName : s'.module.name = s.module.name
  main : s'.module.main = s.module.main
  inProgress : s'.inProgress = s.inProgress
  unit : s'.current.unit = s.current.unit
  strings : ∀ (i : Nat) text, s.module.strings[i]? = some text → s'.module.strings[i]? = some text
  units : ∀ (i : Nat) x, s.module.units[i]? = some x → ∃ y, s'.module.units[i]? = some y ∧
    y.name = x.name ∧ (x.body.isSome → y = x) ∧ (i ∈ s.inProgress → y.arity = x.arity)

namespace Grows

variable {s s₁ s' : State}

theorem refl (s : State) : Grows s s :=
  ⟨rfl, rfl, rfl, rfl, fun _ _ => id, fun _ x h => ⟨x, h, rfl, fun _ => rfl, fun _ => rfl⟩⟩

theorem trans (first : Grows s s₁) (rest : Grows s₁ s') : Grows s s' where
  moduleName := rest.moduleName.trans first.moduleName
  main := rest.main.trans first.main
  inProgress := rest.inProgress.trans first.inProgress
  unit := rest.unit.trans first.unit
  strings i text h := rest.strings i text (first.strings i text h)
  units i x hx := by
    -- a unit is followed through both steps; one with a body keeps it in either
    obtain ⟨y, hy, name, body, arity⟩ := first.units i x hx
    obtain ⟨z, hz, name', body', arity'⟩ := rest.units i y hy
    refine ⟨z, hz, name'.trans name, ?_, ?_⟩
    · intro hbody
      have same := body hbody
      rw [body' (same ▸ hbody), same]
    · intro building
      rw [arity' (first.inProgress.symm ▸ building), arity building]

/-- Changing the unit under construction leaves the module alone. -/
theorem of_module (module : s'.module = s.module) (inProgress : s'.inProgress = s.inProgress)
    (unit : s'.current.unit = s.current.unit) : Grows s s' where
  moduleName := by rw [module]
  main := by rw [module]
  inProgress := inProgress
  unit := unit
  strings _ _ h := module ▸ h
  units i x hx := ⟨x, module ▸ hx, rfl, fun _ => rfl, fun _ => rfl⟩

theorem strings_lt (grows : Grows s s') {i : Nat} (h : i < s.module.strings.size) :
    i < s'.module.strings.size := by
  have found := grows.strings i _ (Array.getElem?_eq_getElem h)
  exact (Array.getElem?_eq_some_iff.mp found).1

end Grows

/-- A declaration appends a unit without a body. -/
theorem units_declareUnit (m : Module) (name : String) (arity i : Nat) :
    (m.declareUnit name arity).2.units[i]?
      = if i = m.units.size then some ⟨name, arity, none⟩ else m.units[i]? :=
  Array.getElem?_push

/-- Settling an arity changes the one unit it is about. -/
theorem units_setArity (m : Module) (unit : UnitId) (arity i : Nat) :
    (m.setArity unit arity).units[i]?
      = if unit = i then (m.units[i]?).map ({ · with arity }) else m.units[i]? :=
  Array.getElem?_modify

section Units

variable {m : Module} {name : String} {arity : Nat} {unit i : UnitId} {x : CodeUnit}

/-- The units of before keep their numbers when one is declared. -/
theorem unit_kept_declareUnit (found : m.units[i]? = some x) :
    (m.declareUnit name arity).2.units[i]? = some x := by
  rw [units_declareUnit, if_neg (Nat.ne_of_lt (Array.getElem?_eq_some_iff.mp found).1), found]

theorem unit_declareUnit_cases (found : (m.declareUnit name arity).2.units[i]? = some x) :
    (i = m.units.size ∧ x = ⟨name, arity, none⟩) ∨ m.units[i]? = some x := by
  rw [units_declareUnit] at found
  split at found
  next last => exact .inl ⟨last, (Option.some.inj found).symm⟩
  next => exact .inr found

/-- To settle an arity leaves all names and bodies alone, and every other unit. -/
theorem unit_kept_setArity (unit : UnitId) (arity : Nat) (found : m.units[i]? = some x) :
    ∃ y, (m.setArity unit arity).units[i]? = some y ∧ y.name = x.name ∧ y.body = x.body ∧
      (i ≠ unit → y = x) := by
  rw [units_setArity, found]
  split
  next same => exact ⟨_, rfl, rfl, rfl, fun other => absurd same.symm other⟩
  next => exact ⟨x, rfl, rfl, rfl, fun _ => rfl⟩

theorem unit_setArity_cases (found : (m.setArity unit arity).units[i]? = some x) :
    (i = unit ∧ ∃ y, m.units[unit]? = some y ∧ x = { y with arity }) ∨
      i ≠ unit ∧ m.units[i]? = some x := by
  rw [units_setArity] at found
  split at found
  next here =>
    subst here
    obtain ⟨y, hy, rfl⟩ := Option.map_eq_some_iff.mp found
    exact .inl ⟨rfl, y, hy, rfl⟩
  next other => exact .inr ⟨Ne.symm other, found⟩

end Units

namespace Registered

variable {s s₁ : State} {name : String} {arity : Nat} {unit : UnitId}

theorem of_module {s' : State} (h : Registered s) (module : s'.module = s.module)
    (signatures : s'.signatures = s.signatures) (inProgress : s'.inProgress = s.inProgress) :
    Registered s' where
  main := by
    rw [module]
    exact h.main
  known := by
    rw [module, signatures]
    exact h.known
  named := by
    rw [module, signatures]
    exact h.named
  building := by
    rw [module, inProgress]
    exact h.building

theorem size_pos (h : Registered s) : 0 < s.module.units.size := by
  obtain ⟨x, hx, -⟩ := h.main
  exact (Array.getElem?_eq_some_iff.mp hx).1

/-- Units besides `main` differ in name. -/
theorem eq_of_name (h : Registered s) {i j : UnitId} {x y : CodeUnit}
    (hx : s.module.units[i]? = some x) (hy : s.module.units[j]? = some y) (hi : i ≠ 0)
    (hj : j ≠ 0) (same : x.name = y.name) : i = j := by
  obtain ⟨origin, known⟩ := h.named i x hx hi
  obtain ⟨origin', known'⟩ := h.named j y hy hj
  rw [same, known'] at known
  have signature := Option.some.inj known
  exact (congrArg Signature.unit signature).symm

/-- A new unit with a signature. -/
theorem declare (h : Registered s) (unknown : s.signatures.get? name = none) (origin : Origin) :
    Registered { s with
      module := (s.module.declareUnit name arity).2
      signatures := s.signatures.insert name ⟨s.module.units.size, arity, origin⟩ } := by
  -- main, the known names, the units of names, the units in progress
  refine ⟨?_, ?_, ?_, ?_⟩
  · obtain ⟨x, hx, named⟩ := h.main
    exact ⟨x, unit_kept_declareUnit hx, named⟩
  · intro other signature found
    dsimp only at found
    rw [Table.get?_insert] at found
    split at found
    next same =>
      cases found
      refine ⟨Nat.ne_of_gt h.size_pos, ⟨name, arity, none⟩, ?_, same⟩
      rw [units_declareUnit, if_pos rfl]
    next =>
      obtain ⟨nonzero, x, hx, named⟩ := h.known other signature found
      exact ⟨nonzero, x, unit_kept_declareUnit hx, named⟩
  · intro i x hx hi
    dsimp only
    rw [Table.get?_insert]
    rcases unit_declareUnit_cases hx with ⟨last, rfl⟩ | hx
    · rw [if_pos rfl, last]
      exact ⟨origin, rfl⟩
    · obtain ⟨origin', found⟩ := h.named i x hx hi
      -- the name was free, so it is that of no other unit
      have different : name ≠ x.name := by
        rintro rfl
        rw [unknown] at found
        cases found
      rw [if_neg different]
      exact ⟨origin', found⟩
  · intro i hi
    obtain ⟨x, hx, empty⟩ := h.building i hi
    exact ⟨x, unit_kept_declareUnit hx, empty⟩

/-- The arity of a known unit without a body is settled. -/
theorem setArity (h : Registered s) {signature : Signature}
    (found : s.signatures.get? name = some signature) :
    Registered { s with
      module := s.module.setArity signature.unit arity
      signatures := s.signatures.declare name signature.unit arity } := by
  obtain ⟨nonzero, own, hown, named⟩ := h.known name signature found
  -- main, the known names, the units of names, the units in progress
  refine ⟨?_, ?_, ?_, ?_⟩
  · dsimp only
    rw [units_setArity, if_neg nonzero]
    exact h.main
  · intro other signature' found'
    dsimp only at found'
    rw [Signatures.declare, Table.get?_insert] at found'
    split at found'
    next same =>
      cases found'
      obtain ⟨y, hy, named', -⟩ := unit_kept_setArity signature.unit arity hown
      exact ⟨nonzero, y, hy, (named'.trans named).trans same⟩
    next =>
      obtain ⟨nonzero', x, hx, named'⟩ := h.known other signature' found'
      obtain ⟨y, hy, named'', -⟩ := unit_kept_setArity signature.unit arity hx
      exact ⟨nonzero', y, hy, named''.trans named'⟩
  · intro i x hx hi
    dsimp only
    rw [Signatures.declare, Table.get?_insert]
    rcases unit_setArity_cases hx with ⟨rfl, y, hy, rfl⟩ | ⟨other, hx⟩
    · cases hown.symm.trans hy
      rw [if_pos named.symm]
      exact ⟨_, rfl⟩
    · obtain ⟨origin', known⟩ := h.named i x hx hi
      -- a unit is known by its name, so another one has another name
      have different : name ≠ x.name := by
        intro same
        exact other (h.eq_of_name hx hown hi nonzero (named.trans same).symm)
      rw [if_neg different]
      exact ⟨origin', known⟩
  · intro i hi
    obtain ⟨x, hx, empty⟩ := h.building i hi
    obtain ⟨y, hy, -, body, -⟩ := unit_kept_setArity signature.unit arity hx
    exact ⟨y, hy, body.trans empty⟩

/-- What a name is known as agrees with the unit. -/
theorem arity_of_known (h : Registered s) {signature : Signature}
    (found : s.signatures.get? name = some signature) {x : CodeUnit}
    (hx : s.module.units[signature.unit]? = some x) : x.name = name ∧ x.arity = signature.arity := by
  obtain ⟨nonzero, y, hy, named⟩ := h.known name signature found
  cases hx.symm.trans hy
  obtain ⟨origin, found'⟩ := h.named _ x hx nonzero
  rw [named, found] at found'
  exact ⟨named, (congrArg Signature.arity (Option.some.inj found')).symm⟩

end Registered

/-- What is common to finding the unit of a call and to finding that of a definition. -/
structure Finds (s s₁ : State) (name : String) (arity : Nat) (unit : UnitId) : Prop where
  registered : Registered s₁
  grows : Grows s s₁
  current : s₁.current = s.current
  strings : s₁.module.strings = s.module.strings
  nonzero : unit ≠ 0
  found : ∃ x, s₁.module.units[unit]? = some x ∧ x.name = name ∧ x.arity = arity
  named : ∀ (i : Nat) y, s₁.module.units[i]? = some y →
    i = unit ∨ ∃ x, s.module.units[i]? = some x ∧ x.name = y.name
  bodies : ∀ (i : Nat) y body, s₁.module.units[i]? = some y → y.body = some body →
    s.module.units[i]? = some y

variable {s s₁ s' : State} {name : String} {arity : Nat} {unit : UnitId}

theorem finds_of_declare (h : Registered s) (unknown : s.signatures.get? name = none)
    (origin : Origin) : Finds s { s with
      module := (s.module.declareUnit name arity).2
      signatures := s.signatures.insert name ⟨s.module.units.size, arity, origin⟩ }
      name arity s.module.units.size := by
  -- the unit is the last one and has no body, so that all others are as before
  refine ⟨h.declare unknown origin, ⟨rfl, rfl, rfl, rfl, fun _ _ => id, ?_⟩, rfl, rfl,
    Nat.ne_of_gt h.size_pos, ⟨⟨name, arity, none⟩, ?_, rfl, rfl⟩, ?_, ?_⟩
  · intro i x hx
    exact ⟨x, unit_kept_declareUnit hx, rfl, fun _ => rfl, fun _ => rfl⟩
  · rw [units_declareUnit, if_pos rfl]
  · intro i y hy
    rcases unit_declareUnit_cases hy with ⟨last, -⟩ | hy
    · exact .inl last
    · exact .inr ⟨y, hy, rfl⟩
  · intro i y body hy hbody
    rcases unit_declareUnit_cases hy with ⟨-, rfl⟩ | hy
    · cases hbody
    · exact hy

/-- A call finds its unit: a new one of its name, or the known one. -/
theorem finds_callee (h : Registered s) (called : s.callee? name arity = some (unit, s₁)) :
    Finds s s₁ name arity unit := by
  obtain ⟨signature, known, rfl, rfl, rfl⟩ | ⟨unknown, rfl, rfl⟩ := callee?_cases called
  · obtain ⟨nonzero, x, hx, named⟩ := h.known name signature known
    exact ⟨h, .refl _, rfl, rfl, nonzero, ⟨x, hx, h.arity_of_known known hx⟩,
      fun i y hy => .inr ⟨y, hy, rfl⟩, fun i y body hy _ => hy⟩
  · exact finds_of_declare h unknown .inferred

/-- The unit of a definition has no body yet, and is none of those in progress. -/
theorem finds_define (h : Registered s) (defined : s.define? name arity = some (unit, s₁)) :
    Finds s s₁ name arity unit ∧ unit ∉ s.inProgress ∧
      ∃ x, s₁.module.units[unit]? = some x ∧ x.body = none := by
  obtain ⟨signature, known, rfl, undefined, idle, rfl⟩ | ⟨unknown, rfl, rfl⟩ :=
    define?_cases defined
  · -- the unit was announced or inferred from a call, and its arity is settled now
    obtain ⟨nonzero, x, hx, named⟩ := h.known name signature known
    have empty : x.body = none := by
      unfold Module.isDefined at undefined
      rw [hx] at undefined
      exact Option.isNone_iff_eq_none.mp (by simpa using undefined)
    have own : (s.module.setArity signature.unit arity).units[signature.unit]?
        = some { x with arity } := by
      rw [units_setArity, if_pos rfl, hx]
      rfl
    refine ⟨⟨h.setArity known, ⟨rfl, rfl, rfl, rfl, fun _ _ => id, ?_⟩, rfl, rfl, nonzero,
      ⟨_, own, named, rfl⟩, ?_, ?_⟩, idle, _, own, empty⟩
    · -- the unit itself has no body and is not in progress, every other one is left alone
      intro i y hy
      obtain ⟨z, hz, named', -, other⟩ := unit_kept_setArity signature.unit arity hy
      refine ⟨z, hz, named', fun hbody => other ?_, fun busy => congrArg _ (other ?_)⟩
      · rintro rfl
        cases hx.symm.trans hy
        rw [empty] at hbody
        cases hbody
      · rintro rfl
        exact idle busy
    · intro i y hy
      rcases unit_setArity_cases hy with ⟨here, -⟩ | ⟨-, hy⟩
      · exact .inl here
      · exact .inr ⟨y, hy, rfl⟩
    · intro i y body hy hbody
      rcases unit_setArity_cases hy with ⟨rfl, z, hz, rfl⟩ | ⟨-, hy⟩
      · cases hx.symm.trans hz
        exact absurd hbody (empty ▸ nofun)
      · exact hy
  · -- the unit is new
    refine ⟨finds_of_declare h unknown .declared, ?_, _, Array.getElem?_push_size, rfl⟩
    intro busy
    obtain ⟨x, hx, -⟩ := h.building _ busy
    exact Nat.lt_irrefl _ (Array.getElem?_eq_some_iff.mp hx).1

section Nested

variable {params : List String} {s₂ : State} {result : Operand}

/-- A fresh unit has no instructions but those that store its parameters. -/
theorem enterUnit_eq (s : State) (unit : UnitId) (params : List String) :
    ∃ u, Edits s.module (.new unit params.length) u ∧
      s.enterUnit unit params = { s with current := u, inProgress := unit :: s.inProgress } := by
  obtain ⟨u, edits, same⟩ := edited_bindAll (s := { s with
    current := .new unit params.length
    inProgress := unit :: s.inProgress })
    (params.zip ((List.range params.length).map .value))
  exact ⟨u, edits, same⟩

theorem registered_enterUnit (params : List String) (h : Registered s) {x : CodeUnit}
    (hx : s.module.units[unit]? = some x) (empty : x.body = none) :
    Registered (s.enterUnit unit params) := by
  obtain ⟨u, -, same⟩ := enterUnit_eq s unit params
  rw [same]
  refine ⟨h.main, h.known, h.named, ?_⟩
  intro i hi
  rcases List.mem_cons.mp hi with rfl | hi
  · exact ⟨x, hx, empty⟩
  · exact h.building i hi

/-- Leaving a unit gives it its body. -/
theorem units_leaveUnit (i : Nat) : (s₂.leaveUnit unit result s).module.units[i]?
    = if unit = i then (s₂.module.units[i]?).map ({ · with
        body := some (s₂.current.builder.terminate (.ret result)).finish })
      else s₂.module.units[i]? :=
  Array.getElem?_modify

/-- What is found once a unit has been finished: that unit with its body, or what was there before. -/
theorem unit_leaveUnit_cases {i : Nat} {x : CodeUnit}
    (found : (s₂.leaveUnit unit result s).module.units[i]? = some x) :
    (i = unit ∧ ∃ y, s₂.module.units[unit]? = some y ∧
        x = { y with body := some (s₂.current.builder.terminate (.ret result)).finish }) ∨
      i ≠ unit ∧ s₂.module.units[i]? = some x := by
  rw [units_leaveUnit] at found
  split at found
  next here =>
    subst here
    obtain ⟨y, hy, rfl⟩ := Option.map_eq_some_iff.mp found
    exact .inl ⟨rfl, y, hy, rfl⟩
  next other => exact .inr ⟨Ne.symm other, found⟩

theorem unit_leaveUnit_self {y : CodeUnit} (found : s₂.module.units[unit]? = some y) :
    (s₂.leaveUnit unit result s).module.units[unit]?
      = some { y with body := some (s₂.current.builder.terminate (.ret result)).finish } := by
  rw [units_leaveUnit, if_pos rfl, found]
  rfl

/-- To finish a unit leaves all names and arities alone, and every other unit. -/
theorem unit_kept_leaveUnit {i : Nat} {x : CodeUnit} (found : s₂.module.units[i]? = some x) :
    ∃ y, (s₂.leaveUnit unit result s).module.units[i]? = some y ∧ y.name = x.name ∧
      y.arity = x.arity ∧ (i ≠ unit → y = x) := by
  by_cases here : i = unit
  · subst here
    exact ⟨_, unit_leaveUnit_self found, rfl, rfl, fun other => absurd rfl other⟩
  · refine ⟨x, ?_, rfl, rfl, fun _ => rfl⟩
    rw [units_leaveUnit, if_neg (Ne.symm here), found]

/-- Between the beginning and the end of a unit it keeps its name and arity and gets no body. -/
theorem unit_of_grows (finds : Finds s s₁ name params.length unit)
    (grows : Grows (s₁.enterUnit unit params) s₂) (h : Registered s₂) :
    ∃ y, s₂.module.units[unit]? = some y ∧ y.name = name ∧ y.arity = params.length ∧
      y.body = none := by
  obtain ⟨x, hx, named, arity⟩ := finds.found
  obtain ⟨u, -, same⟩ := enterUnit_eq s₁ unit params
  rw [same] at grows
  obtain ⟨y, hy, named', -, arity'⟩ := grows.units unit x hx
  have busy : unit ∈ s₂.inProgress := grows.inProgress.symm ▸ List.mem_cons_self
  obtain ⟨z, hz, empty⟩ := h.building unit busy
  cases hy.symm.trans hz
  exact ⟨y, hy, named'.trans named, (arity' List.mem_cons_self).trans arity, empty⟩

/-- A finished unit leaves everything else as it has become in the meantime. -/
theorem registered_leaveUnit (result : Operand) (before : Registered s)
    (defined : s.define? name params.length = some (unit, s₁))
    (grows : Grows (s₁.enterUnit unit params) s₂) (h : Registered s₂) :
    Registered (s₂.leaveUnit unit result s₁) ∧ Grows s (s₂.leaveUnit unit result s₁) := by
  obtain ⟨finds, idle, x, hx, empty⟩ := finds_define before defined
  obtain ⟨u, -, same⟩ := enterUnit_eq s₁ unit params
  rw [same] at grows
  have inProgress : s₂.inProgress = unit :: s₁.inProgress := grows.inProgress
  -- the four parts of `Registered`, then the growth since the definition was met
  refine ⟨⟨?_, ?_, ?_, ?_⟩, ?_⟩
  · obtain ⟨z, hz, named, arity⟩ := h.main
    obtain ⟨w, hw, named', arity', -⟩ := unit_kept_leaveUnit hz
    exact ⟨w, hw, named'.trans named, arity'.trans arity⟩
  · intro other signature known
    obtain ⟨nonzero, z, hz, named⟩ := h.known other signature known
    obtain ⟨w, hw, named', -⟩ := unit_kept_leaveUnit hz
    exact ⟨nonzero, w, hw, named'.trans named⟩
  · intro i w hw hi
    rcases unit_leaveUnit_cases hw with ⟨rfl, y, hy, rfl⟩ | ⟨-, hw⟩
    · exact h.named _ y hy hi
    · exact h.named i w hw hi
  · -- a unit that is still in progress is not the one that is finished
    intro i hi
    have other : i ≠ unit := fun same => idle (finds.grows.inProgress ▸ same ▸ hi)
    obtain ⟨z, hz, empty'⟩ := h.building i (inProgress ▸ List.mem_cons_of_mem _ hi)
    obtain ⟨w, hw, -, -, same⟩ := unit_kept_leaveUnit hz
    exact ⟨w, hw, (same other).symm ▸ empty'⟩
  · refine ⟨?_, ?_, ?_, ?_, ?_, ?_⟩
    · -- the growth is that of finding the unit and then of its body
      exact grows.moduleName.trans finds.grows.moduleName
    · exact grows.main.trans finds.grows.main
    · exact finds.grows.inProgress
    · exact finds.grows.unit
    · exact fun i text known => grows.strings i text (finds.grows.strings i text known)
    · intro i z hz
      obtain ⟨z₁, hz₁, named₁, body₁, arity₁⟩ := finds.grows.units i z hz
      obtain ⟨z₂, hz₂, named₂, body₂, arity₂⟩ := grows.units i z₁ hz₁
      obtain ⟨w, hw, named, arity, same⟩ := unit_kept_leaveUnit hz₂
      refine ⟨w, hw, (named.trans named₂).trans named₁, ?_, ?_⟩
      · intro hbody
        have same₁ := body₁ hbody
        have same₂ := body₂ (same₁.symm ▸ hbody)
        rw [← same₁, ← same₂]
        -- what had a body before the definition is another unit
        refine same fun here => ?_
        subst here
        cases hz₁.symm.trans hx
        rw [same₁] at empty
        rw [empty] at hbody
        cases hbody
      · intro busy
        have busy₁ : i ∈ s₁.inProgress := finds.grows.inProgress.symm ▸ busy
        exact (arity.trans (arity₂ (List.mem_cons_of_mem _ busy₁))).trans (arity₁ busy)

end Nested

/-- Interning a text adds at most that text. -/
theorem intern_eq (s : State) (text : String) : ∃ strings,
    (∀ (i : Nat) t, s.module.strings[i]? = some t → strings[i]? = some t) ∧
      (s.intern text).2 = { s with module := { s.module with strings } } := by
  cases found : s.module.strings.findIdx? (· == text) with
  | some string =>
    rw [intern_of_some found]
    exact ⟨s.module.strings, fun _ _ => id, rfl⟩
  | none =>
    rw [intern_of_none found]
    refine ⟨s.module.strings.push text, fun i t ht => ?_, rfl⟩
    rw [Array.getElem?_push, if_neg (Nat.ne_of_lt (Array.getElem?_eq_some_iff.mp ht).1), ht]

/-- Lowering keeps units and signatures in step, and only adds to the module. -/
theorem Trace.registered {ms : List Mention} (h : Trace ms s s') (before : Registered s) :
    Registered s' ∧ Grows s s' := by
  induction h with
  | refl => exact ⟨before, .refl _⟩
  | trans _ _ first rest =>
    obtain ⟨middle, grows⟩ := first before
    obtain ⟨after, grows'⟩ := rest middle
    exact ⟨after, grows.trans grows'⟩
  | edit edits => exact ⟨before.of_module rfl rfl rfl, .of_module rfl rfl edits.unit⟩
  | @intern s text =>
    obtain ⟨strings, kept, same⟩ := intern_eq s text
    rw [same]
    exact ⟨⟨before.main, before.known, before.named, before.building⟩,
      ⟨rfl, rfl, rfl, rfl, kept, fun i x hx => ⟨x, hx, rfl, fun _ => rfl, fun _ => rfl⟩⟩⟩
  -- the call itself is an instruction, the module has changed in finding the callee
  | call found =>
    have finds := finds_callee before found
    refine ⟨finds.registered.of_module rfl rfl rfl, finds.grows.trans (.of_module rfl rfl rfl)⟩
  | defun defined _ result body =>
    obtain ⟨finds, idle, x, hx, empty⟩ := finds_define before defined
    obtain ⟨after, grows⟩ := body (registered_enterUnit _ finds.registered hx empty)
    exact registered_leaveUnit result before defined grows after

/-- The unit of a definition, from when it is found to when its code is complete. -/
theorem Trace.unit_of_define {ms : List Mention} (h : Trace ms (s₁.enterUnit unit params) s₂)
    (before : Registered s) (defined : s.define? name params.length = some (unit, s₁)) :
    Finds s s₁ name params.length unit ∧ Registered (s₁.enterUnit unit params) ∧ Registered s₂ ∧
      Grows (s₁.enterUnit unit params) s₂ ∧ ∃ y, s₂.module.units[unit]? = some y ∧ y.name = name ∧
        y.arity = params.length ∧ y.body = none := by
  obtain ⟨finds, -, x, hx, empty⟩ := finds_define before defined
  have entered := registered_enterUnit params finds.registered hx empty
  obtain ⟨after, grows⟩ := h.registered entered
  exact ⟨finds, entered, after, grows, unit_of_grows finds grows after⟩

end TwinLisp.Graph.Lowering
