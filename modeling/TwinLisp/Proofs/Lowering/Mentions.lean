import TwinLisp.Graph.Linking
import TwinLisp.Proofs.Lowering.Units

/-! The module has what its program mentions, and nothing else. -/

namespace TwinLisp.Graph

namespace Lowering

/-- The instruction is in the unit under construction or in a finished body. -/
def State.Has (s : State) (i : Instr) : Prop :=
  (∃ p, i ∈ s.current.builder.instrsAt p) ∨ s.module.Has i

/-- The instruction calls a unit as it is mentioned, and prints a text of the module. -/
structure Mentioned (M : List Mention) (m : Module) (i : Instr) : Prop where
  call : ∀ dst u args, i = .define dst (.call u args) → u ≠ 0 ∧
    ∃ x, m.units[u]? = some x ∧ .call x.name args.length ∈ M
  string : ∀ string, i.string? = some string → string < m.strings.size

/-- All units, bodies and instructions come from what is mentioned. -/
structure Legal (M : List Mention) (s : State) : Prop where
  units : ∀ (j : Nat) x, s.module.units[j]? = some x → j ≠ 0 → ∃ m ∈ M, m.name = x.name
  bodies : ∀ (j : Nat) x, s.module.units[j]? = some x → j ≠ 0 → x.body.isSome →
    ∃ n, .defun x.name n ∈ M
  instrs : ∀ i, s.Has i → Mentioned M s.module i

variable {M ms : List Mention} {s s₁ s' : State} {i : Instr}

theorem Mentioned.mono {m m' : Module} (h : Mentioned M m i)
    (names : ∀ (u : Nat) x, m.units[u]? = some x → ∃ y, m'.units[u]? = some y ∧ y.name = x.name)
    (strings : m.strings.size ≤ m'.strings.size) : Mentioned M m' i where
  call dst u args hi := by
    obtain ⟨nonzero, x, hx, mem⟩ := h.call dst u args hi
    obtain ⟨y, hy, named⟩ := names u x hx
    exact ⟨nonzero, y, hy, named.symm ▸ mem⟩
  string string hi := Nat.lt_of_lt_of_le (h.string string hi) strings

theorem Grows.strings_le (grows : Grows s s') :
    s.module.strings.size ≤ s'.module.strings.size := by
  refine Nat.not_lt.mp fun fewer => ?_
  exact Nat.lt_irrefl _ (grows.strings_lt fewer)

/-- What neither calls nor prints a text need not be mentioned. -/
theorem mentioned_of_quiet {m : Module} (noCallee : i.callee? = none)
    (known : ∀ string, i.string? = some string → string < m.strings.size) : Mentioned M m i where
  call dst u args hi := by
    subst hi
    cases noCallee
  string := known

theorem Mentioned.of_grows (h : Mentioned M s.module i) (grows : Grows s s') :
    Mentioned M s'.module i :=
  h.mono (fun u x hx => by
    obtain ⟨y, hy, named, -⟩ := grows.units u x hx
    exact ⟨y, hy, named⟩) grows.strings_le

/-- Only the code of the unit under construction has changed. -/
theorem Legal.edit {u : UnitState} (h : Legal M s) (edits : Edits s.module s.current u) :
    Legal M { s with current := u } where
  units := h.units
  bodies := h.bodies
  instrs i hi := by
    rcases hi with ⟨p, hi⟩ | hi
    · rcases edits.quiet p i hi with hi | ⟨noCallee, known⟩
      · exact h.instrs i (.inl ⟨p, hi⟩)
      · exact mentioned_of_quiet noCallee known
    · exact h.instrs i (.inr hi)

/-- Finding the unit of a mentioned function changes no code. -/
theorem Legal.finds {name : String} {arity : Nat} {unit : UnitId} (h : Legal M s)
    (finds : Finds s s₁ name arity unit) (mentioned : ∃ m ∈ M, m.name = name) : Legal M s₁ where
  units j x hx nonzero := by
    -- the unit that is found, or one that was there
    rcases finds.named j x hx with rfl | ⟨y, hy, named⟩
    · obtain ⟨z, hz, named, -⟩ := finds.found
      cases hx.symm.trans hz
      exact named.symm ▸ mentioned
    · exact named ▸ h.units j y hy nonzero
  bodies j x hx nonzero hbody := by
    obtain ⟨body, hbody'⟩ := Option.isSome_iff_exists.mp hbody
    exact h.bodies j x (finds.bodies j x body hx hbody') nonzero hbody
  instrs i hi := by
    refine Mentioned.of_grows ?_ finds.grows
    refine h.instrs i ?_
    rcases hi with ⟨p, hi⟩ | ⟨j, x, body, k, hx, hbody, hk, hi⟩
    · exact .inl ⟨p, finds.current ▸ hi⟩
    · exact .inr ⟨j, x, body, k, finds.bodies j x body hx hbody, hbody, hk, hi⟩

/-- A fresh unit has no code but that which stores its parameters. -/
theorem Legal.enter (h : Legal M s) (unit : UnitId) (params : List String) :
    Legal M (s.enterUnit unit params) := by
  obtain ⟨u, edits, same⟩ := enterUnit_eq s unit params
  have fresh : Legal M { s with
      current := .new unit params.length
      inProgress := unit :: s.inProgress } := by
    refine ⟨h.units, h.bodies, fun i hi => ?_⟩
    -- the new builder is empty, all other code is there already
    rcases hi with ⟨p, hi⟩ | hi
    · have none : (Builder.new params.length).instrsAt p = [] := Builder.instrsAt_new _
      change i ∈ (Builder.new params.length).instrsAt p at hi
      rw [none] at hi
      exact absurd hi List.not_mem_nil
    · exact h.instrs i (.inr hi)
  rw [same]
  exact fresh.edit edits

section LeaveUnit

variable {s₂ : State} {unit : UnitId} {result : Operand} {y : CodeUnit}

/-- The code around a definition, the allocations of its body, or what was there at its end. -/
theorem has_leaveUnit_cases (hi : (s₂.leaveUnit unit result s₁).Has i) :
    (∃ p, i ∈ s₁.current.builder.instrsAt p) ∨ (∃ slot, i = .alloca slot) ∨ s₂.Has i := by
  rcases hi with hi | ⟨j, w, code, k, hw, hcode, hk, hi⟩
  · exact .inl hi
  refine .inr ?_
  rcases unit_leaveUnit_cases hw with ⟨rfl, y, -, rfl⟩ | ⟨-, hw⟩
  · cases hcode
    refine (Builder.mem_finish hk hi).imp id fun ⟨p, hi⟩ => .inl ⟨p, ?_⟩
    rwa [Builder.instrsAt_terminate] at hi
  · exact .inr (.inr ⟨j, w, code, k, hw, hcode, hk, hi⟩)

/-- A unit that has a body keeps it when another one is finished. -/
theorem body_kept_leaveUnit (s₁ : State) (hy : s₂.module.units[unit]? = some y)
    (hollow : y.body = none) {j : Nat} {w : CodeUnit} (hw : s₂.module.units[j]? = some w) :
    ∃ v, (s₂.leaveUnit unit result s₁).module.units[j]? = some v ∧ v.name = w.name ∧
      (w.body.isSome → v = w) := by
  obtain ⟨v, hv, named, -, same⟩ := unit_kept_leaveUnit hw
  refine ⟨v, hv, named, fun hbody => same ?_⟩
  rintro rfl
  cases hw.symm.trans hy
  rw [hollow] at hbody
  cases hbody

theorem has_leaveUnit (hy : s₂.module.units[unit]? = some y) (hollow : y.body = none)
    (hi : s₂.Has i) : (s₂.leaveUnit unit result s₁).Has i := by
  rcases hi with ⟨p, hi⟩ | ⟨j, w, code, k, hw, hcode, hk, hi⟩
  · rw [← Builder.instrsAt_terminate (.ret result)] at hi
    obtain ⟨k, hk, hi⟩ := Builder.mem_finish_of_mem hi
    exact .inr ⟨unit, _, _, k, unit_leaveUnit_self hy, rfl, hk, hi⟩
  · obtain ⟨v, hv, -, same⟩ := body_kept_leaveUnit s₁ hy hollow hw
    cases same (hcode ▸ rfl)
    exact .inr ⟨j, w, code, k, hv, hcode, hk, hi⟩

/-- A definition that is mentioned is finished. -/
theorem Legal.leaveUnit {name : String} {arity : Nat} (outer : Legal M s) (inner : Legal M s₂)
    (finds : Finds s s₁ name arity unit) (here : .defun name arity ∈ M)
    (hy : s₂.module.units[unit]? = some y) (named : y.name = name)
    (whole : Grows s (s₂.leaveUnit unit result s₁)) : Legal M (s₂.leaveUnit unit result s₁) := by
  refine ⟨fun j w hw nonzero => ?_, fun j w hw nonzero hbody => ?_, fun i hi => ?_⟩
  · rcases unit_leaveUnit_cases hw with ⟨rfl, z, hz, rfl⟩ | ⟨-, hw⟩
    · exact inner.units _ z hz nonzero
    · exact inner.units j w hw nonzero
  · rcases unit_leaveUnit_cases hw with ⟨rfl, z, hz, rfl⟩ | ⟨-, hw⟩
    · cases hy.symm.trans hz
      exact ⟨_, named.symm ▸ here⟩
    · exact inner.bodies j w hw nonzero hbody
  · -- the code around the definition, a slot of the finished frame, or what its body was legal in
    rcases has_leaveUnit_cases hi with ⟨p, hi⟩ | ⟨slot, rfl⟩ | hi
    · exact (outer.instrs i (.inl ⟨p, finds.current ▸ hi⟩)).of_grows whole
    · exact mentioned_of_quiet rfl nofun
    · refine (inner.instrs i hi).mono (fun u x hx => ?_) (Nat.le_refl _)
      obtain ⟨z, hz, named, -⟩ := unit_kept_leaveUnit hx
      exact ⟨z, hz, named⟩

end LeaveUnit

/-- Lowering what is mentioned stays with what is mentioned. -/
theorem Trace.legal (h : Trace ms s s') (before : Registered s) (legal : Legal M s)
    (sub : ∀ m ∈ ms, m ∈ M) : Legal M s' := by
  induction h with
  | refl => exact legal
  | trans first _ ih ih' =>
    refine ih' (first.registered before).1 (ih before legal ?_) ?_
    · exact fun m hm => sub m (List.mem_append_left _ hm)
    · exact fun m hm => sub m (List.mem_append_right _ hm)
  | edit edits => exact legal.edit edits
  -- a new string is no instruction; the ones that are there stay known
  | @intern s text =>
    have grows := ((Trace.intern text).registered before).2
    obtain ⟨strings, -, same⟩ := intern_eq s text
    rw [same] at grows ⊢
    exact ⟨legal.units, legal.bodies, fun i hi => (legal.instrs i hi).of_grows grows⟩
  | @call s name args unit s₁ found =>
    have finds := finds_callee before found
    have here : Mention.call name args.length ∈ M := sub _ List.mem_cons_self
    -- the callee has a unit now, and the call to it is the one instruction that is new
    have legal₁ := legal.finds finds ⟨_, here, rfl⟩
    refine ⟨legal₁.units, legal₁.bodies, fun i hi => ?_⟩
    rcases hi with ⟨p, hi⟩ | hi
    · rcases Builder.mem_instrsAt_push hi with hi | rfl
      · exact legal₁.instrs i (.inl ⟨p, hi⟩)
      · refine ⟨fun dst u args' same => ?_, nofun⟩
        cases same
        obtain ⟨x, hx, named, -⟩ := finds.found
        exact ⟨finds.nonzero, x, hx, named ▸ here⟩
    · exact legal₁.instrs i (.inr hi)
  | @defun ms s name params unit s₁ s₂ defined body result ih =>
    obtain ⟨finds, entered, after, grows, y, hy, named, -⟩ := body.unit_of_define before defined
    have here : Mention.defun name params.length ∈ M := sub _ List.mem_cons_self
    -- the body is legal code that begins empty
    have begun := (legal.finds finds ⟨_, here, rfl⟩).enter unit params
    have inner := ih entered begun fun m hm => sub m (List.mem_cons_of_mem _ hm)
    have whole := (registered_leaveUnit result before defined grows after).2
    exact legal.leaveUnit inner finds here hy named whole

/-- The builder has a current block to add instructions to. -/
def State.InRange (s : State) : Prop := s.block < s.nextBlock

/-- What has been mentioned is there: a call in the code, a definition with a body. -/
def Done (m : Module) (has : Instr → Prop) : Mention → Prop
  | .call name arity => ∃ dst u args x, has (.define dst (.call u args)) ∧
    args.length = arity ∧ m.units[u]? = some x ∧ x.name = name
  | .defun name arity => ∃ (j : Nat) (x : CodeUnit), j ≠ 0 ∧ m.units[j]? = some x ∧
    x.name = name ∧ x.arity = arity ∧ x.body.isSome

/-- The current block is one that has been made. -/
theorem Trace.inRange (h : Trace ms s s') (inRange : s.InRange) : s'.InRange := by
  induction h with
  | refl => exact inRange
  | trans _ _ ih ih' => exact ih' (ih inRange)
  | edit edits => exact edits.inRange inRange
  | @intern s text =>
    obtain ⟨strings, -, same⟩ := intern_eq s text
    rw [same]
    exact inRange
  -- neither a call nor a definition moves to another block
  | call found =>
    unfold State.InRange State.block State.nextBlock at inRange
    rw [← (current_of_callee? found).1] at inRange
    exact Nat.lt_of_lt_of_eq inRange (Builder.size_push _).symm
  | defun defined =>
    unfold State.InRange State.block State.nextBlock at inRange
    rw [← (current_of_define? defined).1] at inRange
    exact inRange

/-- Instructions of the unit under construction stay where they are. -/
theorem Trace.instrsAt (h : Trace ms s s') {p : BlockId}
    (hi : i ∈ s.current.builder.instrsAt p) : i ∈ s'.current.builder.instrsAt p := by
  induction h with
  | refl => exact hi
  | trans _ _ ih ih' => exact ih' (ih hi)
  | edit edits => exact edits.instrs p i hi
  | @intern s text =>
    obtain ⟨strings, -, same⟩ := intern_eq s text
    rw [same]
    exact hi
  | call found =>
    rw [← (current_of_callee? found).1] at hi
    exact Builder.mem_instrsAt_push_of_mem hi
  | defun defined =>
    rw [← (current_of_define? defined).1] at hi
    exact hi

/-- No instruction is lost. -/
theorem Trace.has (h : Trace ms s s') (before : Registered s) (hi : s.Has i) : s'.Has i := by
  rcases hi with ⟨p, hi⟩ | ⟨j, x, body, k, hx, hbody, hk, hi⟩
  · exact .inl ⟨p, h.instrsAt hi⟩
  · obtain ⟨y, hy, -, same, -⟩ := (h.registered before).2.units j x hx
    cases same (hbody ▸ rfl)
    exact .inr ⟨j, x, body, k, hy, hbody, hk, hi⟩

theorem Done.mono {m m' : Module} {has has' : Instr → Prop} {mention : Mention}
    (done : Done m has mention)
    (units : ∀ (j : Nat) x, m.units[j]? = some x → ∃ y, m'.units[j]? = some y ∧
      y.name = x.name ∧ (x.body.isSome → y = x))
    (sub : ∀ i, has i → has' i) : Done m' has' mention := by
  cases mention with
  | call name arity =>
    obtain ⟨dst, u, args, x, hi, length, hx, named⟩ := done
    obtain ⟨y, hy, named', -⟩ := units u x hx
    exact ⟨dst, u, args, y, sub _ hi, length, hy, named'.trans named⟩
  | defun name arity =>
    obtain ⟨j, x, nonzero, hx, named, fits, hbody⟩ := done
    obtain ⟨y, hy, -, same⟩ := units j x hx
    cases same hbody
    exact ⟨j, x, nonzero, hy, named, fits, hbody⟩

/-- Lowering does what is mentioned. -/
theorem Trace.done (h : Trace ms s s') (before : Registered s) (inRange : s.InRange) :
    ∀ m ∈ ms, Done s'.module s'.Has m := by
  induction h with
  | refl => exact fun m hm => absurd hm List.not_mem_nil
  | edit => exact fun m hm => absurd hm List.not_mem_nil
  | intern => exact fun m hm => absurd hm List.not_mem_nil
  | trans first rest ih ih' =>
    intro m hm
    -- what the first steps have done, the others keep
    have middle := (first.registered before).1
    rcases List.mem_append.mp hm with hm | hm
    · refine (ih before inRange m hm).mono (fun j x hx => ?_) fun i hi => rest.has middle hi
      obtain ⟨y, hy, named, same, -⟩ := (rest.registered middle).2.units j x hx
      exact ⟨y, hy, named, same⟩
    · exact ih' middle (first.inRange inRange) m hm
  | @call s name args unit s₁ found =>
    intro m hm
    cases List.mem_singleton.mp hm
    have finds := finds_callee before found
    obtain ⟨x, hx, named, -⟩ := finds.found
    refine ⟨s₁.fresh, unit, args, x, .inl ⟨s₁.block, ?_⟩, rfl, hx, named⟩
    -- the call is appended to the current block, which is there
    have inRange₁ : s₁.block < s₁.nextBlock := by
      unfold State.InRange State.block State.nextBlock at inRange
      rwa [← finds.current] at inRange
    change _ ∈ ((_ : Builder).push _).instrsAt _
    rw [Builder.instrsAt_push, if_pos ⟨rfl, inRange₁⟩]
    exact List.mem_append_right _ List.mem_cons_self
  | @defun ms s name params unit s₁ s₂ defined body result ih =>
    -- the body is traced from a frame of its own
    obtain ⟨finds, entered, -, -, y, hy, named, arity, hollow⟩ := body.unit_of_define before defined
    have inRange' : (s₁.enterUnit unit params).InRange := by
      obtain ⟨u, edits, same⟩ := enterUnit_eq s₁ unit params
      rw [same]
      exact edits.inRange Nat.one_pos
    intro m hm
    rcases List.mem_cons.mp hm with rfl | hm
    · -- the definition itself is done with, and what its body mentions has been done before
      exact ⟨unit, _, finds.nonzero, unit_leaveUnit_self hy, named, arity, rfl⟩
    · exact (ih entered inRange' m hm).mono (fun _ _ => body_kept_leaveUnit s₁ hy hollow)
        fun _ => has_leaveUnit hy hollow

end Lowering

end TwinLisp.Graph
