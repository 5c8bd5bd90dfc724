import TwinLisp.Proofs.Lowering.Complete
import TwinLisp.Proofs.Lowering.Mentions
import TwinLisp.Proofs.Lowering.Order.Derivations

/-! What a module is like that a program is lowered to, before it is verified. -/

namespace TwinLisp.Graph

namespace Lowering

/-- Finished bodies have as many parameters as their units. -/
def Fitted (s : State) : Prop :=
  ∀ (u : Nat) x body, s.module.units[u]? = some x → x.body = some body →
    body.params.length = x.arity

variable {M ms : List Mention} {s s₁ s' : State} {program : List Expr} {config : LowerConfig}
  {m : Module}

/-- The unit under construction keeps its parameters. -/
theorem Trace.arity (h : Trace ms s s') : s'.current.builder.arity = s.current.builder.arity := by
  induction h with
  | refl => rfl
  | trans _ _ first rest => exact rest.trans first
  | edit edits => exact edits.arity
  | @intern s text =>
    obtain ⟨strings, -, same⟩ := intern_eq s text
    rw [same]
  | call found =>
    have same := (current_of_callee? found).1
    exact congrArg (·.builder.arity) same
  -- the body has an arity of its own, which is left with it
  | defun defined =>
    have same := (current_of_define? defined).1
    exact congrArg (·.builder.arity) same

/-- A unit that is begun with parameters has as many of them when its body has been lowered. -/
theorem Trace.arity_of_enterUnit {unit : UnitId} {params : List String}
    (h : Trace ms (s.enterUnit unit params) s') : s'.current.builder.arity = params.length := by
  obtain ⟨u, edits, same⟩ := enterUnit_eq s unit params
  rw [h.arity, same]
  exact edits.arity

/-- Every body keeps as many parameters as the arity of its unit. -/
theorem Trace.fitted (h : Trace ms s s') (before : Registered s) (fitted : Fitted s) :
    Fitted s' := by
  induction h with
  | refl => exact fitted
  | trans first _ ih ih' => exact ih' (first.registered before).1 (ih before fitted)
  | edit => exact fitted
  | @intern s text =>
    obtain ⟨strings, -, same⟩ := intern_eq s text
    rw [same]
    exact fitted
  | call found =>
    have finds := finds_callee before found
    exact fun u x body hx hbody => fitted u x body (finds.bodies u x body hx hbody) hbody
  | @defun ms s name params unit s₁ s₂ defined body result ih =>
    obtain ⟨finds, entered, -, -, y, hy, -, arity, -⟩ := body.unit_of_define before defined
    obtain ⟨v, -, same⟩ := enterUnit_eq s₁ unit params
    have inner := ih entered (by
      rw [same]
      exact fun u x body hx hbody => fitted u x body (finds.bodies u x body hx hbody) hbody)
    intro u w code hw hcode
    rcases unit_leaveUnit_cases hw with ⟨rfl, z, hz, rfl⟩ | ⟨-, hw⟩
    · -- the body just finished: its parameters are numbered from the arity it was entered with
      cases hy.symm.trans hz
      cases hcode
      exact (List.length_range.trans body.arity_of_enterUnit).trans arity.symm
    · exact inner u w code hw hcode

/-! Where lowering begins. -/

/-- Lowering can begin: no code has been added, and only what is mentioned is known. -/
structure Ready (M : List Mention) (s : State) : Prop where
  registered : Registered s
  current : s.current = .new 0 0
  inProgress : s.inProgress = [0]
  main : s.module.main = 0
  bare : ∀ (j : Nat) x, s.module.units[j]? = some x → x.body = none
  units : ∀ (j : Nat) x, s.module.units[j]? = some x → j ≠ 0 → ∃ m ∈ M, m.name = x.name

/-- Nothing is lowered yet: one unit, `main`, without a body and without arguments. -/
theorem ready_initial (M : List Mention) (moduleName : String) : Ready M (.initial moduleName) := by
  have units (j : Nat) (x : CodeUnit) (hx : (State.initial moduleName).module.units[j]? = some x) :
      j = 0 ∧ x = ⟨"main", 0, none⟩ := by
    change #[(⟨"main", 0, none⟩ : CodeUnit)][j]? = some x at hx
    obtain ⟨lt, same⟩ := Array.getElem?_eq_some_iff.mp hx
    obtain rfl : j = 0 := Nat.lt_one_iff.mp lt
    exact ⟨rfl, same.symm⟩
  refine ⟨⟨⟨_, rfl, rfl, rfl⟩, nofun, ?_, ?_⟩, rfl, rfl, rfl, ?_, ?_⟩
  · exact fun i x hx nonzero => absurd (units i x hx).1 nonzero
  · -- the one unit in progress is `main`
    intro i hi
    cases List.mem_singleton.mp hi
    exact ⟨_, rfl, rfl⟩
  · intro j x hx
    rw [(units j x hx).2]
  · exact fun j x hx nonzero => absurd (units j x hx).1 nonzero

/-- A form the presolve pass reads a signature from is a definition that lowering meets. -/
theorem mention_of_signature? {e : Expr} {name : String} {arity : Nat}
    (h : signature? e = some (name, arity)) : .defun name arity ∈ Mention.ofExpr e := by
  unfold signature? at h
  split at h
  next =>
    split at h
    next form =>
      cases h
      rw [Mention.ofExpr_defun form]
      exact List.mem_cons_self
    next => cases h
  next => cases h

/-- Presolving one form declares at most a unit the form mentions. -/
theorem Ready.presolve {e : Expr} (h : Ready M s) (sub : ∀ m ∈ Mention.ofExpr e, m ∈ M) :
    Ready M (presolve s e) := by
  unfold Lowering.presolve
  split
  next => exact h
  next name arity found =>
    split
    next => exact h
    next unknown =>
      have unknown : s.signatures.get? name = none := by simpa using unknown
      -- the only new unit is the declared one, which has no body
      refine ⟨h.registered.declare unknown .declared, h.current, h.inProgress, h.main,
        fun j x hx => ?_, fun j x hx nonzero => ?_⟩
      · rcases unit_declareUnit_cases hx with ⟨-, rfl⟩ | hx
        · rfl
        · exact h.bare j x hx
      · rcases unit_declareUnit_cases hx with ⟨-, rfl⟩ | hx
        · exact ⟨_, sub _ (mention_of_signature? found), rfl⟩
        · exact h.units j x hx nonzero

def start (config : LowerConfig) (program : List Expr) : State :=
  if config.presolve then program.foldl presolve (.initial config.moduleName)
  else .initial config.moduleName

theorem Ready.foldl {es : List Expr} (h : Ready M s) (sub : ∀ m ∈ Mention.ofExprs es, m ∈ M) :
    Ready M (es.foldl Lowering.presolve s) := by
  induction es generalizing s with
  | nil => exact h
  | cons e es ih =>
    rw [Mention.ofExprs] at sub
    refine ih (h.presolve fun m hm => ?_) fun m hm => ?_
    · exact sub m (List.mem_append_left _ hm)
    · exact sub m (List.mem_append_right _ hm)

/-- The presolve pass over the whole program ends ready. -/
theorem ready_start (config : LowerConfig) (program : List Expr) :
    Ready (Mention.ofExprs program) (start config program) := by
  have initial := ready_initial (Mention.ofExprs program) config.moduleName
  unfold start
  split
  · exact initial.foldl fun _ => id
  · exact initial

theorem lowerUnverified_of_ok (run : lowerMain program (start config program) = .ok ⟨⟩ s') :
    lowerUnverified config program = .ok s'.module := by
  unfold start at run
  unfold lowerUnverified
  dsimp only
  rw [run]

theorem lowerUnverified_of_error {error : ProgramError}
    (run : lowerMain program (start config program) = .error error s') :
    lowerUnverified config program = .error error := by
  unfold start at run
  unfold lowerUnverified
  dsimp only
  rw [run]

/-- The modules of a program are those that its derivations end with. -/
theorem lowerUnverified_ok_iff : lowerUnverified config program = .ok m ↔
    ∃ results s, Values program (start config program) results s ∧ m = s.finishMain.module := by
  constructor
  · intro h
    unfold lowerUnverified at h
    dsimp only at h
    split at h
    next run =>
      cases h
      obtain ⟨results, s, derived, same⟩ := lowerMain_ok_iff.mp run
      exact ⟨results, s, derived, congrArg State.module same⟩
    next => cases h
  · rintro ⟨results, s, derived, rfl⟩
    exact lowerUnverified_of_ok (lowerMain_of_values derived)

/-! Where lowering ends. -/

/-- What a module has that a program is lowered to which mentions `M`. -/
structure Result (M : List Mention) (m : Module) : Prop where
  main : m.main = 0
  entry : ∃ x, m.units[0]? = some x ∧ x.name = "main" ∧ x.body.isSome
  distinct : ∀ (i j : Nat) x y, m.units[i]? = some x → m.units[j]? = some y → i ≠ 0 → j ≠ 0 →
    x.name = y.name → i = j
  units : ∀ (j : Nat) x, m.units[j]? = some x → j ≠ 0 → ∃ mention ∈ M, mention.name = x.name
  defined : ∀ (j : Nat) x, m.units[j]? = some x → j ≠ 0 → x.body.isSome → ∃ n, .defun x.name n ∈ M
  bodies : ∀ (j : Nat) x body, m.units[j]? = some x → x.body = some body →
    Finished body ∧ body.params.length = x.arity
  code : ∀ i, m.Has i → Mentioned M m i
  done : ∀ mention ∈ M, Done m m.Has mention

theorem Ready.builder (h : Ready M s) : s.builder = .new 0 := by
  unfold State.builder
  rw [h.current]
  rfl

theorem Ready.isOpen (h : Ready M s) : s.Open := by
  rw [State.Open, h.builder]
  exact open_new 0

theorem Ready.slotted (h : Ready M s) : Slotted s.nextSlot s.current := by
  rw [h.current]
  exact ⟨nofun, nofun⟩

/-- No unit has been built yet. -/
theorem Ready.not_built (h : Ready M s) {j : Nat} {x : CodeUnit} {body : Body}
    (hx : s.module.units[j]? = some x) : x.body ≠ some body := by
  rw [h.bare j x hx]
  exact nofun

theorem Ready.legal (h : Ready M s) : Legal M s where
  units := h.units
  bodies j x hx _ hbody := by
    rw [h.bare j x hx] at hbody
    cases hbody
  instrs i hi := by
    rcases hi with ⟨p, hi⟩ | ⟨j, x, body, k, hx, hbody, -⟩
    · rw [h.current] at hi
      change i ∈ (Builder.new 0).instrsAt p at hi
      rw [Builder.instrsAt_new] at hi
      exact absurd hi List.not_mem_nil
    · exact absurd hbody (h.not_built hx)

theorem Ready.ordered (h : Ready M s) : Ordered (entryKnown 0) s where
  valid := by
    rw [h.builder]
    exact valid_new 0
  slotted := h.slotted
  bodies _ _ _ hx hbody := absurd hbody (h.not_built hx)

section Finish

variable (unit : s.current.unit = 0) {x : CodeUnit} (hx : s.module.units[0]? = some x)
  (empty : x.body = none)

def State.mainBody (s : State) : Body := (s.builder.terminate (.ret (.const 0))).finish

include unit

theorem units_finishMain (j : Nat) : s.finishMain.module.units[j]? =
    if 0 = j then (s.module.units[j]?).map ({ · with body := some s.mainBody })
    else s.module.units[j]? := by
  refine (Array.getElem?_modify ..).trans ?_
  change (if s.current.unit = j then _ else _) = _
  rw [unit]
  rfl

theorem units_finishMain_other {j : Nat} (nonzero : j ≠ 0) :
    s.finishMain.module.units[j]? = s.module.units[j]? := by
  rw [units_finishMain unit, if_neg nonzero.symm]

include hx

theorem main_finishMain :
    s.finishMain.module.units[0]? = some { x with body := some s.mainBody } := by
  rw [units_finishMain unit, if_pos rfl, hx]
  rfl

/-- A finished body is that of `main`, or was finished before. -/
theorem body_finishMain {j : Nat} {y : CodeUnit} {body : Body}
    (hy : s.finishMain.module.units[j]? = some y) (hbody : y.body = some body) :
    j = 0 ∧ y = { x with body := some s.mainBody } ∧ body = s.mainBody ∨
      s.module.units[j]? = some y := by
  rcases Nat.eq_zero_or_pos j with rfl | pos
  · rw [main_finishMain unit hx] at hy
    cases hy
    cases hbody
    exact .inl ⟨rfl, rfl, rfl⟩
  · exact .inr ((units_finishMain_other unit (Nat.ne_of_gt pos)).symm.trans hy)

/-- Finishing `main` adds the slots of its frame and nothing else. -/
theorem has_of_finishMain {i : Instr} (hi : s.finishMain.module.Has i) :
    (∃ slot, i = .alloca slot) ∨ s.Has i := by
  obtain ⟨j, y, body, k, hy, hbody, hk, mem⟩ := hi
  rcases body_finishMain unit hx hy hbody with ⟨-, -, rfl⟩ | hy
  · rcases Builder.mem_finish hk mem with alloca | ⟨p, mem⟩
    · exact .inl alloca
    · rw [Builder.instrsAt_terminate] at mem
      exact .inr (.inl ⟨p, mem⟩)
  · exact .inr (.inr ⟨j, y, body, k, hy, hbody, hk, mem⟩)

include empty

/-- Finishing `main` keeps the name of every unit. -/
theorem kept_finishMain (j : Nat) (z : CodeUnit) (hz : s.module.units[j]? = some z) :
    ∃ w, s.finishMain.module.units[j]? = some w ∧ w.name = z.name ∧ (z.body.isSome → w = z) := by
  rcases Nat.eq_zero_or_pos j with rfl | pos
  · cases hz.symm.trans hx
    refine ⟨_, main_finishMain unit hx, rfl, fun hbody => ?_⟩
    rw [empty] at hbody
    cases hbody
  · exact ⟨z, (units_finishMain_other unit (Nat.ne_of_gt pos)).trans hz, rfl, fun _ => rfl⟩

theorem has_finishMain {i : Instr} (hi : s.Has i) : s.finishMain.module.Has i := by
  rcases hi with ⟨p, hi⟩ | ⟨j, y, body, k, hy, hbody, hk, mem⟩
  · rw [← Builder.instrsAt_terminate (.ret (.const 0))] at hi
    obtain ⟨k, hk, mem⟩ := Builder.mem_finish_of_mem hi
    exact ⟨0, _, s.mainBody, k, main_finishMain unit hx, rfl, hk, mem⟩
  · obtain ⟨w, hw, -, same⟩ := kept_finishMain unit hx empty j y hy
    cases same (hbody ▸ rfl)
    exact ⟨j, y, body, k, hw, hbody, hk, mem⟩

end Finish

/-- Lowering ends in the main unit, which has no body yet. -/
theorem Ready.unfinished (ready : Ready M s) (registered : Registered s₁) (grows : Grows s s₁) :
    s₁.current.unit = 0 ∧
      ∃ x, s₁.module.units[0]? = some x ∧ x.name = "main" ∧ x.arity = 0 ∧ x.body = none := by
  have unit : s₁.current.unit = 0 := by
    rw [grows.unit, ready.current]
    rfl
  obtain ⟨x, hx, named, arity⟩ := registered.main
  obtain ⟨y, hy, empty⟩ := registered.building 0
    (by rw [grows.inProgress, ready.inProgress]; exact List.mem_singleton.mpr rfl)
  cases hx.symm.trans hy
  exact ⟨unit, x, hx, named, arity, empty⟩

/-- A derivation from where lowering begins ends with what it should. -/
theorem result_of_values (ready : Ready (Mention.ofExprs program) s) {results : List Operand}
    (derived : Values program s results s₁) :
    Result (Mention.ofExprs program) s₁.finishMain.module := by
  -- what holds at the end of any lowering, from where this one begins
  have trace := derived.trace
  obtain ⟨registered, grows⟩ := trace.registered ready.registered
  have legal := trace.legal ready.registered ready.legal fun _ => id
  have fitted := trace.fitted ready.registered fun j x body hx hbody =>
    absurd hbody (ready.not_built hx)
  have done := trace.done ready.registered ready.isOpen.lt
  obtain ⟨D, carried, -⟩ := derived.keeps ready.isOpen _ ready.ordered
  obtain ⟨unit, x, hx, named, arity, empty⟩ := ready.unfinished registered grows
  -- only `main` is finished after that, every other unit stays as it is
  have first := main_finishMain unit hx
  have other {j : Nat} {z : CodeUnit} (hz : s₁.finishMain.module.units[j]? = some z)
      (nonzero : j ≠ 0) : s₁.module.units[j]? = some z :=
    (units_finishMain_other unit nonzero).symm.trans hz
  have finished : Finished s₁.mainBody := by
    have region : (Builder.new 0).Region s₁.builder := ready.builder ▸ derived.region ready.isOpen
    exact finished_of_region region carried.valid nofun
  have params : s₁.mainBody.params.length = 0 := by
    refine List.length_range.trans (trace.arity.trans ?_)
    rw [ready.current]
    rfl
  have kept := kept_finishMain unit hx empty
  refine ⟨?_, ⟨_, first, named, rfl⟩, ?_, ?_, ?_, ?_, fun i hi => ?_, fun mention mem => ?_⟩
  · -- the clauses of `Result` in their order: entry, names, units, bodies, code, mentions
    exact grows.main.trans ready.main
  · intro i j y z hy hz hi hj same
    exact registered.eq_of_name (other hy hi) (other hz hj) hi hj same
  · exact fun j z hz nonzero => legal.units j z (other hz nonzero) nonzero
  · exact fun j z hz nonzero => legal.bodies j z (other hz nonzero) nonzero
  · intro j z body hz hbody
    rcases body_finishMain unit hx hz hbody with ⟨-, rfl, rfl⟩ | hz
    · exact ⟨finished, params.trans arity.symm⟩
    · exact ⟨carried.bodies j z body hz hbody, fitted j z body hz hbody⟩
  · -- what `main` gained in being finished are the slots of its frame
    rcases has_of_finishMain unit hx hi with ⟨slot, rfl⟩ | hi
    · exact mentioned_of_quiet rfl nofun
    · refine (legal.instrs i hi).mono (fun j z hz => ?_) (Nat.le_refl _)
      obtain ⟨w, hw, named', -⟩ := kept j z hz
      exact ⟨w, hw, named'⟩
  · exact (done mention mem).mono kept fun i => has_finishMain unit hx empty

theorem result_of_lowerUnverified (h : lowerUnverified config program = .ok m) :
    Result (Mention.ofExprs program) m := by
  obtain ⟨results, s, derived, rfl⟩ := lowerUnverified_ok_iff.mp h
  exact result_of_values (ready_start config program) derived

end Lowering

end TwinLisp.Graph
