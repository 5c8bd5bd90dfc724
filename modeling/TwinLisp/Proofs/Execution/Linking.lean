import TwinLisp.Proofs.Execution.Calls

/-!
The finished module of a program whose functions are defined at its top level: it has the code of each
of them, under its name.
-/

namespace TwinLisp.Execution

open TwinLisp.Graph TwinLisp.Graph.Lowering TwinLisp.Expr

/-- The module has what has been made so far, and what has been finished is as it was. -/
structure Completes (m : Module) (s : State) : Prop where
  strings : ∀ (i : Nat) text, s.module.strings[i]? = some text → m.strings[i]? = some text
  units : ∀ (i : Nat) x, s.module.units[i]? = some x →
    ∃ y, m.units[i]? = some y ∧ y.name = x.name ∧ (x.body.isSome → y = x)

variable {program : List Expr} {m : Module} {s s₁ s₂ s' : State} {f : Builder} {name : String}
  {params : List String} {unit : UnitId} {e : Expr} {es : List Expr} {as results : List Operand}

namespace Completes

/-- What a module has of a later state, it has of an earlier one. -/
theorem back (h : Completes m s') (grows : Grows s s') : Completes m s where
  strings i text known := h.strings i text (grows.strings i text known)
  units i x hx := by
    obtain ⟨y, hy, named, kept, -⟩ := grows.units i x hx
    obtain ⟨z, hz, named', kept'⟩ := h.units i y hy
    refine ⟨z, hz, named'.trans named, fun hbody => ?_⟩
    have same := kept hbody
    rw [kept' (same ▸ hbody), same]

theorem ahead (h : Completes m s) (grown : s.builder.Grown f) : Ahead m f s where
  grown := grown
  strings := h.strings
  units i x hx := by
    obtain ⟨y, hy, named, -⟩ := h.units i x hx
    exact ⟨y, hy, named⟩

/-- Inside the unit of a function that is finished then. -/
theorem inUnit {result : Operand} (h : Completes m (s₂.leaveUnit unit result s₁))
    (grown : s₂.builder.Grown f) : Ahead m f s₂ where
  grown := grown
  strings := h.strings
  units i x hx := by
    obtain ⟨y, hy, named, -⟩ := unit_kept_leaveUnit hx
    obtain ⟨z, hz, named', -⟩ := h.units i y hy
    exact ⟨z, hz, named'.trans named⟩

/-- The main unit is finished last. -/
theorem finishMain {x : CodeUnit} (main : s.current.unit = 0) (hx : s.module.units[0]? = some x)
    (empty : x.body = none) : Completes s.finishMain.module s :=
  ⟨fun _ _ => id, kept_finishMain main hx empty⟩

end Completes

/-- The code of a function is found under its name. -/
theorem compiled_of_define (registered : Registered s)
    (defined : s.define? name params.length = some (unit, s₁))
    (body : Values es (s₁.enterUnit unit params) results s₂)
    (settled : SettledAll (Reserved program) (.function params) es) (nonempty : es ≠ [])
    (free : ∀ x ∈ params, ¬Reserved program x)
    (completes : Completes m (s₂.leaveUnit unit (lastOf results) s₁)) :
    ∃ (j : Nat) (x : CodeUnit) (code : Body), j ≠ 0 ∧ m.units[j]? = some x ∧ x.name = name ∧
      x.body = some code ∧ Compiled program m params es code := by
  obtain ⟨finds, entered, -, -, y, hy, named, -⟩ := body.trace.unit_of_define registered defined
  obtain ⟨z, hz, -, kept⟩ := completes.units unit _ (unit_leaveUnit_self hy)
  cases kept rfl
  have opened : s₂.Open := (body.region region_enterUnit.isOpen).isOpen
  -- the unit is finished as soon as its body has been lowered
  have ahead := completes.inUnit (Builder.grown_terminate opened.going (.ret (lastOf results)))
  exact ⟨unit, _, _, finds.nonzero, hz, named, rfl,
    .intro body entered settled nonempty free ahead⟩

/-- Each expression of a sequence is lowered at its turn. -/
theorem derivation_of_mem (h : Values es s as s') (mem : e ∈ es) :
    ∃ ms ms' s₁ a s₂, Trace ms s s₁ ∧ Lowering.Value e s₁ a s₂ ∧ Trace ms' s₂ s' := by
  induction es generalizing s as with
  | nil => cases mem
  | cons first es ih =>
    cases h with
    | cons here rest =>
      rcases List.mem_cons.mp mem with rfl | mem
      · exact ⟨_, _, s, _, _, .refl s, here, rest.trace⟩
      · obtain ⟨ms, ms', s₁, a, s₂, before, inner, after⟩ := ih rest mem
        exact ⟨_, ms', s₁, a, s₂, here.trace.trans before, inner, after⟩

/-- A definition is lowered to a unit of its own. -/
inductive LowersDefun : Expr → State → State → Prop
  | intro {head hs name ns place params e es span s unit s₁ results s₂}
    (form : Form.classify head = some .defun) (listed : place.names? = some params)
    (defined : s.define? name params.length = some (unit, s₁))
    (body : Values (e :: es) (s₁.enterUnit unit params) results s₂) :
    LowersDefun (.list (.ident head hs :: .ident name ns :: place :: e :: es) span) s
      (s₂.leaveUnit unit (lastOf results) s₁)

theorem lowersDefun {a : Operand} (h : Lowering.Value e s a s') (defun : e.form? = some .defun) :
    LowersDefun e s s' := by
  cases h with
  | defun form listed defined body => exact .intro form listed defined body
  -- every other rule is for a list with another head, or for no list
  | logic other =>
    have same := defun.symm.trans (form?_list other)
    split at same <;> cases same
  | logicEmpty other =>
    have same := defun.symm.trans (form?_list other)
    split at same <;> cases same
  | call noForm => cases defun.symm.trans noForm
  | int | «variable» | letIn => cases defun
  | print other | store other | introduce other | const other | cond other | not other | loop other
  | lambda other | neg other | arith other => cases defun.symm.trans (form?_list other)

/-- What the top-level expressions of a program are: settled code, or definitions of functions with
settled bodies. -/
structure Rooted (program : List Expr) (e : Expr) : Prop where
  code : e.form? ≠ some .defun → Settled (Reserved program) .top e
  body : ∀ head hs name ns place params body span, Form.classify head = some .defun →
    place.names? = some params → e = .list (.ident head hs :: .ident name ns :: place :: body) span →
      SettledAll (Reserved program) (.function params) body ∧ ∀ x ∈ params, ¬Reserved program x

/-- The module of a program has the code of its functions. -/
theorem linked_of_values (ready : Ready (Mention.ofExprs program) s) (derived : Values program s results s')
    (rooted : ∀ e ∈ program, Rooted program e) (completes : Completes s'.finishMain.module s') :
    Linked program s'.finishMain.module where
  distinct := (result_of_values ready derived).distinct
  code := by
    rintro name params body ⟨head, hs, ns, place, span, mem, form, listed⟩
    -- the code before keeps names apart, and the code behind lets finished units be
    obtain ⟨ms, ms', s₁, a, s₂, before, inner, after⟩ := derivation_of_mem derived mem
    obtain ⟨settled, free⟩ := (rooted _ mem).body head hs name ns place params body span form listed rfl
    have registered := (before.registered ready.registered).1
    have grows := (after.registered (inner.trace.registered registered).1).2
    cases lowersDefun inner (form?_list form) with
    | intro _ listed' defined derived =>
      cases listed.symm.trans listed'
      exact compiled_of_define registered defined derived settled (List.cons_ne_nil _ _) free
        (completes.back grows)

end TwinLisp.Execution
