import TwinLisp.Proofs.Scoping
import TwinLisp.StraightLine

/-! Straight-line programs define no functions and have no branches, so that they are statically scoped. -/

namespace TwinLisp

open TwinLisp.Expr

variable {program : List Expr} {e : Expr} {form : Form} {c c' : Placed}

namespace Expr.StraightLine

theorem ne_nil {name : String} {span : Span} (straight : (Expr.ident name span).StraightLine) :
    name ≠ "nil" := by
  cases straight with
  | ident named => exact named

theorem form_cases (straight : e.StraightLine) (headed : e.form? = some form) :
    form = .print ∨ form.isStraight := by
  cases straight with
  | print classified => exact .inl (Option.some.inj (headed.symm.trans classified))
  | form classified straight =>
    obtain rfl := Option.some.inj (headed.symm.trans classified)
    exact .inr straight
  | _ => cases headed

/-- No straight-line form branches, and none of them makes a function. -/
theorem form_plain (straight : e.StraightLine) (headed : e.form? = some form) :
    form.branches = false ∧ form ≠ .defun ∧ form ≠ .lambda := by
  rcases straight.form_cases headed with rfl | straight
  · exact ⟨rfl, nofun, nofun⟩
  · refine ⟨?_, ?_, ?_⟩
    · cases form <;> first | rfl | cases straight
    · rintro rfl
      cases straight
    · rintro rfl
      cases straight

/-- The parts of a list are straight-line code, or strings that it prints. -/
theorem of_mem {head : String} {hs span : Span} {args : List Expr}
    (straight : (Expr.list (.ident head hs :: args) span).StraightLine) (mem : e ∈ args) :
    e.StraightLine ∨ ∃ text span, e = .str text span := by
  cases straight with
  | print _ parts =>
    by_cases plain : ∀ text at', e ≠ .str text at'
    · exact .inl (parts e mem plain)
    · exact .inr (by simpa using plain)
  | form _ _ parts => exact .inl (parts e mem)

end Expr.StraightLine

/-- The code is straight-line code or a string, and it stands where it runs whenever the program does. -/
structure Plain (c : Placed) : Prop where
  outside : c.1.inFunction = false
  unconditional : c.1.unconditional = true
  code : c.2.StraightLine ∨ ∃ text span, c.2 = .str text span

/-- Parts of straight-line code are such code, or texts that are printed. -/
theorem Plain.of_part (h : Plain c) (part : Part c c') : Plain c' := by
  obtain ⟨outside, unconditional, straight | ⟨text, span, same⟩⟩ := h
  · cases part with
    | operand classified =>
      obtain ⟨branches, -⟩ := straight.form_plain (form?_list classified)
      refine ⟨outside, ?_, straight.of_mem (by simp)⟩
      simpa [Place.under, Place.binding, branches] using unconditional
    | argument noForm =>
      exact ⟨outside, unconditional, straight.of_mem (by simp)⟩
    | init =>
      cases straight with
      | letIn _ inits _ => exact ⟨outside, unconditional, .inl (inits _ (by simp))⟩
    | inner =>
      cases straight with
      | letIn _ _ inner => exact ⟨outside, rfl, .inl (inner _ (by simp))⟩
    -- there are no definitions in straight-line code
    | body form => exact absurd rfl (straight.form_plain (form?_list form)).2.1
  · -- a text has no parts
    obtain ⟨p, e⟩ := c
    cases same
    cases part

theorem Plain.of_contains (h : Plain c) (inner : Contains c c') : Plain c' := by
  induction inner with
  | refl => exact h
  | tail _ part ih => exact ih.of_part part

theorem form?_of_target? {name : String} (target : e.target? form = some name) : e.form? = some form := by
  unfold target? at target
  split at target
  next head hs _ _ _ _ =>
    split at target
    next classified => exact classified
    next => cases target
  next => cases target

/-- Only a definition has parameters. -/
theorem params_of_form? (other : e.form? ≠ some .defun) : e.params = [] := by
  unfold Expr.params
  split
  next head hs _ _ _ _ => exact if_neg other
  next => rfl

/-- The names that are bound in straight-line code are not `nil`. -/
theorem Expr.StraightLine.named (straight : e.StraightLine) : ∀ x ∈ e.variableNames, x ≠ "nil" := by
  intro x mem
  have target {form : Form} (mem : x ∈ (e.target? form).toList) : x ≠ "nil" := by
    have target := Option.mem_toList.mp mem
    unfold target? at target
    split at target
    next head hs name ns rest span =>
      split at target
      next =>
        cases target
        rcases straight.of_mem List.mem_cons_self with ident | ⟨text, at', same⟩
        · exact ident.ne_nil
        · cases same
      next => cases target
    next => cases target
  -- straight-line code defines no functions, so no parameters either
  have params : e.params = [] := params_of_form? fun headed => (straight.form_plain headed).2.1 rfl
  unfold variableNames at mem
  split at mem
  next bindings body span =>
    cases straight with
    | letIn named =>
      obtain ⟨b, hb, rfl⟩ := List.mem_map.mp mem
      exact named b hb
  next =>
    rw [params, List.append_nil] at mem
    exact (List.mem_append.mp mem).elim target target

/-- Whatever a straight-line program does, its scopes can be told from its text. -/
theorem staticallyScoped_of_straightLine (straight : StraightLineProgram program) :
    StaticallyScoped program := by
  have plain {root : Expr} (mem : root ∈ program) {c : Placed} (inner : Contains (.top, root) c) : Plain c :=
    Plain.of_contains ⟨rfl, rfl, .inl (straight root mem)⟩ inner
  -- there are no functions to speak of
  have functions {c : Placed} (plain : Plain c) : c.2.form? ≠ some .lambda ∧ c.2.form? ≠ some .defun := by
    rcases plain.code with straight | ⟨text, span, same⟩
    · exact ⟨fun headed => (straight.form_plain headed).2.2 rfl,
        fun headed => (straight.form_plain headed).2.1 rfl⟩
    · rw [same]
      exact ⟨nofun, nofun⟩
  constructor
  · intro root mem p e
    exact ⟨fun inner => (functions (plain mem inner)).1,
      fun inner => (functions (plain mem inner.to_reflTransGen)).2⟩
  · intro root mem p e inner x bound
    refine ⟨?_, fun other mem' target => ?_⟩
    · rcases (plain mem inner).code with straight | ⟨text, span, rfl⟩
      · exact straight.named x bound
      · cases bound
    · exact ((straight other mem').form_plain (form?_of_target? target)).2.1 rfl
  · intro root mem p e inner x _ inside
    rw [(plain mem inner).outside] at inside
    cases inside
  · exact fun root mem p e inner _ => (plain mem inner).unconditional

end TwinLisp
