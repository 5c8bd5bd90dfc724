import TwinLisp.Scoping

/-! The parts of code that is settled are settled. -/

namespace TwinLisp

open TwinLisp.Expr

/-- Code that is settled by itself: what it needs of the code around it is known from its place.
`reserved` are the names that no variable has. -/
structure Suits (reserved : String → Prop) (p : Place) (e : Expr) : Prop where
  noLambda : e.form? ≠ some .lambda
  noDefun : e.form? ≠ some .defun
  names : ∀ x ∈ e.variableNames, ¬reserved x
  sets : ∀ x, e.target? .set = some x → p.inFunction → x ∈ p.bound
  consts : e.form? = some .const → p.unconditional
  filled : ∀ bindings span, e ≠ .letIn bindings [] span

/-- The code and all its parts are settled. -/
def Settled (reserved : String → Prop) (p : Place) (e : Expr) : Prop :=
  ∀ q e', Contains (p, e) (q, e') → Suits reserved q e'

/-- Expressions that run one after the other are settled. -/
def SettledAll (reserved : String → Prop) (p : Place) (es : List Expr) : Prop :=
  ∀ before e after, es = before ++ e :: after → Settled reserved (p.binding (constsAll before)) e

variable {reserved : String → Prop} {p q : Place} {e e' : Expr} {es : List Expr} {head : String}
  {hs span : Span} {form : Form}

@[simp] theorem Place.binding_nil : p.binding [] = p := by
  unfold Place.binding
  rw [List.append_nil]

theorem Place.binding_append (xs ys : List String) :
    p.binding (xs ++ ys) = (p.binding xs).binding ys := by
  unfold Place.binding
  rw [List.append_assoc]

@[simp] theorem Place.under_false : p.under false = p := by
  unfold Place.under
  rw [Bool.not_false, Bool.and_true]

theorem Settled.fits (h : Settled reserved p e) : Suits reserved p e :=
  h p e .refl

/-- A part of settled code is settled where it stands. -/
theorem Settled.part (h : Settled reserved p e) (part : Part (p, e) (q, e')) :
    Settled reserved q e' :=
  fun r e'' inner => h r e'' (.head part inner)

theorem SettledAll.first (h : SettledAll reserved p (e :: es)) : Settled reserved p e := by
  have first := h [] e es rfl
  rwa [constsAll, Place.binding_nil] at first

theorem SettledAll.rest (h : SettledAll reserved p (e :: es)) :
    SettledAll reserved (p.binding (consts e)) es := by
  rintro before e' after rfl
  rw [← Place.binding_append]
  exact h (e :: before) e' after rfl

/-- The operands of a form that has code for operands. -/
theorem Settled.operands (h : Settled reserved p (.list (.ident head hs :: es) span))
    (classified : Form.classify head = some form) (operands : form.hasOperands) :
    SettledAll reserved (p.under form.branches) es := by
  rintro before e after rfl
  exact h.part (.operand classified operands)

/-- The operands of `and` and `or` are run under a condition. -/
theorem Settled.logic {decides : Bool} (h : Settled reserved p (.list (.ident head hs :: es) span))
    (classified : Form.classify head = some (if decides then .or else .and)) :
    SettledAll reserved (p.under true) es := by
  cases decides with
  | true => exact h.operands classified rfl
  | false => exact h.operands classified rfl

/-- The form of a list is that of its head. -/
theorem form?_list (classified : Form.classify head = some form) :
    (Expr.list (.ident head hs :: es) span).form? = some form :=
  classified

/-- A form with branches is settled as well where it runs under a condition itself. -/
theorem Settled.conditional (h : Settled reserved p (.list (.ident head hs :: es) span))
    (classified : Form.classify head = some form) (branches : form.branches) :
    Settled reserved (p.under true) (.list (.ident head hs :: es) span) := by
  intro q e' inner
  -- the form itself, or a step to one of its parts
  rcases Relation.ReflTransGen.cases_head inner with same | ⟨⟨r, e⟩, part, rest⟩
  · cases same
    obtain ⟨noLambda, noDefun, names, sets, -, filled⟩ := h.fits
    refine ⟨noLambda, noDefun, names, sets, fun const => ?_, filled⟩
    rw [form?_list classified] at const
    cases const
    cases branches
  · cases part with
    | operand classified' operands =>
      obtain rfl := Option.some.inj (classified.symm.trans classified')
      -- its operands are conditional in any case
      have same : (p.under true).under form.branches = p.under form.branches := by
        simp [Place.under, branches]
      rw [same] at rest
      exact h q e' (.head (.operand classified operands) rest)
    | argument noForm =>
      rw [classified] at noForm
      cases noForm
    | body defun listed =>
      rw [classified] at defun
      cases defun
      cases branches

theorem Settled.arguments (h : Settled reserved p (.list (.ident head hs :: es) span))
    (noForm : Form.classify head = none) : SettledAll reserved p es := by
  rintro before e after rfl
  exact h.part (.argument noForm)

theorem consts_ident (name : String) (span : Span) : consts (.ident name span) = [] := rfl

theorem consts_str (text : String) (span : Span) : consts (.str text span) = [] := rfl

theorem constsOfBindings_eq (bindings : List (LetBinding Expr)) :
    constsOfBindings bindings = constsAll (bindings.map (·.init)) := by
  induction bindings with
  | nil => rfl
  | cons b bindings ih =>
    rw [constsOfBindings, List.map_cons, constsAll, ih]

theorem Settled.inits {bindings : List (LetBinding Expr)}
    (h : Settled reserved p (.letIn bindings es span)) :
    SettledAll reserved p (bindings.map (·.init)) := by
  intro before e after same
  obtain ⟨before, rest, rfl, rfl, split⟩ := List.map_eq_append_iff.mp same
  obtain ⟨b, after, rfl, rfl, rfl⟩ := List.map_eq_cons_iff.mp split
  rw [← constsOfBindings_eq]
  exact h.part .init

theorem Settled.inner {bindings : List (LetBinding Expr)}
    (h : Settled reserved p (.letIn bindings es span)) :
    SettledAll reserved ((p.binding (constsOfBindings bindings)).inLet (bindings.map (·.name))) es := by
  rintro before e after rfl
  have inner := h.part (@Part.inner p bindings before e after span)
  unfold Place.inLet at inner ⊢
  rwa [Place.binding_append] at inner

theorem target?_list (classified : Form.classify head = some form) {name : String} {ns : Span} :
    (Expr.list (.ident head hs :: .ident name ns :: es) span).target? form = some name := by
  simp only [target?, classified, if_true]

/-- A variable that is set is not reserved, and it is bound in the function that sets it. -/
theorem Settled.target {name : String} {ns : Span}
    (h : Settled reserved p (.list (.ident head hs :: .ident name ns :: es) span))
    (classified : Form.classify head = some form) (binds : form = .set ∨ form = .const) :
    ¬reserved name := by
  refine h.fits.names name ?_
  have target : (Expr.list (.ident head hs :: .ident name ns :: es) span).target? form = some name :=
    target?_list classified
  unfold variableNames
  rcases binds with rfl | rfl
  · simp [target]
  · simp [target]

/-- The value that `set` or `const` binds is settled where the form is. -/
theorem Settled.init {name : String} {ns : Span} {init : Expr}
    (h : Settled reserved p (.list [.ident head hs, .ident name ns, init] span))
    (classified : Form.classify head = some form) (binds : form = .set ∨ form = .const) :
    Settled reserved p init := by
  have straight : form.hasOperands = true ∧ form.branches = false := by
    rcases binds with rfl | rfl
    · exact ⟨rfl, rfl⟩
    · exact ⟨rfl, rfl⟩
  have operands := h.operands classified straight.1
  rw [straight.2, Place.under_false] at operands
  have second := operands.rest.first
  rwa [consts_ident, Place.binding_nil] at second

/-! Where code stands can be listed, so that static scoping can be decided. -/

section Places

variable {bindings : List (LetBinding Expr)} {c : Placed}

theorem placesOfBindings_eq (p : Place) (bindings : List (LetBinding Expr)) :
    placesOfBindings p bindings = placesAll p (bindings.map (·.init)) := by
  induction bindings generalizing p with
  | nil => rfl
  | cons b bindings ih =>
    rw [placesOfBindings, List.map_cons, placesAll, ih]

theorem places_form (classified : Form.classify head = some form) (operands : form.hasOperands) :
    places p (.list (.ident head hs :: es) span)
      = (p, .list (.ident head hs :: es) span) :: placesAll (p.under form.branches) es := by
  cases form with
  | defun | lambda | quote => cases operands
  | _ =>
    simp only [places, classified]
    rfl

theorem places_call (noForm : Form.classify head = none) :
    places p (.list (.ident head hs :: es) span)
      = (p, .list (.ident head hs :: es) span) :: placesAll p es := by
  simp only [places, noForm]

theorem places_defun {name : String} {ns : Span} {place : Expr} {params : List String}
    (form : Form.classify head = some .defun) (listed : place.names? = some params) :
    places p (.list (.ident head hs :: .ident name ns :: place :: es) span)
      = (p, .list (.ident head hs :: .ident name ns :: place :: es) span) ::
        placesAll (.function params) es := by
  simp only [places, form, placesOfDefun, listed]

/-- The initialisers stand around the scope and the body in it. -/
theorem places_letIn : places p (.letIn bindings es span) = (p, .letIn bindings es span) ::
    (placesAll p (bindings.map (·.init)) ++
      placesAll ((p.binding (constsOfBindings bindings)).inLet (bindings.map (·.name))) es) := by
  rw [places, placesOfBindings_eq]

theorem places_eq_cons (p : Place) (e : Expr) : places p e = (p, e) :: (places p e).tail := by
  unfold places
  split <;> rfl

theorem mem_placesAll {before after : List Expr}
    (mem : c ∈ places (p.binding (constsAll before)) e) : c ∈ placesAll p (before ++ e :: after) := by
  induction before generalizing p with
  | nil =>
    rw [constsAll, Place.binding_nil] at mem
    exact List.mem_append_left _ mem
  | cons first before ih =>
    rw [constsAll, Place.binding_append] at mem
    exact List.mem_append_right _ (ih mem)

/-- What a part contains is listed behind the whole. -/
theorem mem_tail_of_part (part : Part (p, e) (q, e')) (mem : c ∈ places q e') :
    c ∈ (places p e).tail := by
  cases part with
  | operand classified operands =>
    rw [List.cons_append, places_form classified operands]
    exact mem_placesAll mem
  | argument noForm =>
    rw [List.cons_append, places_call noForm]
    exact mem_placesAll mem
  -- the places of the initialisers come before those of the body
  | init =>
    rw [places_letIn, List.map_append]
    rw [constsOfBindings_eq] at mem
    exact List.mem_append_left _ (mem_placesAll mem)
  | inner =>
    rw [places_letIn]
    refine List.mem_append_right _ (mem_placesAll ?_)
    unfold Place.inLet at mem ⊢
    rwa [Place.binding_append] at mem
  | body form listed =>
    rw [List.cons_append, List.cons_append, List.cons_append, places_defun form listed]
    exact mem_placesAll mem

/-- What is contained in code is found among its places. -/
theorem mem_places_of_contains {d : Placed} (h : Contains d c) : c ∈ places d.1 d.2 := by
  induction h using Relation.ReflTransGen.head_induction_on with
  | refl =>
    rw [places_eq_cons]
    exact List.mem_cons_self
  | head part _ ih => exact List.mem_of_mem_tail (mem_tail_of_part part ih)

theorem mem_tail_of_containsWithin {d : Placed} (h : ContainsWithin d c) : c ∈ (places d.1 d.2).tail := by
  obtain ⟨d', part, rest⟩ := Relation.TransGen.head'_iff.mp h
  exact mem_tail_of_part part (mem_places_of_contains rest)

/-- A place is the code itself or one within it. -/
theorem contains_of_tail (within : c ∈ (places p e).tail → ContainsWithin (p, e) c)
    (mem : c ∈ places p e) : Contains (p, e) c := by
  rw [places_eq_cons] at mem
  rcases List.mem_cons.mp mem with rfl | mem
  · exact .refl
  · exact (within mem).to_reflTransGen

mutual

/-- What is listed behind the code is part of it. -/
theorem containsWithin_of_mem : ∀ (p : Place) (e : Expr) (c : Placed), c ∈ (places p e).tail →
    ContainsWithin (p, e) c
  | p, .list (.ident head hs :: args) span, c, mem => by
    cases classified : Form.classify head with
    | none =>
      rw [places_call classified] at mem
      obtain ⟨before, e, after, rfl, inner⟩ := contains_of_memAll p args c mem
      exact .head' (.argument classified) inner
    | some form =>
      -- a part of the list is an operand, or code of the function that the list defines
      by_cases operands : form.hasOperands
      · rw [places_form classified operands] at mem
        obtain ⟨before, e, after, rfl, inner⟩ := contains_of_memAll _ args c mem
        exact .head' (.operand classified operands) inner
      · cases form with
        | defun =>
          have mem : c ∈ placesOfDefun args := by
            simpa only [places, classified, List.tail_cons] using mem
          obtain ⟨name, ns, place, params, before, e, after, rfl, listed, inner⟩ :=
            contains_of_memDefun args c mem
          exact .head' (.body classified listed) inner
        | lambda | quote =>
          simp [places, classified, Form.hasOperands] at mem
        | _ => exact absurd rfl operands
  -- an initialiser stands behind those before it, the body behind all of them
  | p, .letIn bindings body span, c, mem => by
    rw [places] at mem
    rcases List.mem_append.mp mem with mem | mem
    · obtain ⟨before, b, after, rfl, inner⟩ := contains_of_memBindings p bindings c mem
      exact .head' .init inner
    · obtain ⟨before, e, after, rfl, inner⟩ := contains_of_memAll _ body c mem
      refine .head' .inner ?_
      unfold Place.inLet at inner ⊢
      rwa [Place.binding_append]
  | _, .int _ _, _, mem => nomatch mem
  | _, .str _ _, _, mem => nomatch mem
  | _, .ident _ _, _, mem => nomatch mem
  | _, .quote _ _ _, _, mem => nomatch mem
  | _, .list [] _, _, mem => nomatch mem
  | _, .list (.int _ _ :: _) _, _, mem => nomatch mem
  | _, .list (.str _ _ :: _) _, _, mem => nomatch mem
  | _, .list (.quote _ _ _ :: _) _, _, mem => nomatch mem
  | _, .list (.list _ _ :: _) _, _, mem => nomatch mem
  | _, .list (.letIn _ _ _ :: _) _, _, mem => nomatch mem

theorem contains_of_memDefun : ∀ (args : List Expr) (c : Placed), c ∈ placesOfDefun args →
    ∃ name ns place params before e after, args = .ident name ns :: place :: (before ++ e :: after) ∧
      place.names? = some params ∧ Contains ((Place.function params).binding (constsAll before), e) c
  | .ident name ns :: place :: body, c, mem => by
    unfold placesOfDefun at mem
    cases listed : place.names? with
    | none =>
      rw [listed] at mem
      cases mem
    | some params =>
      rw [listed] at mem
      obtain ⟨before, e, after, rfl, inner⟩ := contains_of_memAll _ body c mem
      exact ⟨name, ns, place, params, before, e, after, rfl, listed, inner⟩
  | [], _, mem => nomatch mem
  | [e], _, mem => by cases e <;> cases mem
  | .int _ _ :: _ :: _, _, mem => nomatch mem
  | .str _ _ :: _ :: _, _, mem => nomatch mem
  | .quote _ _ _ :: _ :: _, _, mem => nomatch mem
  | .list _ _ :: _ :: _, _, mem => nomatch mem
  | .letIn _ _ _ :: _ :: _, _, mem => nomatch mem

theorem contains_of_memAll : ∀ (p : Place) (es : List Expr) (c : Placed), c ∈ placesAll p es →
    ∃ before e after, es = before ++ e :: after ∧ Contains (p.binding (constsAll before), e) c
  | _, [], _, mem => nomatch mem
  | p, e :: es, c, mem => by
    rcases List.mem_append.mp mem with mem | mem
    · refine ⟨[], e, es, rfl, ?_⟩
      rw [constsAll, Place.binding_nil]
      exact contains_of_tail (containsWithin_of_mem p e c) mem
    · obtain ⟨before, e', after, rfl, inner⟩ := contains_of_memAll _ es c mem
      refine ⟨e :: before, e', after, rfl, ?_⟩
      rwa [constsAll, Place.binding_append]

theorem contains_of_memBindings : ∀ (p : Place) (bs : List (LetBinding Expr)) (c : Placed),
    c ∈ placesOfBindings p bs → ∃ before b after, bs = before ++ b :: after ∧
      Contains (p.binding (constsOfBindings before), b.init) c
  | _, [], _, mem => nomatch mem
  | p, ⟨name, init, s⟩ :: bs, c, mem => by
    rcases List.mem_append.mp mem with mem | mem
    · refine ⟨[], ⟨name, init, s⟩, bs, rfl, ?_⟩
      rw [constsOfBindings, Place.binding_nil]
      exact contains_of_tail (containsWithin_of_mem p init c) mem
    · obtain ⟨before, b, after, rfl, inner⟩ := contains_of_memBindings _ bs c mem
      refine ⟨⟨name, init, s⟩ :: before, b, after, rfl, ?_⟩
      rwa [constsOfBindings, Place.binding_append]

end

/-- What static scoping asks of each piece of code, in the order in which the code is listed. -/
theorem staticallyScoped_iff {program : List Expr} : StaticallyScoped program ↔
    ∀ root ∈ program,
      (∀ c ∈ places .top root, c.2.form? ≠ some .lambda ∧
        (∀ x ∈ c.2.variableNames, x ≠ "nil" ∧ ∀ other ∈ program, other.target? .defun ≠ some x) ∧
        (∀ x ∈ c.2.target? .set, c.1.inFunction → x ∈ c.1.bound) ∧
        (c.2.form? = some .const → c.1.unconditional)) ∧
      ∀ c ∈ (places .top root).tail, c.2.form? ≠ some .defun := by
  constructor
  · intro h root mem
    refine ⟨fun ⟨p, e⟩ listed => ?_, fun ⟨p, e⟩ listed => ?_⟩
    · -- what is listed is contained, and the other way round
      have inner := contains_of_tail (containsWithin_of_mem .top root (p, e)) listed
      exact ⟨(h.functions root mem p e).1 inner, h.names root mem p e inner, h.sets root mem p e inner,
        h.consts root mem p e inner⟩
    · exact (h.functions root mem p e).2 (containsWithin_of_mem .top root (p, e) listed)
  · intro h
    refine ⟨fun root mem p e => ⟨fun inner => ?_, fun inner => ?_⟩, fun root mem p e inner => ?_,
      fun root mem p e inner => ?_, fun root mem p e inner => ?_⟩
    · exact ((h root mem).1 _ (mem_places_of_contains inner)).1
    · exact (h root mem).2 _ (mem_tail_of_containsWithin inner)
    · exact ((h root mem).1 _ (mem_places_of_contains inner)).2.1
    · exact ((h root mem).1 _ (mem_places_of_contains inner)).2.2.1
    · exact ((h root mem).1 _ (mem_places_of_contains inner)).2.2.2

instance : DecidablePred StaticallyScoped :=
  fun _ => decidable_of_iff _ staticallyScoped_iff.symm

end Places

end TwinLisp
