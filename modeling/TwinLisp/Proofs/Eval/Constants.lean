import TwinLisp.Proofs.Environment
import TwinLisp.Proofs.Eval.Law

/-!
Constants of a running program. A constant keeps its value as long as its frame is there, with one
exception: a `defun` looks at the nearest binding only, and so a variable that hides a global
constant lets a definition of that name replace the constant.
-/

namespace TwinLisp

namespace Environment

/-- The frame at a height; the global one is at height 0. -/
def frameAt? (env : Environment) : Nat → Option Frame
  | 0 => some env.globals
  | height + 1 => env.locals.reverse[height]?

/-- The frame at a height binds a name to a constant. -/
def HoldsConst (env : Environment) (height : Nat) (name : String) (value : Value) : Prop :=
  ∃ frame, env.frameAt? height = some frame ∧ frame.get? name = some ⟨value, .frozen⟩

/-- What a name is bound to globally is hidden behind a variable of a local frame. -/
def hides (env : Environment) (name : String) : Bool :=
  (env.locals.findSome? (·.get? name)).any (·.mutability == .mutable)

/-- The guard of `defun` protects a global constant that can be seen: only where it is hidden can a
function get its name. -/
theorem hides_of_defineFunction {env env' : Environment} {name : String} {value f : Value}
    (defined : env.defineFunction name f = .ok env')
    (bound : env.globals.get? name = some ⟨value, .frozen⟩) : env.hides name = true := by
  obtain ⟨free, -⟩ := defineFunction_ok defined
  unfold isFrozen binding? at free
  unfold hides
  cases nearest : env.locals.findSome? (·.get? name) with
  | none =>
    -- then the constant itself is the nearest binding
    simp [nearest, bound] at free
  | some b =>
    obtain ⟨v, mutable | frozen⟩ := b
    · rfl
    · simp [nearest] at free

end Environment

namespace Eval

/-- A function `name` is about to be defined, while a variable hides what the name is bound to globally. -/
def definesHidden (name : String) (e : Expr) (w : World) : Bool :=
  e.defines name && w.env.hides name

section Outside

variable {w w' : World} {scopes : List Frame}

/-- Leaving scopes drops as many frames as were added. -/
theorem outside_locals (length : (scopes ++ w.env.locals).length = w'.env.locals.length) :
    (Law.outside w w').env.locals = w'.env.locals.drop scopes.length := by
  rw [List.length_append, Nat.add_comm] at length
  unfold Law.outside
  rw [Environment.truncate_depth length.symm]

/-- What became of the frames inside scopes is what became of those that were there before. -/
theorem forall₂_outside {R : Frame → Frame → Prop}
    (inside : List.Forall₂ R (scopes ++ w.env.locals) w'.env.locals) :
    List.Forall₂ R w.env.locals (Law.outside w w').env.locals := by
  rw [outside_locals inside.length_eq]
  have below := List.forall₂_drop scopes.length inside
  rwa [List.drop_left] at below

end Outside

/-- Constants stay: those of local frames, and those global ones whose names are guarded because
no function of that name is defined while the constant is hidden. -/
abbrev constantLaw (guarded : String → Prop) : Law where
  code _ := True
  value _ := True
  world _ := True
  step w w' := List.Forall₂ KeepsConsts w.env.locals w'.env.locals ∧
    ∀ name, guarded name → ∀ value, w.env.globals.get? name = some ⟨value, .frozen⟩ →
      w'.env.globals.get? name = some ⟨value, .frozen⟩

theorem forall₂_keepsConsts_refl (frames : List Frame) : List.Forall₂ KeepsConsts frames frames :=
  List.forall₂_same.mpr fun f _ => .refl f

/-- The steps that change bindings keep constants: the guards see to that, unless a constant is
hidden. -/
theorem constantLaw_sound (guarded : String → Prop) : (constantLaw guarded).SoundFor fun e w =>
    ∀ name, guarded name → definesHidden name e w = false where
  refl w := ⟨forall₂_keepsConsts_refl _, fun _ _ _ h => h⟩
  trans first rest := ⟨forall₂_trans (R := KeepsConsts) .trans first.1 rest.1,
    fun name hn value h => rest.2 name hn value (first.2 name hn value h)⟩
  items _ _ _ := trivial
  inits _ _ _ := trivial
  body _ _ _ := trivial
  int _ := trivial
  str _ := trivial
  quoted _ := trivial
  lookup _ _ := trivial
  called _ := ⟨fun _ _ => trivial, fun _ _ => trivial⟩
  made _ _ _ _ := trivial
  print _ _ := ⟨trivial, forall₂_keepsConsts_refl _, fun _ _ _ h => h⟩
  create _ := ⟨trivial, forall₂_keepsConsts_refl _, fun _ _ _ h => h⟩
  -- what succeeds has not met a constant
  assign _ _ changed :=
    have kept := Environment.assign_keepsConsts changed
    ⟨trivial, kept.1, fun name _ value h => kept.2 name value h⟩
  const _ _ changed :=
    have kept := Environment.defineConst_keepsConsts changed
    ⟨trivial, kept.1, fun name _ value h => kept.2 name value h⟩
  defun {w head hs name ns rest span params body env} _ _ _ form _ admitted changed := by
    have kept := Environment.defineFunction_keepsConsts changed
    refine ⟨trivial, kept.1, fun other guards value held => ?_⟩
    by_cases same : other = name
    · -- the constant would have to be hidden, and no such definition is admitted
      subst same
      have hidden := Environment.hides_of_defineFunction changed held
      have admitted := admitted other guards
      simp [definesHidden, Expr.defines, form, hidden] at admitted
    · rw [kept.2 other same]
      exact held
  enter _ _ := trivial
  leave _ _ kept := ⟨trivial, forall₂_outside kept.1, kept.2⟩

/-- A constant survives every evaluation, on success and on error: in a local frame whatever is
evaluated; in the global frame unless, on the way, a function of its name is defined where a variable
hides it. An evaluation that would stop at such definitions is then the same. -/
theorem holdsConst_after_eval (config : Config) (fuel : Nat) (e : Expr) (w : World) {height : Nat}
    {name : String} {value : Value} (held : w.env.HoldsConst height name value)
    (unhidden : height = 0 →
      evalUpTo (definesHidden name) config fuel e w = evalWith config fuel e w) :
    (after (evalWith config fuel e) w).env.HoldsConst height name value := by
  obtain ⟨frame, found, bound⟩ := held
  cases height with
  | zero =>
    -- the run is the one that stops at the definitions in question, and that one keeps the law
    have passes (e : Expr) (w : World) (passed : definesHidden name e w = false) (other : String)
        (same : other = name) : definesHidden other e w = false := same ▸ passed
    have obeys := Law.obeys_evalUpTo (constantLaw_sound (· = name)) config fuel passes (e := e) trivial
    have kept := step_after (w := w) obeys trivial
    have same : after (evalWith config fuel e) w = after (evalUpTo (definesHidden name) config fuel e) w := by
      unfold after
      rw [unhidden rfl]
    cases found
    rw [same]
    exact ⟨_, rfl, kept.2 name rfl value bound⟩
  | succ height =>
    -- nothing is asked of the global frame, so no evaluation has to be stopped
    have passes (e : Expr) (w : World) (_ : false = false) (other : String) (none : False) :
        definesHidden other e w = false := none.elim
    have obeys := Law.obeys_evalUpTo (constantLaw_sound fun _ => False) config fuel passes (e := e) trivial
    rw [evalUpTo_never] at obeys
    have kept := step_after (w := w) obeys trivial
    -- from below, the frames pair up at equal heights
    have locals := List.forall₂_reverse_iff.mpr kept.1
    obtain ⟨low, rfl⟩ := List.getElem?_eq_some_iff.mp found
    have low' := locals.length_eq ▸ low
    exact ⟨_, List.getElem?_eq_getElem low', (List.forall₂_iff_get.mp locals).2 height low low'
      name value bound⟩

/-- After `(const f 1)`, in `(let ((g 2)) (defun g () 2) (defun f () 3))`, the variable `g` becomes a
function; but nothing hides the constant `f`, so its definition is refused and it stays. -/
theorem holdsConst_after_eval_defun :
    let defun (name : String) (n : Int64) (span : Span) : Expr :=
      .list [.ident "defun" ⟨0, 0⟩, .ident name ⟨0, 0⟩, .list [] ⟨0, 0⟩, .int n ⟨0, 0⟩] span
    let constant : Expr := .list [.ident "const" ⟨0, 0⟩, .ident "f" ⟨0, 0⟩, .int 1 ⟨0, 0⟩] ⟨0, 0⟩
    let inner : Expr := .letIn [⟨"g", .int 2 ⟨0, 0⟩, ⟨0, 0⟩⟩] [defun "g" 2 ⟨26, 40⟩, defun "f" 3 ⟨41, 55⟩]
      ⟨12, 56⟩
    let w := after (evalWith {} 9 constant) (World.initial .buffer)
    w.env.HoldsConst 0 "f" (.int 1) ∧
      evalUpTo (definesHidden "f") {} 9 inner w = evalWith {} 9 inner w ∧
      (∃ u, evalWith {} 9 inner w = .error (.failed ⟨.immutableBinding "f", some ⟨41, 55⟩⟩) u) ∧
      (after (evalWith {} 9 inner) w).env.HoldsConst 0 "f" (.int 1) := by
  intro defun constant inner w
  have held : w.env.HoldsConst 0 "f" (.int 1) := ⟨_, rfl, by rfl⟩
  have unhidden : evalUpTo (definesHidden "f") {} 9 inner w = evalWith {} 9 inner w := by rfl
  exact ⟨held, unhidden, ⟨_, by rfl⟩, holdsConst_after_eval {} 9 inner w held fun _ => unhidden⟩

/-- A variable hides a global constant from the guard of `defun`, and the constant is replaced. -/
theorem not_holdsConst_after_hidden_defun :
    let constant : Expr := .list [.ident "const" ⟨0, 0⟩, .ident "f" ⟨0, 0⟩, .int 1 ⟨0, 0⟩] ⟨0, 0⟩
    let defun : Expr := .list [.ident "defun" ⟨0, 0⟩, .ident "f" ⟨0, 0⟩, .list [] ⟨0, 0⟩,
      .int 3 ⟨0, 0⟩] ⟨0, 0⟩
    let shadowed : Expr := .letIn [⟨"f", .int 2 ⟨0, 0⟩, ⟨0, 0⟩⟩] [defun] ⟨0, 0⟩
    let w := after (evalWith {} 9 constant) (World.initial .buffer)
    w.env.HoldsConst 0 "f" (.int 1) ∧
      ¬(after (evalWith {} 9 shadowed) w).env.HoldsConst 0 "f" (.int 1) := by
  refine ⟨⟨_, rfl, by rfl⟩, ?_⟩
  rintro ⟨frame, found, bound⟩
  cases found
  cases bound

end Eval

end TwinLisp
