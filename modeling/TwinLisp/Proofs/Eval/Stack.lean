import TwinLisp.Proofs.Eval.Constants

/-!
The stack of frames during evaluation. Whatever is evaluated, and however that ends, every scope
that was entered has been left again, and below the innermost frame nothing is bound or unbound but
in the global one.
-/

namespace TwinLisp

/-- Every name of the first frame is a name of the second one. -/
def KeepsNames (frame frame' : Frame) : Prop :=
  ∀ name, (frame.get? name).isSome → (frame'.get? name).isSome

/-- Two frames bind the same names, each of them as variable or constant in both. -/
def SameNames (frame frame' : Frame) : Prop :=
  ∀ name, (frame'.get? name).map (·.mutability) = (frame.get? name).map (·.mutability)

theorem KeepsNames.refl (frame : Frame) : KeepsNames frame frame := fun _ h => h

theorem KeepsNames.trans {f g h : Frame} (first : KeepsNames f g) (rest : KeepsNames g h) :
    KeepsNames f h :=
  fun name bound => rest name (first name bound)

/-- To bind a name takes none away. -/
theorem KeepsNames.insert (frame : Frame) (name : String) (b : Binding Value) :
    KeepsNames frame (frame.insert name b) := by
  intro other bound
  rw [Table.get?_insert]
  split
  · rfl
  · exact bound

theorem SameNames.refl (frame : Frame) : SameNames frame frame := fun _ => rfl

theorem SameNames.trans {f g h : Frame} (first : SameNames f g) (rest : SameNames g h) :
    SameNames f h :=
  fun name => (rest name).trans (first name)

theorem SameNames.keepsNames {f g : Frame} (h : SameNames f g) : KeepsNames f g := by
  intro name bound
  have same := congrArg Option.isSome (h name)
  rwa [Option.isSome_map, Option.isSome_map, bound] at same

/-- A binding that takes the place of one of the same mutability. -/
theorem SameNames.insert {frame : Frame} {name : String} {b b' : Binding Value}
    (bound : frame.get? name = some b) (same : b'.mutability = b.mutability) :
    SameNames frame (frame.insert name b') := by
  intro other
  rw [Table.get?_insert]
  split
  next equal =>
    subst equal
    simp [bound, same]
  next => rfl

namespace Environment

variable {env env' : Environment} {name : String} {value : Value}

/-- What becomes of the frames of an environment: the innermost one and the global one may have got
names, the others have the names they had. -/
structure Keeps (env env' : Environment) : Prop where
  locals : List.Forall₂ KeepsNames env.locals env'.locals
  outer : List.Forall₂ SameNames env.locals.tail env'.locals.tail
  globals : KeepsNames env.globals env'.globals

/-- Only the values of variables change in the local frames. -/
theorem keeps_of_sameNames (locals : List.Forall₂ SameNames env.locals env'.locals)
    (globals : KeepsNames env.globals env'.globals) : env.Keeps env' where
  locals := locals.imp fun _ _ => SameNames.keepsNames
  outer := by
    rw [← List.drop_one, ← List.drop_one]
    exact List.forall₂_drop 1 locals
  globals := globals

theorem sameNames_refl (frames : List Frame) : List.Forall₂ SameNames frames frames :=
  List.forall₂_same.mpr fun frame _ => .refl frame

theorem Keeps.refl (env : Environment) : env.Keeps env :=
  keeps_of_sameNames (sameNames_refl _) (.refl _)

theorem Keeps.trans {a b c : Environment} (first : a.Keeps b) (rest : b.Keeps c) : a.Keeps c where
  locals := forall₂_trans (R := KeepsNames) .trans first.locals rest.locals
  outer := forall₂_trans (R := SameNames) .trans first.outer rest.outer
  globals := first.globals.trans rest.globals

/-- An assignment binds no new name but in the global frame. -/
theorem keeps_assign (h : env.assign name value = .ok env') : env.Keeps env' := by
  obtain ⟨-, ⟨locals, replaced, rfl⟩ | ⟨-, rfl⟩⟩ := assign_ok h
  · -- the binding that is replaced is one of the same mutability
    have same := forall₂_replaceNearest .refl replaced fun _ _ _ bound => SameNames.insert bound rfl
    exact keeps_of_sameNames same (.refl _)
  · exact keeps_of_sameNames (sameNames_refl _) (.insert _ _ _)

/-- A constant is new in the innermost frame at most. -/
theorem keeps_defineConst (h : env.defineConst name value = .ok env') : env.Keeps env' := by
  obtain ⟨-, rfl⟩ := defineConst_ok h
  obtain ⟨-, defined⟩ | ⟨frame, outer, hlocals, defined⟩ := define_cases env name value .frozen
  · rw [defined]
    exact keeps_of_sameNames (sameNames_refl _) (.insert _ _ _)
  · rw [defined]
    refine ⟨?_, ?_, .refl _⟩
    · rw [hlocals]
      -- the innermost frame may get the name; the frames behind it stay what they are
      exact .cons (.insert frame name _) (List.forall₂_same.mpr fun f _ => .refl f)
    · rw [hlocals]
      exact sameNames_refl outer

/-- A function is put in place of another one, under a name that was there. -/
theorem refreshFunction_sameNames (frame : Frame) :
    SameNames frame (refreshFunction name value frame) := by
  obtain kept | ⟨f, bound, replaced⟩ := refreshFunction_cases name value frame
  · rw [kept]
    exact .refl frame
  · rw [replaced]
    exact .insert bound rfl

theorem keeps_defineFunction (h : env.defineFunction name value = .ok env') : env.Keeps env' := by
  obtain ⟨-, rfl⟩ := defineFunction_ok h
  refine keeps_of_sameNames ?_ (.insert _ _ _)
  rw [List.forall₂_map_right_iff]
  exact List.forall₂_same.mpr fun frame _ => refreshFunction_sameNames frame

/-- Evaluation is disciplined in its use of the stack: it ends at the depth that it began at, no
frame has lost a name, and those strictly between the global and the innermost one have the names
they had. -/
structure Disciplined (env env' : Environment) : Prop where
  depth : env'.depth = env.depth
  kept : ∀ height frame, env.frameAt? height = some frame →
    ∃ frame', env'.frameAt? height = some frame' ∧ KeepsNames frame frame'
  between : ∀ height frame, 0 < height → height + 1 < env.depth →
    env.frameAt? height = some frame →
    ∃ frame', env'.frameAt? height = some frame' ∧ SameNames frame frame'

/-- The local frame at a height is as far from the end of the stack. -/
theorem frameAt?_succ {height : Nat} (low : height < env.locals.length) :
    env.frameAt? (height + 1) = env.locals[env.locals.length - 1 - height]? :=
  List.getElem?_reverse low

/-- What is said of the frames innermost first also holds by height. -/
theorem Keeps.disciplined (h : env.Keeps env') : env.Disciplined env' := by
  have length := h.locals.length_eq
  refine ⟨congrArg (· + 1) length.symm, fun height frame found => ?_,
    fun height frame low high found => ?_⟩
  · -- the global frame, then the local ones
    cases height with
    | zero =>
      cases found
      exact ⟨_, rfl, h.globals⟩
    | succ height =>
      obtain ⟨low, rfl⟩ := List.getElem?_eq_some_iff.mp found
      -- heights are counted from the global frame, so the stack is taken from its other end
      have kept := List.forall₂_reverse_iff.mpr h.locals
      have low' := kept.length_eq ▸ low
      exact ⟨_, List.getElem?_eq_getElem low', (List.forall₂_iff_get.mp kept).2 height low low'⟩
  · obtain ⟨height, rfl⟩ := Nat.exists_eq_succ_of_ne_zero (Nat.ne_of_gt low)
    -- below the innermost frame, so among the frames of the tail
    have high : height + 1 < env.locals.length := Nat.succ_lt_succ_iff.mp high
    have index : env.locals.length - 1 - height = env.locals.tail.length - 1 - height + 1 := by
      rw [List.length_tail]
      omega
    have deep : env.locals.tail.length - 1 - height < env.locals.tail.length := by
      rw [List.length_tail]
      omega
    rw [frameAt?_succ (Nat.lt_of_succ_lt high), index, ← List.getElem?_tail] at found
    rw [frameAt?_succ (length ▸ Nat.lt_of_succ_lt high), ← length, index, ← List.getElem?_tail]
    obtain ⟨_, rfl⟩ := List.getElem?_eq_some_iff.mp found
    have deep' := Nat.lt_of_lt_of_eq deep h.outer.length_eq
    exact ⟨_, List.getElem?_eq_getElem deep', (List.forall₂_iff_get.mp h.outer).2 _ deep deep'⟩

end Environment

namespace Eval

/-- Any code keeps the frames of any world. -/
abbrev stackLaw : Law where
  code _ := True
  value _ := True
  world _ := True
  step w w' := w.env.Keeps w'.env

/-- What is kept inside scopes is kept when they are left. -/
theorem keeps_outside {w w' : World} {scopes : List Frame}
    (kept : (Law.inside w scopes).env.Keeps w'.env) : w.env.Keeps (Law.outside w w').env := by
  have outer : List.Forall₂ SameNames (scopes ++ w.env.locals).tail w'.env.locals.tail := kept.outer
  refine ⟨forall₂_outside kept.locals, ?_, kept.globals⟩
  -- the tail of what is left is what is left of the tail
  rw [outside_locals kept.locals.length_eq]
  have below := List.forall₂_drop scopes.length outer
  rwa [List.drop_tail, ← List.tail_drop, List.drop_left, List.drop_tail, ← List.tail_drop] at below

/-- Every step of evaluation keeps the frames: scopes are left as they were entered. -/
theorem stackLaw_sound : stackLaw.Sound where
  refl w := .refl w.env
  trans first rest := first.trans rest
  items _ _ _ := trivial
  inits _ _ _ := trivial
  body _ _ _ := trivial
  int _ := trivial
  str _ := trivial
  quoted _ := trivial
  lookup _ _ := trivial
  called _ := ⟨fun _ _ => trivial, fun _ _ => trivial⟩
  made _ _ _ _ := trivial
  print {w} _ _ := ⟨trivial, .refl w.env⟩
  create {w} _ := ⟨trivial, .refl w.env⟩
  assign _ _ changed := ⟨trivial, Environment.keeps_assign changed⟩
  const _ _ changed := ⟨trivial, Environment.keeps_defineConst changed⟩
  defun _ _ _ _ _ _ changed := ⟨trivial, Environment.keeps_defineFunction changed⟩
  -- the frames that were entered are dropped again, and no others
  enter _ _ := trivial
  leave _ _ kept := ⟨trivial, keeps_outside kept⟩

theorem keeps_after_eval (config : Config) (fuel : Nat) (e : Expr) (w : World) :
    w.env.Keeps (after (evalWith config fuel e) w).env :=
  step_after (Law.obeys_evalWith stackLaw_sound config fuel (e := e) trivial) trivial

/-- The world after expressions that are evaluated one after the other, whether they fail or not. -/
def afterAll (config : Config) (fuel : Nat) (es : List Expr) (w : World) : World :=
  es.foldl (fun w e => after (evalWith config fuel e) w) w

theorem keeps_afterAll (config : Config) (fuel : Nat) (es : List Expr) (w : World) :
    w.env.Keeps (afterAll config fuel es w).env := by
  induction es generalizing w with
  | nil => exact .refl w.env
  | cons e es ih => exact (keeps_after_eval config fuel e w).trans (ih _)

/-- Whatever is evaluated, and however it ends, the stack of frames is as deep as before and only its
ends have got names; so a session is at its global frame after each of its expressions. -/
theorem disciplined_after_eval (config : Config) (fuel : Nat) :
    (∀ (e : Expr) (w : World), w.env.Disciplined (after (evalWith config fuel e) w).env) ∧
    ∀ (es : List Expr) (output : Output), (afterAll config fuel es (World.initial output)).env.depth = 1 := by
  constructor
  · intro e w
    exact (keeps_after_eval config fuel e w).disciplined
  · intro es output
    exact (keeps_afterAll config fuel es (World.initial output)).disciplined.depth

end Eval

end TwinLisp
