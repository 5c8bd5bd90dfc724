import TwinLisp.Proofs.Eval.CallerFrames
import TwinLisp.Proofs.Eval.Pairing

/-!
What a definition of a function does to a stack of frames, as it is seen at every depth: by whoever
looks a name up now, and after each return of a call that is in progress.
-/

namespace TwinLisp

/-- The binding is that of a constant, or of something else than a function. -/
def Binding.Stays (b : Binding Value) : Prop :=
  b.mutability = .frozen ∨ b.value.function? = none

instance (b : Binding Value) : Decidable b.Stays :=
  inferInstanceAs (Decidable (_ ∨ _))

namespace Environment

/-- The innermost frame that binds the name binds it to a constant. -/
def NearestFrozen (env : Environment) (name : String) : Prop :=
  ∃ b, env.frames.findSome? (·.get? name) = some b ∧ b.mutability = .frozen

/-- The innermost frame that binds the name is not the global one, and its binding stays. -/
def Shields (env : Environment) (name : String) : Prop :=
  ∃ b, env.locals.findSome? (·.get? name) = some b ∧ b.Stays

/-- What a definition of a function under a name makes of an environment. -/
structure Redefines (name : String) (value : Value) (env env' : Environment) : Prop where
  depth : env'.depth = env.depth
  /-- What is seen once only so many frames are left. -/
  replaced : ∀ depth, 1 ≤ depth → depth ≤ env.depth → ¬(env.truncate depth).Shields name →
    (env'.truncate depth).lookup name = some value
  /-- What is still seen then of a binding that stays. -/
  shielded : ∀ depth, 1 ≤ depth → depth ≤ env.depth → (env.truncate depth).Shields name →
    (env'.truncate depth).lookup name = (env.truncate depth).lookup name
  /-- Other names are bound as before, and the local frames have the names they had. -/
  others : ∀ height frame, env.frameAt? height = some frame →
    ∃ frame', env'.frameAt? height = some frame' ∧
      (∀ other, other ≠ name → frame'.get? other = frame.get? other) ∧
      (0 < height → SameNames frame frame')

variable {env env' : Environment} {name : String} {value : Value}

def redefined (env : Environment) (name : String) (value : Value) : Environment :=
  ⟨env.locals.map (refreshFunction name value), env.globals.insert name ⟨value, .mutable⟩⟩

theorem isFrozen_iff : env.isFrozen name = true ↔ env.NearestFrozen name := by
  simp only [isFrozen, NearestFrozen, binding?_eq_findSome?, Option.any_eq_true, beq_iff_eq]

theorem defineFunction_of_frozen (frozen : env.NearestFrozen name) (value : Value) :
    env.defineFunction name value = .error .frozen :=
  if_pos (isFrozen_iff.mpr frozen)

theorem defineFunction_of_not_frozen (free : ¬env.NearestFrozen name) (value : Value) :
    env.defineFunction name value = .ok (env.redefined name value) :=
  if_neg (mt isFrozen_iff.mp free)

/-- What becomes of a binding in a local frame. -/
def renewed (value : Value) (b : Binding Value) : Binding Value :=
  if b.Stays then b else ⟨value, .mutable⟩

/-- A frame shows the new function where it had a mutable one, and otherwise what it had. -/
theorem get?_refreshFunction_same (frame : Frame) :
    (refreshFunction name value frame).get? name = (frame.get? name).map (renewed value) := by
  unfold refreshFunction
  -- a mutable function is bound, or something that stays
  split
  next f bound =>
    have replaced : ¬Binding.Stays ⟨.function f, .mutable⟩ := by simp [Binding.Stays, Value.function?]
    rw [Table.get?_insert, if_pos rfl, bound, Option.map_some, renewed, if_neg replaced]
  next other =>
    cases bound : frame.get? name with
    | none => rfl
    | some b =>
      obtain ⟨v, mutability⟩ := b
      have stays : Binding.Stays ⟨v, mutability⟩ := by
        cases mutability with
        | frozen => exact .inl rfl
        | mutable =>
          cases v with
          | function f => exact absurd bound (other f)
          | _ => exact .inr rfl
      rw [Option.map_some, renewed, if_pos stays]

theorem findSome?_refreshFunction (frames : List Frame) :
    (frames.map (refreshFunction name value)).findSome? (·.get? name)
      = (frames.findSome? (·.get? name)).map (renewed value) := by
  rw [List.findSome?_map, List.map_findSome?]
  congr 1
  funext frame
  exact get?_refreshFunction_same frame

/-- A binding that stays hides the new function. -/
theorem lookup_redefined_of_shields (shields : env.Shields name) (value : Value) :
    (env.redefined name value).lookup name = env.lookup name := by
  obtain ⟨b, nearest, stays⟩ := shields
  have after : (env.redefined name value).locals.findSome? (·.get? name) = some b := by
    rw [redefined, findSome?_refreshFunction, nearest, Option.map_some, renewed, if_pos stays]
  rw [lookup_of_binding? (binding?_of_locals after), lookup_of_binding? (binding?_of_locals nearest)]

theorem lookup_redefined_of_not_shields (free : ¬env.Shields name) (value : Value) :
    (env.redefined name value).lookup name = some value := by
  -- Without a local binding the global one is seen; a local function that can change is replaced.
  cases nearest : env.locals.findSome? (·.get? name) with
  | none =>
    have unbound : (env.redefined name value).locals.findSome? (·.get? name) = none := by
      rw [redefined, findSome?_refreshFunction, nearest, Option.map_none]
    have bound : (env.redefined name value).binding? name = some ⟨value, .mutable⟩ := by
      rw [binding?_of_globals unbound, redefined, Table.get?_insert, if_pos rfl]
    exact lookup_of_binding? bound
  | some b =>
    have replaced : ¬b.Stays := fun stays => free ⟨b, nearest, stays⟩
    have after : (env.redefined name value).locals.findSome? (·.get? name)
        = some ⟨value, .mutable⟩ := by
      rw [redefined, findSome?_refreshFunction, nearest, Option.map_some, renewed, if_neg replaced]
    exact lookup_of_binding? (binding?_of_locals after)

/-- Scopes can be left before a definition or after it. -/
theorem truncate_redefined (env : Environment) (name : String) (value : Value) (depth : Nat) :
    (env.redefined name value).truncate depth = (env.truncate depth).redefined name value := by
  simp only [redefined, truncate, List.length_map, List.map_drop]

theorem frameAt?_redefined {height : Nat} {frame : Frame} (found : env.frameAt? height = some frame) :
    ∃ frame', (env.redefined name value).frameAt? height = some frame' ∧
      (∀ other, other ≠ name → frame'.get? other = frame.get? other) ∧
      (0 < height → SameNames frame frame') := by
  cases height with
  | zero =>
    cases found
    refine ⟨_, rfl, fun other different => ?_, fun positive => absurd positive (Nat.lt_irrefl 0)⟩
    rw [redefined, Table.get?_insert, if_neg (Ne.symm different)]
  | succ height =>
    have found' : (env.redefined name value).frameAt? (height + 1)
        = some (refreshFunction name value frame) := by
      simp only [frameAt?] at found ⊢
      rw [redefined, ← List.map_reverse, List.getElem?_map, found, Option.map_some]
    exact ⟨_, found', fun other different => get?_refreshFunction (Ne.symm different) frame,
      fun _ => refreshFunction_sameNames frame⟩

theorem redefines (env : Environment) (name : String) (value : Value) :
    Redefines name value env (env.redefined name value) where
  depth := by simp only [Environment.depth, redefined, List.length_map]
  replaced depth _ _ free := by
    rw [truncate_redefined]
    exact lookup_redefined_of_not_shields free value
  shielded depth _ _ shields := by
    rw [truncate_redefined]
    exact lookup_redefined_of_shields shields value
  others _ _ found := frameAt?_redefined found

/-- A definition of a function is refused exactly if the name is seen as a constant, and then nothing
is changed. Otherwise the new function is seen at every depth, now and after each return, but where a
local binding that stays hides it: there the same is seen as before. Nothing else changes in any frame
but the global one's binding of the name. -/
theorem defineFunction_redefines (env : Environment) (name : String) (value : Value) :
    (env.NearestFrozen name → env.defineFunction name value = .error .frozen ∧
      ∀ fault span output created,
        Eval.withSpan span (Eval.updateEnv (·.defineFunction name value) fault) ⟨env, output, created⟩
          = .error (.failed ⟨fault, some span⟩) ⟨env, output, created⟩) ∧
    (¬env.NearestFrozen name → ∃ env', env.defineFunction name value = .ok env' ∧
      Redefines name value env env') := by
  constructor
  · intro frozen
    have refused := defineFunction_of_frozen frozen value
    refine ⟨refused, fun fault span output created => ?_⟩
    exact Eval.withSpan_of_error (Eval.updateEnv_of_error refused)
  · intro free
    exact ⟨_, defineFunction_of_not_frozen free value, redefines env name value⟩

/-- A function without parameters that yields a number. -/
def yielding (stamp : Nat) (n : Int64) : Value :=
  .function ⟨stamp, some "f", [], [.int n ⟨0, 0⟩], []⟩

/-- A caller's constant hides the new function from the caller only, and the global constant, which no
one sees when the function is defined, is replaced. -/
theorem defineFunction_redefines_hidden :
    let env : Environment := ⟨[[("f", ⟨yielding 0 1, .mutable⟩)], [("f", ⟨.int 7, .frozen⟩)]],
      [("f", ⟨.int 5, .frozen⟩)]⟩
    ¬env.NearestFrozen "f" ∧ ∃ env', env.defineFunction "f" (yielding 1 2) = .ok env' ∧
      (env'.truncate 3).lookup "f" = some (yielding 1 2) ∧
      (env'.truncate 2).lookup "f" = some (.int 7) ∧
      (env'.truncate 1).lookup "f" = some (yielding 1 2) := by
  intro env
  have free : ¬env.NearestFrozen "f" := by
    rintro ⟨b, nearest, frozen⟩
    cases nearest
    cases frozen
  have unshielded (depth : Nat) (h : ∀ b, (env.truncate depth).locals.findSome? (·.get? "f") = some b →
      ¬b.Stays) : ¬(env.truncate depth).Shields "f" := fun ⟨b, nearest, stays⟩ => h b nearest stays
  obtain ⟨env', defined, redefines⟩ := (defineFunction_redefines env "f" (yielding 1 2)).2 free
  -- seen from all frames, from the middle one, and from the global one alone
  refine ⟨free, env', defined, ?_, ?_, ?_⟩
  · refine redefines.replaced 3 (by decide) (by decide) (unshielded 3 fun b nearest => ?_)
    cases nearest
    decide
  · exact redefines.shielded 2 (by decide) (by decide) ⟨_, rfl, .inl rfl⟩
  · refine redefines.replaced 1 (by decide) (by decide) (unshielded 1 fun b nearest => ?_)
    cases nearest

end Environment

end TwinLisp
