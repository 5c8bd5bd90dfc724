import TwinLisp.Eval.World
import TwinLisp.Proofs.Execution.Frames
import TwinLisp.Proofs.Execution.Machine
import TwinLisp.Proofs.Execution.Passage

/-!
The lowered code of a unit, run beside evaluation: the activation stands where lowering stood, its
slots hold what the frames bind, and it prints what evaluation prints.
-/

namespace TwinLisp.Execution

open TwinLisp.Graph TwinLisp.Graph.Lowering TwinLisp.Graph.Exec TwinLisp.Eval

/-- What is fixed while code of one unit is run: its finished body, the frames below its own, and which
scope of the whole unit is seen. -/
structure Scene (program : List Expr) (m : Module) where
  code : Builder
  floor : Floor
  outlook : Outlook

variable {program : List Expr} {m : Module}

/-- Settled code from one state to another is run in the scene. -/
structure Stage (c : Scene program m) (p : Place) (s s' : State) : Prop where
  going : Going p s
  coming : Coming m c.code c.outlook p.unconditional s'
  inside : c.floor.isCall = p.inFunction

/-- The activation stands where lowering stood, with the values that evaluation has there. -/
structure Synced (c : Scene program m) (s : State) (w : World) (x : Activation) : Prop where
  here : c.code.At s.builder x
  frames : Matches program c.floor x.slots (c.outlook.base s.current.base) s.current.locals
    w.env.locals w.env.globals

/-- The activation has run through the code between two states, while evaluation has got from one world
to another. Values from before are left alone. -/
structure Ran (c : Scene program m) (s s' : State) (w w' : World) (x : Activation)
    (ls : List String) (y : Activation) : Prop where
  runs : Runs m x ls y
  synced : Synced c s' w' y
  keeps : ∀ v < s.fresh, y.values v = x.values v
  output : w'.output = ls.foldl Output.println w.output

/-- The activation runs through the code between two states. -/
def Reaches (c : Scene program m) (s s' : State) (w w' : World) (x : Activation)
    (P : Activation → Prop) : Prop :=
  ∃ ls y, Ran c s s' w w' x ls y ∧ P y

/-- An operand stands for an integer; it is a constant, or one of the first `bound` values. -/
structure Held (bound : Nat) (x : Activation) (a : Operand) (n : Int64) : Prop where
  int : x.values.int? a = some n
  below : ∀ id, a = .value id → id < bound

/-- An operand stands for what evaluation has yielded, which is an integer. -/
def Yields (bound : Nat) (a : Operand) (v : TwinLisp.Value) (x : Activation) : Prop :=
  ∃ n, v = .int n ∧ Held bound x a n

variable {c : Scene program m} {p : Place} {xs : List String} {s s₁ s₂ s' t : State}
  {w w₁ w' : World} {x y : Activation} {P Q : Activation → Prop} {a b : Operand} {n k : Int64}

namespace Stage

/-- The code of a first part. -/
theorem first {q : Place} (h : Stage c p s s') (rest : Passage (Reserved program) q xs s₁ s')
    (same : q.unconditional = p.unconditional) : Stage c p s s₁ :=
  ⟨h.going, h.coming.back rest same, h.inside⟩

/-- The code of a first part, behind which nothing is bound. -/
theorem before (h : Stage c p s s') (moved : Moved s₁ s') : Stage c p s s₁ :=
  ⟨h.going, h.coming.back_moved moved, h.inside⟩

/-- The code behind a first part. -/
theorem rest (h : Stage c p s s') (first : Passage (Reserved program) p xs s s₁) :
    Stage c (p.binding xs) s₁ s' :=
  ⟨first.after, h.coming, h.inside⟩

end Stage

/-- A constant stands for itself at any time. -/
theorem held_const (bound : Nat) (x : Activation) (n : Int64) : Held bound x (.const n) n :=
  ⟨rfl, nofun⟩

theorem held_value {bound id : Nat} (known : x.values id = some (.int n)) (lt : id < bound) :
    Held bound x (.value id) n where
  int := by
    simp only [Values.int?, known]
  below := by
    rintro _ ⟨⟩
    exact lt

/-- Later code leaves the values alone that it finds. -/
theorem Held.keep {bound bound' : Nat} (h : Held bound x a n)
    (keeps : ∀ v < bound, y.values v = x.values v) (le : bound ≤ bound') : Held bound' y a n where
  int := by
    rw [← h.int]
    cases a with
    | const => rfl
    | value id =>
      simp only [Values.int?, keeps id (h.below id rfl)]
  below id same := Nat.lt_of_lt_of_le (h.below id same) le

/-- The activation goes on from where it has got. -/
theorem Ran.andThen {ls : List String} (first : Ran c s s₁ w w₁ x ls y) (le : s.fresh ≤ s₁.fresh)
    (rest : Reaches c s₁ s' w₁ w' y Q) : Reaches c s s' w w' x Q := by
  obtain ⟨runs, -, keeps, output⟩ := first
  obtain ⟨ls', z, ⟨runs', synced, keeps', output'⟩, h⟩ := rest
  refine ⟨ls ++ ls', z, ⟨runs.trans runs', synced, fun v lt => ?_, ?_⟩, h⟩
  · -- what is older than the first part is older than the second one, too
    rw [keeps' v (Nat.lt_of_lt_of_le lt le), keeps v lt]
  · -- lines of the second part come behind those of the first
    rw [List.foldl_append, ← output, output']

namespace Reaches

/-- Lowering has gone on without adding code. -/
theorem still (synced : Synced c s' w x) (h : P x) : Reaches c s s' w w x P :=
  ⟨[], x, ⟨.refl m x, synced, fun _ _ => rfl, rfl⟩, h⟩

/-- One stretch of code and then another, which is run in the worlds that the first one leaves. -/
theorem trans (first : Reaches c s s₁ w w₁ x P) (le : s.fresh ≤ s₁.fresh)
    (rest : ∀ y, Synced c s₁ w₁ y → (∀ v < s.fresh, y.values v = x.values v) → P y →
      Reaches c s₁ s' w₁ w' y Q) : Reaches c s s' w w' x Q := by
  obtain ⟨ls, y, ran, h⟩ := first
  exact ran.andThen le (rest y ran.synced ran.keeps h)

theorem mono (h : Reaches c s s' w w' x P)
    (sub : ∀ y, (∀ v < s.fresh, y.values v = x.values v) → P y → Q y) : Reaches c s s' w w' x Q := by
  obtain ⟨ls, y, ran, h⟩ := h
  exact ⟨ls, y, ran, sub y ran.keeps h⟩

end Reaches

/-! One lemma for each kind of step. -/

section Steps

/-- An operation that is carried out yields its value, and other code may be run for it. -/
theorem reaches_define {operation : Operation} {datum : Datum} {ls : List String} (opened : s.Open)
    (synced : Synced c s w x) (runs : Runs m x ls (x.define s.fresh datum)) (env : w'.env = w.env)
    (output : w'.output = ls.foldl Output.println w.output) :
    Reaches c s (s.emit operation) w w' x fun y => y.values s.fresh = some datum := by
  -- where the type of the value is known, but the instruction is still to be added
  let typed : Builder := { s.builder with types := s.builder.types.push operation.ty }
  have opened : typed.Open := ⟨opened.lt, opened.going⟩
  have here : c.code.At typed x := synced.here.of_same rfl rfl
  refine ⟨ls, _, ⟨runs, ⟨here.push opened rfl rfl rfl, ?_⟩, fun v lt => ?_, output⟩, ?_⟩
  · rw [env]
    exact synced.frames
  · exact Function.update_of_ne (Nat.ne_of_lt lt) _ _
  · exact Function.update_self ..

/-- The operation is the next instruction. -/
theorem instr?_emit {operation : Operation} (opened : s.Open)
    (ahead : Ahead m c.code (s.emit operation)) (synced : Synced c s w x) :
    x.instr? = some (.define s.fresh operation) := by
  let typed : Builder := { s.builder with types := s.builder.types.push operation.ty }
  have opened : typed.Open := ⟨opened.lt, opened.going⟩
  have here : c.code.At typed x := synced.here.of_same rfl rfl
  exact here.instr? opened ahead.grown

/-- An operation is run: its result is the next value, and the variables stay. -/
theorem reaches_emit {operation : Operation} {datum : Datum} (opened : s.Open)
    (ahead : Ahead m c.code (s.emit operation)) (synced : Synced c s w x)
    (computed : x.compute operation = some datum) :
    Reaches c s (s.emit operation) w w x fun y => y.values s.fresh = some datum :=
  reaches_define opened synced (runs_define (instr?_emit opened ahead synced) computed) rfl rfl

/-- What the new value is, it stands for. -/
theorem Reaches.yields {operation : Operation}
    (h : Reaches c s (s.emit operation) w w' x fun y => y.values s.fresh = some (.int n)) :
    Reaches c s (s.emit operation) w w' x (Yields (s.emit operation).fresh (.value s.fresh) (.int n)) := by
  refine h.mono fun y _ known => ⟨n, rfl, held_value known ?_⟩
  rw [fresh_emit]
  exact Nat.lt_succ_self _

/-- An operation that yields an integer. -/
theorem reaches_int {operation : Operation} (opened : s.Open)
    (ahead : Ahead m c.code (s.emit operation)) (synced : Synced c s w x)
    (computed : x.compute operation = some (.int n)) :
    Reaches c s (s.emit operation) w w x
      (Yields (s.emit operation).fresh (.value s.fresh) (.int n)) :=
  (reaches_emit opened ahead synced computed).yields

/-- An effect is run, and what it prints comes behind all other lines. -/
theorem reaches_perform {effect : Effect} {ls : List String} (opened : t.Open)
    (ahead : Ahead m c.code (t.perform effect)) (here : c.code.At t.builder x)
    (performed : x.perform m effect = some (y, ls)) (body : y.body = x.body) (block : y.block = x.block)
    (index : y.index = x.index + 1) (values : y.values = x.values)
    (output : w'.output = ls.foldl Output.println w.output)
    (frames : Matches program c.floor y.slots (c.outlook.base t.current.base) t.current.locals
      w'.env.locals w'.env.globals) : Reaches c s (t.perform effect) w w' x (· = y) := by
  have runs := runs_perform (here.instr? opened ahead.grown) performed
  exact ⟨ls, y, ⟨runs, ⟨here.push opened body block index, frames⟩, fun v _ => by rw [values], output⟩, rfl⟩

/-- A store, with which the slots hold what the frames bind. -/
theorem reaches_store {slot : SlotId} {env : Environment} (opened : t.Open)
    (ahead : Ahead m c.code (t.perform (.store slot a))) (here : c.code.At t.builder x)
    (held : x.values.int? a = some n)
    (frames : Matches program c.floor (Function.update x.slots slot (some n))
      (c.outlook.base t.current.base) t.current.locals env.locals env.globals) :
    Reaches c s (t.perform (.store slot a)) w { w with env } x fun y => y.values = x.values := by
  have performed : x.perform m (.store slot a)
      = some ({ x.next with slots := Function.update x.slots slot (some n) }, []) := by
    simp only [Activation.perform, held]
    rfl
  refine Reaches.mono (reaches_perform opened ahead here performed rfl rfl rfl rfl rfl frames) ?_
  rintro y - rfl
  rfl

/-- The values of an activation are those of another. -/
theorem Held.of_values {bound : Nat} (h : Held bound x a n) (values : y.values = x.values) :
    Held bound y a n :=
  h.keep (fun v _ => by rw [values]) (Nat.le_refl _)

theorem reaches_printInt (opened : s.Open) (ahead : Ahead m c.code (s.perform (.printInt a)))
    (synced : Synced c s w x) (held : x.values.int? a = some n) :
    Reaches c s (s.perform (.printInt a)) w
      { w with output := w.output.println (Text.Decimal.text n) } x fun _ => True := by
  have performed : x.perform m (.printInt a) = some (x.next, [Text.Decimal.text n]) := by
    simp only [Activation.perform, held]
    rfl
  exact Reaches.mono
    (reaches_perform opened ahead synced.here performed rfl rfl rfl rfl rfl synced.frames)
    fun _ _ _ => trivial

theorem reaches_printStr {string : StringId} {text : String} (opened : s.Open)
    (ahead : Ahead m c.code (s.perform (.printStr string))) (synced : Synced c s w x)
    (known : m.strings[string]? = some text) :
    Reaches c s (s.perform (.printStr string)) w { w with output := w.output.println text } x
      fun _ => True := by
  have performed : x.perform m (.printStr string) = some (x.next, [text]) := by
    simp only [Activation.perform, known]
    rfl
  exact Reaches.mono
    (reaches_perform opened ahead synced.here performed rfl rfl rfl rfl rfl synced.frames)
    fun _ _ _ => trivial

/-- Control goes to a block that is begun in another state. -/
theorem reaches_goto (runs : Runs m x [] (x.goto t.block)) (synced : Synced c s w x)
    (nonzero : t.block ≠ 0) (empty : t.builder.instrsAt t.block = [])
    (locals : t.current.locals = s.current.locals)
    (base : c.outlook.base t.current.base = c.outlook.base s.current.base) :
    Reaches c s t w w x (· = x.goto t.block) := by
  refine ⟨[], _, ⟨runs, ⟨Builder.at_goto synced.here.body nonzero empty, ?_⟩, fun _ _ => rfl, rfl⟩, rfl⟩
  -- a jump changes no slot
  rw [locals, base]
  exact synced.frames

end Steps

end TwinLisp.Execution
