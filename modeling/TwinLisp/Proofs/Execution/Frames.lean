import Mathlib.Logic.Function.Basic
import TwinLisp.Proofs.Environment
import TwinLisp.Proofs.Execution.Scopes

/-!
The frames that evaluation keeps, and the slots of the call that runs the lowered code: scope by scope
they hold the same values. Below the scopes of a unit are the globals, or what a function has captured
and what was there when it was called.
-/

namespace TwinLisp.Execution

open TwinLisp.Graph TwinLisp.Graph.Lowering

/-- What the slots of one call hold. -/
abbrev Slots := SlotId → Option Int64

section Names

variable (program : List Expr)

/-- The program defines the function at its top level. -/
def Defined (name : String) (params : List String) (body : List Expr) : Prop :=
  ∃ head hs ns place span, .list (.ident head hs :: .ident name ns :: place :: body) span ∈ program ∧
    Form.classify head = some .defun ∧ place.names? = some params

/-- No variable has the name: it is `nil`, or that of a function. -/
def Reserved (name : String) : Prop :=
  name = "nil" ∨ ∃ params body, Defined program name params body

/-- What a name is bound to, if it is a function, is the one that the program defines, and so it is
with all that the function has captured. -/
inductive Genuine : String → TwinLisp.Value → Prop
  | data {name v} (plain : v.function? = none) : Genuine name v
  | function {name f} (defined : Defined program name f.params f.body)
    (captured : ∀ entry ∈ f.captures, Genuine entry.1 entry.2.value) : Genuine name (.function f)

end Names

/-- A slot holds the integer that a variable is bound to. -/
def Holds (slots : Slots) (k : SlotId) (b : Binding TwinLisp.Value) : Prop :=
  ∃ n, b.value = .int n ∧ slots k = some n

/-- A frame has the variables of a scope, and the slots hold their values. -/
def Mirrored (slots : Slots) (t : Table SlotId) (frame : Frame) : Prop :=
  ∀ name, Option.Rel (Holds slots) (t.get? name) (frame.get? name)

/-- What lies below the scopes of a unit: nothing, or in a call the frames that were there before it. -/
inductive Floor
  | main
  | call (low : List Frame) (globals : Frame)

namespace Floor

/-- How many frames lie below the scopes of `let` forms. -/
def height : Floor → Nat
  | main => 0
  | call low _ => low.length + 1

/-- Whether the unit is that of a function. -/
def isCall : Floor → Bool
  | main => false
  | call _ _ => true

end Floor

/-- The variables of the program as a whole. Those that are bound by now are among the variables that
lowering knows. -/
structure Loose (program : List Expr) (slots : Slots) (base : Table SlotId) (globals : Frame) :
    Prop where
  bound : ∀ name b, globals.get? name = some b → ¬Reserved program name →
    ∃ k, base.get? name = some k ∧ Holds slots k b
  free : ∀ name k, base.get? name = some k → ¬Reserved program name
  genuine : ∀ entry ∈ globals, Genuine program entry.1 entry.2.value

/-- The variables of the whole unit. -/
inductive Grounded (program : List Expr) (slots : Slots) (base : Table SlotId) :
    Floor → List Frame → Frame → Prop
  | main {globals} (loose : Loose program slots base globals) : Grounded program slots base .main [] globals
  | call {frame low globals} (own : Mirrored slots base frame)
    (genuine : ∀ f ∈ low ++ [globals], ∀ name b, f.get? name = some b → Genuine program name b.value) :
    Grounded program slots base (.call low globals) (frame :: low) globals

/-- Every variable that is visible has its value in its slot. -/
inductive Matches (program : List Expr) (floor : Floor) (slots : Slots) (base : Table SlotId) :
    List (Table SlotId) → List Frame → Frame → Prop
  | ground {below globals} (grounded : Grounded program slots base floor below globals) :
    Matches program floor slots base [] below globals
  | scope {t ts frame frames globals} (here : Mirrored slots t frame)
    (rest : Matches program floor slots base ts frames globals) :
    Matches program floor slots base (t :: ts) (frame :: frames) globals

/-- The slot of a name: that of the innermost scope that has it, or that of the whole unit. -/
def resolve (base : Table SlotId) (scopes : List (Table SlotId)) (name : String) : Option SlotId :=
  (scopes.findSome? (·.get? name)).or (base.get? name)

variable {program : List Expr} {floor : Floor} {slots : Slots} {base base' t : Table SlotId}
  {ts : List (Table SlotId)} {frame globals : Frame} {frames : List Frame} {env env' : Environment}
  {name : String} {k : SlotId} {n : Int64} {b : Binding TwinLisp.Value}

/-- The innermost scope is looked at first. -/
theorem resolve_cons : resolve base (t :: ts) name = (t.get? name).or (resolve base ts name) := by
  unfold resolve
  rw [List.findSome?_cons]
  cases t.get? name <;> rfl

/-- An integer that is bound is not a function. -/
theorem genuine_int (name : String) (n : Int64) : Genuine program name (.int n) := .data rfl

theorem Holds.genuine (h : Holds slots k b) (name : String) : Genuine program name b.value := by
  obtain ⟨n, int, -⟩ := h
  rw [int]
  exact genuine_int name n

/-- Another slot is written to. -/
theorem Holds.update (h : Holds slots k b) {slot : SlotId} (other : k ≠ slot) (v : Option Int64) :
    Holds (Function.update slots slot v) k b := by
  obtain ⟨n, int, held⟩ := h
  refine ⟨n, int, ?_⟩
  rw [Function.update_of_ne other, held]

theorem holds_update (slots : Slots) (k : SlotId) (n : Int64) (mutability : Mutability) :
    Holds (Function.update slots k (some n)) k ⟨.int n, mutability⟩ :=
  ⟨n, rfl, Function.update_self ..⟩

namespace Mirrored

/-- A name is a variable of both, with its value in the slot, or of neither. -/
theorem cases (h : Mirrored slots t frame) (name : String) :
    (t.get? name = none ∧ frame.get? name = none) ∨
      ∃ k b, t.get? name = some k ∧ frame.get? name = some b ∧ Holds slots k b :=
  rel_cases (h name)

theorem nil (slots : Slots) : Mirrored slots [] [] :=
  fun _ => .none

theorem update (h : Mirrored slots t frame) (unused : ∀ x, t.get? x ≠ some k) (v : Option Int64) :
    Mirrored (Function.update slots k v) t frame := by
  intro name
  rcases h.cases name with ⟨known, bound⟩ | ⟨slot, b, known, bound, holds⟩
  · rw [known, bound]
    exact .none
  · rw [known, bound]
    refine .some (holds.update ?_ v)
    rintro rfl
    exact unused name known

/-- A variable gets a new value. -/
theorem assign (h : Mirrored slots t frame) (known : t.get? name = some k)
    (injective : ∀ x y k, t.get? x = some k → t.get? y = some k → x = y) (n : Int64)
    (mutability : Mutability) :
    Mirrored (Function.update slots k (some n)) t (frame.insert name ⟨.int n, mutability⟩) := by
  intro other
  rw [Table.get?_insert]
  by_cases same : name = other
  · rw [if_pos same, ← same, known]
    exact .some (holds_update slots k n mutability)
  · rw [if_neg same]
    rcases h.cases other with ⟨known', bound⟩ | ⟨slot, b, known', bound, holds⟩
    · rw [known', bound]
      exact .none
    · rw [known', bound]
      refine .some (holds.update ?_ _)
      -- two names of one scope do not share a slot
      rintro rfl
      exact same (injective _ _ _ known known')

/-- A variable is bound to a slot that no other one has. -/
theorem insert (h : Mirrored slots t frame) (unused : ∀ x, t.get? x ≠ some k) (name : String)
    (n : Int64) (mutability : Mutability) :
    Mirrored (Function.update slots k (some n)) (t.insert name k)
      (frame.insert name ⟨.int n, mutability⟩) := by
  intro other
  rw [Table.get?_insert, Table.get?_insert]
  by_cases same : name = other
  · rw [if_pos same, if_pos same]
    exact .some (holds_update slots k n mutability)
  · rw [if_neg same, if_neg same]
    exact h.update unused _ other

end Mirrored

namespace Loose

variable (h : Loose program slots base globals)

include h

theorem update (unused : ∀ x, base.get? x ≠ some k) (v : Option Int64) :
    Loose program (Function.update slots k v) base globals where
  bound name b bound named := by
    obtain ⟨slot, known, holds⟩ := h.bound name b bound named
    refine ⟨slot, known, holds.update ?_ v⟩
    rintro rfl
    exact unused name known
  free := h.free
  genuine := h.genuine

/-- Lowering knows more variables than before. -/
theorem weaken (kept : ∀ x k, base.get? x = some k → base'.get? x = some k)
    (free : ∀ x k, base'.get? x = some k → base.get? x = some k ∨ ¬Reserved program x) :
    Loose program slots base' globals where
  bound name b bound named := by
    obtain ⟨slot, known, holds⟩ := h.bound name b bound named
    exact ⟨slot, kept name slot known, holds⟩
  free name k known := (free name k known).elim (h.free name k) id
  genuine := h.genuine

/-- A variable gets a value, perhaps its first one. -/
theorem assign (known : base.get? name = some k)
    (injective : ∀ x y k, base.get? x = some k → base.get? y = some k → x = y) (n : Int64)
    (mutability : Mutability) : Loose program (Function.update slots k (some n)) base
      (globals.insert name ⟨.int n, mutability⟩) where
  bound other b bound named := by
    rw [Table.get?_insert] at bound
    -- the name that is assigned has the new value, the others have slots of their own
    split at bound
    next same =>
      cases bound
      exact ⟨k, same ▸ known, holds_update slots k n mutability⟩
    next different =>
      obtain ⟨slot, known', holds⟩ := h.bound other b bound named
      refine ⟨slot, known', holds.update ?_ _⟩
      rintro rfl
      exact different (injective _ _ _ known known')
  free := h.free
  genuine entry mem := by
    rcases Table.mem_insert mem with rfl | mem
    · exact genuine_int _ n
    · exact h.genuine entry mem

/-- A variable is bound to a slot that no other one has. -/
theorem insert (unused : ∀ x, base.get? x ≠ some k) (named : ¬Reserved program name) (n : Int64)
    (mutability : Mutability) : Loose program (Function.update slots k (some n)) (base.insert name k)
      (globals.insert name ⟨.int n, mutability⟩) where
  bound other b bound named := by
    rw [Table.get?_insert] at bound ⊢
    -- the new name, or one that was there before
    split at bound
    next same =>
      cases bound
      rw [if_pos same]
      exact ⟨k, rfl, holds_update slots k n mutability⟩
    next different =>
      rw [if_neg different]
      exact (h.update unused _).bound other b bound named
  -- a variable is never called `nil`, and never like a function
  free other slot known := by
    rcases get?_insert_cases known with ⟨rfl, -⟩ | known
    · exact named
    · exact h.free other slot known
  genuine entry mem := by
    rcases Table.mem_insert mem with rfl | mem
    · exact genuine_int _ n
    · exact h.genuine entry mem

end Loose

namespace Matches

variable (h : Matches program floor slots base ts frames globals)

include h

theorem length_eq : frames.length = ts.length + floor.height := by
  induction h with
  | ground grounded =>
    cases grounded with
    | main => rfl
    | call => exact (Nat.zero_add _).symm
  | scope _ _ ih =>
    rw [List.length_cons, List.length_cons, ih, Nat.add_right_comm]

/-- A slot that no variable has is written to. -/
theorem update (unused : ∀ t ∈ ts ++ [base], ∀ x, t.get? x ≠ some k) (v : Option Int64) :
    Matches program floor (Function.update slots k v) base ts frames globals := by
  induction h with
  | ground grounded =>
    have unused := unused base List.mem_cons_self
    cases grounded with
    | main loose => exact .ground (.main (loose.update unused v))
    | call own genuine => exact .ground (.call (own.update unused v) genuine)
  | scope here _ ih =>
    obtain ⟨first, others⟩ := List.forall_mem_cons.mp unused
    exact .scope (here.update first v) (ih others)

/-- What is bound to a variable is in its slot. -/
theorem holds (known : resolve base ts name = some k)
    (bound : (frames ++ [globals]).findSome? (·.get? name) = some b) : Holds slots k b := by
  induction h with
  | ground grounded =>
    change base.get? name = some k at known
    cases grounded with
    | main loose =>
      change [_].findSome? _ = _ at bound
      rw [List.findSome?_singleton] at bound
      obtain ⟨slot, known', holds⟩ := loose.bound name b bound (loose.free name k known)
      cases known.symm.trans known'
      exact holds
    | call own _ =>
      rw [List.cons_append, List.findSome?_cons] at bound
      -- a variable of a function's code is a parameter, which the frame of the call binds
      rcases own.cases name with ⟨unknown, -⟩ | ⟨slot, b', known', bound', holds⟩
      · rw [unknown] at known
        cases known
      · cases known.symm.trans known'
        rw [bound'] at bound
        cases bound
        exact holds
  | scope here _ ih =>
    rw [resolve_cons] at known
    rw [List.cons_append, List.findSome?_cons] at bound
    -- the scope has the variable or looks further out, and so does its frame
    rcases here.cases name with ⟨unknown, unbound⟩ | ⟨slot, b', known', bound', holds⟩
    · rw [unknown, Option.none_or] at known
      rw [unbound] at bound
      exact ih known bound
    · rw [known', Option.some_or] at known
      rw [bound'] at bound
      cases known
      cases bound
      exact holds

/-- Every function that is bound is one that the program defines. -/
theorem genuine : ∀ f ∈ frames ++ [globals], ∀ name b, f.get? name = some b →
    Genuine program name b.value := by
  induction h with
  | ground grounded =>
    cases grounded with
    -- outside a call there are only globals, which are genuine by themselves
    | main loose =>
      intro f mem name b bound
      cases List.mem_singleton.mp mem
      exact loose.genuine (name, b) (Table.mem_of_get? bound)
    | call own genuine =>
      refine List.forall_mem_cons.mpr ⟨fun name b bound => ?_, genuine⟩
      rcases own.cases name with ⟨-, unbound⟩ | ⟨slot, b', -, bound', holds⟩
      · rw [unbound] at bound
        cases bound
      · cases bound.symm.trans bound'
        exact holds.genuine name
  -- a scope binds integers only, which are genuine
  | scope here _ ih =>
    refine List.forall_mem_cons.mpr ⟨fun name b bound => ?_, ih⟩
    rcases here.cases name with ⟨-, unbound⟩ | ⟨slot, b', -, bound', holds⟩
    · rw [unbound] at bound
      cases bound
    · cases bound.symm.trans bound'
      exact holds.genuine name

/-- A known variable gets a value in the innermost frame that has it, or globally. -/
theorem replaceNearest (known : resolve base ts name = some k) (apart : Apart (ts ++ [base]))
    (n : Int64) :
    (∃ frames', Environment.replaceNearest name (.int n) frames = some frames' ∧
        Matches program floor (Function.update slots k (some n)) base ts frames' globals) ∨
      Environment.replaceNearest name (.int n) frames = none ∧
        Matches program floor (Function.update slots k (some n)) base ts frames
          (globals.insert name ⟨.int n, .mutable⟩) := by
  induction h with
  | ground grounded =>
    change base.get? name = some k at known
    have injective := apart.injective base List.mem_cons_self
    -- below all scopes, the program assigns to a global, a function to one of its parameters
    cases grounded with
    | main loose => exact .inr ⟨rfl, .ground (.main (loose.assign known injective n .mutable))⟩
    | @call frame low globals own genuine =>
      rcases own.cases name with ⟨unknown, -⟩ | ⟨slot, b, known', bound, holds⟩
      · rw [unknown] at known
        cases known
      · refine .inl ⟨frame.insert name ⟨.int n, b.mutability⟩ :: low, ?_, .ground (.call ?_ genuine)⟩
        · simp only [Environment.replaceNearest, bound]
        · exact own.assign known injective n b.mutability
  | @scope t ts frame frames globals here rest ih =>
    rw [resolve_cons] at known
    have injective := apart.injective t List.mem_cons_self
    rcases here.cases name with ⟨unknown, unbound⟩ | ⟨slot, b, known', bound, holds⟩
    · -- the variable belongs to an outer scope, which has no slot in common with this one
      rw [unknown, Option.none_or] at known
      have unused : ∀ x, t.get? x ≠ some k := by
        intro x used
        obtain ⟨t', mem, y, held⟩ : ∃ t' ∈ ts ++ [base], ∃ y, t'.get? y = some k := by
          unfold resolve at known
          rcases Option.or_eq_some_iff.mp known with inner | ⟨-, outer⟩
          · obtain ⟨t', mem, held⟩ := List.exists_of_findSome?_eq_some inner
            exact ⟨t', List.mem_append_left _ mem, name, held⟩
          · exact ⟨base, List.mem_append_right _ List.mem_cons_self, name, outer⟩
        exact (List.pairwise_cons.mp apart.disjoint).1 t' mem x y k used held
      rcases ih known apart.of_cons with ⟨frames', replaced, inner⟩ | ⟨missing, inner⟩
      · refine .inl ⟨frame :: frames', ?_, .scope (here.update unused _) inner⟩
        simp only [Environment.replaceNearest, unbound, replaced, Option.map_some]
      · refine .inr ⟨?_, .scope (here.update unused _) inner⟩
        simp only [Environment.replaceNearest, unbound, missing, Option.map_none]
    · rw [known', Option.some_or] at known
      cases known
      -- the variable is one of this scope, and no other scope uses its slot
      refine .inl ⟨frame.insert name ⟨.int n, b.mutability⟩ :: frames, ?_, .scope ?_ (rest.update ?_ _)⟩
      · simp only [Environment.replaceNearest, bound]
      · exact here.assign known' injective n b.mutability
      · intro t' mem x used
        exact (List.pairwise_cons.mp apart.disjoint).1 t' mem name x k known' used

/-- Lowering of the program as a whole knows more variables than before; a function knows its own. -/
theorem weaken (kept : floor.isCall = false → ∀ x k, base.get? x = some k → base'.get? x = some k)
    (free : ∀ x k, base'.get? x = some k → base.get? x = some k ∨ ¬Reserved program x)
    (same : floor.isCall = true → base' = base) :
    Matches program floor slots base' ts frames globals := by
  induction h with
  | ground grounded =>
    cases grounded with
    | main loose => exact .ground (.main (loose.weaken (kept rfl) free))
    | call own genuine =>
      cases same rfl
      exact .ground (.call own genuine)
  | scope here _ ih => exact .scope here ih

end Matches

/-- A variable that `set` changes. -/
theorem matches_assign (h : Matches program floor slots base ts env.locals env.globals)
    (known : resolve base ts name = some k) (apart : Apart (ts ++ [base]))
    (assigned : env.assign name (.int n) = .ok env') :
    Matches program floor (Function.update slots k (some n)) base ts env'.locals env'.globals := by
  have changed := Environment.assign_ok assigned
  rcases h.replaceNearest known apart n with ⟨frames', replaced, inner⟩ | ⟨missing, inner⟩
  · rw [replaced] at changed
    obtain ⟨-, ⟨_, found, rfl⟩ | ⟨unbound, -⟩⟩ := changed
    · cases found
      exact inner
    · cases unbound
  · rw [missing] at changed
    obtain ⟨-, ⟨_, found, -⟩ | ⟨-, rfl⟩⟩ := changed
    · cases found
    · exact inner

/-- A new variable in a scope of its own. -/
theorem matches_define (h : Matches program floor slots base (t :: ts) env.locals env.globals)
    (unused : ∀ t' ∈ t :: ts ++ [base], ∀ x, t'.get? x ≠ some k) (name : String) (n : Int64)
    (mutability : Mutability) :
    Matches program floor (Function.update slots k (some n)) base (t.insert name k :: ts)
      (env.define name (.int n) mutability).locals (env.define name (.int n) mutability).globals := by
  obtain ⟨locals, globals⟩ := env
  obtain ⟨first, others⟩ := List.forall_mem_cons.mp unused
  cases h with
  | scope here rest => exact .scope (here.insert first name n mutability) (rest.update others _)

/-- A new variable of the whole unit. -/
theorem matches_define_base (h : Matches program floor slots base [] env.locals env.globals)
    (unused : ∀ x, base.get? x ≠ some k) (named : ¬Reserved program name) (n : Int64)
    (mutability : Mutability) :
    Matches program floor (Function.update slots k (some n)) (base.insert name k) []
      (env.define name (.int n) mutability).locals (env.define name (.int n) mutability).globals := by
  obtain ⟨locals, globals⟩ := env
  cases h with
  | ground grounded =>
    cases grounded with
    | main loose => exact .ground (.main (loose.insert unused named n mutability))
    | call own genuine => exact .ground (.call (own.insert unused name n mutability) genuine)

/-- A scope is entered. -/
theorem matches_push (h : Matches program floor slots base ts env.locals env.globals) :
    Matches program floor slots base ([] :: ts) env.pushScope.locals env.pushScope.globals :=
  .scope (Mirrored.nil slots) h

/-- A scope is left. -/
theorem Matches.pop {ts' : List (Table SlotId)} (h : Matches program floor slots base ts' frames globals)
    (length : ts'.length = ts.length + 1) (tail : ts'.tail = ts) :
    Matches program floor slots base ts frames.tail globals := by
  cases h with
  | ground => cases length
  | scope _ rest =>
    subst tail
    exact rest

end TwinLisp.Execution
