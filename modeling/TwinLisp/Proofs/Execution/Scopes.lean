import TwinLisp.Proofs.Lowering.Trace
import TwinLisp.Proofs.Scoping

/-!
What lowering does to the scopes of the unit under construction: no two variables share a slot, and in
settled code a scope loses no variable, changes only where a constant may be defined, and the scope of
the whole unit only grows.
-/

namespace TwinLisp.Graph.Lowering

open TwinLisp.Expr

def Disjoint (t t' : Table SlotId) : Prop :=
  ∀ x y k, t.get? x = some k → t'.get? y ≠ some k

/-- No two variables of the scopes share a slot. -/
structure Apart (ts : List (Table SlotId)) : Prop where
  injective : ∀ t ∈ ts, ∀ x y k, t.get? x = some k → t.get? y = some k → x = y
  disjoint : ts.Pairwise Disjoint

def UnitState.scopes (u : UnitState) : List (Table SlotId) := u.locals ++ [u.base]

/-- The variables of a unit have slots of their own. -/
structure Tidy (u : UnitState) : Prop where
  apart : Apart u.scopes
  below : ∀ t ∈ u.scopes, ∀ x k, t.get? x = some k → k < u.builder.slots.size

section Apart

variable {ts before after : List (Table SlotId)} {t : Table SlotId} {slot : SlotId} {name : String}

/-- A slot that is found is the new one under the new name, or was there before. -/
theorem get?_insert_cases {x : String} {k : SlotId} (h : (t.insert name slot).get? x = some k) :
    x = name ∧ k = slot ∨ t.get? x = some k := by
  rw [Table.get?_insert] at h
  split at h
  next same =>
    cases h
    exact .inl ⟨same.symm, rfl⟩
  next => exact .inr h

/-- A scope gets a variable with a slot that no scope has yet. -/
theorem Apart.insert (h : Apart (before ++ t :: after))
    (fresh : ∀ t' ∈ before ++ t :: after, ∀ x, t'.get? x ≠ some slot) (name : String) :
    Apart (before ++ t.insert name slot :: after) := by
  obtain ⟨injective, disjoint⟩ := h
  obtain ⟨outer, inner, across⟩ := List.pairwise_append.mp disjoint
  obtain ⟨here, inner⟩ := List.pairwise_cons.mp inner
  have own := fresh t (List.mem_append_right _ List.mem_cons_self)
  constructor
  · -- two names of one scope: the new slot is that of the new name alone
    intro t' ht' x y k hx hy
    rcases List.mem_append.mp ht' with ht' | ht'
    · exact injective t' (List.mem_append_left _ ht') x y k hx hy
    rcases List.mem_cons.mp ht' with rfl | ht'
    · rcases get?_insert_cases hx with ⟨rfl, rfl⟩ | oldX
      · rcases get?_insert_cases hy with ⟨rfl, -⟩ | oldY
        · rfl
        · exact absurd oldY (own y)
      · rcases get?_insert_cases hy with ⟨rfl, rfl⟩ | oldY
        · exact absurd oldX (own x)
        · exact injective t (List.mem_append_right _ List.mem_cons_self) x y k oldX oldY
    · exact injective t' (List.mem_append_right _ (List.mem_cons_of_mem _ ht')) x y k hx hy
  · -- two scopes: the new slot is in none of the others, before it or behind it
    refine List.pairwise_append.mpr ⟨outer, List.pairwise_cons.mpr ⟨fun t' ht' => ?_, inner⟩, ?_⟩
    · intro x y k hx hy
      rcases get?_insert_cases hx with ⟨-, rfl⟩ | hx
      · exact fresh t' (List.mem_append_right _ (List.mem_cons_of_mem _ ht')) y hy
      · exact here t' ht' x y k hx hy
    · intro t' ht' t'' ht'' x y k hx hy
      rcases List.mem_cons.mp ht'' with rfl | ht''
      · rcases get?_insert_cases hy with ⟨-, rfl⟩ | hy
        · exact fresh t' (List.mem_append_left _ ht') x hx
        · exact across t' ht' t List.mem_cons_self x y k hx hy
      · exact across t' ht' t'' (List.mem_cons_of_mem _ ht'') x y k hx hy

theorem Apart.cons_nil (h : Apart ts) : Apart ([] :: ts) where
  injective := List.forall_mem_cons.mpr ⟨nofun, h.injective⟩
  disjoint := List.pairwise_cons.mpr ⟨fun _ _ => nofun, h.disjoint⟩

/-- The outer scopes are apart by themselves. -/
theorem Apart.of_cons (h : Apart (t :: ts)) : Apart ts where
  injective := (List.forall_mem_cons.mp h.injective).2
  disjoint := (List.pairwise_cons.mp h.disjoint).2

end Apart

namespace Tidy

variable {u v : UnitState} {s : State}

/-- Code that binds nothing leaves the scopes tidy. -/
theorem of_same (h : Tidy u) (locals : v.locals = u.locals) (base : v.base = u.base)
    (slots : v.builder.slots.size = u.builder.slots.size) : Tidy v := by
  have scopes : v.scopes = u.scopes := by
    unfold UnitState.scopes
    rw [locals, base]
  refine ⟨scopes ▸ h.apart, ?_⟩
  rw [scopes, slots]
  exact h.below

/-- The next slot is that of no variable. -/
theorem fresh (h : Tidy u) {t : Table SlotId} (mem : t ∈ u.scopes) (x : String) :
    t.get? x ≠ some u.builder.slots.size :=
  fun found => Nat.lt_irrefl _ (h.below t mem x _ found)

/-- A new variable gets the next slot in one of the scopes. -/
theorem insert (h : Tidy u) (before after : List (Table SlotId)) {t : Table SlotId}
    (scopes : u.scopes = before ++ t :: after) (name : String)
    (scopes' : v.scopes = before ++ t.insert name u.builder.slots.size :: after)
    (slots : v.builder.slots.size = u.builder.slots.size + 1) : Tidy v := by
  have apart := h.apart
  have fresh : ∀ t' ∈ u.scopes, ∀ x, t'.get? x ≠ some u.builder.slots.size := fun t' mem => h.fresh mem
  have below := h.below
  rw [scopes] at apart fresh below
  refine ⟨scopes' ▸ apart.insert fresh name, ?_⟩
  rw [scopes', slots]
  intro t' ht' x k hx
  -- old slots stay below the number of slots, which has grown
  have old {t' : Table SlotId} (mem : t' ∈ before ++ t :: after) (hx : t'.get? x = some k) :
      k < u.builder.slots.size + 1 :=
    Nat.lt_succ_of_lt (below t' mem x k hx)
  -- the scopes before the one that has changed, that one, and those behind it
  rcases List.mem_append.mp ht' with ht' | ht'
  · exact old (List.mem_append_left _ ht') hx
  rcases List.mem_cons.mp ht' with rfl | ht'
  · rcases get?_insert_cases hx with ⟨-, rfl⟩ | hx
    · exact Nat.lt_succ_self _
    · exact old (List.mem_append_right _ List.mem_cons_self) hx
  · exact old (List.mem_append_right _ (List.mem_cons_of_mem _ ht')) hx

theorem bindOuter (h : Tidy s.current) (name : String) (frozen : Bool) (a : Operand) :
    Tidy (s.bindNew UnitState.bindOuter name frozen a).current :=
  h.insert s.current.locals [] rfl name rfl (Array.size_push _)

/-- A variable gets a slot that no other variable has. -/
theorem bindInner (h : Tidy s.current) (name : String) (frozen : Bool) (a : Operand) :
    Tidy (s.bindNew UnitState.bindInner name frozen a).current := by
  obtain ⟨module, signatures, ⟨unit, builder, scopes, base⟩, inProgress⟩ := s
  cases scopes with
  | nil => exact h.bindOuter name frozen a
  | cons scope scopes =>
    exact h.insert [] (scopes ++ [base]) rfl name rfl (Array.size_push _)

theorem bindAll (h : Tidy s.current) (pairs : List (String × Operand)) :
    Tidy (s.bindAll pairs).current := by
  induction pairs generalizing s with
  | nil => exact h
  | cons pair pairs ih => exact ih (h.bindInner pair.1 false pair.2)

theorem enterScope (h : Tidy s.current) (pairs : List (String × Operand)) :
    Tidy (s.enterScope pairs).current := by
  refine Tidy.bindAll (s := { s with current := s.current.pushScope }) ?_ pairs
  exact ⟨h.apart.cons_nil, List.forall_mem_cons.mpr ⟨nofun, h.below⟩⟩

/-- Without its innermost scope a unit is as tidy as before. -/
theorem leaveScope (h : Tidy s.current) : Tidy s.leaveScope.current := by
  obtain ⟨module, signatures, ⟨unit, builder, scopes, base⟩, inProgress⟩ := s
  cases scopes with
  | nil => exact h
  | cons scope scopes => exact ⟨h.apart.of_cons, (List.forall_mem_cons.mp h.below).2⟩

end Tidy

theorem tidy_new (unit : UnitId) (arity : Nat) : Tidy (.new unit arity) := by
  refine ⟨⟨?_, List.pairwise_singleton _ _⟩, ?_⟩
  · exact List.forall_mem_singleton.mpr nofun
  · exact List.forall_mem_singleton.mpr nofun

variable {s s₁ s' : State}

mutual

/-- Lowering keeps the scopes tidy. -/
theorem Value.tidy : ∀ {e : Expr} {s : State} {a : Operand} {s' : State}, Value e s a s' →
    Tidy s.current → Tidy s'.current
  | _, _, _, _, .int, h => h
  | _, _, _, _, .variable _, h => h.of_same rfl rfl rfl
  | _, _, _, _, .letIn initial inner, h => (inner.tidy ((initial.tidy h).enterScope _)).leaveScope
  | _, _, _, _, .print _ _ printed, h => printed.tidy h
  | _, _, _, _, .store _ value _ _, h => (value.tidy h).of_same rfl rfl rfl
  | _, _, _, _, .introduce _ value _, h => (value.tidy h).bindOuter _ _ _
  | _, _, _, _, .const _ value _, h => (value.tidy h).bindInner _ _ _
  | _, _, _, _, .cond _ tested first second, h => by
    have opened := first.tidy ((tested.tidy h).of_same rfl rfl rfl)
    exact (second.tidy (opened.of_same rfl rfl rfl)).of_same rfl rfl rfl
  | _, _, _, _, .not _ value, h => (value.tidy h).of_same rfl rfl rfl
  | _, _, _, _, .logicEmpty _, h => h
  | _, _, _, _, .logic _ tests, h => (tests.tidy (h.of_same rfl rfl rfl)).of_same rfl rfl rfl
  | _, _, _, _, .loop _ tested body, h => by
    have condition := tested.tidy (h.of_same rfl rfl rfl)
    exact (body.tidy (condition.of_same rfl rfl rfl)).of_same rfl rfl rfl
  | _, _, _, _, .defun _ _ defined _, h => by
    -- the body is another unit: around it the scopes are as they were
    rw [← (current_of_define? defined).1] at h
    exact h
  | _, _, _, _, .lambda _, h => h
  | _, _, _, _, .neg _ value, h => (value.tidy h).of_same rfl rfl rfl
  | _, _, _, _, .arith _ first rest, h => rest.tidy (first.tidy h)
  | _, _, _, _, .call _ _ arguments found, h => by
    have passed := arguments.tidy h
    -- declaring the unit that is called changes no scope
    rw [← (current_of_callee? found).1] at passed
    exact passed.of_same rfl rfl rfl

theorem Test.tidy : ∀ {e : Expr} {s : State} {v : ValueId} {s' : State}, Test e s v s' →
    Tidy s.current → Tidy s'.current
  | _, _, _, _, .compare _ first second, h => (second.tidy (first.tidy h)).of_same rfl rfl rfl
  | _, _, _, _, .nonzero _ value, h => (value.tidy h).of_same rfl rfl rfl

/-- Expressions one after the other leave the scopes tidy. -/
theorem Values.tidy : ∀ {es : List Expr} {s : State} {as : List Operand} {s' : State},
    Values es s as s' → Tidy s.current → Tidy s'.current
  | _, _, _, _, .nil, h => h
  | _, _, _, _, .cons first rest, h => rest.tidy (first.tidy h)

theorem Prints.tidy : ∀ {es : List Expr} {s s' : State}, Prints es s s' →
    Tidy s.current → Tidy s'.current
  | _, _, _, .nil, h => h
  | _, _, _, .str rest, h => rest.tidy (h.of_same rfl rfl rfl)
  | _, _, _, .int value rest, h => rest.tidy ((value.tidy h).of_same rfl rfl rfl)

theorem Operands.tidy : ∀ {op : ArithOp} {acc : Operand} {es : List Expr} {s : State}
    {r : Operand} {s' : State}, Operands op acc es s r s' → Tidy s.current → Tidy s'.current
  | _, _, _, _, _, _, .nil, h => h
  | _, _, _, _, _, _, .cons value _ rest, h => rest.tidy ((value.tidy h).of_same rfl rfl rfl)

theorem Tests.tidy : ∀ {decides : Bool} {merge : BlockId} {es : List Expr} {s : State}
    {exits : List BlockId} {s' : State}, Tests decides merge es s exits s' →
    Tidy s.current → Tidy s'.current
  | _, _, _, _, _, _, .nil, h => h
  | _, _, _, _, _, _, .cons value rest, h => rest.tidy ((value.tidy h).of_same rfl rfl rfl)

end

end TwinLisp.Graph.Lowering
