import TwinLisp.Eval.SelfContained
import TwinLisp.Proofs.Environment
import TwinLisp.Proofs.Eval.Pairing

/-!
Frames that agree on some of their names. The frames of a call and of the scopes inside it bind the
same names to values that are alike, as far as the code can see; what lies below them may differ in
every way.
-/

namespace TwinLisp

/-- The same data, or functions with the same code that have captured the same under every name
that the code uses and does not get as an argument. -/
inductive Value.Alike : Value → Value → Prop
  | data {v : Value} (data : v.function? = none) : Alike v v
  | function {f g : Closure Value} (names : String → Prop) (name : g.name = f.name)
    (params : g.params = f.params) (body : g.body = f.body)
    (noDefun : ∀ e ∈ f.body, ¬ e.HasDefun)
    (closed : ∀ e ∈ f.body, ∀ n, e.Free n → n ∈ f.params ∨ names n)
    (bound : ∀ n, names n → Table.entries f.captures n ≠ [])
    (length : ∀ n, names n →
      (Table.entries g.captures n).length = (Table.entries f.captures n).length)
    (mutability : ∀ n, names n → ∀ (i : Nat) (b b' : Binding Value),
      (Table.entries f.captures n)[i]? = some b → (Table.entries g.captures n)[i]? = some b' →
      b'.mutability = b.mutability)
    (value : ∀ n, names n → ∀ (i : Nat) (b b' : Binding Value),
      (Table.entries f.captures n)[i]? = some b → (Table.entries g.captures n)[i]? = some b' →
      Alike b.value b'.value) :
    Alike (.function f) (.function g)

/-- Bindings of values that are alike, both variables or both constants. -/
def Binding.Alike (b b' : Binding Value) : Prop :=
  b'.mutability = b.mutability ∧ b.value.Alike b'.value

namespace Value

/-- What is alike looks alike: the captures of functions are only compared inside calls. -/
theorem Alike.looksLike {v v' : Value} (h : v.Alike v') : v.LooksLike v' := by
  cases h with
  | data data => exact .data data
  | function _ name params body => exact .function name params body

/-- What two functions have captured under the names that count. -/
theorem Alike.captures {f g : Closure Value} (h : (Value.function f).Alike (.function g)) :
    ∃ names : String → Prop, (∀ e ∈ f.body, ¬ e.HasDefun) ∧
      (∀ e ∈ f.body, ∀ n, e.Free n → n ∈ f.params ∨ names n) ∧
      ∀ n, names n → Table.entries f.captures n ≠ [] ∧
        List.Forall₂ Binding.Alike (Table.entries f.captures n) (Table.entries g.captures n) := by
  cases h with
  | data data => cases data
  | function names _ _ _ noDefun closed bound length mutability value =>
    refine ⟨names, noDefun, closed, fun n hn => ⟨bound n hn, ?_⟩⟩
    refine List.forall₂_iff_get.mpr ⟨(length n hn).symm, fun i h h' => ?_⟩
    exact ⟨mutability n hn i _ _ (List.getElem?_eq_getElem h) (List.getElem?_eq_getElem h'),
      value n hn i _ _ (List.getElem?_eq_getElem h) (List.getElem?_eq_getElem h')⟩

theorem alike_function {f g : Closure Value} (names : String → Prop) (name : g.name = f.name)
    (params : g.params = f.params) (body : g.body = f.body)
    (noDefun : ∀ e ∈ f.body, ¬ e.HasDefun)
    (closed : ∀ e ∈ f.body, ∀ n, e.Free n → n ∈ f.params ∨ names n)
    (captures : ∀ n, names n → Table.entries f.captures n ≠ [] ∧
      List.Forall₂ Binding.Alike (Table.entries f.captures n) (Table.entries g.captures n)) :
    (function f).Alike (.function g) := by
  have nth {n : String} {i : Nat} {b b' : Binding Value} (hn : names n)
      (h : (Table.entries f.captures n)[i]? = some b) (h' : (Table.entries g.captures n)[i]? = some b') : b.Alike b' := by
    obtain ⟨hi, rfl⟩ := List.getElem?_eq_some_iff.mp h
    obtain ⟨hi', rfl⟩ := List.getElem?_eq_some_iff.mp h'
    exact (List.forall₂_iff_get.mp (captures n hn).2).2 i hi hi'
  exact .function names name params body noDefun closed (fun n hn => (captures n hn).1)
    (fun n hn => (captures n hn).2.length_eq.symm)
    (fun n hn i b b' h h' => (nth hn h h').1) fun n hn i b b' h h' => (nth hn h h').2

end Value

/-- A function that is self-contained is like itself in every name it has captured. -/
theorem Closure.SelfContained.alike {f : Closure Value} (h : f.SelfContained) :
    (Value.function f).Alike (.function f) := by
  induction h with
  | @intro f noDefun closed captured ih =>
    refine Value.alike_function (fun n => n ∈ f.captures.map (·.1)) rfl rfl rfl noDefun closed
      fun n hn => ⟨Table.entries_ne_nil hn, List.forall₂_same.mpr fun b hb => ⟨rfl, ?_⟩⟩
    -- data are like themselves; of functions that have been captured it holds by induction
    cases called : b.value.function? with
    | none => exact .data called
    | some g =>
      -- the value is that function, so the hypothesis is about it
      have isFunction : b.value = .function g := by
        cases hv : b.value with
        | function g' =>
          rw [hv] at called
          cases called
          rfl
        | _ =>
          rw [hv] at called
          cases called
      rw [isFunction]
      exact ih (n, b) (Table.mem_of_mem_entries hb) g isFunction

/-- The innermost frame that binds the name is as deep in both stacks, and its bindings are alike. -/
inductive Shared (name : String) : List Frame → List Frame → Prop
  | here {frame frame' outer outer'} (bound : Table.entries frame name ≠ [])
    (alike : List.Forall₂ Binding.Alike (Table.entries frame name) (Table.entries frame' name)) :
    Shared name (frame :: outer) (frame' :: outer')
  | outer {frame frame' outer outer'} (unbound : Table.entries frame name = [])
    (unbound' : Table.entries frame' name = []) (shared : Shared name outer outer') :
    Shared name (frame :: outer) (frame' :: outer')

namespace Shared

variable {name : String} {own own' : List Frame}

/-- Further frames below do not matter. -/
theorem append (h : Shared name own own') (rest rest' : List Frame) :
    Shared name (own ++ rest) (own' ++ rest') := by
  induction h with
  | here bound alike => exact .here bound alike
  | outer unbound unbound' _ ih => exact .outer unbound unbound' ih

theorem findSome? (h : Shared name own own') : ∃ b b', b.Alike b' ∧
    own.findSome? (·.get? name) = some b ∧ own'.findSome? (·.get? name) = some b' := by
  induction h with
  | @here frame frame' outer outer' bound alike =>
    -- the first entry of a name is the one that counts, and the first ones are alike
    obtain ⟨b, bs, held⟩ := List.exists_cons_of_ne_nil bound
    rw [held] at alike
    obtain ⟨b', bs', h, -, held'⟩ := List.forall₂_cons_left_iff.mp alike
    refine ⟨b, b', h, ?_, ?_⟩
    · simp [Table.get?_eq_head?, held]
    · simp [Table.get?_eq_head?, held']
  | outer unbound unbound' _ ih =>
    simp only [List.findSome?_cons, Table.get?_eq_head?, unbound, unbound', List.head?_nil]
    simpa only [Table.get?_eq_head?] using ih

end Shared

/-- What is captured under a name that two stacks share. -/
theorem Shared.flatten {name : String} {own own' : List Frame} (h : Shared name own own') :
    Table.entries (flatten own) name ≠ [] ∧
      List.Forall₂ Binding.Alike (Table.entries (TwinLisp.flatten own) name)
        (Table.entries (TwinLisp.flatten own') name) := by
  rw [entries_flatten, entries_flatten]
  induction h with
  | @here frame frame' outer outer' bound alike =>
    -- flattening takes the last entry of a name, so the lists are compared from behind
    have last : List.Forall₂ Binding.Alike (Table.entries frame name).reverse
        (Table.entries frame' name).reverse := List.rel_reverse alike
    rw [List.findSome?_cons, List.findSome?_cons, List.getLast?_eq_head?_reverse,
      List.getLast?_eq_head?_reverse]
    obtain ⟨b, bs, held⟩ := List.exists_cons_of_ne_nil (List.reverse_ne_nil_iff.mpr bound)
    rw [held] at last
    obtain ⟨b', bs', h, -, held'⟩ := List.forall₂_cons_left_iff.mp last
    rw [held, held']
    exact ⟨by simp, .cons h .nil⟩
  -- this frame binds the name on neither side
  | outer unbound unbound' _ ih =>
    rw [List.findSome?_cons, List.findSome?_cons, unbound, unbound']
    exact ih

end TwinLisp
