import TwinLisp.Proofs.Environment
import TwinLisp.Proofs.Eval.Alike

/-!
A function that brings all it needs along does not depend on where it is called: on top of any two
environments, its body runs in the same way.
-/

namespace TwinLisp

theorem filterMap_of_mapM {α β : Type} {f : α → Option β} {as : List α} {bs : List β}
    (h : as.mapM f = some bs) : as.filterMap f = bs := by
  induction as generalizing bs with
  | nil => simpa using h
  | cons a as ih =>
    simp only [List.mapM_cons, Option.pure_def, Option.bind_eq_bind, Option.bind_eq_some_iff,
      Option.some.injEq] at h
    obtain ⟨b, hb, bs', hbs, rfl⟩ := h
    rw [List.filterMap_cons_some hb, ih hbs]

namespace Expr

/-- A list of parameters binds what it lists. -/
theorem binders_of_names? {e : Expr} {names : List String} (h : e.names? = some names) :
    e.binders = names := by
  obtain ⟨items, listed, mapped⟩ := Option.bind_eq_some_iff.mp h
  rw [binders, listed]
  exact filterMap_of_mapM mapped

end Expr

/-- Two stacks in which every frame stands for a scope: the names that the code of a scope may use
are shared from its frame on. -/
inductive Scoped : List (String → Prop) → List Frame → List Frame → Prop
  | nil : Scoped [] [] []
  | cons {names scopes frame frame' outer outer'}
    (shared : ∀ n, names n → Shared n (frame :: outer) (frame' :: outer'))
    (rest : Scoped scopes outer outer') :
    Scoped (names :: scopes) (frame :: outer) (frame' :: outer')

namespace Scoped

variable {scopes : List (String → Prop)} {own own' : List Frame}

theorem length_eq (h : Scoped scopes own own') :
    own.length = scopes.length ∧ own'.length = scopes.length := by
  induction h with
  | nil => exact ⟨rfl, rfl⟩
  | cons _ _ ih => exact ⟨congrArg (· + 1) ih.1, congrArg (· + 1) ih.2⟩

theorem shared {names : String → Prop} (h : Scoped (names :: scopes) own own') {n : String}
    (hn : names n) : Shared n own own' := by
  cases h with
  | cons shared _ => exact shared n hn

end Scoped

/-- Inserting bindings that are alike, in frames that stand for each other. -/
theorem forall₂_entries_insert {frame frame' : Frame} {name other : String} {b b' : Binding Value}
    (alike : b.Alike b')
    (h : List.Forall₂ Binding.Alike (Table.entries frame other) (Table.entries frame' other)) :
    List.Forall₂ Binding.Alike (Table.entries (frame.insert name b) other)
      (Table.entries (frame'.insert name b') other) := by
  rw [Table.entries_insert, Table.entries_insert]
  split
  · refine .cons alike ?_
    rw [← List.drop_one, ← List.drop_one]
    exact List.forall₂_drop 1 h
  · exact h

theorem entries_insert_ne_nil {frame : Frame} {name other : String} {b : Binding Value}
    (h : Table.entries frame other ≠ []) : Table.entries (frame.insert name b) other ≠ [] := by
  rw [Table.entries_insert]
  split
  · exact List.cons_ne_nil _ _
  · exact h

/-- A new binding in the innermost frames is shared at once. -/
theorem Shared.define {n name : String} {frame frame' : Frame} {outer outer' : List Frame}
    {b b' : Binding Value} (h : Shared n (frame :: outer) (frame' :: outer')) (alike : b.Alike b') :
    Shared n (frame.insert name b :: outer) (frame'.insert name b' :: outer') := by
  cases h with
  | here bound same =>
    exact .here (entries_insert_ne_nil bound) (forall₂_entries_insert alike same)
  | outer unbound unbound' shared =>
    by_cases same : name = n
    · subst same
      refine .here ?_ ?_
      · simp [Table.entries_insert]
      · simpa [Table.entries_insert, unbound, unbound'] using alike
    · refine .outer ?_ ?_ shared
      · rw [Table.entries_insert, if_neg same, unbound]
      · rw [Table.entries_insert, if_neg same, unbound']

/-- A name that two stacks share is assigned to in frames that stand for each other, and what was
shared stays so. -/
theorem Shared.replaceNearest {name : String} {own own' : List Frame} {v v' : Value}
    (h : Shared name own own') (alike : v.Alike v') :
    ∃ own₂ own₂', Environment.replaceNearest name v own = some own₂ ∧
      Environment.replaceNearest name v' own' = some own₂' ∧
      (∀ n, Shared n own own' → Shared n own₂ own₂') ∧
      ∀ scopes, Scoped scopes own own' → Scoped scopes own₂ own₂' := by
  induction h with
  | @here frame frame' outer outer' bound same =>
    obtain ⟨b, bs, held⟩ := List.exists_cons_of_ne_nil bound
    rw [held] at same
    obtain ⟨b', bs', hb, -, held'⟩ := List.forall₂_cons_left_iff.mp same
    -- both frames bind the name, with the same mutability, so both replace it here
    have new : Binding.Alike ⟨v, b.mutability⟩ ⟨v', b'.mutability⟩ := ⟨hb.1, alike⟩
    have kept (n : String) (hn : Shared n (frame :: outer) (frame' :: outer')) :
        Shared n (frame.insert name ⟨v, b.mutability⟩ :: outer)
          (frame'.insert name ⟨v', b'.mutability⟩ :: outer') :=
      hn.define new
    -- other names see the same as before through the frames that have changed
    refine ⟨_, _, ?_, ?_, kept, fun scopes layered => ?_⟩
    · simp [Environment.replaceNearest, Table.get?_eq_head?, held]
    · simp [Environment.replaceNearest, Table.get?_eq_head?, held']
    · cases layered with
      | cons shared rest => exact .cons (fun n hn => kept n (shared n hn)) rest
  | @outer frame frame' outer outer' unbound unbound' _ ih =>
    obtain ⟨outer₂, outer₂', deeper, deeper', kept, kept'⟩ := ih
    -- neither frame binds the name: the replacement is deeper, and these frames stay in front of it
    have kept₂ (n : String) (hn : Shared n (frame :: outer) (frame' :: outer')) :
        Shared n (frame :: outer₂) (frame' :: outer₂') := by
      cases hn with
      | here bound same => exact .here bound same
      | outer free free' shared => exact .outer free free' (kept n shared)
    refine ⟨frame :: outer₂, frame' :: outer₂', ?_, ?_, kept₂, fun scopes layered => ?_⟩
    · simp [Environment.replaceNearest, Table.get?_eq_head?, unbound, deeper]
    · simp [Environment.replaceNearest, Table.get?_eq_head?, unbound', deeper']
    · cases layered with
      | cons shared rest => exact .cons (fun n hn => kept₂ n (shared n hn)) (kept' _ rest)

/-- Arguments that are alike, under the names of the parameters. -/
theorem forall₂_entries_zip (names : List String) {values values' : List Value}
    (h : List.Forall₂ Value.Alike values values') (n : String) :
    List.Forall₂ Binding.Alike
      (Table.entries ((names.zip values).map fun p => (p.1, ⟨p.2, .mutable⟩)) n)
      (Table.entries ((names.zip values').map fun p => (p.1, ⟨p.2, .mutable⟩)) n) := by
  induction h generalizing names with
  | nil =>
    rw [List.zip_nil_right]
    exact .nil
  | @cons v v' values values' hv _ ih =>
    cases names with
    | nil => exact .nil
    | cons name names =>
      simp only [List.zip_cons_cons, List.map_cons]
      -- the first parameter is the name or it is not
      by_cases same : name = n
      · subst same
        rw [Table.entries_cons_same, Table.entries_cons_same]
        exact .cons ⟨rfl, hv⟩ (ih names)
      · rw [Table.entries_cons_other _ _ same, Table.entries_cons_other _ _ same]
        exact ih names

/-- A scope of arguments shares the names that it binds, and hides nothing else. -/
theorem Shared.scope {names : List String} {values values' : List Value} {n : String}
    {outer outer' : List Frame} (h : List.Forall₂ Value.Alike values values')
    (length : values.length = names.length) (shared : n ∉ names → Shared n outer outer') :
    Shared n (Eval.scopeOf (names.zip values) :: outer)
      (Eval.scopeOf (names.zip values') :: outer') := by
  have alike := List.rel_reverse (forall₂_entries_zip names h n)
  have keys : (((names.zip values).map fun p => (p.1, (⟨p.2, .mutable⟩ : Binding Value))).map (·.1))
      = names := by
    rw [List.map_map]
    exact List.map_fst_zip (Nat.le_of_eq length.symm)
  -- bound by the scope, the name is shared here; else the scope binds it in neither run
  by_cases mem : n ∈ names
  · rw [← keys] at mem
    obtain ⟨b, bs, held⟩ := List.exists_cons_of_ne_nil
      (List.reverse_ne_nil_iff.mpr (Table.entries_ne_nil mem))
    rw [held] at alike
    obtain ⟨b', bs', hb, -, held'⟩ := List.forall₂_cons_left_iff.mp alike
    refine .here ?_ ?_
    · rw [Eval.entries_scopeOf, List.getLast?_eq_head?_reverse, held]
      exact List.cons_ne_nil _ _
    · rw [Eval.entries_scopeOf, Eval.entries_scopeOf, List.getLast?_eq_head?_reverse,
        List.getLast?_eq_head?_reverse, held, held']
      exact .cons hb .nil
  · have none : Table.entries
        ((names.zip values).map fun p => (p.1, (⟨p.2, .mutable⟩ : Binding Value))) n = [] :=
      Table.entries_eq_nil (by rwa [keys])
    rw [none] at alike
    refine .outer ?_ ?_ (shared mem)
    · rw [Eval.entries_scopeOf, none]
      rfl
    · rw [Eval.entries_scopeOf, List.getLast?_eq_head?_reverse, List.forall₂_nil_left_iff.mp alike]
      rfl

namespace Eval

/-- The scopes of a call, from the innermost one on, and the environments that the two calls are
made in. -/
structure Layers where
  names : String → Prop
  outer : List (String → Prop)
  rest : Environment
  rest' : Environment

namespace Layers

/-- The frames of the two calls lie on top of environments that stay as they are. -/
structure Paired (c : Layers) (w w' : World) (own own' : List Frame) : Prop where
  layered : Scoped (c.names :: c.outer) own own'
  env : w.env = { c.rest with locals := own ++ c.rest.locals }
  env' : w'.env = { c.rest' with locals := own' ++ c.rest'.locals }
  output : w'.output = w.output

variable {c : Layers} {w w' : World} {own own' : List Frame} {n : String} {v v' : Value}

namespace Paired

theorem binding? (h : c.Paired w w' own own') (hn : c.names n) :
    ∃ b b', b.Alike b' ∧ w.env.binding? n = some b ∧ w'.env.binding? n = some b' := by
  have shared := (h.layered.shared hn).append c.rest.locals c.rest'.locals
  obtain ⟨b, b', alike, found, found'⟩ := shared.findSome?
  refine ⟨b, b', alike, Environment.binding?_of_locals ?_, Environment.binding?_of_locals ?_⟩
  · rw [h.env]
    exact found
  · rw [h.env']
    exact found'

theorem isFrozen_eq (h : c.Paired w w' own own') (hn : c.names n) :
    w'.env.isFrozen n = w.env.isFrozen n := by
  obtain ⟨b, b', alike, found, found'⟩ := h.binding? hn
  simp only [Environment.isFrozen, found, found', Option.any_some, alike.1]

/-- A function that is made now captures the same in both runs, under the names in use. -/
theorem snapshot (h : c.Paired w w' own own') (hn : c.names n) :
    Table.entries w.env.snapshot n ≠ [] ∧ List.Forall₂ Binding.Alike
      (Table.entries w.env.snapshot n) (Table.entries w'.env.snapshot n) := by
  have flat (env : Environment) : env.snapshot = flatten (env.locals ++ [env.globals]) := rfl
  rw [flat, flat, h.env, h.env', List.append_assoc, List.append_assoc]
  exact ((h.layered.shared hn).append _ _).flatten

/-- Both environments are changed in the frames of the call. -/
theorem update (h : c.Paired w w' own own') {own₂ own₂' : List Frame}
    (layered : Scoped (c.names :: c.outer) own₂ own₂') :
    c.Paired { w with env := { c.rest with locals := own₂ ++ c.rest.locals } }
      { w' with env := { c.rest' with locals := own₂' ++ c.rest'.locals } } own₂ own₂' :=
  ⟨layered, rfl, rfl, h.output⟩

end Paired

end Layers

/-- Leaving scopes drops their frames, whatever those below have become. -/
theorem outside_env {w u : World} {rest : Environment} (own frames own₂ : List Frame)
    (before : w.env = { rest with locals := own ++ rest.locals })
    (inner : u.env = { rest with locals := (frames ++ own₂) ++ rest.locals })
    (length : own₂.length = own.length) :
    (Law.outside w u).env = { rest with locals := own₂ ++ rest.locals } := by
  simp [Law.outside, Environment.truncate, Environment.depth, before, inner, ← length,
    Nat.add_assoc]

/-- Two calls of one function, in any two environments. -/
def callers : Pairing where
  Scope := Layers
  code c e := ¬ e.HasDefun ∧ ∀ n, e.Free n → c.names n
  value := Value.Alike
  world c w w' := ∃ own own', c.Paired w w' own own'

section Callers

variable {c : Layers} {w w' : World} {v v' : Value} {name : String}

/-- A call assigns to its own frames only, and does so alike in both environments. -/
theorem callers_assign (worlds : callers.world c w w') (used : c.names name) (alike : v.Alike v') :
    callers.Together c w w' (w.env.assign name v) (w'.env.assign name v') := by
  obtain ⟨own, own', paired⟩ := worlds
  obtain ⟨own₂, own₂', replaced, replaced', -, kept⟩ :=
    (paired.layered.shared used).replaceNearest alike
  have frozen := paired.isFrozen_eq used
  unfold Environment.assign
  rw [frozen]
  split
  · exact ⟨nofun, fun _ _ => ⟨.frozen, rfl⟩⟩
  · -- the name is bound by a frame of the call, so no frame below is reached
    rw [paired.env, paired.env']
    simp only [Environment.replaceNearest_append replaced,
      Environment.replaceNearest_append replaced']
    refine ⟨fun env h => ?_, nofun⟩
    cases h
    exact ⟨_, rfl, own₂, own₂', paired.update (kept _ paired.layered)⟩

/-- A constant is made in the innermost frame, which belongs to the call. -/
theorem callers_const (worlds : callers.world c w w') (used : c.names name) (alike : v.Alike v') :
    callers.Together c w w' (w.env.defineConst name v) (w'.env.defineConst name v') := by
  obtain ⟨own, own', paired⟩ := worlds
  have frozen := paired.isFrozen_eq used
  unfold Environment.defineConst
  rw [frozen]
  split
  · exact ⟨nofun, fun _ _ => ⟨.alreadyConst, rfl⟩⟩
  · refine ⟨fun env h => ?_, nofun⟩
    cases h
    refine ⟨_, rfl, ?_⟩
    rw [paired.env, paired.env']
    have layered := paired.layered
    cases layered with
    | @cons _ _ frame frame' outer outer' shared rest =>
      -- the innermost frame is one of the call, it has no frame below to name anything in
      refine ⟨frame.insert name ⟨v, .frozen⟩ :: outer, frame'.insert name ⟨v', .frozen⟩ :: outer',
        ?_, rfl, rfl, paired.output⟩
      exact .cons (fun n hn => (shared n hn).define ⟨rfl, alike⟩) rest

/-- A function that is made captures alike what its code uses. -/
theorem callers_lambda (worlds : callers.world c w w') {head : String} {hs : Span} {params : Expr}
    {body : List Expr} {span : Span} {names : List String}
    (code : callers.code c (.list (.ident head hs :: params :: body) span))
    (classified : Form.classify head = some .lambda) (listed : params.names? = some names) :
    (Value.function ⟨w.created, none, names, body, w.env.snapshot⟩).Alike
      (.function ⟨w'.created, none, names, body, w'.env.snapshot⟩) := by
  obtain ⟨own, own', paired⟩ := worlds
  obtain ⟨noDefun, free⟩ := code
  refine Value.alike_function c.names rfl rfl rfl (fun e he inner => ?_) (fun e he n hn => ?_)
    fun n hn => paired.snapshot hn
  · exact noDefun (.operand (by simp [classified]) (List.mem_cons_of_mem _ he) inner)
  · by_cases bound : n ∈ params.binders
    · exact .inl (Expr.binders_of_names? listed ▸ bound)
    · exact .inr (free n (.lambda classified he hn bound))

/-- A call from within starts a stack of its own: it sees its parameters and captures, and nothing of
the frames around it. -/
theorem callers_invoke (worlds : callers.world c w w') {f g : Closure Value}
    {values values' : List Value} (alike : (Value.function f).Alike (.function g))
    (args : List.Forall₂ Value.Alike values values') (arity : values.length = f.arity) :
    callers.Enters c w w' [scopeOf (f.params.zip values), f.captures]
      [scopeOf (g.params.zip values'), g.captures] f.body := by
  obtain ⟨own, own', paired⟩ := worlds
  obtain ⟨names, noDefun, closed, captures⟩ := alike.captures
  obtain ⟨-, params, -⟩ := alike.looksLike.function_eq
  rw [params]
  have captured (n : String) (hn : names n) : Shared n [f.captures] [g.captures] :=
    .here (captures n hn).1 (captures n hn).2
  refine ⟨⟨fun n => n ∈ f.params ∨ names n, [names], w.env, w'.env⟩, ?_, ?_, ?_⟩
  · refine ⟨_, _, ⟨.cons (fun n hn => ?_) (.cons captured .nil), rfl, rfl, paired.output⟩⟩
    exact Shared.scope args arity fun mem => captured n (hn.resolve_left mem)
  · exact fun e he => ⟨noDefun e he, closed e he⟩
  · -- the frames of this call are dropped, those of the caller are what they were
    rintro u u' ⟨own₂, own₂', after⟩
    refine ⟨own, own', paired.layered, ?_, ?_, after.output⟩
    · rw [← paired.env]
      exact outside_env [] own₂ [] rfl (by simpa using after.env) rfl
    · rw [← paired.env']
      exact outside_env [] own₂' [] rfl (by simpa using after.env') rfl

/-- The scope of a `let` form is one more layer of the call. -/
theorem callers_letIn (worlds : callers.world c w w') {bindings : List (LetBinding Expr)}
    {body : List Expr} {span : Span} {values values' : List Value}
    (code : callers.code c (.letIn bindings body span))
    (alike : List.Forall₂ Value.Alike values values') (length : values.length = bindings.length) :
    callers.Enters c w w' [scopeOf ((bindings.map (·.name)).zip values)]
      [scopeOf ((bindings.map (·.name)).zip values')] body := by
  obtain ⟨own, own', paired⟩ := worlds
  obtain ⟨noDefun, free⟩ := code
  -- the body sees one more frame, and may use the names that it binds
  refine ⟨⟨fun n => n ∈ bindings.map (·.name) ∨ c.names n, c.names :: c.outer, c.rest, c.rest'⟩,
    ?_, fun e he => ⟨fun inner => noDefun (.body he inner), fun n hn => ?_⟩, ?_⟩
  · refine ⟨scopeOf ((bindings.map (·.name)).zip values) :: own,
      scopeOf ((bindings.map (·.name)).zip values') :: own',
      .cons (fun n hn => ?_) paired.layered, ?_, ?_, paired.output⟩
    · refine Shared.scope alike (by simpa using length) fun unbound => ?_
      exact paired.layered.shared (hn.resolve_left unbound)
    · rw [Law.inside, paired.env]
      rfl
    · rw [Law.inside, paired.env']
      rfl
  · by_cases bound : n ∈ bindings.map (·.name)
    · exact .inl bound
    · exact .inr (free n (.body he hn bound))
  · -- afterwards the frame of the scope is dropped again, on both sides
    rintro u u' ⟨own₂, own₂', after⟩
    have layered := after.layered
    cases layered with
    | @cons _ _ frame frame' outer outer' shared rest =>
      obtain ⟨before, before'⟩ := paired.layered.length_eq
      refine ⟨outer, outer', rest, ?_, ?_, after.output⟩
      · exact outside_env own [frame] outer paired.env after.env (rest.length_eq.1.trans before.symm)
      · exact outside_env own' [frame'] outer' paired.env' after.env'
          (rest.length_eq.2.trans before'.symm)

end Callers

/-- Every step of evaluation is the same in two calls of a self-contained function. -/
theorem callers_sound : callers.Sound where
  shape := Value.Alike.looksLike
  data := .data
  operands := by
    -- no operand defines a function, or uses a name that the form itself does not use
    rintro c head hs args span form ⟨noDefun, free⟩ classified notQuote notLambda - e he
    have unquoted : Form.classify head ≠ some .quote := by simpa [classified] using notQuote
    exact ⟨fun inner => noDefun (.operand unquoted he inner),
      fun n hn => free n (.operand classified notQuote notLambda he hn)⟩
  call := by
    rintro c head hs args span ⟨noDefun, free⟩ unclassified
    refine ⟨⟨nofun, fun n hn => free n (.call unclassified List.mem_cons_self hn)⟩, fun e he => ?_⟩
    exact ⟨fun inner => noDefun (.operand (by simp [unclassified]) he inner),
      fun n hn => free n (.call unclassified (List.mem_cons_of_mem _ he) hn)⟩
  indirect := by
    rintro c head args span ⟨noDefun, free⟩ unnamed e he
    exact ⟨fun inner => noDefun (.indirect unnamed he inner),
      fun n hn => free n (.indirect unnamed he hn)⟩
  inits := by
    rintro c bindings body span ⟨noDefun, free⟩ b hb
    exact ⟨fun inner => noDefun (.init hb inner), fun n hn => free n (.init hb hn)⟩
  lookup := by
    rintro c w w' name span ⟨-, free⟩ ⟨own, own', paired⟩
    -- the name is one that the code may use, so both frames have it
    obtain ⟨b, b', alike, found, found'⟩ := paired.binding? (free name .ident)
    simp only [Environment.lookup, found, found', Option.map_some]
    exact .some alike.2
  print := by
    rintro c w w' ⟨own, own', paired⟩ line
    exact ⟨own, own', paired.layered, paired.env, paired.env', by simp only [paired.output]⟩
  lambda worlds code classified listed := by
    refine ⟨callers_lambda worlds code classified listed, ?_⟩
    obtain ⟨own, own', paired⟩ := worlds
    exact ⟨own, own', paired.layered, paired.env, paired.env', paired.output⟩
  assign code worlds alike := callers_assign worlds (code.2 _ .ident) alike
  const code worlds alike := callers_const worlds (code.2 _ .ident) alike
  defun _ code classified := absurd (.defun classified) code.1
  invoke worlds alike args arity := callers_invoke worlds alike args arity
  letIn worlds code alike length := callers_letIn worlds code alike length

/-- **Calls do not depend on their caller.** A self-contained function that gets the same data as
arguments runs in the same way in any two environments: with whatever fuel, either both runs have
ended or neither has; they have printed the same lines and end in the same error, or in values that
print the same. -/
theorem sameEnd_activate {f : Closure Value} (selfContained : f.SelfContained) {values : List Value}
    (data : ∀ v ∈ values, v.function? = none) (arity : values.length = f.arity) {w w' : World}
    (output : w'.output = w.output) (config : Config) (fuel : Nat) :
    SameEnd (activate (evalWith config fuel) f values w)
      (activate (evalWith config fuel) f values w') := by
  have alike := selfContained.alike
  obtain ⟨names, noDefun, closed, captures⟩ := alike.captures
  -- the frames of the call are the same in both runs, so they share what they bind
  have args : List.Forall₂ Value.Alike values values :=
    List.forall₂_same.mpr fun v hv => .data (data v hv)
  have captured (n : String) (hn : names n) : Shared n [f.captures] [f.captures] :=
    .here (captures n hn).1 (captures n hn).2
  let c : Layers := ⟨fun n => n ∈ f.params ∨ names n, [names], w.env, w'.env⟩
  have worlds : callers.world c (Law.inside w [scopeOf (f.params.zip values), f.captures])
      (Law.inside w' [scopeOf (f.params.zip values), f.captures]) := by
    refine ⟨_, _, .cons (fun n hn => ?_) (.cons captured .nil), rfl, rfl, output⟩
    exact Shared.scope args arity fun mem => captured n (hn.resolve_left mem)
  have runs : callers.Matches c Value.Alike
      (evalBody (evalWith config fuel) f.body (Law.inside w [scopeOf (f.params.zip values), f.captures]))
      (evalBody (evalWith config fuel) f.body
        (Law.inside w' [scopeOf (f.params.zip values), f.captures])) :=
    Pairing.agree_evalBody callers_sound
      (fun code => Pairing.agree_evalWith callers_sound config fuel code)
      (fun e he => ⟨noDefun e he, closed e he⟩) _ _ worlds
  have entered (env : Environment) := pushCall_defineAll env f.captures (f.params.zip values)
  unfold activate
  -- the first run determines how the second one ends
  cases run : evalBody (evalWith config fuel) f.body
      (Law.inside w [scopeOf (f.params.zip values), f.captures]) with
  | ok v u =>
    obtain ⟨v', u', run', related, _, _, after⟩ := runs.ok v u run
    rw [Law.within_of_ok entered run, Law.within_of_ok entered run']
    exact ⟨related.looksLike.text_eq, after.output⟩
  | error halt u =>
    obtain ⟨u', run', _, _, after⟩ := runs.error halt u run
    rw [Law.within_of_error entered run, Law.within_of_error entered run']
    exact ⟨rfl, after.output⟩

/-- `(set y x) (print y)` with the parameter `x` and the variable `y` captured. -/
def keeper : Closure Value :=
  ⟨0, none, ["x"], [
    .list [.ident "set" ⟨0, 0⟩, .ident "y" ⟨0, 0⟩, .ident "x" ⟨0, 0⟩] ⟨0, 0⟩,
    .list [.ident "print" ⟨0, 0⟩, .ident "y" ⟨0, 0⟩] ⟨0, 0⟩],
    [("y", ⟨.int 1, .mutable⟩)]⟩

theorem keeper_selfContained : keeper.SelfContained := by
  refine .intro ?_ ?_ ?_
  · -- no definition, by going through the two expressions; then no
    -- free name but `x` and `y`; no function captured
    intro e he inner
    simp only [keeper, List.mem_cons, List.not_mem_nil, or_false] at he
    rcases he with rfl | rfl <;> cases inner with
    | defun classified => exact absurd classified (by decide)
    | operand _ mem inner =>
      simp only [List.mem_cons, List.not_mem_nil, or_false] at mem
      rcases mem with rfl | rfl <;> cases inner
    | indirect unnamed => cases unnamed
  · intro e he n hn
    simp only [keeper, List.mem_cons, List.not_mem_nil, or_false] at he
    rcases he with rfl | rfl <;> cases hn with
    | operand _ _ _ mem free =>
      simp only [List.mem_cons, List.not_mem_nil, or_false] at mem
      rcases mem with rfl | rfl <;> cases free <;> simp [keeper]
    | lambda classified => exact absurd classified (by decide)
    | call unclassified => exact absurd unclassified (by decide)
    | indirect unnamed => cases unnamed
  · rintro entry hentry g hg
    simp only [keeper, List.mem_singleton] at hentry
    subst hentry
    cases hg

/-- The caller's own `y` makes no difference: called where it is a constant, the function prints the
same line as where no `y` is. -/
theorem sameEnd_activate_keeper :
    keeper.SelfContained ∧
    SameEnd (activate (evalWith {} 3) keeper [.int 7] (.initial .buffer))
      (activate (evalWith {} 3) keeper [.int 7]
        ⟨⟨[[("y", ⟨.str "other", .frozen⟩)]], []⟩, .buffer, 5⟩) := by
  have data : ∀ v ∈ [Value.int 7], v.function? = none := by
    intro v hv
    rw [List.mem_singleton.mp hv]
    rfl
  refine ⟨keeper_selfContained, ?_⟩
  exact sameEnd_activate keeper_selfContained data rfl (by rfl) {} 3

end Eval

end TwinLisp
