import TwinLisp.Proofs.Lowering.Simulation.Derivations
import TwinLisp.Proofs.Lowering.Verify

/-! Making definitions known before any call is lowered changes nothing but the numbers of units. -/

namespace TwinLisp.Graph

namespace Lowering

variable {M : List Mention} {s t : State} {config config' : LowerConfig} {program : List Expr}
  {m : Module}

/-- Only definitions that are mentioned are made known, and nothing else changes. -/
structure Announced (M : List Mention) (s t : State) : Prop where
  name : t.module.name = s.module.name
  strings : t.module.strings = s.module.strings
  mentioned : ∀ name signature, t.signatures.get? name = some signature →
    (∃ mention ∈ M, mention.name = name ∧ mention.arity = signature.arity) ∨
      s.signatures.get? name = some signature

theorem announced_refl (M : List Mention) (s : State) : Announced M s s :=
  ⟨rfl, rfl, fun _ _ => .inr⟩

theorem announced_presolve {e : Expr} (sub : ∀ m ∈ Mention.ofExpr e, m ∈ M) :
    Announced M s (presolve s e) := by
  unfold presolve
  split
  next => exact announced_refl M s
  next name arity found =>
    split
    next => exact announced_refl M s
    next =>
      refine ⟨rfl, rfl, fun other signature known => ?_⟩
      dsimp only at known
      rw [Signatures.declare, Table.get?_insert] at known
      -- the announced name is that of the form, every other one was known before
      split at known
      next same =>
        cases known
        exact .inl ⟨_, sub _ (mention_of_signature? found), same, rfl⟩
      next => exact .inr known

theorem announced_foldl {es : List Expr} (sub : Within M es) :
    Announced M s (es.foldl presolve s) := by
  induction es generalizing s with
  | nil => exact announced_refl M s
  | cons e es ih =>
    obtain ⟨here, rest⟩ := within_cons.mp sub
    have first := announced_presolve (s := s) here
    have later := ih (s := presolve s e) rest
    refine ⟨later.name.trans first.name, later.strings.trans first.strings, fun name signature known => ?_⟩
    exact (later.mentioned name signature known).elim .inl (first.mentioned name signature)

theorem announced_start (config : LowerConfig) (program : List Expr) :
    Announced (Mention.ofExprs program) (.initial config.moduleName) (start config program) := by
  unfold start
  split
  · exact announced_foldl fun _ => id
  · exact announced_refl _ _

/-- Two runs begin alike. -/
theorem paired_start (config config' : LowerConfig) (agree : Mention.Agree (Mention.ofExprs program)) :
    Paired (Mention.ofExprs program) (start config program) (start config' program) := by
  have left := ready_start config program
  have right := ready_start config' program
  have announced := announced_start config program
  have announced' := announced_start config' program
  -- nothing is being built but `main`, and no unit has a body yet
  have idle {s : State} (ready : Ready (Mention.ofExprs program) s) (name : String) :
      ¬s.Builds name := by
    rintro ⟨u, busy, nonzero, -⟩
    rw [ready.inProgress] at busy
    exact nonzero (List.mem_singleton.mp busy)
  have bare {s : State} (ready : Ready (Mention.ofExprs program) s) (name : String) (body : Body) :
      ¬s.Defines name body := by
    rintro ⟨u, x, -, hx, -, hbody⟩
    exact ready.not_built hx hbody
  -- same builder, bindings, scopes and strings; no unit in progress or with a body on either side
  refine ⟨⟨?_, ?_, ?_, ?_, fun name => ?_, fun name body known => ?_, fun name body known => ?_⟩, agree,
    left.registered, right.registered, fun name signature known => ?_⟩
  · rw [left.builder, right.builder]
    exact .new 0
  · rw [left.current, right.current]
  · rw [left.current, right.current]
  · rw [announced.strings, announced'.strings]
    rfl
  · exact iff_of_false (idle right name) (idle left name)
  · exact absurd known (bare left name body)
  · exact absurd known (bare right name body)
  · exact (announced'.mentioned name signature known).resolve_right nofun

/-- The number that a unit of one run has in the other. -/
def renumbering (s t : State) (u : UnitId) : UnitId :=
  if u = 0 then 0
  else (((s.module.units[u]?).bind fun x => t.signatures.get? x.name).map (·.unit)).getD 0

namespace Paired

variable (p : Paired M s t)

include p

/-- The renumbering takes a unit to the one of its name. -/
theorem renumbering_eq {u u' : UnitId} (same : SameName s t u u') : renumbering s t u = u' := by
  obtain ⟨nonzero, nonzero', x, y, hx, hy, named⟩ := same
  obtain ⟨origin, known⟩ := p.right.named u' y hy nonzero'
  rw [renumbering, if_neg nonzero, hx, Option.bind_some, ← named, known]
  rfl

/-- A unit of the second run has at most one partner in the first. -/
theorem eq_of_sameName {u v u' : UnitId} (same : SameName s t u u') (same' : SameName s t v u') :
    u = v := by
  obtain ⟨hu, -, x, y, hx, hy, named⟩ := same
  obtain ⟨hv, -, x', y', hx', hy', named'⟩ := same'
  cases hy.symm.trans hy'
  exact p.left.eq_of_name hx hx' hu hv (named.symm.trans named')

end Paired

/-- Two runs that end alike, each with what `M` mentions. -/
structure Ended (M : List Mention) (s t : State) : Prop extends Paired M s t where
  linked : Mention.Linked M
  unit : s.current.unit = 0
  unit' : t.current.unit = 0
  result : Result M s.finishMain.module
  result' : Result M t.finishMain.module

namespace Ended

variable (h : Ended M s t)

include h

/-- Each unit has a counterpart in the other run. -/
theorem counterpart {u : Nat} {x : CodeUnit} (hx : s.module.units[u]? = some x) (nonzero : u ≠ 0) :
    ∃ u', SameName s t u u' := by
  have hx' := (units_finishMain_other h.unit nonzero).trans hx
  obtain ⟨mention, mem, named⟩ := h.result.units u x hx' nonzero
  obtain ⟨u', y, nonzero', hy, named'⟩ := h.result'.unit_of_mention mem
  exact ⟨u', nonzero, nonzero', x, y, hx, (units_finishMain_other h.unit' nonzero').symm.trans hy,
    named'.trans named⟩

theorem counterpart' {u' : Nat} {y : CodeUnit} (hy : t.module.units[u']? = some y)
    (nonzero' : u' ≠ 0) : ∃ u, SameName s t u u' := by
  have hy' := (units_finishMain_other h.unit' nonzero').trans hy
  obtain ⟨mention, mem, named⟩ := h.result'.units u' y hy' nonzero'
  obtain ⟨u, x, nonzero, hx, named'⟩ := h.result.unit_of_mention mem
  exact ⟨u, nonzero, nonzero', x, y, (units_finishMain_other h.unit nonzero).symm.trans hx, hy,
    named.symm.trans named'.symm⟩

/-- The counterpart of a unit has the same name, arity and body. -/
theorem unit_eq {u u' : UnitId} (same : SameName s t u u') {x y : CodeUnit}
    (hx : s.module.units[u]? = some x) (hy : t.module.units[u']? = some y) :
    y = x.renumber (renumbering s t) := by
  obtain ⟨nonzero, nonzero', x', y', found, found', named⟩ := same
  cases hx.symm.trans found
  cases hy.symm.trans found'
  have hx' := (units_finishMain_other h.unit nonzero).trans hx
  have hy' := (units_finishMain_other h.unit' nonzero').trans hy
  have mem := List.mem_of_getElem? (Array.getElem?_toList.trans hx')
  obtain ⟨body, hbody⟩ := Option.isSome_iff_exists.mp (h.result.isSome_body h.linked.defined mem)
  obtain ⟨n, defined⟩ := h.result.defined u x hx' nonzero (hbody ▸ rfl)
  -- both arities are that of the definition, which the two runs have in common
  have arity := h.result.arity_of_defun hx' nonzero defined
  have arity' := h.result'.arity_of_defun hy' nonzero' (named.symm ▸ defined)
  obtain ⟨body', ⟨v, z, hv, hz, hname, hbody'⟩, alike⟩ :=
    h.defines x.name body ⟨u, x, nonzero, hx, rfl, hbody⟩
  cases h.right.eq_of_name hz hy hv nonzero' (hname.trans named.symm)
  cases hz.symm.trans hy
  -- the bodies differ in the numbers of the callees only
  have code := alike.renumber fun _ _ => h.renumbering_eq
  obtain ⟨name, arity₁, body₁⟩ := y
  obtain ⟨name', arity₂, body₂⟩ := x
  cases named
  cases hbody
  cases hbody'
  cases arity.trans arity'.symm
  exact congrArg (fun code => CodeUnit.mk name arity₁ (some code)) code.symm

theorem main_eq : ∃ x y, s.finishMain.module.units[0]? = some x ∧
    t.finishMain.module.units[0]? = some y ∧ y = x.renumber (renumbering s t) := by
  obtain ⟨x, hx, named, arity⟩ := h.left.main
  obtain ⟨y, hy, named', arity'⟩ := h.right.main
  refine ⟨_, _, main_finishMain h.unit hx, main_finishMain h.unit' hy, ?_⟩
  have code := (h.code.terminate (.ret (.const 0))).finish.renumber fun _ _ => h.renumbering_eq
  obtain ⟨name₁, arity₁, body₁⟩ := x
  obtain ⟨name₂, arity₂, body₂⟩ := y
  cases named.trans named'.symm
  cases arity.trans arity'.symm
  exact congrArg (fun code => CodeUnit.mk name₁ arity₁ (some code)) code.symm

theorem renumberedBy (name : t.module.name = s.module.name) :
    s.finishMain.module.RenumberedBy (renumbering s t) t.finishMain.module := by
  obtain ⟨main, main', hmain, hmain', same⟩ := h.main_eq
  have zero : renumbering s t 0 = 0 := if_pos rfl
  have partner {i : Nat} (hi : i < s.finishMain.module.units.size) (nonzero : i ≠ 0) :
      ∃ u', SameName s t i u' := by
    have hx := Array.getElem?_eq_getElem hi
    rw [units_finishMain_other h.unit nonzero] at hx
    exact h.counterpart hx nonzero
  -- name, strings, main; then injective, onto, and each unit to its image
  refine ⟨name, h.strings, ?_, ?_, fun i hi j hj equal => ?_, fun j hj => ?_, fun i x hx => ?_⟩
  · rw [h.result.main, h.result'.main]
  · rw [h.result.main, zero]
  · -- `main` is sent to itself, every other unit to the one of its name
    by_cases first : i = 0
    · by_cases second : j = 0
      · rw [first, second]
      · obtain ⟨v, same'⟩ := partner hj second
        rw [first, zero, h.renumbering_eq same'] at equal
        exact absurd equal.symm same'.2.1
    · obtain ⟨u, same⟩ := partner hi first
      rw [h.renumbering_eq same] at equal
      by_cases second : j = 0
      · rw [second, zero] at equal
        exact absurd equal same.2.1
      · obtain ⟨v, same'⟩ := partner hj second
        rw [h.renumbering_eq same'] at equal
        exact h.eq_of_sameName same (equal ▸ same')
  · by_cases first : j = 0
    · refine ⟨0, (Array.getElem?_eq_some_iff.mp hmain).1, ?_⟩
      rw [first, zero]
    · have hy := Array.getElem?_eq_getElem hj
      rw [units_finishMain_other h.unit' first] at hy
      -- each unit of the second run has its counterpart in the first
      obtain ⟨u, same'⟩ := h.counterpart' hy first
      have found := same'
      obtain ⟨nonzero, -, x, -, hx, -⟩ := found
      have hx' := (units_finishMain_other h.unit nonzero).trans hx
      exact ⟨u, (Array.getElem?_eq_some_iff.mp hx').1, h.renumbering_eq same'⟩
  · by_cases first : i = 0
    · subst first
      cases hmain.symm.trans hx
      rw [zero, hmain', same]
    · rw [units_finishMain_other h.unit first] at hx
      obtain ⟨u', same'⟩ := h.counterpart hx first
      have found := same'
      obtain ⟨-, nonzero', -, y, -, hy, -⟩ := found
      rw [h.renumbering_eq same', units_finishMain_other h.unit' nonzero', hy]
      exact congrArg some (h.unit_eq same' hx hy)

end Ended

/-- Where functions can be linked, a program that is lowered one way is lowered every way, and only
units are numbered differently. -/
theorem renumberedBy_of_lowerUnverified (sameName : config'.moduleName = config.moduleName)
    (linked : Mention.Linked (Mention.ofExprs program))
    (h : lowerUnverified config program = .ok m) :
    ∃ m' r, lowerUnverified config' program = .ok m' ∧ m.RenumberedBy r m' := by
  obtain ⟨results, s, derived, rfl⟩ := lowerUnverified_ok_iff.mp h
  obtain ⟨t, derived', p⟩ := derived.paired (fun _ => id) (paired_start config config' linked.agree)
  have ready := ready_start config program
  have ready' := ready_start config' program
  obtain ⟨-, grows⟩ := derived.trace.registered ready.registered
  obtain ⟨-, grows'⟩ := derived'.trace.registered ready'.registered
  -- both runs have come to the end of `main`, each with its own result
  have ended : Ended (Mention.ofExprs program) s t :=
    { p with
      linked := linked
      unit := by
        rw [grows.unit, ready.current]
        rfl
      unit' := by
        rw [grows'.unit, ready'.current]
        rfl
      result := result_of_values ready derived
      result' := result_of_values ready' derived' }
  refine ⟨_, _, lowerUnverified_ok_iff.mpr ⟨results, t, derived', rfl⟩, ended.renumberedBy ?_⟩
  rw [grows.moduleName, grows'.moduleName, (announced_start config program).name,
    (announced_start config' program).name]
  exact sameName

end Lowering

open Lowering

/-- Whether definitions are made known first or not, the same programs have modules, and these differ
only in the numbers of units. -/
theorem lower_presolve (moduleName : String) (program : List Expr) :
    ((∃ m, lower ⟨moduleName, true⟩ program = .ok m) ↔
      ∃ m, lower ⟨moduleName, false⟩ program = .ok m) ∧
    ∀ m m', lower ⟨moduleName, true⟩ program = .ok m → lower ⟨moduleName, false⟩ program = .ok m' →
      ∃ r, m.RenumberedBy r m' := by
  -- either setting can be the first: what one run lowers, the other does up to renumbering
  have across {first second : Bool} {m : Module} (h : lower ⟨moduleName, first⟩ program = .ok m) :
      ∃ m' r, lower ⟨moduleName, second⟩ program = .ok m' ∧ m.RenumberedBy r m' := by
    obtain ⟨lowered, linked⟩ := lower_ok_iff.mp h
    have sameName : (LowerConfig.mk moduleName second).moduleName =
      (LowerConfig.mk moduleName first).moduleName := rfl
    obtain ⟨m', r, lowered', renumbered⟩ :=
      renumberedBy_of_lowerUnverified sameName linked lowered
    exact ⟨m', r, lower_ok_iff.mpr ⟨lowered', linked⟩, renumbered⟩
  refine ⟨⟨?_, ?_⟩, fun m m' h h' => ?_⟩
  · rintro ⟨m, h⟩
    obtain ⟨m', r, h', -⟩ := across h
    exact ⟨m', h'⟩
  · rintro ⟨m, h⟩
    obtain ⟨m', r, h', -⟩ := across h
    exact ⟨m', h'⟩
  · obtain ⟨m'', r, h'', renumbered⟩ := across h
    cases h'.symm.trans h''
    exact ⟨r, renumbered⟩

/-- A call before two definitions gets its unit first if definitions are not made known. -/
theorem lower_presolve_forward : ∃ m m' r,
    lower ⟨"forward", true⟩ [.list [.ident "f" ⟨1, 2⟩] ⟨0, 3⟩,
      .list [.ident "defun" ⟨5, 10⟩, .ident "g" ⟨11, 12⟩, .list [] ⟨13, 15⟩, .int 1 ⟨16, 17⟩] ⟨4, 18⟩,
      .list [.ident "defun" ⟨20, 25⟩, .ident "f" ⟨26, 27⟩, .list [] ⟨28, 30⟩, .int 2 ⟨31, 32⟩]
        ⟨19, 33⟩] = .ok m ∧
    lower ⟨"forward", false⟩ [.list [.ident "f" ⟨1, 2⟩] ⟨0, 3⟩,
      .list [.ident "defun" ⟨5, 10⟩, .ident "g" ⟨11, 12⟩, .list [] ⟨13, 15⟩, .int 1 ⟨16, 17⟩] ⟨4, 18⟩,
      .list [.ident "defun" ⟨20, 25⟩, .ident "f" ⟨26, 27⟩, .list [] ⟨28, 30⟩, .int 2 ⟨31, 32⟩]
        ⟨19, 33⟩] = .ok m' ∧ m.RenumberedBy r m' := by
  generalize hp : ([.list [.ident "f" ⟨1, 2⟩] ⟨0, 3⟩,
    .list [.ident "defun" ⟨5, 10⟩, .ident "g" ⟨11, 12⟩, .list [] ⟨13, 15⟩, .int 1 ⟨16, 17⟩] ⟨4, 18⟩,
    .list [.ident "defun" ⟨20, 25⟩, .ident "f" ⟨26, 27⟩, .list [] ⟨28, 30⟩, .int 2 ⟨31, 32⟩]
      ⟨19, 33⟩] : List Expr) = program
  have succeeds : (lower ⟨"forward", true⟩ program).toBool = true := by
    rw [← hp]
    decide +kernel
  cases lowered : lower ⟨"forward", true⟩ program with
  | error => simp [lowered, Except.toBool] at succeeds
  | ok m =>
    obtain ⟨m', lowered'⟩ := (lower_presolve "forward" program).1.mp ⟨m, lowered⟩
    obtain ⟨r, renumbered⟩ := (lower_presolve "forward" program).2 m m' lowered lowered'
    exact ⟨m, m', r, rfl, lowered', renumbered⟩

end TwinLisp.Graph
