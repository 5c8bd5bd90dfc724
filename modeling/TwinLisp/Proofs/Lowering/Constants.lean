import TwinLisp.Proofs.Lowering.Constants.Derivations
import TwinLisp.Proofs.Lowering.Verify

/-! The slots of lowered code hold the constants of the source, each stored to by a single
instruction, which control comes to at most once unless the constant stands in a loop. -/

namespace TwinLisp.Graph

open Lowering

namespace Lowering

variable {M : List Mention} {s s' : State} {program : List Expr}

theorem Ready.kept (ready : Ready M s) : Kept [] [] s where
  toHouses := by
    rw [ready.builder]
    exact houses_new 0
  registered := ready.registered
  slotted := ready.slotted
  bodies _ _ _ hx hbody := absurd hbody (ready.not_built hx)

/-- A derivation from where lowering begins ends with units that hold what their sources say. -/
theorem holds_of_values (ready : Ready M s) {results : List Operand}
    (derived : Values program s results s') {j : Nat} {unit : CodeUnit} {body : Body}
    (hunit : s'.finishMain.module.units[j]? = some unit) (hbody : unit.body = some body) :
    ∃ constants, (unit.name, constants) ∈ Outline.unitsOf program ∧
      List.Forall₂ body.Holds body.frozenSlots constants := by
  obtain ⟨E, same, kept⟩ := derived.adds ready.isOpen _ _ ready.kept
  obtain ⟨registered, grows⟩ := derived.trace.registered ready.registered
  obtain ⟨main, x, hx, named, -⟩ := ready.unfinished registered grows
  rcases body_finishMain main hx hunit hbody with ⟨-, rfl, rfl⟩ | hunit
  · refine ⟨(Outline.ofExprs program).constants, ?_, ?_⟩
    · exact List.mem_cons.mpr (.inl (congrArg (·, _) named))
    · rw [← same]
      exact (kept.toHouses.terminate (t := .ret (.const 0)) nofun).holds
  · obtain ⟨constants, mem, holds⟩ := kept.bodies j unit body hunit hbody
    exact ⟨constants, List.mem_cons_of_mem _ mem, holds⟩

end Lowering

/-- Every unit of a lowered module holds the constants of its source: its frozen slots are theirs,
in order, a single instruction stores to each, and unless the constant stands in a loop, control
stores to its slot at most once, whatever way it takes. -/
theorem holds_of_lower {config : LowerConfig} {program : List Expr} {m : Module}
    (h : lower config program = .ok m) {unit : CodeUnit} (mem : unit ∈ m.units.toList) :
    ∃ body constants, unit.body = some body ∧ (unit.name, constants) ∈ Outline.unitsOf program ∧
      List.Forall₂ body.Holds body.frozenSlots constants := by
  obtain ⟨lowered, linked⟩ := lower_ok_iff.mp h
  have defined := (result_of_lowerUnverified lowered).isSome_body linked.defined mem
  obtain ⟨body, hbody⟩ := Option.isSome_iff_exists.mp defined
  obtain ⟨results, s, derived, rfl⟩ := lowerUnverified_ok_iff.mp lowered
  obtain ⟨j, hj⟩ := List.mem_iff_getElem?.mp mem
  rw [Array.getElem?_toList] at hj
  obtain ⟨constants, known, holds⟩ :=
    holds_of_values (ready_start config program) derived hj hbody
  exact ⟨body, constants, hbody, known, holds⟩

/-- Constants in an arm of a conditional, in a loop, and in a function of their own. -/
def scatteredConstants : List Expr :=
  [.list [.ident "if" ⟨1, 3⟩, .list [.ident "const" ⟨5, 10⟩, .ident "a" ⟨11, 12⟩, .int 1 ⟨13, 14⟩]
      ⟨4, 15⟩, .list [.ident "const" ⟨17, 22⟩, .ident "b" ⟨23, 24⟩, .int 2 ⟨25, 26⟩] ⟨16, 27⟩,
      .int 0 ⟨28, 29⟩] ⟨0, 30⟩,
    .list [.ident "while" ⟨32, 37⟩, .int 0 ⟨38, 39⟩,
      .list [.ident "const" ⟨41, 46⟩, .ident "c" ⟨47, 48⟩, .int 3 ⟨49, 50⟩] ⟨40, 51⟩] ⟨31, 52⟩,
    .list [.ident "defun" ⟨54, 59⟩, .ident "f" ⟨60, 61⟩, .list [.ident "x" ⟨63, 64⟩] ⟨62, 65⟩,
      .list [.ident "const" ⟨67, 72⟩, .ident "d" ⟨73, 74⟩, .ident "x" ⟨75, 76⟩] ⟨66, 77⟩] ⟨53, 78⟩]

theorem holds_of_lower_scattered :
    ∃ m unit body, lower {} scatteredConstants = .ok m ∧ unit ∈ m.units.toList ∧
      unit.body = some body ∧
      List.Forall₂ body.Holds body.frozenSlots [⟨"a", false⟩, ⟨"b", false⟩, ⟨"c", true⟩] := by
  have succeeds : (lower {} scatteredConstants).toBool = true := by decide +kernel
  have units : Outline.unitsOf scatteredConstants =
      [("main", [⟨"a", false⟩, ⟨"b", false⟩, ⟨"c", true⟩]), ("f", [⟨"d", false⟩])] := by
    decide +kernel
  cases lowered : lower {} scatteredConstants with
  | error => simp [lowered, Except.toBool] at succeeds
  | ok m =>
    have r := result_of_lowerUnverified (lower_ok_iff.mp lowered).1
    obtain ⟨unit, found, named, -⟩ := r.entry
    have mem : unit ∈ m.units.toList :=
      List.mem_of_getElem? (Array.getElem?_toList.trans found)
    -- the unit is `main`, so its constants are the first of the two lists
    obtain ⟨body, constants, hbody, known, holds⟩ := holds_of_lower lowered mem
    refine ⟨m, unit, body, rfl, mem, hbody, ?_⟩
    rw [units, named] at known
    rcases List.mem_cons.mp known with same | known
    · cases same
      exact holds
    · have same : "main" = "f" := congrArg Prod.fst (List.mem_singleton.mp known)
      exact absurd same (by decide)

/-- A constant in the body of a loop. -/
def loopedConstant : List Expr :=
  [.list [.ident "set" ⟨1, 4⟩, .ident "i" ⟨5, 6⟩, .int 0 ⟨7, 8⟩] ⟨0, 9⟩,
    .list [.ident "while" ⟨11, 16⟩,
      .list [.ident "<" ⟨18, 19⟩, .ident "i" ⟨20, 21⟩, .int 2 ⟨22, 23⟩] ⟨17, 24⟩,
      .list [.ident "const" ⟨26, 31⟩, .ident "k" ⟨32, 33⟩, .ident "i" ⟨34, 35⟩] ⟨25, 36⟩,
      .list [.ident "set" ⟨38, 41⟩, .ident "i" ⟨42, 43⟩,
        .list [.ident "+" ⟨45, 46⟩, .ident "i" ⟨47, 48⟩, .int 1 ⟨49, 50⟩] ⟨44, 51⟩] ⟨37, 52⟩]
      ⟨10, 53⟩]

/-- The module of such a program stores to the slot whenever control comes to the loop's body. -/
theorem not_storesOnce_looped : ∃ m unit body, lower {} loopedConstant = .ok m ∧
    unit ∈ m.units.toList ∧ unit.body = some body ∧
    ∃ slot ∈ body.frozenSlots, ¬body.StoresOnce slot := by
  let code : Body :=
    { params := []
      blocks :=
        [⟨0, [.alloca 0, .alloca 1, .perform (.store 0 (.const 0))], some (.br 1)⟩,
          ⟨1, [.define 0 (.load 0), .define 1 (.compare .lt (.value 0) (.const 2))],
            some (.condBr 1 2 3)⟩,
          ⟨2, [.define 2 (.load 0), .perform (.store 1 (.value 2)), .define 3 (.load 0),
            .define 4 (.arith .add (.value 3) (.const 1)), .perform (.store 0 (.value 4))],
            some (.br 1)⟩,
          ⟨3, [], some (.ret (.const 0))⟩]
      types := #[.i64, .i1, .i64, .i64, .i64]
      slots := #[⟨"i", false⟩, ⟨"k", true⟩] }
  -- this is the module the program is lowered to
  have found : ((lower {} loopedConstant).toOption.bind (·.units[0]?)).bind (·.body)
      = some code := by decide +kernel
  -- control comes to the body of the loop a second time
  have path : code.Path [1, 2, 1, 0] 2 :=
    .step (.step (.step (.step .entry ⟨_, _, rfl, rfl, by decide⟩) ⟨_, _, rfl, rfl, by decide⟩)
      ⟨_, _, rfl, rfl, by decide⟩) ⟨_, _, rfl, rfl, by decide⟩
  have twice : code.storesAlong 1 [2, 1, 2, 1, 0] = 2 := by decide
  have again : ¬code.StoresOnce 1 := by
    intro once
    have atMost := once _ _ path
    rw [twice] at atMost
    exact absurd atMost (by decide)
  cases lowered : lower {} loopedConstant with
  | error => simp [lowered, Except.toOption] at found
  | ok m =>
    rw [lowered] at found
    obtain ⟨unit, hunit, hbody⟩ := Option.bind_eq_some_iff.mp found
    have mem : unit ∈ m.units.toList :=
      List.mem_of_getElem? (Array.getElem?_toList.trans hunit)
    exact ⟨m, unit, code, rfl, mem, hbody, 1, by decide, again⟩

end TwinLisp.Graph
