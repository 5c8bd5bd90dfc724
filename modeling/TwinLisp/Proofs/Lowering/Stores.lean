import TwinLisp.Proofs.Lowering.Assignment.Derivations
import TwinLisp.Proofs.Lowering.Dominance

/-! Lowered code stores to slots before it loads them where the source assigns variables on every
way to where it reads them, and not in general. -/

namespace TwinLisp.Graph

open Lowering

namespace Lowering

variable {M : List Mention} {s : State}

theorem Ready.assigned (ready : Ready M s) : Assigned {} (fun _ _ => False) s := by
  have noEdge (p q : BlockId) : ¬(Builder.new 0).Leads p q := by
    rintro ⟨t, ended, -⟩
    rw [endAt_new] at ended
    cases ended
  refine ⟨?_, ⟨?_, ?_, ?_, nofun⟩, fun j x body hx hbody => ?_⟩
  · rw [ready.builder]
    refine ⟨⟨nofun, nofun, nofun⟩, Nat.one_pos, fun p q leads => absurd leads (noEdge p q), ?_⟩
    intro p n dst slot hi
    rw [Builder.instrsAt_new] at hi
    cases hi
  · exact congrArg (·.slots.size) ready.builder
  · rw [ready.current]
    rfl
  · rw [ready.current]
    rfl
  · exact absurd hbody (ready.not_built hx)

end Lowering

/-- Where a program assigns every variable before it reads it, whatever way control takes, the bodies
of its module store to every slot before they load it. -/
theorem storesBeforeLoad_of_lower {config : LowerConfig} {program : List Expr} {m : Module}
    (h : lower config program = .ok m) (assigned : DefinitelyAssigned program) {unit : CodeUnit}
    (mem : unit ∈ m.units.toList) {body : Body} (hbody : unit.body = some body) :
    body.StoresBeforeLoad := by
  obtain ⟨w, after⟩ := Option.isSome_iff_exists.mp assigned
  obtain ⟨results, s, derived, rfl⟩ := lowerUnverified_ok_iff.mp (lowerUnverified_of_lower h)
  have ready := ready_start config program
  obtain ⟨D, -, done⟩ := derived.follows ready.isOpen after _ ready.assigned
  have trace := derived.trace
  obtain ⟨registered, grows⟩ := trace.registered ready.registered
  have main : s.current.unit = 0 := by
    rw [grows.unit, ready.current]
    rfl
  obtain ⟨x, hx, -, -⟩ := registered.main
  obtain ⟨j, hj⟩ := List.mem_iff_getElem?.mp mem
  rw [Array.getElem?_toList] at hj
  rcases body_finishMain main hx hj hbody with ⟨-, -, rfl⟩ | hj
  · exact (done.toStores.terminate (t := .ret (.const 0)) nofun nofun).storesBeforeLoad
  · exact done.bodies j unit body hj hbody

/-- Both arms of a conditional assign the variable that is read after it. -/
def assignedInBothArms : List Expr :=
  [.list [.ident "if" ⟨1, 3⟩, .int 0 ⟨4, 5⟩,
    .list [.ident "set" ⟨7, 10⟩, .ident "x" ⟨11, 12⟩, .int 1 ⟨13, 14⟩] ⟨6, 15⟩,
    .list [.ident "set" ⟨17, 20⟩, .ident "x" ⟨21, 22⟩, .int 2 ⟨23, 24⟩] ⟨16, 25⟩] ⟨0, 26⟩,
  .list [.ident "print" ⟨28, 33⟩, .ident "x" ⟨34, 35⟩] ⟨27, 36⟩]

theorem storesBeforeLoad_of_lower_bothArms : DefinitelyAssigned assignedInBothArms ∧
    ∃ m unit body, lower {} assignedInBothArms = .ok m ∧ unit ∈ m.units.toList ∧
      unit.body = some body ∧ body.StoresBeforeLoad := by
  have assigned : DefinitelyAssigned assignedInBothArms := by
    unfold DefinitelyAssigned
    decide +kernel
  have succeeds : (lower {} assignedInBothArms).toBool = true := by decide +kernel
  refine ⟨assigned, ?_⟩
  cases lowered : lower {} assignedInBothArms with
  | error => simp [lowered, Except.toBool] at succeeds
  | ok m =>
    have r := result_of_lowerUnverified (lowerUnverified_of_lower lowered)
    obtain ⟨unit, found, -, defined⟩ := r.entry
    obtain ⟨body, hbody⟩ := Option.isSome_iff_exists.mp defined
    have mem : unit ∈ m.units.toList :=
      List.mem_of_getElem? (Array.getElem?_toList.trans found)
    exact ⟨m, unit, body, rfl, mem, hbody, storesBeforeLoad_of_lower lowered assigned mem hbody⟩

/-- One arm of a conditional assigns the variable that is read after it. -/
def assignedInOneArm : List Expr :=
  [.list [.ident "if" ⟨1, 3⟩, .int 0 ⟨4, 5⟩,
    .list [.ident "set" ⟨7, 10⟩, .ident "x" ⟨11, 12⟩, .int 1 ⟨13, 14⟩] ⟨6, 15⟩,
    .int 2 ⟨16, 17⟩] ⟨0, 18⟩,
  .list [.ident "print" ⟨20, 25⟩, .ident "x" ⟨26, 27⟩] ⟨19, 28⟩]

/-- The module of such a program loads the slot also after the arm that has not stored to it. -/
theorem not_storesBeforeLoad_oneArm : ∃ m unit body, lower {} assignedInOneArm = .ok m ∧
    unit ∈ m.units.toList ∧ unit.body = some body ∧ ¬body.StoresBeforeLoad := by
  let code : Body :=
    { params := []
      blocks :=
        [⟨0, [.alloca 0, .define 0 (.compare .ne (.const 0) (.const 0))], some (.condBr 0 1 2)⟩,
          ⟨1, [.perform (.store 0 (.const 1))], some (.br 3)⟩, ⟨2, [], some (.br 3)⟩,
          ⟨3, [.define 1 (.phi [(1, .const 1), (2, .const 2)]), .define 2 (.load 0),
            .perform (.printInt (.value 2))], some (.ret (.const 0))⟩]
      types := #[.i1, .i64, .i64]
      slots := #[⟨"x", false⟩] }
  -- this is the module the program is lowered to
  have found : ((lower {} assignedInOneArm).toOption.bind (·.units[0]?)).bind (·.body) = some code := by
    decide +kernel
  -- control comes to the load through the second arm
  have path : code.Path [2, 0] 3 :=
    .step (.step .entry ⟨_, _, rfl, rfl, by decide⟩) ⟨_, _, rfl, rfl, by decide⟩
  have loads : code.instrAt? 3 1 = some (.define 2 (.load 0)) := rfl
  have uninitialised : ¬code.StoresBeforeLoad := by
    -- neither the blocks of that path nor the instructions before the load have a store
    intro stores
    rcases stores 3 1 2 0 loads [2, 0] path with ⟨p, mem, i, instr, hi, value, rfl⟩ |
      ⟨i, lt, instr, hi, value, rfl⟩
    · rcases List.mem_cons.mp mem with rfl | mem
      · cases hi
      · cases List.mem_singleton.mp mem
        rcases i with _ | _ | i <;> cases hi
    · cases Nat.lt_one_iff.mp lt
      cases hi
  cases lowered : lower {} assignedInOneArm with
  | error => simp [lowered, Except.toOption] at found
  | ok m =>
    rw [lowered] at found
    obtain ⟨unit, hunit, hbody⟩ := Option.bind_eq_some_iff.mp found
    have mem : unit ∈ m.units.toList :=
      List.mem_of_getElem? (Array.getElem?_toList.trans hunit)
    exact ⟨m, unit, code, rfl, mem, hbody, uninitialised⟩

end TwinLisp.Graph
