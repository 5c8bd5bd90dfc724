import TwinLisp.Proofs.Lowering.Ties
import TwinLisp.Proofs.Lowering.Verify

/-! The bodies of a lowered module are connected, and each has a single exit. -/

namespace TwinLisp.Graph

open Lowering

namespace Lowering

variable {M : List Mention} {s s' : State} {program : List Expr}

/-- A derivation from where lowering begins ends with connected bodies only. -/
theorem connected_of_values (ready : Ready M s) {results : List Operand}
    (derived : Values program s results s') : s'.finishMain.Connected := by
  have region : (Builder.new 0).Region s'.builder := ready.builder ▸ derived.region ready.isOpen
  have ties := derived.ties ready.isOpen
  have whole : (Builder.new 0).Ties s'.builder := ready.builder ▸ ties.toTies
  obtain ⟨registered, grows⟩ := derived.trace.registered ready.registered
  obtain ⟨main, x, hx, -⟩ := ready.unfinished registered grows
  intro j unit body hunit hbody
  rcases body_finishMain main hx hunit hbody with ⟨-, -, rfl⟩ | hunit
  · exact connected_finish region whole _
  · exact ties.bodies (fun _ _ _ hx hbody => absurd hbody (ready.not_built hx)) j unit body hunit hbody

end Lowering

/-- Every unit of a lowered module has a connected body: control never comes back to its first block,
can come from there to each block, and from each to the only block that returns. -/
theorem connected_of_lower {config : LowerConfig} {program : List Expr} {m : Module}
    (h : lower config program = .ok m) :
    ∀ unit ∈ m.units.toList, ∃ body, unit.body = some body ∧ body.Connected := by
  intro unit mem
  obtain ⟨results, s, derived, rfl, bodies⟩ := values_of_lower h
  obtain ⟨j, body, hunit, hbody⟩ := bodies unit mem
  exact ⟨body, hbody,
    connected_of_values (ready_start config program) derived j unit body hunit hbody⟩

/-- A loop around a conditional, whose test is an `and` of calls, and a function. -/
def nestedForms : List Expr :=
  [.list [.ident "defun" ⟨1, 6⟩, .ident "f" ⟨7, 8⟩, .list [.ident "x" ⟨10, 11⟩] ⟨9, 12⟩,
      .list [.ident "not" ⟨14, 17⟩, .ident "x" ⟨18, 19⟩] ⟨13, 20⟩] ⟨0, 21⟩,
    .list [.ident "while" ⟨23, 28⟩, .list [.ident "f" ⟨30, 31⟩, .int 0 ⟨32, 33⟩] ⟨29, 34⟩,
      .list [.ident "if" ⟨36, 38⟩,
        .list [.ident "and" ⟨40, 43⟩, .int 1 ⟨44, 45⟩,
          .list [.ident "f" ⟨47, 48⟩, .int 2 ⟨49, 50⟩] ⟨46, 51⟩] ⟨39, 52⟩,
        .int 3 ⟨53, 54⟩, .int 4 ⟨55, 56⟩] ⟨35, 57⟩] ⟨22, 58⟩]

theorem connected_of_lower_nested : ∃ m, lower {} nestedForms = .ok m ∧
    ∀ unit ∈ m.units.toList, ∃ body, unit.body = some body ∧ body.Connected := by
  have succeeds : (lower {} nestedForms).toBool = true := by decide +kernel
  cases lowered : lower {} nestedForms with
  | error => simp [lowered, Except.toBool] at succeeds
  | ok m => exact ⟨m, rfl, connected_of_lower lowered⟩

end TwinLisp.Graph
