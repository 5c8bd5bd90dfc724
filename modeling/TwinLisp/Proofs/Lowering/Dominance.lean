import TwinLisp.Proofs.Graph.Paths
import TwinLisp.Proofs.Lowering.Result

/-! Lowered code defines values before it uses them, whatever way control takes. -/

namespace TwinLisp.Graph

open Lowering

theorem lowerUnverified_of_lower {config : LowerConfig} {program : List Expr} {m : Module}
    (h : lower config program = .ok m) : lowerUnverified config program = .ok m := by
  unfold lower at h
  split at h
  next => cases h
  next lowered =>
    split at h
    next => cases h
    next =>
      cases h
      exact lowered

/-- The bodies of a lowered module define every value before it is used. -/
theorem definesBeforeUse_of_lower {config : LowerConfig} {program : List Expr} {m : Module}
    (h : lower config program = .ok m) {unit : CodeUnit} (mem : unit ∈ m.units.toList)
    {body : Body} (hbody : unit.body = some body) : body.DefinesBeforeUse := by
  have r := result_of_lowerUnverified (lowerUnverified_of_lower h)
  obtain ⟨j, hj⟩ := List.mem_iff_getElem?.mp mem
  rw [Array.getElem?_toList] at hj
  obtain ⟨⟨D, b, valid, -, rfl⟩, -⟩ := r.bodies j unit body hj hbody
  exact valid.definesBeforeUse

/-- A conditional, whose phi reads what its arms have computed. -/
theorem definesBeforeUse_of_lower_cond :
    ∃ m unit body, lower {} [.list [.ident "if" ⟨1, 3⟩, .int 1 ⟨4, 5⟩,
        .list [.ident "+" ⟨7, 8⟩, .int 2 ⟨9, 10⟩, .int 3 ⟨11, 12⟩] ⟨6, 13⟩, .int 4 ⟨14, 15⟩] ⟨0, 16⟩]
      = .ok m ∧ unit ∈ m.units.toList ∧ unit.body = some body ∧ body.DefinesBeforeUse := by
  have succeeds : (lower {} [.list [.ident "if" ⟨1, 3⟩, .int 1 ⟨4, 5⟩,
      .list [.ident "+" ⟨7, 8⟩, .int 2 ⟨9, 10⟩, .int 3 ⟨11, 12⟩] ⟨6, 13⟩, .int 4 ⟨14, 15⟩]
      ⟨0, 16⟩]).toBool = true := by decide +kernel
  cases lowered : lower {} [.list [.ident "if" ⟨1, 3⟩, .int 1 ⟨4, 5⟩,
      .list [.ident "+" ⟨7, 8⟩, .int 2 ⟨9, 10⟩, .int 3 ⟨11, 12⟩] ⟨6, 13⟩, .int 4 ⟨14, 15⟩]
      ⟨0, 16⟩] with
  | error => simp [lowered, Except.toBool] at succeeds
  | ok m =>
    -- the main unit, which always has a body
    have r := result_of_lowerUnverified (lowerUnverified_of_lower lowered)
    obtain ⟨unit, found, -, defined⟩ := r.entry
    obtain ⟨body, hbody⟩ := Option.isSome_iff_exists.mp defined
    have mem : unit ∈ m.units.toList :=
      List.mem_of_getElem? (Array.getElem?_toList.trans found)
    exact ⟨m, unit, body, rfl, mem, hbody, definesBeforeUse_of_lower lowered mem hbody⟩

end TwinLisp.Graph
