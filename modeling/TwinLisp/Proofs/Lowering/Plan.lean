import TwinLisp.Proofs.Graph.Denotation
import TwinLisp.Proofs.Lowering.Plan.Derivations
import TwinLisp.Proofs.Lowering.Verify

/-! The string constants of a lowered module: the listing spells them as they are, and every text of
the source is printed by way of its own. -/

namespace TwinLisp.Graph

open Lowering

theorem escapeByte_zero : escapeByte 0 = ['\\', '0', '0'] := by decide

/-- The listing writes each string of a module as its bytes and a zero byte. -/
theorem Module.listsText {m : Module} {id : StringId} {text : String}
    (known : m.strings[id]? = some text) : m.ListsText id text := by
  -- the line, that it is listed, its characters, and what they spell
  refine ⟨stringLine id text, ?_, (utf8Bytes text ++ [0]).flatMap escapeByte, ?_, ?_, ?_⟩
  · have listed : stringLine id text ∈ m.strings.toList.mapIdx stringLine := by
      refine List.mem_of_getElem? (i := id) ?_
      rw [List.getElem?_mapIdx, Array.getElem?_toList, known]
      rfl
    unfold listingLines
    simp only [List.append_assoc]
    exact List.mem_append_right _ (List.mem_append_left _ listed)
  · -- the zero byte at the end of a line is an escape like the others
    have written : escape text ++ "\\00\"" =
        String.ofList ((utf8Bytes text ++ [0]).flatMap escapeByte) ++ "\"" := by
      rw [List.flatMap_append, String.ofList_append, List.flatMap_singleton, escapeByte_zero,
        String.append_assoc]
      rfl
    unfold stringLine
    rw [List.length_append, List.length_singleton]
    simp only [String.append_assoc]
    rw [written]
  · intro c mem
    obtain ⟨byte, -, mem⟩ := List.mem_flatMap.mp mem
    exact printable_of_mem_escapeByte mem
  · intro other
    have spelled := spells_escapeBytes (utf8Bytes text ++ [0])
    exact ⟨fun read => read.unique spelled, fun same => same ▸ spelled⟩

namespace Lowering

variable {M : List Mention} {s s' : State} {program : List Expr}

theorem Ready.onPlan (ready : Ready M s) : OnPlan {} s where
  registered := ready.registered
  block := congrArg Builder.current ready.builder
  next := congrArg Builder.size ready.builder
  texts := by
    rw [ready.builder]
    exact OnPlan.prepared_new _ 0
  bodies _ _ _ hx hbody := absurd hbody (ready.not_built hx)

/-- A derivation from where lowering begins ends with units that print what their sources say. -/
theorem printed_of_values (ready : Ready M s) {results : List Operand}
    (derived : Values program s results s') {j : Nat} {unit : CodeUnit} {body : Body}
    (hunit : s'.finishMain.module.units[j]? = some unit) (hbody : unit.body = some body) :
    ∃ texts, (unit.name, texts) ∈ Plan.unitsOf program ∧
      Printed s'.finishMain.module.strings body texts := by
  have onPlan := derived.onPlan ready.isOpen ready.onPlan
  obtain ⟨registered, grows⟩ := derived.trace.registered ready.registered
  obtain ⟨main, x, hx, named, -⟩ := ready.unfinished registered grows
  -- the unit is `main`, which is finished last, or one that has been finished before
  rcases body_finishMain main hx hunit hbody with ⟨-, rfl, rfl⟩ | hunit
  · refine ⟨(Plan.exprs {} program).texts, List.mem_append_right _ ?_,
      (onPlan.texts.terminate _).finish⟩
    exact List.mem_singleton.mpr (congrArg (·, _) named)
  · obtain ⟨texts, mem, printed⟩ := onPlan.bodies j unit body hunit hbody
    exact ⟨texts, List.mem_append_left _ mem, printed⟩

end Lowering

/-- The listing of a lowered module has each string constant as the bytes of its text and a zero byte,
spelled by printable ASCII and counted. In the units of the module the texts of the source are printed
where their code stands, each by way of the constant that has its bytes, and nothing else is. -/
theorem listsText_of_lower {config : LowerConfig} {program : List Expr} {m : Module}
    (h : lower config program = .ok m) :
    (∀ (id : StringId) text, m.strings[id]? = some text → m.ListsText id text) ∧
      ∀ unit ∈ m.units.toList, ∃ body texts, unit.body = some body ∧
        (unit.name, texts) ∈ Plan.unitsOf program ∧
        ∀ p, List.Forall₂ m.ListsText (body.printedIn p) (textsIn texts p) := by
  refine ⟨fun id text known => Module.listsText known, fun unit mem => ?_⟩
  obtain ⟨results, s, derived, rfl, bodies⟩ := values_of_lower h
  obtain ⟨j, body, hunit, hbody⟩ := bodies unit mem
  obtain ⟨texts, known, printed⟩ :=
    printed_of_values (ready_start config program) derived hunit hbody
  exact ⟨body, texts, hbody, known, fun p => (printed p).imp fun id text => Module.listsText⟩

/-- Texts with quotation marks, a backslash and a line feed, in both arms of a conditional and in a
function, which prints one of them too. -/
def quotedTexts : List Expr :=
  [.list [.ident "if" ⟨1, 3⟩, .int 1 ⟨4, 5⟩,
      .list [.ident "print" ⟨7, 12⟩, .str "\\22" ⟨13, 19⟩, .str "é\n" ⟨20, 25⟩] ⟨6, 26⟩,
      .list [.ident "print" ⟨28, 33⟩, .str "\"" ⟨34, 38⟩] ⟨27, 39⟩] ⟨0, 40⟩,
    .list [.ident "defun" ⟨42, 47⟩, .ident "f" ⟨48, 49⟩, .list [] ⟨50, 52⟩,
      .list [.ident "print" ⟨54, 59⟩, .str "\"" ⟨60, 64⟩] ⟨53, 65⟩] ⟨41, 66⟩]

theorem listsText_of_lower_quoted : ∃ m unit body, lower {} quotedTexts = .ok m ∧
    unit ∈ m.units.toList ∧ unit.body = some body ∧
    List.Forall₂ m.ListsText (body.printedIn 1) ["\\22", "é\n"] ∧
    List.Forall₂ m.ListsText (body.printedIn 2) ["\""] := by
  have succeeds : (lower {} quotedTexts).toBool = true := by decide +kernel
  have units : Plan.unitsOf quotedTexts =
      [("f", [(0, "\"")]), ("main", [(1, "\\22"), (1, "é\n"), (2, "\"")])] := by
    decide +kernel
  cases lowered : lower {} quotedTexts with
  | error => simp [lowered, Except.toBool] at succeeds
  | ok m =>
    have r := result_of_lowerUnverified (lower_ok_iff.mp lowered).1
    obtain ⟨unit, found, named, -⟩ := r.entry
    have mem : unit ∈ m.units.toList :=
      List.mem_of_getElem? (Array.getElem?_toList.trans found)
    obtain ⟨body, texts, hbody, known, printed⟩ := (listsText_of_lower lowered).2 unit mem
    refine ⟨m, unit, body, rfl, mem, hbody, ?_⟩
    rw [units, named] at known
    rcases List.mem_cons.mp known with same | known
    · have same : "main" = "f" := congrArg Prod.fst same
      exact absurd same (by decide)
    · cases List.mem_singleton.mp known
      exact ⟨printed 1, printed 2⟩

end TwinLisp.Graph
