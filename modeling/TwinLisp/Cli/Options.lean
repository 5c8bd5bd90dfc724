import TwinLisp.Eval
import TwinLisp.Graph.Lowering

/-! Options of the commands that take a file. -/

namespace TwinLisp.Cli

/-- An option that is not understood. -/
inductive UsageFault
  | unknownOption (option : String)
  | invalidLoopLimit (limit : String)
  | invalidEmit (emit : String)
deriving DecidableEq

namespace UsageFault

def message : UsageFault → String
  | unknownOption option => "unknown option '" ++ option ++ "'"
  | invalidLoopLimit limit =>
    "invalid loop limit '" ++ limit ++ "' (expected a count or 'none')"
  | invalidEmit emit => "invalid emit type '" ++ emit ++ "' (expected 'ir' or 'none')"

end UsageFault

/-- What follows `lead` in a text that starts with it. -/
def after? : (lead text : List Char) → Option (List Char)
  | [], text => some text
  | c :: lead, d :: text => if c = d then after? lead text else none
  | _ :: _, [] => none

theorem after?_append (lead text : List Char) : after? lead (lead ++ text) = some text := by
  induction lead with
  | nil => rfl
  | cons c lead ih => simp [after?, ih]

/-- The value of an option that is written `name=value`. -/
def optionValue? (name option : String) : Option String :=
  (after? (name ++ "=").toList option.toList).map String.ofList

def loopLimit (limit : String) : Except UsageFault (Option Nat) :=
  if limit = "none" then .ok none
  else
    match Text.Decimal.word64? limit.toList with
    | some n => .ok (some n)
    | none => .error (.invalidLoopLimit limit)

/-- The configuration that options of `run` set; of equal options the last one counts. -/
def runOptions (options : List String) : Except UsageFault Eval.Config :=
  options.foldlM (fun config option =>
    match optionValue? "--loop-limit" option with
    | some limit => (loopLimit limit).map fun loopLimit => { config with loopLimit }
    | none => .error (.unknownOption option)) {}

inductive Emit
  | listing
  | nothing
deriving DecidableEq

structure BuildConfig where
  lower : Graph.LowerConfig := {}
  emit : Emit := .listing
deriving DecidableEq

/-- The configuration that options of `build` set; of equal options the last one counts. -/
def buildOptions (options : List String) : Except UsageFault BuildConfig :=
  options.foldlM (fun config option =>
    if option = "--no-presolve" then
      .ok { config with lower := { config.lower with presolve := false } }
    else
      match optionValue? "--emit" option with
      | some "ir" => .ok { config with emit := .listing }
      | some "none" => .ok { config with emit := .nothing }
      | some emit => .error (.invalidEmit emit)
      | none => .error (.unknownOption option)) {}

end TwinLisp.Cli
