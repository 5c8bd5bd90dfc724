import TwinLisp.Cli

/-! The program itself: reads a file where a command asks for one, prints and ends. -/

open TwinLisp.Cli

def readContent (path : String) : IO Content := do
  try
    match String.fromUTF8? (← IO.FS.readBinFile path) with
    | some source => return .text source
    | none => return .notText
  catch e =>
    match e with
    | .noFileOrDirectory .. => return .missing
    | .permissionDenied .. => return .denied
    | _ => return .failed (toString e)

def report (outcome : Outcome) : IO UInt32 := do
  IO.print outcome.stdout
  IO.eprint outcome.stderr
  return outcome.code.toUInt32

def main (args : List String) : IO UInt32 := do
  match command args with
  | .finish outcome => report outcome
  | .withFile path next => report (next (← readContent path))
