import TwinLisp.Cli.Options
import TwinLisp.Graph.Listing
import TwinLisp.Reader
import TwinLisp.Report

/-! The command line: what each command prints and how it ends. -/

namespace TwinLisp.Cli

/-- What a command leaves behind: its exit code and what it printed. -/
structure Outcome where
  code : Nat
  stdout : String
  stderr : String

inductive Content
  | text (source : String)
  | missing
  | denied
  | notText
  | failed (reason : String)

/-- What a command does: it ends at once, or it goes on with a file. -/
inductive Action
  | finish (outcome : Outcome)
  | withFile (path : String) (next : Content → Outcome)

/-- Lines of text, each ended by a line feed. -/
def unlines (lines : List String) : String :=
  String.join (lines.map (· ++ "\n"))

def usage : String :=
  unlines [
    "alang - s-expression interpreter and graph compiler",
    "",
    "Usage: alang <command> [options]",
    "",
    "Commands:",
    "  run <file>       Interpret a program",
    "  build <file>     Lower to a control-flow graph, verify and dump it",
    "  help             Show this help message",
    "  version          Show version information",
    "",
    "Run options:",
    "  --loop-limit=<n|none>  Abort a while loop after n iterations (default 1000000)",
    "",
    "Build options:",
    "  --no-presolve          Resolve callee arities at call sites only",
    "  --emit=<ir|none>       What to print on success (default: ir)",
    "",
    "Set RUST_LOG (e.g. RUST_LOG=alang_graph=debug) for trace output."]

def failure (lines : List String) : Outcome :=
  ⟨1, "", unlines lines⟩

def contentFailure (path : String) : Content → Outcome
  | .text _ => failure []
  | .missing => failure ["cannot find file '" ++ path ++ "'"]
  | .denied => failure ["permission denied reading '" ++ path ++ "'"]
  | .notText => failure ["'" ++ path ++ "' contains invalid UTF-8 data"]
  | .failed reason => failure ["error reading '" ++ path ++ "': " ++ reason]

/-- A program that fails after it has printed `stdout`. -/
def diagnosed (path source stdout : String) (d : Diagnosis) : Outcome :=
  ⟨1, stdout, Report.render path source d⟩

def runSource (config : Eval.Config) (path source : String) : Outcome :=
  match Reader.read source with
  | .error e => diagnosed path source "" (.ofSyntax e)
  | .ok program =>
    match Eval.run config program (.initial .buffer) with
    | .ok _ w => ⟨0, w.output.text, ""⟩
    -- what was printed before the failure is kept
    | .error (.failed e) w => diagnosed path source w.output.text (.ofEval e)
    | .error .outOfFuel w => ⟨1, w.output.text, ""⟩

/-- The last part of a path; empty parts and parts that stay where they are do not count. -/
def fileName (path : String) : List Char :=
  let parts := (path.toList.splitOn '/').filter fun part => !part.isEmpty && part != ['.']
  parts.getLast?.getD []

/-- The name of a file without its last extension; a dot in front does not start one. -/
def stem? (path : String) : Option String :=
  let name := fileName path
  if name.isEmpty || name == ['.', '.'] then none
  else
    -- up to the last dot; without one, or with nothing before it, the name is its own stem
    let front := (name.reverse.dropWhile (· != '.')).drop 1
    some (String.ofList (if front.isEmpty then name else front.reverse))

/-- Lowers a source text; the module is named after the file. -/
def buildSource (config : BuildConfig) (path source : String) : Outcome :=
  match Reader.read source with
  | .error e => diagnosed path source "" (.ofSyntax e)
  | .ok program =>
    let moduleName := (stem? path).getD config.lower.moduleName
    match Graph.lower { config.lower with moduleName } program with
    | .error e => diagnosed path source "" (.ofLower e)
    | .ok m =>
      match config.emit with
      | .listing => ⟨0, m.listing, ""⟩
      | .nothing => ⟨0, "", ""⟩

/-- The first argument that is no option, and the others. -/
def splitPath : List String → Option (String × List String)
  | [] => none
  | arg :: args =>
    if (after? ['-', '-'] arg.toList).isSome then
      (splitPath args).map fun (path, options) => (path, arg :: options)
    else some (arg, args)

/-- A command on a file: options are looked at before the file is read. -/
def onFile {α : Type} (usageLine : String) (options : List String → Except UsageFault α)
    (act : α → String → String → Outcome) (args : List String) : Action :=
  match splitPath args with
  | none => .finish (failure [usageLine])
  | some (path, flags) =>
    match options flags with
    -- a mistake in the options is reported even if there is no such file
    | .error fault =>
      .finish (failure ["error: " ++ fault.message, "Run `alang help` for usage."])
    | .ok config =>
      .withFile path fun
        | .text source => act config path source
        | content => contentFailure path content

def command : List String → Action
  | [] => .finish ⟨0, usage, ""⟩
  | name :: args =>
    match name with
    | "run" => onFile "Usage: alang run <file> [--loop-limit=<n|none>]" runOptions runSource args
    | "build" =>
      onFile "Usage: alang build <file> [--no-presolve] [--emit=ir|none]" buildOptions buildSource
        args
    | "help" | "--help" | "-h" => .finish ⟨0, usage, ""⟩
    | "version" | "--version" | "-V" => .finish ⟨0, unlines ["alang 0.1.0"], ""⟩
    | _ => .finish ⟨1, usage, unlines ["Unknown command: " ++ name, ""]⟩

end TwinLisp.Cli
