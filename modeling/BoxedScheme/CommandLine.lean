import BoxedScheme.Prompt
import BoxedScheme.Viewer

/-!
# The command line

* `CommandLine.parse`: what the arguments ask for.
* `CommandLine.runFile`, `CommandLine.runPrompt`, `CommandLine.runViewer`: the three ways to run.
-/

namespace BoxedScheme

namespace CommandLine

/-- The options that take a number. -/
inductive Setting where
  | cells
  | strings
  | roots
  | collectEvery
deriving DecidableEq

def Setting.ofName? (name : String) : Option Setting :=
  match name with
  | "cells" => some .cells
  | "strings" => some .strings
  | "roots" => some .roots
  | "gc-interval" => some .collectEvery
  | _ => none

/-- What has been chosen. -/
structure Options where
  file : Option String := none
  viewer : Bool := false
  cells : Option Nat := none
  strings : Option Nat := none
  roots : Option Nat := none
  collectEvery : Option Nat := none
deriving DecidableEq

namespace Options

def get (o : Options) : Setting → Option Nat
  | .cells => o.cells
  | .strings => o.strings
  | .roots => o.roots
  | .collectEvery => o.collectEvery

def set (o : Options) (value : Nat) : Setting → Options
  | .cells => { o with cells := some value }
  | .strings => { o with strings := some value }
  | .roots => { o with roots := some value }
  | .collectEvery => { o with collectEvery := some value }

/-- Decimal digits, perhaps behind a plus sign, for a number below `2 ^ 64`. -/
def number? (text : String) : Option Nat :=
  let digits := match text.toList with
    | '+' :: cs => cs
    | cs => cs
  (Numeral.digits? 10 digits).filter (· < 0x10000000000000000)

/-- Gives a setting its value. It has to be a number, and the setting must not have one yet. -/
def choose? (o : Options) (s : Setting) (value : String) : Option Options :=
  match o.get s, number? value with
  | none, some n => some (o.set n s)
  | _, _ => none

/-- Takes the file to run. There is at most one, and its name is not empty. -/
def withFile? (o : Options) (file : String) : Option Options :=
  if o.file.isNone ∧ ¬ file.isEmpty then some { o with file := some file } else none

def config (o : Options) : Config :=
  let base := match o.cells with
    | some cells => Config.withCells cells
    | none => {}
  { base with
    strings := o.strings.getD base.strings
    roots := o.roots.getD base.roots
    collectEvery := o.collectEvery.getD base.collectEvery }

end Options

/-- What a single argument is. -/
inductive Argument where
  | value
  | endOfOptions
  | help
  | version
  | viewer
  /-- A setting, with its value if that is attached. -/
  | setting (s : Setting) (value : Option String)
  | unknown
deriving DecidableEq

/-- An argument that starts with two dashes, by what stands behind them. -/
def Argument.ofLong (text : List Char) : Argument :=
  let name := String.ofList (text.takeWhile (· ≠ '='))
  let attached := match text.dropWhile (· ≠ '=') with
    | _ :: rest => some (String.ofList rest)
    | [] => none
  match Setting.ofName? name, attached with
  | some s, _ => .setting s attached
  | none, some _ => .unknown
  | none, none =>
    if name = "tui" then .viewer
    else if name = "version" then .version
    else if name = "help" then .help
    else .unknown

def Argument.ofString (arg : String) : Argument :=
  match arg.toList with
  | ['-', '-'] => .endOfOptions
  | '-' :: '-' :: text => .ofLong text
  | '-' :: 'V' :: _ => .version
  | '-' :: 'h' :: _ => .help
  | '-' :: _ :: _ => .unknown
  | _ => .value

/-- What the arguments ask for. -/
inductive Command where
  | run (o : Options)
  | version
  | help
  | misuse
deriving DecidableEq

/-- The arguments are complete. The viewer needs a file. -/
def Options.finish (o : Options) : Command :=
  if o.viewer ∧ o.file.isNone then .misuse else .run o

/-- Reads arguments behind the end of options. -/
def parseValues (o : Options) : List String → Command
  | [] => o.finish
  | arg :: args =>
    match o.withFile? arg with
    | some o => parseValues o args
    | none => .misuse

/-- Reads arguments from left to right; the first that is out of place or asks for a text decides. -/
def parseFrom (o : Options) : List String → Command
  | [] => o.finish
  | arg :: args =>
    match Argument.ofString arg with
    | .value =>
      match o.withFile? arg with
      | some o => parseFrom o args
      | none => .misuse
    | .endOfOptions => parseValues o args
    | .help => .help
    | .version => .version
    | .viewer => if o.viewer then .misuse else parseFrom { o with viewer := true } args
    | .setting s (some value) =>
      match o.choose? s value with
      | some o => parseFrom o args
      | none => .misuse
    | .setting s none =>
      match args with
      | value :: args =>
        match Argument.ofString value, o.choose? s value with
        | .value, some o => parseFrom o args
        | _, _ => .misuse
      | [] => .misuse
    | .unknown => .misuse

def parse (args : List String) : Command := parseFrom {} args

/-! ## Running -/

/-- What is left of a run: its exit code and what it wrote. -/
structure Outcome where
  exit : Nat := 0
  stdout : String := ""
  stderr : String := ""
deriving DecidableEq

def versionText : String := "scm754 0.1.0\n"

def helpText : String :=
  .join <| List.map (· ++ "\n")
    ["Usage: scm754 [OPTIONS] [FILE]", "", "Options:", "  --tui", "  --cells <CELLS>",
      "  --strings <STRINGS>", "  --roots <ROOTS>", "  --gc-interval <GC_INTERVAL>", "  -h, --help",
      "  -V, --version"]

def misuseText : String := "error: unexpected arguments\n\n" ++ helpText

/-- The failure to make a machine. Only pools that are too small can cause it. -/
def creationFailure (e : Error) : Outcome :=
  let text := match e with
    | .outOfMemory pool capacity =>
      s!"OutOfMemory \x7b pool: \"{pool.text}\", capacity: {capacity} \x7d"
    | e => e.message
  { exit := 1, stderr := s!"Error: {text}\n" }

/-- The text of the program to run, or the outcome if it cannot be read. -/
def programText (files : Files) (path : String) : Except Stop (Except Outcome String) :=
  match files.read? path with
  | none => .error (.needsFile path)
  | some (.ok text) => .ok (.ok text)
  | some (.error reason) =>
    .ok (.error { exit := 1, stderr := s!"Error: cannot read '{path}': {reason}\n" })

/-- Runs a program. An error is told apart from the output by a line of its own. -/
def runProgram (config : Config) (files : Files) (source : String) : Except Stop Outcome :=
  match Machine.create config .echoing files with
  | .error (.error e) => .ok (creationFailure e)
  | .error stop => .error stop
  | .ok m =>
    match Machine.run source m with
    | .ok _ m => .ok { stdout := m.terminal.sent }
    | .error (.error e) m =>
      let m := if m.terminal.atLineStart then m.terminal else m.terminal.print "\n"
      .ok { exit := 1, stdout := m.sent, stderr := Prompt.errorLine e ++ "\n" }
    | .error stop _ => .error stop

/-- Records a program for the viewer and sums up how that went. -/
def recordProgram (config : Config) (files : Files) (source : String) :
    Except Stop (Outcome × Option Viewer) :=
  match Session.create config .capturing files with
  | .error (.error e) => .ok (creationFailure e, none)
  | .error stop => .error stop
  | .ok s =>
    let (result, s) := s.record source
    let summary : Except Stop String := match result with
      | .ok () =>
        .ok s!"Evaluation completed successfully.\nTotal snapshots: {s.history.snapshots.size}\n"
      | .error (.error e) => .ok (Prompt.errorLine e ++ "\nEntering TUI with partial history...\n")
      | .error stop => .error stop
    let (warning, history) := match s.history.rewind with
      | .ok history => ("", history)
      | .error fault => (s!"Warning: Failed to rewind to start: {fault.message}\n", s.history)
    summary.map fun text =>
      ({ stderr := "Evaluating...\n" ++ text ++ warning }, some (.ofHistory history source))

/-- Runs the program in a file. -/
def runFile (config : Config) (files : Files) (path : String) : Except Stop Outcome := do
  match ← programText files path with
  | .ok source => runProgram config files source
  | .error failure => return failure

/-- Prepares the viewer for the program in a file. -/
def runViewer (config : Config) (files : Files) (path : String) :
    Except Stop (Outcome × Option Viewer) := do
  match ← programText files path with
  | .ok source => recordProgram config files source
  | .error failure => return (failure, none)

/-- A prompt, or the failure to make its machine. -/
def openPrompt (config : Config) (files : Files) : Except Stop (Except Outcome Prompt) :=
  match Machine.create config .echoing files with
  | .ok machine => .ok (.ok { machine })
  | .error (.error e) => .ok (.error (creationFailure e))
  | .error stop => .error stop

/-- Answers all lines of standard input. -/
def runPrompt (config : Config) (files : Files) (input : String) : Except Stop Outcome := do
  match ← openPrompt config files with
  | .ok prompt => return { stdout := (← prompt.feedAll input).machine.terminal.sent }
  | .error failure => return failure

/-- The outcome for the given arguments, files and standard input. -/
def run (args : List String) (files : Files) (input : String) : Except Stop Outcome :=
  match parse args with
  | .version => .ok { stdout := versionText }
  | .help => .ok { stdout := helpText }
  | .misuse => .ok { exit := 2, stderr := misuseText }
  | .run o =>
    match o.file with
    | none => runPrompt o.config files input
    | some path =>
      if o.viewer then (runViewer o.config files path).map (·.1)
      else runFile o.config files path

end CommandLine

end BoxedScheme
