import BoxedScheme.CommandLine

/-!
# The program

Carries out on the real system what the command line asks for: reads the files that a run turns out to need,
answers standard input line by line, and shows the viewer.
-/

namespace BoxedScheme

/-- What the system has under a path. -/
def systemFile (path : String) : IO FileContent := do
  try
    return .bytes (← IO.FS.readBinFile path)
  catch
    | .noFileOrDirectory .. => return .unreadable Files.noSuchFile
    | .inappropriateType .. => return .directory
    | e => return .unreadable (toString e)

/-- Runs what may lack files until it lacks none. -/
partial def supplied {α : Type} (action : Files → Except Stop α) (files : Files) : IO α := do
  match action files with
  | .ok a => return a
  | .error (.needsFile path) => supplied action (files.add path (← systemFile path))
  | .error _ => throw (IO.userError "out of steps")

/-- Writes out an outcome. -/
def finish (r : CommandLine.Outcome) : IO UInt32 := do
  IO.print r.stdout
  IO.eprint r.stderr
  return .ofNat r.exit

/-! ## The prompt -/

partial def promptLoop (p : Prompt) : IO UInt32 := do
  let line ← (← IO.getStdin).getLine
  if line.isEmpty then return 0
  let p ← supplied (fun files => Prompt.feedAll { p with machine.files := files } line) {}
  IO.print p.machine.terminal.sent
  (← IO.getStdout).flush
  promptLoop { p with machine.terminal.sent := "" }

/-! ## The viewer -/

/-- The keys in a typed line. Arrow keys come as three characters; an empty line is the enter key. -/
def typedKeys (sinceSpace : Nat) : List Char → List Key
  | ['\n'] => [.enter]
  | cs => go cs
where
  go : List Char → List Key
    | [] => []
    | '\x1b' :: '[' :: c :: cs =>
      let key := match c with
        | 'A' => .up
        | 'B' => .down
        | 'C' => .right
        | 'D' => .left
        | 'Z' => .backTab
        | _ => .other
      key :: go cs
    | c :: cs =>
      if c = '\n' then go cs else .ofChar c sinceSpace :: go cs

/-- The escape sequence of a style. -/
def styleCode (s : Style) : String :=
  let color (base : Nat) : Option Color → String
    | none => ""
    | some .white => s!";{base + 7}"
    | some .black => s!";{base}"
    | some (.rgb r g b) => s!";{base + 8};2;{r.toNat};{g.toNat};{b.toNat}"
  "\x1b[0" ++ (if s.bold then ";1" else "") ++ color 30 s.foreground ++ color 40 s.background ++ "m"

def rowCode (row : Row) : String :=
  .join (row.map fun g => styleCode g.style ++ g.symbol) ++ "\x1b[0m\n"

partial def viewerLoop (v : Viewer) (l : Layout) (lastLine lastSpace : Nat) : IO UInt32 := do
  let v := v.settle l
  if v.quit then return 0
  IO.print ("\x1b[2J\x1b[H" ++ .join ((v.draw l).map rowCode))
  (← IO.getStdout).flush
  let line ← (← IO.getStdin).getLine
  if line.isEmpty then return 0
  let now ← IO.monoMsNow
  let v := ((now - lastLine) / 1000).fold (fun _ _ v => v.second) v
  let keys := typedKeys (now - lastSpace) line.toList
  let lastSpace := if ' ' ∈ line.toList then now else lastSpace
  viewerLoop (keys.foldl (fun v k => (v.press k).settle l) v) l now lastSpace

end BoxedScheme

open BoxedScheme in
def main (args : List String) : IO UInt32 := do
  match CommandLine.parse args with
  | .run o =>
    match o.file with
    | none =>
      match ← supplied (CommandLine.openPrompt o.config) {} with
      | .ok prompt => promptLoop prompt
      | .error failure => finish failure
    | some path =>
      if o.viewer then
        match ← supplied (CommandLine.runViewer o.config · path) {} with
        | (r, some v) =>
          let _ ← finish r
          let now ← IO.monoMsNow
          viewerLoop v (.ofSize 100 31) now 0
        | (r, none) => finish r
      else finish (← supplied (CommandLine.runFile o.config · path) {})
  | _ =>
    match CommandLine.run args {} "" with
    | .ok r => finish r
    | .error _ => return 1
