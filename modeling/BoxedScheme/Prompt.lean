import BoxedScheme.Continuation
import BoxedScheme.History
import BoxedScheme.Text.Backspace

/-!
# The prompt

Lines are collected until they make up whole forms. Then each form is evaluated and its value printed on a
line of its own; an error is printed and ends that input, and the next one starts afresh on the same machine.
-/

namespace BoxedScheme

structure Prompt where
  machine : Machine
  /-- Lines that are not whole forms yet. -/
  pending : String := ""

/-- Prints on a line of its own. -/
def Machine.printLine (m : Machine) (line : String) : Machine :=
  { m with terminal := m.terminal.printLine line }

namespace Prompt

/-- An error as users see it. -/
def errorLine (e : Error) : String := "; error: " ++ e.message

/-- Evaluates forms, at most `limit` of them, and prints what comes out. -/
def answerForms : Nat → Reader → Machine → Except Stop Machine
  | 0, _, _ => .error .unfinished
  | limit + 1, r, m =>
    match Session.nextForm r m with
    | .ok none m => .ok m
    | .ok (some (value, r)) m =>
      answerForms limit r (if value.isUnspecified then m else m.printLine (m.heap.write value))
    | .error (.error e) m => .ok (m.printLine (errorLine e))
    | .error stop _ => .error stop

/-- Evaluates a text of whole forms and prints what comes out. -/
def answer (source : String) (m : Machine) : Except Stop Machine :=
  match Reader.ofSource source with
  | .ok r => answerForms (r.pending.length + 1) r m
  | .error e => .ok (m.printLine (errorLine (.read e)))

/-- One line more, without its newline. Backspaces in it are carried out. -/
def feed (p : Prompt) (line : String) : Except Stop Prompt :=
  let text := p.pending ++ Text.applyBackspaces line ++ "\n"
  if Continuation.needsMore text then .ok { p with pending := text }
  else if text.toList.all Text.isSpace then .ok { p with pending := "" }
  else (answer text p.machine).map fun machine => { machine }

/-- All lines of a text; what is unfinished at its end is dropped. -/
def feedAll (p : Prompt) (input : String) : Except Stop Prompt :=
  (Text.sourceLines input).foldlM feed p

end Prompt

end BoxedScheme
