import BoxedScheme.Text.Lines

/-!
# Terminals

Where a program's output goes. A capturing terminal keeps all of it. An echoing terminal sends it on at once
and keeps only the line that is not finished yet, which is enough to know whether the next piece starts a line.
-/

namespace BoxedScheme

structure Terminal where
  echo : Bool
  /-- What is kept: everything, or the unfinished line. -/
  text : String := ""
  /-- What an echoing terminal has sent on. -/
  sent : String := ""
deriving DecidableEq, Inhabited

namespace Terminal

def capturing : Terminal := { echo := false }

def echoing : Terminal := { echo := true }

/-- The part of a piece behind its last newline, if it has one. -/
def unfinished? (piece : String) : Option String :=
  if '\n' ∈ piece.toList then (Text.splitLines piece.toList).getLast?.map .ofList else none

def print (t : Terminal) (piece : String) : Terminal :=
  if t.echo then
    { t with
      sent := t.sent ++ piece
      text := match unfinished? piece with
        | some rest => rest
        | none => t.text ++ piece }
  else { t with text := t.text ++ piece }

/-- The last character printed ended a line, or nothing was printed. -/
def atLineStart (t : Terminal) : Bool :=
  match t.text.toList.getLast? with
  | some c => c = '\n'
  | none => true

def lines (t : Terminal) : List String := Text.lines t.text

def clear (t : Terminal) : Terminal := { t with text := "" }

/-- Prints on a line of its own, after any unfinished line. -/
def printLine (t : Terminal) (line : String) : Terminal :=
  let t := if t.atLineStart then t else t.print "\n"
  (t.print line).print "\n"

end Terminal

end BoxedScheme
