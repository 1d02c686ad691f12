import Mathlib.Data.List.DropRight
import Mathlib.Tactic.Common
import BoxedScheme.Terminal

/-!
# Terminals that keep and terminals that send on

A capturing terminal keeps a text, an echoing one only the line at its end, which it finds in the piece just printed
and in what it kept before. Newlines stand anywhere in the pieces. Both know alike whether the next piece starts a line.

* `Text.lastLine`, `Text.lastLine_append` : the line at the end of a text, and of a text with a piece more;
* `Text.lastLine_cases` : a text is its last line, or that behind a newline;
* `Text.splitLines_cases`, `Text.intercalate_lines` : the pieces between newlines, and the lines of a text;
* `Terminal.print_print`, `Terminal.printLine_eq` : pieces printed in a row are one piece, and so is a line of its own;
* `Terminal.Alike`, `Terminal.alike_performAll` : what every step keeps, and so every run;
* `terminals_agree` : the two terminals after any run.
-/

namespace BoxedScheme

namespace Text

variable {cs : List Char}

/-! ## The line at the end of a text -/

/-- The part of a text behind its last newline; all of it, if there is none. -/
def lastLine (cs : List Char) : List Char := cs.rtakeWhile (· != '\n')

def withoutNewline (cs : List Char) : List Char := if cs.getLast? = some '\n' then cs.dropLast else cs

theorem newline_not_mem_lastLine (cs : List Char) : '\n' ∉ lastLine cs := by
  intro hmem
  simpa using List.mem_rtakeWhile_imp hmem

theorem lastLine_of_not_mem (h : '\n' ∉ cs) : lastLine cs = cs :=
  List.rtakeWhile_eq_self_iff.2 fun c hc => by
    rw [bne_iff_ne]
    rintro rfl
    exact h hc

/-- A piece with a newline hides what stands before it; one without continues the line. -/
theorem lastLine_append (cs piece : List Char) :
    lastLine (cs ++ piece) = if '\n' ∈ piece then lastLine piece else lastLine cs ++ piece := by
  induction piece using List.reverseRecOn with
  | nil => simp
  | append_singleton piece c ih =>
    unfold lastLine at ih ⊢
    rw [← List.append_assoc, List.rtakeWhile_concat, List.rtakeWhile_concat, ih]
    by_cases hc : c = '\n'
    · simp [hc]
    · by_cases hmem : '\n' ∈ piece
      · simp [hc, hmem]
      · simp [hc, hmem, Ne.symm hc]

theorem lastLine_eq_nil_iff : lastLine cs = [] ↔ cs = [] ∨ cs.getLast? = some '\n' := by
  induction cs using List.reverseRecOn with
  | nil => simp [lastLine]
  | append_singleton cs c =>
    unfold lastLine
    rw [List.rtakeWhile_concat, List.getLast?_concat]
    by_cases hc : c = '\n' <;> simp [hc]

/-- A text is its last line, or that behind a newline. -/
theorem lastLine_cases (cs : List Char) : '\n' ∉ cs ∨ ∃ before, cs = before ++ '\n' :: lastLine cs := by
  induction cs using List.reverseRecOn with
  | nil => simp
  | append_singleton cs c ih =>
    rw [lastLine_append]
    by_cases hc : c = '\n'
    · subst hc
      exact .inr ⟨cs, by simp [lastLine]⟩
    · obtain hnone | ⟨before, hbefore⟩ := ih
      · exact .inl (by simp [hnone, Ne.symm hc])
      · refine .inr ⟨before, ?_⟩
        rw [if_neg (by simp [Ne.symm hc]), ← List.cons_append, ← List.append_assoc, ← hbefore]

/-! ## Lines -/

theorem splitLines_eq_splitOn (cs : List Char) : splitLines cs = cs.splitOn '\n' := by
  induction cs with
  | nil => rfl
  | cons c cs ih =>
    unfold splitLines at ih ⊢
    rw [List.splitOn_cons_eq_if_modifyHead, List.foldr_cons, ih]
    by_cases hc : c = '\n'
    · simp [hc]
    · obtain ⟨line, lines, hsplit⟩ := List.exists_cons_of_ne_nil (List.splitOn_ne_nil '\n' cs)
      rw [if_neg hc, if_neg (by simpa using hc), hsplit]
      rfl

theorem intercalate_splitLines (cs : List Char) : ['\n'].intercalate (splitLines cs) = cs := by
  rw [splitLines_eq_splitOn]
  exact List.intercalate_splitOn '\n'

theorem splitLines_of_not_mem (h : '\n' ∉ cs) : splitLines cs = [cs] := by
  rw [splitLines_eq_splitOn]
  exact List.splitOn_eq_singleton h

/-- The pieces of a text, the last one apart. -/
theorem splitLines_cases (cs : List Char) :
    '\n' ∉ cs ∧ splitLines cs = [cs] ∨
      ∃ before, cs = before ++ '\n' :: lastLine cs ∧ splitLines cs = splitLines before ++ [lastLine cs] := by
  obtain hnone | ⟨before, hbefore⟩ := lastLine_cases cs
  · exact .inl ⟨hnone, splitLines_of_not_mem hnone⟩
  · refine .inr ⟨before, hbefore, ?_⟩
    calc splitLines cs
      _ = splitLines (before ++ '\n' :: lastLine cs) := by rw [← hbefore]
      _ = splitLines before ++ splitLines (lastLine cs) := by
        simp only [splitLines_eq_splitOn]
        exact List.splitOn_append_cons_self ..
      _ = splitLines before ++ [lastLine cs] := by rw [splitLines_of_not_mem (newline_not_mem_lastLine cs)]

theorem getLast?_splitLines (cs : List Char) : (splitLines cs).getLast? = some (lastLine cs) := by
  obtain ⟨hnone, hsplit⟩ | ⟨before, -, hsplit⟩ := splitLines_cases cs
  · rw [hsplit, lastLine_of_not_mem hnone]
    rfl
  · rw [hsplit, List.getLast?_concat]

/-- The pieces behind which there is a newline, and the last line unless it is empty. -/
def linePieces (cs : List Char) : List (List Char) :=
  if lastLine cs = [] then (splitLines cs).dropLast else splitLines cs

theorem lines_eq (s : String) : lines s = (linePieces s.toList).map .ofList := by
  unfold lines linePieces
  simp only [getLast?_splitLines, Option.some_inj]

/-- Joined again, the lines are the text but for a newline at its end. -/
theorem intercalate_linePieces (cs : List Char) : ['\n'].intercalate (linePieces cs) = withoutNewline cs := by
  unfold linePieces withoutNewline
  obtain ⟨hnone, hsplit⟩ | ⟨before, hbefore, hsplit⟩ := splitLines_cases cs
  · have hend : cs.getLast? ≠ some '\n' := fun hlast => hnone (List.mem_of_getLast? hlast)
    rw [hsplit, lastLine_of_not_mem hnone, if_neg hend]
    by_cases hempty : cs = [] <;> simp [hempty]
  · by_cases hlast : lastLine cs = []
    · rw [if_pos hlast, hsplit, List.dropLast_concat, intercalate_splitLines]
      rw [hlast] at hbefore
      rw [hbefore, List.getLast?_concat, if_pos rfl, List.dropLast_concat]
    · have hend : cs.getLast? ≠ some '\n' := fun hend => hlast (lastLine_eq_nil_iff.2 (.inr hend))
      rw [if_neg hlast, if_neg hend, intercalate_splitLines]

theorem newline_not_mem_splitLines (cs : List Char) : ∀ piece ∈ splitLines cs, '\n' ∉ piece := by
  rw [splitLines_eq_splitOn]
  induction cs with
  | nil => simp
  | cons c cs ih =>
    rw [List.splitOn_cons_eq_if_modifyHead]
    by_cases hc : c = '\n'
    · simpa [hc] using ih
    · obtain ⟨line, lines, hsplit⟩ := List.exists_cons_of_ne_nil (List.splitOn_ne_nil '\n' cs)
      rw [hsplit] at ih
      rw [if_neg (by simpa using hc), hsplit]
      simpa [Ne.symm hc] using ih

theorem newline_not_mem_lines (s : String) : ∀ line ∈ lines s, '\n' ∉ line.toList := by
  intro line hline
  rw [lines_eq, List.mem_map] at hline
  obtain ⟨piece, hpiece, rfl⟩ := hline
  rw [String.toList_ofList]
  refine newline_not_mem_splitLines s.toList piece ?_
  unfold linePieces at hpiece
  split_ifs at hpiece
  · exact List.dropLast_subset _ hpiece
  · exact hpiece

theorem intercalate_lines (s : String) : ("\n".intercalate (lines s)).toList = withoutNewline s.toList := by
  have hchars : (lines s).map String.toList = linePieces s.toList := by
    rw [lines_eq, List.map_map]
    exact List.map_id'' (fun _ => String.toList_ofList) _
  rw [String.toList_intercalate, hchars]
  exact intercalate_linePieces s.toList

end Text

namespace Terminal

variable {t c e : Terminal}

/-! ## Pieces -/

theorem unfinished?_eq (piece : String) :
    unfinished? piece = if '\n' ∈ piece.toList then some (.ofList (Text.lastLine piece.toList)) else none := by
  unfold unfinished?
  rw [Text.getLast?_splitLines]
  rfl

theorem print_of_not_echo (h : t.echo = false) (piece : String) :
    t.print piece = { t with text := t.text ++ piece } := by
  rw [print, h]
  rfl

theorem print_of_echo (h : t.echo = true) (piece : String) :
    t.print piece =
      { t with
        sent := t.sent ++ piece
        text := if '\n' ∈ piece.toList then .ofList (Text.lastLine piece.toList) else t.text ++ piece } := by
  rw [print, h, if_pos rfl, unfinished?_eq]
  by_cases hmem : '\n' ∈ piece.toList
  · simp only [if_pos hmem]
  · simp only [if_neg hmem]

theorem echo_print (t : Terminal) (piece : String) : (t.print piece).echo = t.echo := by
  unfold print
  split_ifs <;> rfl

/-- Pieces printed in a row are one piece. -/
theorem print_print (t : Terminal) (a b : String) : (t.print a).print b = t.print (a ++ b) := by
  have hkind := echo_print t a
  cases hecho : t.echo with
  | false =>
    rw [print_of_not_echo (hkind.trans hecho), print_of_not_echo hecho, print_of_not_echo hecho]
    simp only [String.append_assoc]
  | true =>
    rw [print_of_echo (hkind.trans hecho), print_of_echo hecho, print_of_echo hecho]
    simp only [String.toList_append, Text.lastLine_append, List.mem_append, String.append_assoc]
    by_cases hb : '\n' ∈ b.toList
    · simp only [hb, or_true, if_true]
    · by_cases ha : '\n' ∈ a.toList
      · simp only [ha, hb, true_or, if_true, if_false, String.ofList_append, String.ofList_toList]
      · simp only [ha, hb, or_self, if_false, String.append_assoc]

/-- A line of its own is one piece, with a newline before it unless a line starts there. -/
theorem printLine_eq (t : Terminal) (line : String) :
    t.printLine line = t.print ((if t.atLineStart then "" else "\n") ++ line ++ "\n") := by
  unfold printLine
  dsimp only
  by_cases hstart : t.atLineStart
  · simp only [hstart, if_true, print_print, String.empty_append]
  · simp only [hstart, if_false, Bool.false_eq_true, print_print]

theorem atLineStart_iff (t : Terminal) : t.atLineStart = true ↔ Text.lastLine t.text.toList = [] := by
  rw [Text.lastLine_eq_nil_iff, atLineStart]
  induction t.text.toList using List.reverseRecOn with
  | nil => simp
  | append_singleton cs c => simp

/-! ## Runs -/

inductive Action where
  | print (piece : String)
  | clear
deriving DecidableEq

def Action.piece : Action → String
  | .print piece => piece
  | .clear => ""

/-- What becomes of a text that is kept whole. -/
def Action.kept (text : String) : Action → String
  | .print piece => text ++ piece
  | .clear => ""

def perform (t : Terminal) : Action → Terminal
  | .print piece => t.print piece
  | .clear => t.clear

def performAll (actions : List Action) (t : Terminal) : Terminal := actions.foldl perform t

/-- A capturing terminal, and an echoing one that keeps the last line of its text. -/
structure Alike (c e : Terminal) : Prop where
  captures : c.echo = false
  echoes : e.echo = true
  kept : e.text.toList = Text.lastLine c.text.toList

theorem alike_start : Alike capturing echoing := ⟨rfl, rfl, rfl⟩

theorem Alike.print (h : Alike c e) (piece : String) : Alike (c.print piece) (e.print piece) where
  captures := (echo_print c piece).trans h.captures
  echoes := (echo_print e piece).trans h.echoes
  kept := by
    rw [print_of_not_echo h.captures, print_of_echo h.echoes]
    dsimp only
    rw [String.toList_append, Text.lastLine_append]
    split_ifs
    · exact String.toList_ofList
    · rw [String.toList_append, h.kept]

theorem Alike.clear (h : Alike c e) : Alike c.clear e.clear := ⟨h.captures, h.echoes, rfl⟩

theorem Alike.perform (h : Alike c e) (a : Action) : Alike (c.perform a) (e.perform a) := by
  cases a with
  | print piece => exact h.print piece
  | clear => exact h.clear

theorem alike_performAll (h : Alike c e) (actions : List Action) :
    Alike (performAll actions c) (performAll actions e) := by
  induction actions generalizing c e with
  | nil => exact h
  | cons a actions ih => exact ih (h.perform a)

theorem Alike.atLineStart_eq (h : Alike c e) : e.atLineStart = c.atLineStart := by
  rw [Bool.eq_iff_iff, atLineStart_iff, atLineStart_iff, h.kept,
    Text.lastLine_of_not_mem (Text.newline_not_mem_lastLine _)]

/-- A line of its own is the same piece for both. -/
theorem Alike.printLine (h : Alike c e) (line : String) :
    ∃ piece, c.printLine line = c.print piece ∧ e.printLine line = e.print piece :=
  ⟨_, printLine_eq c line, h.atLineStart_eq ▸ printLine_eq e line⟩

theorem text_performAll (h : t.echo = false) (actions : List Action) :
    (performAll actions t).text = actions.foldl Action.kept t.text := by
  induction actions generalizing t with
  | nil => rfl
  | cons a actions ih =>
    cases a with
    | print piece =>
      show (performAll actions (t.print piece)).text = actions.foldl Action.kept (t.text ++ piece)
      rw [ih ((echo_print t piece).trans h), print_of_not_echo h]
    | clear => exact ih (t := t.clear) h

theorem sent_performAll (h : t.echo = true) (actions : List Action) :
    (performAll actions t).sent = t.sent ++ String.join (actions.map Action.piece) := by
  induction actions generalizing t with
  | nil => simp [performAll]
  | cons a actions ih =>
    rw [List.map_cons, String.join_cons, ← String.append_assoc]
    cases a with
    | print piece =>
      show (performAll actions (t.print piece)).sent = _
      rw [ih ((echo_print t piece).trans h), print_of_echo h]
      rfl
    | clear =>
      show (performAll actions t.clear).sent = _
      rw [ih (t := t.clear) h, Action.piece, String.append_empty]
      rfl

/-- What holds of a capturing terminal and an echoing one on which the same was done. -/
structure Agreeing (actions : List Action) (c e : Terminal) : Prop where
  /-- The one keeps all that was printed since the last clearing, and the other has sent on all that was printed. -/
  captured : c.text = actions.foldl Action.kept ""
  sent : e.sent = String.join (actions.map Action.piece)
  /-- What the other keeps is the part behind the last newline. -/
  unfinished : e.text.toList = Text.lastLine c.text.toList
  atLineStart : e.atLineStart = c.atLineStart
  atLineStart_iff : c.atLineStart = true ↔ c.text = "" ∨ c.text.toList.getLast? = some '\n'
  /-- The lines make up the text but for one newline at its end, and have none in them. -/
  joined : ("\n".intercalate c.lines).toList = Text.withoutNewline c.text.toList
  lines : ∀ line ∈ c.lines, '\n' ∉ line.toList
  /-- A line of its own is the same piece for both. -/
  printLine : ∀ line, ∃ piece, c.printLine line = c.print piece ∧ e.printLine line = e.print piece

end Terminal

/-- Whatever is printed and cleared, a capturing and an echoing terminal agree: the echoing one keeps what the capturing
one has behind its last newline, both know whether a line starts, and the lines of the capturing one make up its text. -/
theorem terminals_agree (actions : List Terminal.Action) :
    Terminal.Agreeing actions (.performAll actions .capturing) (.performAll actions .echoing) := by
  have halike := Terminal.alike_performAll Terminal.alike_start actions
  exact {
    captured := Terminal.text_performAll rfl actions
    sent := (Terminal.sent_performAll rfl actions).trans String.empty_append
    unfinished := halike.kept
    atLineStart := halike.atLineStart_eq
    atLineStart_iff := by
      rw [Terminal.atLineStart_iff, Text.lastLine_eq_nil_iff, String.toList_eq_nil_iff]
    joined := Text.intercalate_lines _
    lines := Text.newline_not_mem_lines _
    printLine := halike.printLine }

example : (Terminal.performAll [.print "a\nb", .clear, .print "\n\nc", .print "", .print "d"] .echoing).text = "cd" := by
  decide

end BoxedScheme
