import BoxedScheme.Proofs.Places
import BoxedScheme.Viewer.Highlight

/-!
# Highlighted lines

A line is cut by byte offsets, found by walking over an array of its characters. All of these offsets fall between
characters, so that the pieces are those of a walk over the text itself, and none of the text is lost. On a line that
the scanner splits into tokens the pieces are the tokens, with the blanks and the comment between them.

* `Highlight.bodyLength`, `Highlight.pieces` : how far a piece goes, and the pieces of a text;
* `MarkedLine.closingQuote_eq`, `MarkedLine.atomEnd_eq` : where the walks over the array end;
* `MarkedLine.pieces?_eq` : the line is cut into the pieces of its text;
* `Highlight.drop_bodyLength`, `Highlight.tokenSpans_separates` : a token goes as far as its piece, and what stands before
  it shows no token;
* `Highlight.tokenSpans_scanAll`, `highlight_spans` : the tokens of a line and its spans.
-/

namespace BoxedScheme

namespace Highlight

variable {c : Char} {cs : List Char}

/-! ## The pieces of a text -/

/-- How far a string goes behind its opening quote: through the closing one, or to the end. -/
def stringLength : List Char → Nat
  | [] => 0
  | '\\' :: _ :: cs => stringLength cs + 2
  | c :: cs => if c = '"' then 1 else stringLength cs + 1

/-- How far a piece goes behind its first character. -/
def bodyLength (c : Char) (cs : List Char) : Nat :=
  if c = ';' then cs.length
  else if c = '"' then stringLength cs
  else if isDelimiter c then 0
  else if c = '#' ∧ cs.head? = some '\\' ∧ 1 < cs.length then 2 + (atomOf (cs.drop 2)).length
  else (atomOf cs).length

def piecePaint (head : Bool) (c : Char) (text : List Char) : Paint :=
  if c = ';' then .comment
  else if c = '"' then .string
  else if isDelimiter c then delimiterPaint c
  else atomPaint head text

/-- The first piece of a text; `head` if an opening parenthesis or bracket stands right before it. -/
def firstPiece (head : Bool) (c : Char) (cs : List Char) : Piece :=
  let text := c :: cs.take (bodyLength c cs)
  ⟨piecePaint head c text, text⟩

def pieces (head : Bool) : List Char → List Piece
  | [] => []
  | c :: cs => firstPiece head c cs :: pieces (isOpening c) (cs.drop (bodyLength c cs))
termination_by cs => cs.length

theorem text_firstPiece_append (head : Bool) (c : Char) (cs : List Char) :
    (firstPiece head c cs).text ++ cs.drop (bodyLength c cs) = c :: cs :=
  congrArg (c :: ·) (List.take_append_drop ..)

theorem flatMap_text_pieces (head : Bool) (cs : List Char) : (pieces head cs).flatMap (·.text) = cs := by
  fun_induction pieces head cs with
  | case1 => rfl
  | case2 head c cs ih => rw [List.flatMap_cons, ih, text_firstPiece_append]

theorem text_ne_nil {head : Bool} {p : Piece} (hp : p ∈ pieces head cs) : p.text ≠ [] := by
  fun_induction pieces head cs with
  | case1 => cases hp
  | case2 head c cs ih =>
    rcases List.mem_cons.1 hp with rfl | hp
    · exact List.cons_ne_nil _ _
    · exact ih hp

/-! ### How far they go -/

theorem length_atomOf_le (cs : List Char) : (atomOf cs).length ≤ cs.length := (List.takeWhile_sublist _).length_le

theorem drop_atomOf (cs : List Char) : cs.drop (atomOf cs).length = afterAtom cs := by
  calc cs.drop (atomOf cs).length = (atomOf cs ++ afterAtom cs).drop (atomOf cs).length := by
        rw [atomOf_append_afterAtom]
    _ = afterAtom cs := List.drop_left

theorem stringLength_le (cs : List Char) : stringLength cs ≤ cs.length := by
  fun_induction stringLength cs <;> grind

theorem bodyLength_le (c : Char) (cs : List Char) : bodyLength c cs ≤ cs.length := by
  have hstring := stringLength_le cs
  have hatom := length_atomOf_le cs
  have hliteral := length_atomOf_le (cs.drop 2)
  rw [List.length_drop] at hliteral
  unfold bodyLength
  split_ifs <;> omega

/-- A parenthesis, a bracket, a quote or a blank is a piece of its own. -/
theorem bodyLength_of_isDelimiter (hcomment : c ≠ ';') (hquote : c ≠ '"') (hc : isDelimiter c = true) :
    bodyLength c cs = 0 := by
  rw [bodyLength, if_neg hcomment, if_neg hquote, if_pos hc]

theorem length_text_firstPiece (head : Bool) (c : Char) (cs : List Char) :
    (firstPiece head c cs).text.length = bodyLength c cs + 1 := by
  rw [firstPiece, List.length_cons, List.length_take, Nat.min_eq_left (bodyLength_le c cs)]

theorem isDelimiter_of_isOpening (h : isOpening c = true) : isDelimiter c = true := by
  rw [isOpening, Bool.or_eq_true, decide_eq_true_iff, decide_eq_true_iff] at h
  rcases h with rfl | rfl <;> rfl

end Highlight

/-! ## Walks over the characters of a line -/

theorem length_marksFrom (n : Nat) (cs : List Char) : (marksFrom n cs).length = cs.length := by
  induction cs generalizing n with
  | nil => rfl
  | cons c cs ih => rw [marksFrom, List.length_cons, ih, List.length_cons]

theorem marksFrom_append (n : Nat) (cs ds : List Char) :
    marksFrom n (cs ++ ds) = marksFrom n cs ++ marksFrom (n + Text.byteLength cs) ds := by
  induction cs generalizing n with
  | nil => rfl
  | cons c cs ih =>
    rw [List.cons_append, marksFrom, marksFrom, ih, Text.byteLength, Nat.add_assoc, List.cons_append]

namespace MarkedLine

variable {l : MarkedLine} {before cs : List Char} {c : Char}

theorem size_marks (l : MarkedLine) : l.marks.size = l.text.length := by
  rw [← Array.length_toList, l.marks_eq, length_marksFrom]

theorem getElem?_marks (htext : l.text = before ++ c :: cs) :
    l.marks[before.length]? = some ⟨Text.byteLength before, c⟩ := by
  have hlength : (marksFrom 0 before).length ≤ before.length := (length_marksFrom 0 before).le
  rw [← Array.getElem?_toList, l.marks_eq, htext, marksFrom_append, List.getElem?_append_right hlength, length_marksFrom,
    Nat.sub_self, Nat.zero_add]
  rfl

theorem offset_eq (htext : l.text = before ++ cs) : l.offset before.length = Text.byteLength before := by
  unfold offset
  cases cs with
  | nil =>
    rw [List.append_nil] at htext
    rw [Array.getElem?_eq_none (by rw [size_marks, htext]), htext]
    rfl
  | cons c cs =>
    rw [getElem?_marks htext]
    rfl

theorem closingQuote_cons (htext : l.text = before ++ c :: cs) :
    l.closingQuote before.length =
      if c = '"' then before.length
      else if c = '\\' then l.closingQuote (before.length + 2)
      else l.closingQuote (before.length + 1) := by
  obtain ⟨hlt, hmark⟩ := Array.getElem?_eq_some_iff.1 (getElem?_marks htext)
  rw [closingQuote, dif_pos hlt, hmark]

theorem closingQuote_of_le {i : Nat} (hi : l.text.length ≤ i) : l.closingQuote i = i := by
  rw [closingQuote, dif_neg (by rw [size_marks]; omega)]

/-- Behind a closing quote or at the end, the walk has passed the string; the bound takes back what it went too far. -/
theorem closingQuote_eq (htext : l.text = before ++ cs) :
    min (l.closingQuote before.length + 1) l.marks.size = before.length + Highlight.stringLength cs := by
  have hsize : l.marks.size = before.length + cs.length := by rw [size_marks, htext, List.length_append]
  fun_induction Highlight.stringLength cs generalizing before with
  | case1 =>
    rw [closingQuote_of_le (by rw [htext, List.append_nil]), hsize, List.length_nil]
    omega
  | case2 d cs ih =>
    have htext' : l.text = (before ++ ['\\', d]) ++ cs := by rw [htext, List.append_assoc]; rfl
    have hrest := ih htext' (by rw [size_marks, htext', List.length_append])
    rw [List.length_append] at hrest
    rw [closingQuote_cons htext, if_neg (by decide), if_pos rfl]
    exact hrest.trans (by rw [Nat.add_assoc, Nat.add_comm _ 2]; rfl)
  | case3 cs =>
    rw [closingQuote_cons htext, if_pos rfl, hsize, List.length_cons]
    omega
  | case4 d cs hescape hquote ih =>
    rw [closingQuote_cons htext, if_neg hquote]
    by_cases hbackslash : d = '\\'
    · -- nothing follows the backslash, or it would have been an escape
      have hnil : cs = [] := by
        cases cs with
        | nil => rfl
        | cons e cs => exact absurd rfl (hescape e cs hbackslash)
      subst hnil
      rw [if_pos hbackslash, closingQuote_of_le (by rw [htext]; simp), hsize]
      simp [Highlight.stringLength]
    · have htext' : l.text = (before ++ [d]) ++ cs := by rw [htext, List.append_assoc]; rfl
      have hrest := ih htext' (by rw [size_marks, htext', List.length_append])
      rw [List.length_append] at hrest
      rw [if_neg hbackslash]
      exact hrest.trans (by rw [Nat.add_assoc, Nat.add_comm _ 1]; rfl)

theorem atomEnd_eq (htext : l.text = before ++ cs) : l.atomEnd before.length = before.length + (atomOf cs).length := by
  induction cs generalizing before with
  | nil =>
    rw [atomEnd, dif_neg (by rw [size_marks, htext, List.append_nil]; omega)]
    rfl
  | cons c cs ih =>
    obtain ⟨hlt, hmark⟩ := Array.getElem?_eq_some_iff.1 (getElem?_marks htext)
    have hrest := ih (htext.trans (List.append_cons ..))
    rw [List.length_append, List.length_singleton] at hrest
    rw [atomEnd, dif_pos hlt, hmark]
    cases hc : isDelimiter c with
    | true =>
      rw [if_pos rfl, atomOf, List.takeWhile_cons_of_neg (by simp [hc])]
      rfl
    | false =>
      have hatom : atomOf (c :: cs) = c :: atomOf cs := List.takeWhile_cons_of_pos (by simp [hc])
      rw [if_neg Bool.false_ne_true, hatom, List.length_cons, hrest]
      omega

/-! ## The pieces of a line -/

theorem pieces?_of_le {i : Nat} (hi : l.text.length ≤ i) (head : Bool) : l.pieces? head i = some [] := by
  rw [pieces?, dif_neg (by rw [size_marks]; omega)]

/-- Cut at the offsets of both its ends, a stretch is put in front. -/
theorem cut_eq {text rest : List Char} (htext : l.text = before ++ (text ++ rest)) (paint : List Char → Paint)
    (others : List Piece) :
    l.cut paint (Text.byteLength before) (Text.byteLength (before ++ text)) (some others) =
      some (⟨paint text, text⟩ :: others) := by
  rw [cut, htext, Text.byteLength_append, Text.slice?_append]
  rfl

/-- The end of a piece, as an offset. -/
theorem offset_piece (htext : l.text = before ++ c :: cs) {n : Nat} (hn : n ≤ cs.length) :
    l.offset (before.length + (n + 1)) = Text.byteLength (before ++ c :: cs.take n) := by
  have hsplit : l.text = (before ++ c :: cs.take n) ++ cs.drop n := by
    rw [htext, List.append_assoc, List.cons_append, List.take_append_drop]
  have hoffset := offset_eq hsplit
  rwa [List.length_append, List.length_cons, List.length_take, Nat.min_eq_left hn] at hoffset

/-- The end of a string, as an index. -/
theorem closingQuote_piece (htext : l.text = before ++ c :: cs) :
    min (l.closingQuote (before.length + 1) + 1) l.marks.size =
      before.length + (Highlight.stringLength cs + 1) := by
  have hstop := closingQuote_eq (htext.trans (List.append_cons ..))
  rw [List.length_append, List.length_singleton] at hstop
  rw [hstop]
  omega

/-- The end of an atom, as an index. -/
theorem atomEnd_piece (htext : l.text = before ++ c :: cs) (hcomment : c ≠ ';') (hquote : c ≠ '"')
    (hc : ¬ isDelimiter c = true) :
    l.atomEnd (l.atomStart before.length (c :: cs)) = before.length + (Highlight.bodyLength c cs + 1) := by
  have hsize : l.marks.size = before.length + (cs.length + 1) := by
    rw [size_marks, htext, List.length_append, List.length_cons]
  unfold Highlight.bodyLength atomStart
  rw [if_neg hcomment, if_neg hquote, if_neg hc]
  by_cases hliteral : c = '#' ∧ cs.head? = some '\\' ∧ 1 < cs.length
  · obtain ⟨rfl, hhead, hlength⟩ := hliteral
    obtain ⟨d, ds, rfl⟩ : ∃ d ds, cs = '\\' :: d :: ds := by
      rcases cs with - | ⟨e, - | ⟨d, ds⟩⟩
      · cases hhead
      · simp at hlength
      · cases hhead
        exact ⟨d, ds, rfl⟩
    have hend := atomEnd_eq (htext.trans (List.append_assoc before ['#', '\\', d] ds).symm)
    rw [List.length_append] at hend
    rw [if_pos ⟨rfl, by rw [hsize]; simp⟩, if_pos ⟨rfl, hhead, hlength⟩]
    refine hend.trans ?_
    show before.length + 3 + (atomOf ds).length = before.length + (2 + (atomOf ds).length + 1)
    omega
  · have hend := atomEnd_eq (htext.trans (List.append_cons ..))
    rw [List.length_append, List.length_singleton] at hend
    rw [if_neg hliteral, if_neg, hend]
    · omega
    · rintro ⟨hstarts, hlt⟩
      refine hliteral ?_
      obtain ⟨ds, hds⟩ := List.isPrefixOf_iff_prefix.1 hstarts
      cases hds
      exact ⟨rfl, rfl, by omega⟩

/-- One piece: it is cut at its own offsets, and the others follow at its end. -/
theorem pieces?_cons (htext : l.text = before ++ c :: cs) (head : Bool) :
    l.pieces? head before.length =
      l.cut (Highlight.piecePaint head c) (Text.byteLength before)
        (Text.byteLength (before ++ (Highlight.firstPiece head c cs).text))
        (l.pieces? (Highlight.isOpening c) (before.length + (Highlight.bodyLength c cs + 1))) := by
  obtain ⟨hlt, hmark⟩ := Array.getElem?_eq_some_iff.1 (getElem?_marks htext)
  have hlength : l.text.length = before.length + (cs.length + 1) := by
    rw [htext, List.length_append, List.length_cons]
  have hoffset := offset_piece htext (Highlight.bodyLength_le c cs)
  rw [pieces?, dif_pos hlt, Highlight.firstPiece]
  dsimp only
  rw [hmark]
  dsimp only
  -- the cases are those of the definition: a comment, a string, another delimiter, an atom
  by_cases hcomment : c = ';'
  · have hbody : Highlight.bodyLength c cs = cs.length := if_pos hcomment
    have hpaint : Highlight.piecePaint head c = fun _ => .comment := funext fun _ => if_pos hcomment
    rw [if_pos hcomment, hpaint, hbody, List.take_length, ← htext, pieces?_of_le hlength.le]
  by_cases hquote : c = '"'
  · have hbody : Highlight.bodyLength c cs = Highlight.stringLength cs := by
      rw [Highlight.bodyLength, if_neg hcomment, if_pos hquote]
    have hpaint : Highlight.piecePaint head c = fun _ => .string := by
      funext text
      rw [Highlight.piecePaint, if_neg hcomment, if_pos hquote]
    have hopening : Highlight.isOpening c = false := by rw [hquote]; rfl
    rw [hbody] at hoffset ⊢
    rw [if_neg hcomment, if_pos hquote, closingQuote_piece htext, hoffset, hpaint, hopening]
  by_cases hc : isDelimiter c = true
  · have hbody : Highlight.bodyLength c cs = 0 := Highlight.bodyLength_of_isDelimiter hcomment hquote hc
    have hpaint : Highlight.piecePaint head c = fun _ => Highlight.delimiterPaint c := by
      funext text
      rw [Highlight.piecePaint, if_neg hcomment, if_neg hquote, if_pos hc]
    rw [if_neg hcomment, if_neg hquote, if_pos hc, hpaint, hbody, List.take_zero, Text.byteLength_append]
    rfl
  · have hpaint : Highlight.piecePaint head c = Highlight.atomPaint head := by
      funext text
      rw [Highlight.piecePaint, if_neg hcomment, if_neg hquote, if_neg hc]
    have hopening : Highlight.isOpening c = false :=
      Bool.eq_false_iff.2 fun hopen => hc (Highlight.isDelimiter_of_isOpening hopen)
    have hrest : Text.slice? (Text.byteLength before) (Text.byteLength l.text) l.text = some (c :: cs) := by
      have hslice := Text.slice?_append before (c :: cs) []
      rwa [List.append_nil, ← htext, ← Text.byteLength_append, ← htext] at hslice
    rw [if_neg hcomment, if_neg hquote, if_neg hc, hrest]
    show l.cut _ _ (l.offset (l.atomEnd (l.atomStart before.length (c :: cs)))) _ = _
    rw [atomEnd_piece htext hcomment hquote hc, hoffset, hpaint, hopening]

/-- No offset falls nowhere: a line is cut into the pieces of its text. -/
theorem pieces?_eq (htext : l.text = before ++ cs) (head : Bool) :
    l.pieces? head before.length = some (Highlight.pieces head cs) := by
  fun_induction Highlight.pieces head cs generalizing before with
  | case1 head => exact pieces?_of_le (by rw [htext, List.append_nil]) head
  | case2 head c cs ih =>
    have hsplit := htext.trans (congrArg (before ++ ·) (Highlight.text_firstPiece_append head c cs).symm)
    have hothers := ih (hsplit.trans (List.append_assoc ..).symm)
    rw [List.length_append, Highlight.length_text_firstPiece] at hothers
    rw [pieces?_cons htext, hothers, cut_eq hsplit]
    rfl

end MarkedLine

/-! ## Tokens -/

namespace Highlight

variable {start loc : Location} {c : Char} {cs read gap rest : List Char} {t : Token} {next : Cursor}

theorem drop_stringLength (hs : scanString start loc read cs = .ok (t, next)) :
    next.rest = cs.drop (stringLength cs) := by
  fun_induction scanString start loc read cs with
  | case1 => cases hs
  | case2 loc read cs =>
    cases hs
    rfl
  | case3 => cases hs
  | case4 loc read c cs loc' d _ ih => exact ih hs
  | case5 loc read c cs loc' _ ih => exact ih hs
  | case6 => cases hs
  | case7 loc read c cs hquote hlast hescape ih =>
    rw [ih hs, stringLength, if_neg hquote, List.drop_succ_cons]
    exact hescape

/-- A token goes as far as the piece with the same first character. -/
theorem drop_bodyLength (hs : scanToken loc c cs = .ok (t, next)) (hspace : Text.isSpace c = false)
    (hcomment : c ≠ ';') : next.rest = cs.drop (bodyLength c cs) := by
  have hone (hc : isDelimiter c = true) (hquote : c ≠ '"') : cs = cs.drop (bodyLength c cs) := by
    rw [bodyLength_of_isDelimiter hcomment hquote hc, List.drop_zero]
  unfold scanToken at hs
  dsimp only at hs
  split_ifs at hs with hleft hright hmark hstring hquasi hchar
  · cases hs
    rcases hleft with rfl | rfl <;> exact hone rfl (by decide)
  · cases hs
    rcases hright with rfl | rfl <;> exact hone rfl (by decide)
  · cases hs
    exact hone (by rw [hmark]; rfl) (by rw [hmark]; decide)
  · rw [drop_stringLength hs, bodyLength, if_neg hcomment, if_pos hstring]
  · -- the scanner has read a character, so there was one behind the backslash
    obtain ⟨d, ds, e, htail, hrest, -⟩ := scanChar_lexeme hs
    obtain ⟨rfl, hhead⟩ := hchar
    obtain rfl : cs = '\\' :: d :: ds := by rw [List.eq_cons_of_mem_head? hhead, htail]
    have hbody : bodyLength '#' ('\\' :: d :: ds) = (atomOf ds).length + 2 := by
      rw [bodyLength, if_neg (by decide), if_neg (by decide), if_neg (by decide), if_pos ⟨rfl, rfl, by simp⟩]
      exact Nat.add_comm ..
    rw [hbody, List.drop_succ_cons, List.drop_succ_cons, drop_atomOf, hrest]
  · have hplain : ¬ isDelimiter c = true := by
      simp_all [isDelimiter]
    have hbody : bodyLength c cs = (atomOf cs).length := by
      rw [bodyLength, if_neg hcomment, if_neg hstring, if_neg hplain, if_neg fun h => hchar ⟨h.1, h.2.1⟩]
    rw [hbody, drop_atomOf]
    split at hs
    · cases hs
      rfl
    · cases hs

/-! ## Spans with their places -/

/-- Blanks, or a comment to the end of the line. -/
def isGap (s : Span) : Bool := s.text.toList.all Text.isSpace || s.text.toList.head? = some ';'

/-- The spans that are neither blank nor a comment, each behind the number of characters before it; `n` characters stand
before them all. -/
def tokenSpans (n : Nat) : Line → List (Nat × Span)
  | [] => []
  | s :: line =>
    if isGap s then tokenSpans (n + s.text.length) line else (n, s) :: tokenSpans (n + s.text.length) line

/-- The token is written in the span, and reported at its first character in the first line. -/
structure Shows (placed : Nat × Span) (x : Lexeme) : Prop where
  location : x.location = ⟨1, placed.1 + 1⟩
  scans : Scans placed.2.text.toList [x.token]
  real : x.token ≠ .endOfFile

theorem length_text_span (p : Piece) : p.span.text.length = p.text.length := String.length_ofList

theorem tokenSpans_gap {n : Nat} {head : Bool} (hgap : isGap (firstPiece head c cs).span = true) :
    tokenSpans n ((pieces head (c :: cs)).map Piece.span) =
      tokenSpans (n + (bodyLength c cs + 1)) ((pieces (isOpening c) (cs.drop (bodyLength c cs))).map Piece.span) := by
  rw [pieces, List.map_cons, tokenSpans, if_pos hgap, length_text_span, length_text_firstPiece]

theorem tokenSpans_token {n : Nat} {head : Bool} (hspace : Text.isSpace c = false) (hcomment : c ≠ ';') :
    tokenSpans n ((pieces head (c :: cs)).map Piece.span) =
      (n, (firstPiece head c cs).span) ::
        tokenSpans (n + (bodyLength c cs + 1)) ((pieces (isOpening c) (cs.drop (bodyLength c cs))).map Piece.span) := by
  have hgap : isGap (firstPiece head c cs).span = false := by
    simp [isGap, Piece.span, firstPiece, hspace, hcomment]
  rw [pieces, List.map_cons, tokenSpans, if_neg (by rw [hgap]; decide), length_text_span, length_text_firstPiece]

/-- What stands between two tokens of a line shows no token. -/
theorem tokenSpans_separates (hsep : Separates rest gap) (hline : '\n' ∉ gap) (hblock : ¬ ['#', '|'] <:+: gap) (n : Nat)
    (head : Bool) :
    ∃ head', tokenSpans n ((pieces head (gap ++ rest)).map Piece.span) =
      tokenSpans (n + gap.length) ((pieces head' rest).map Piece.span) := by
  induction hsep generalizing n head with
  | nil => exact ⟨head, rfl⟩
  | @space c cs hc _ ih =>
    have hcomment : c ≠ ';' := by
      rintro rfl
      cases hc
    have hquote : c ≠ '"' := by
      rintro rfl
      cases hc
    have hbody : bodyLength c (cs ++ rest) = 0 :=
      bodyLength_of_isDelimiter hcomment hquote (by simp [isDelimiter, hc])
    have hgap : isGap (firstPiece head c (cs ++ rest)).span = true := by
      simp [isGap, Piece.span, firstPiece, hbody, hc]
    obtain ⟨head', hcs⟩ := ih (fun h => hline (List.mem_cons_of_mem c h))
      (fun h => hblock (h.trans (List.infix_cons (List.infix_refl cs)))) (n + 1) (isOpening c)
    refine ⟨head', ?_⟩
    rw [List.cons_append, tokenSpans_gap hgap, hbody, List.drop_zero, hcs, List.length_cons, Nat.add_assoc,
      Nat.add_comm 1]
  | @line body cs _ _ _ => exact absurd (by simp) hline
  | @lastLine body hrest _ =>
    subst hrest
    have hbody : bodyLength ';' body = body.length := if_pos rfl
    have hgap : isGap (firstPiece head ';' body).span = true := by
      simp [isGap, Piece.span, firstPiece]
    refine ⟨false, ?_⟩
    rw [List.append_nil, tokenSpans_gap hgap, hbody, List.drop_length, pieces, pieces]
    rfl
  | @block body cs _ _ _ => exact absurd ⟨[], body ++ cs, rfl⟩ hblock

end Highlight

/-- On the first line, each character is one column further. -/
theorem Location.afterAll_of_not_mem {cs : List Char} (hcs : '\n' ∉ cs) (n : Nat) :
    Location.afterAll ⟨1, n + 1⟩ cs = ⟨1, n + cs.length + 1⟩ := by
  induction cs generalizing n with
  | nil => rfl
  | cons c cs ih =>
    rw [List.mem_cons, not_or] at hcs
    have hafter : Location.after ⟨1, n + 1⟩ c = ⟨1, n + 1 + 1⟩ := if_neg (Ne.symm hcs.1)
    show (Location.after ⟨1, n + 1⟩ c).afterAll cs = _
    rw [hafter, ih hcs.2, List.length_cons, Nat.add_assoc n 1, Nat.add_comm 1]

namespace Highlight

/-- The induction is on the scan: each round skips a gap, which shows no token, and takes a token, which is the piece
that starts there. -/
theorem tokenSpans_scanAll {found lexemes : Array Lexeme} {loc : Location} {cs : List Char} {n : Nat}
    (hs : scanAll found loc cs = .ok lexemes) (hline : '\n' ∉ cs) (hblock : ¬ ['#', '|'] <:+: cs)
    (hloc : loc = ⟨1, n + 1⟩) (head : Bool) :
    ∃ more last, lexemes.toList = found.toList ++ more ++ [⟨.endOfFile, last⟩] ∧
      List.Forall₂ Shows (tokenSpans n ((pieces head cs).map Piece.span)) more := by
  fun_induction scanAll found loc cs generalizing n head with
  | case1 => cases hs
  | case2 found loc cs loc' hskip =>
    cases hs
    obtain ⟨gap, hcs, -, hsep⟩ := skipBlank_completes hskip
    dsimp only at hcs hsep
    subst hcs
    rw [List.append_nil] at hline hblock
    obtain ⟨head', hspans⟩ := tokenSpans_separates hsep hline hblock n head
    refine ⟨[], loc', ?_, ?_⟩
    · rw [List.append_nil, Array.toList_push]
    · rw [hspans, pieces]
      exact .nil
  | case3 => cases hs
  | case4 found loc cs loc' c rest hskip token next ht ih =>
    obtain ⟨gap, hcs, hgap, hsep⟩ := skipBlank_completes hskip
    obtain ⟨hspace, hcomment, hhash⟩ := skipBlank_stops hskip
    obtain ⟨taken, hrest, hspelt⟩ := scanToken_lexeme ht hspace hcomment hhash
    have hdrop := drop_bodyLength ht hspace hcomment
    dsimp only at hcs hgap hsep
    -- both cut off the same rest, and so the same lexeme
    have htaken : taken = rest.take (bodyLength c rest) := by
      have hsplit : taken ++ next.rest = rest.take (bodyLength c rest) ++ next.rest := by
        rw [← hrest, hdrop, List.take_append_drop]
      exact List.append_cancel_right hsplit
    have hparts : cs = gap ++ ((c :: taken) ++ next.rest) := by rw [hcs, List.cons_append, ← hrest]
    rw [hparts] at hline hblock
    simp only [List.mem_append, not_or] at hline
    have hlocation : loc' = ⟨1, n + gap.length + 1⟩ := by
      rw [hgap, hloc, Location.afterAll_of_not_mem hline.1]
    have hnext : next.location = ⟨1, n + gap.length + (bodyLength c rest + 1) + 1⟩ := by
      obtain ⟨read, hread, hbehind⟩ := behind_scanToken ht
      rw [hrest, ← List.cons_append] at hread
      obtain rfl := List.append_cancel_right hread
      rw [hbehind, hlocation, Location.afterAll_of_not_mem hline.2.1, htaken, List.length_cons, List.length_take,
        Nat.min_eq_left (bodyLength_le c rest)]
    obtain ⟨head', hspans⟩ :=
      tokenSpans_separates hsep hline.1 (fun h => hblock (h.trans (List.prefix_append ..).isInfix)) n head
    have hsuffix : next.rest <:+ gap ++ ((c :: taken) ++ next.rest) :=
      (List.suffix_append (c :: taken) next.rest).trans (List.suffix_append gap _)
    obtain ⟨more, last, hlexemes, hshows⟩ :=
      ih hs hline.2.2 (fun h => hblock (h.trans hsuffix.isInfix)) hnext (isOpening c)
    refine ⟨⟨token, loc'⟩ :: more, last, ?_, ?_⟩
    · rw [hlexemes]
      simp
    · rw [hcs, hspans, tokenSpans_token hspace hcomment, ← hdrop]
      refine .cons ⟨hlocation, ?_, hspelt.real⟩ hshows
      have htext : (firstPiece head' c rest).span.text.toList = c :: taken := by
        rw [htaken]
        exact String.toList_ofList
      rw [htext]
      exact hspelt.scans

end Highlight

open Highlight (spans tokenSpans Shows)

theorem MarkedLine.pieces?_ofText (text : List Char) :
    (ofText text).pieces? false 0 = some (Highlight.pieces false text) := by
  have htext : (ofText text).text = [] ++ text := rfl
  exact pieces?_eq htext false

theorem Highlight.spans_eq (line : String) : spans line = (pieces false line.toList).map Piece.span := by
  rw [spans, MarkedLine.pieces?_ofText, Option.getD_some]

/-- A line is cut into spans at offsets that fall between its characters, none of the spans is empty, and together they
are the line. If the line splits into tokens and has no block comment, the spans that are neither blank nor a comment are
the tokens before the end of the file, in order, each of them at the column of its token. -/
theorem highlight_spans (line : String) :
    ((MarkedLine.ofText line.toList).pieces? false 0).isSome ∧
    String.join ((spans line).map (·.text)) = line ∧
    (∀ s ∈ spans line, s.text ≠ "") ∧
    ('\n' ∉ line.toList → ¬ ['#', '|'] <:+: line.toList → ∀ lexemes, tokenize line = .ok lexemes →
      ∃ tokens last, lexemes.toList = tokens ++ [⟨.endOfFile, last⟩] ∧
        List.Forall₂ Shows (tokenSpans 0 (spans line)) tokens) := by
  rw [Highlight.spans_eq]
  refine ⟨?_, ?_, ?_, ?_⟩
  · rw [MarkedLine.pieces?_ofText]
    rfl
  · apply String.toList_injective
    rw [String.toList_join, List.map_map, List.flatMap_map]
    simp only [Function.comp_apply, Piece.span, String.toList_ofList]
    exact Highlight.flatMap_text_pieces false line.toList
  · intro s hs
    obtain ⟨p, hp, rfl⟩ := List.mem_map.1 hs
    intro hempty
    refine Highlight.text_ne_nil hp ?_
    rw [← String.toList_ofList (l := p.text)]
    exact congrArg String.toList hempty
  · intro hline hblock lexemes hs
    exact Highlight.tokenSpans_scanAll hs hline hblock rfl false

/-- A string with a quote and a semicolon in it, a quoted parenthesis that is a character, and a comment. -/
def trickyLine : String := "(f \"; \\\" é\" '#\\() ; é"

/-- The first six lexemes are the spans of the line that are neither blank nor its comment. -/
theorem highlight_spans_trickyLine :
    '\n' ∉ trickyLine.toList ∧ ¬ ['#', '|'] <:+: trickyLine.toList ∧
    List.Forall₂ Shows (tokenSpans 0 (spans trickyLine))
      [⟨.leftParen, ⟨1, 1⟩⟩, ⟨.symbol "f", ⟨1, 2⟩⟩, ⟨.string "; \" é", ⟨1, 4⟩⟩, ⟨.quote, ⟨1, 13⟩⟩,
        ⟨.char '(', ⟨1, 14⟩⟩, ⟨.rightParen, ⟨1, 17⟩⟩] := by
  have hline : '\n' ∉ trickyLine.toList := by decide +kernel
  have hblock : ¬ ['#', '|'] <:+: trickyLine.toList := by decide +kernel
  have hsplits : tokenize trickyLine = .ok
      #[⟨.leftParen, ⟨1, 1⟩⟩, ⟨.symbol "f", ⟨1, 2⟩⟩, ⟨.string "; \" é", ⟨1, 4⟩⟩, ⟨.quote, ⟨1, 13⟩⟩,
        ⟨.char '(', ⟨1, 14⟩⟩, ⟨.rightParen, ⟨1, 17⟩⟩, ⟨.endOfFile, ⟨1, 22⟩⟩] := by
    decide +kernel
  obtain ⟨tokens, last, hlexemes, hshows⟩ := (highlight_spans trickyLine).2.2.2 hline hblock _ hsplits
  have htokens := congrArg List.dropLast hlexemes
  rw [List.dropLast_concat] at htokens
  rw [← htokens] at hshows
  exact ⟨hline, hblock, hshows⟩

end BoxedScheme
