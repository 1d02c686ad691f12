import BoxedScheme.Proofs.Discipline

/-!
# Disciplined evaluation

Under a discipline the supervised evaluator does what the evaluator does. Here this is shown of special forms and of
texts, given that it holds of nested evaluations. Nothing depends on what the discipline is.

* `Evaluating D ev supervised` : nested evaluations go on as supervised;
* `tracks_evalForm` : special forms;
* `Reader.Terminated` : there is a token left as long as a text is read;
* `tracks_runText`, `tracks_load` : texts and files.
-/

namespace BoxedScheme

open Supervised (Halt Run check act plain embed)

/-! ## Special forms -/

/-- Nested evaluations go on as supervised, and leave the roots as they were. -/
def Evaluating {P : Policy} {E : Moment → Prop} (D : Discipline P E) (ev : Evaluator)
    (supervised : Supervised.Evaluator) : Prop :=
  ∀ {hand : Hand} {expr env : Word} {g : D.Ghost} {m : Machine}, InHand D.toInvariant m.heap.roots.size hand g m →
    D.Fits g m .expr expr → D.Fits g m .env env →
    Tracks D m.heap.roots.size hand.lent g m (ev expr env m) (supervised hand expr env m) fun v g' m' =>
      D.Fits g' m' .data v ∧ m'.heap.roots = m.heap.roots

section Forms

variable {P : Policy} {E : Moment → Prop} {D : Discipline P E} {d : Nat} {hand more : Hand} {g : D.Ghost} {m : Machine}
  {ev : Evaluator} {supervised : Supervised.Evaluator} {expr env operands : Word} {args : List Word}

/-- A nested evaluation as seen by the one around it. -/
theorem Evaluating.tracks (hev : Evaluating D ev supervised) (hmore : InHand D.toInvariant m.heap.roots.size more g m)
    (hd : d ≤ m.heap.roots.size) (hlent : hand.lent ⊆ more.lent) (hexpr : D.Fits g m .expr expr)
    (henv : D.Fits g m .env env) :
    Tracks D d hand.lent g m (ev expr env m) (supervised more expr env m) fun v g' m' =>
      D.Next m.heap.roots.size more.lent g m g' m' ∧ D.Fits g' m' .data v ∧ m'.heap.roots = m.heap.roots :=
  (hev hmore hexpr henv).lower hd hlent

/-- The same, if all that is in hand is held below. -/
theorem Evaluating.tracks_inHand (hev : Evaluating D ev supervised) (hmore : InHand D.toInvariant d more g m)
    (hexpr : D.Fits g m .expr expr) (henv : D.Fits g m .env env) :
    Tracks D d more.lent g m (ev expr env m) (supervised more expr env m) fun v g' m' => D.Fits g' m' .data v :=
  (hev.tracks (hmore.raise hmore.depth (Nat.le_refl _)) hmore.depth (List.Subset.refl _) hexpr henv).imp
    fun _ _ _ hq => hq.2.1

theorem tracks_evalBranch (hr : InHand D.toInvariant d hand g m) (hev : Evaluating D ev supervised)
    (hargs : ∀ a ∈ args, D.Held d hand.lent g m .expr a) (henv : D.Held d hand.lent g m .env env) :
    Tracks D d hand.lent g m (evalBranch ev args env m) (Supervised.evalBranch supervised hand args env m)
      D.Yields := by
  match args with
  | [] | [_] | _ :: _ :: _ :: _ :: _ => exact tracks_raise hr
  | [test, consequent] =>
    simp only [List.forall_mem_cons] at hargs
    obtain ⟨htest, hcons, -⟩ := hargs
    have hnested := hev.tracks_inHand (hr.hold hcons trivial) htest.fits henv.fits
    refine hr.bind hnested fun v g' m' hr' hn _ => ?_
    by_cases hv : v.isTruthy
    · simp only [if_pos hv]
      exact .pure hr' ⟨(hcons.next hn trivial).fits, (henv.next hn trivial).fits⟩
    · simp only [if_neg hv]
      exact .pure hr' (D.immediate (by decide))
  | [test, consequent, alternative] =>
    simp only [List.forall_mem_cons] at hargs
    obtain ⟨htest, hcons, halt, -⟩ := hargs
    have hnested := hev.tracks_inHand ((hr.hold halt trivial).hold hcons trivial) htest.fits henv.fits
    refine hr.bind hnested fun v g' m' hr' hn _ => ?_
    by_cases hv : v.isTruthy
    · simp only [if_pos hv]
      exact .pure hr' ⟨(hcons.next hn trivial).fits, (henv.next hn trivial).fits⟩
    · simp only [if_neg hv]
      exact .pure hr' ⟨(halt.next hn trivial).fits, (henv.next hn trivial).fits⟩

theorem tracks_evalConjunction (hr : InHand D.toInvariant d hand g m) (hev : Evaluating D ev supervised)
    (hargs : ∀ a ∈ args, D.Held d hand.lent g m .expr a) (henv : D.Held d hand.lent g m .env env) :
    Tracks D d hand.lent g m (evalConjunction ev env args m) (Supervised.evalConjunction supervised hand env args m)
      D.Yields := by
  induction args generalizing g m with
  | nil => exact .pure hr (D.immediate (by decide))
  | cons test tests ih =>
    rw [List.forall_mem_cons] at hargs
    match tests with
    | [] => exact .pure hr ⟨hargs.1.fits, henv.fits⟩
    | other :: tests =>
      have hnested := hev.tracks_inHand (hr.holdAll hargs.2 trivial) hargs.1.fits henv.fits
      refine hr.bind hnested fun v g' m' hr' hn _ => ?_
      by_cases hv : v.isTruthy
      · simp only [if_pos hv]
        exact ih hr' (fun a ha => (hargs.2 a ha).next hn trivial) (henv.next hn trivial)
      · simp only [if_neg hv]
        exact .pure hr' (D.immediate (by decide))

theorem tracks_evalDisjunction (hr : InHand D.toInvariant d hand g m) (hev : Evaluating D ev supervised)
    (hargs : ∀ a ∈ args, D.Held d hand.lent g m .expr a) (henv : D.Held d hand.lent g m .env env) :
    Tracks D d hand.lent g m (evalDisjunction ev env args m) (Supervised.evalDisjunction supervised hand env args m)
      D.Yields := by
  induction args generalizing g m with
  | nil => exact .pure hr (D.immediate (by decide))
  | cons test tests ih =>
    rw [List.forall_mem_cons] at hargs
    match tests with
    | [] => exact .pure hr ⟨hargs.1.fits, henv.fits⟩
    | other :: tests =>
      have hnested := hev.tracks_inHand (hr.holdAll hargs.2 trivial) hargs.1.fits henv.fits
      refine hr.bind hnested fun v g' m' hr' hn hval => ?_
      by_cases hv : v.isTruthy
      · simp only [if_pos hv]
        exact .pure hr' hval
      · simp only [if_neg hv]
        exact ih hr' (fun a ha => (hargs.2 a ha).next hn trivial) (henv.next hn trivial)

theorem tracks_evalDefine (hr : InHand D.toInvariant d hand g m) (hev : Evaluating D ev supervised)
    (hop : D.Fits g m (.operands .headed) operands)
    (htarget : ∀ target ∈ args.head?, D.Held d hand.lent g m .inert target)
    (hargs : ∀ a ∈ args.tail, D.Held d hand.lent g m .expr a) (henv : D.Held d hand.lent g m .env env) :
    Tracks D d hand.lent g m (evalDefine ev args operands env m)
      (Supervised.evalDefine P supervised hand args operands env m) D.Yields := by
  cases args with
  | nil => exact tracks_raise hr
  | cons target more =>
    replace htarget := htarget target rfl
    have hr₀ := hr.hold htarget trivial
    unfold evalDefine Supervised.evalDefine
    by_cases hsym : target.isSymbol
    · simp only [if_pos hsym]
      rcases more with _ | ⟨expr, _ | ⟨_, _⟩⟩
      · exact tracks_raise hr
      · refine hr₀.bind (hev.tracks_inHand hr₀ (hargs expr List.mem_cons_self).fits henv.fits) ?_
        intro v g₁ m₁ hr₁ hn hv
        have hdefine := D.define hr₁.good (henv.next hn trivial).fits (htarget.next hn trivial).fits hv
        refine hr₁.bind (hdefine.act hr₁.good (hr₁.grips.hold hv)) fun _ g₂ m₂ hr₂ _ _ => ?_
        exact .pure hr₂ (D.immediate (by decide))
      · exact tracks_raise hr
    · simp only [if_neg hsym]
      by_cases hp : target.isPair
      · simp only [if_pos hp]
        have hdefine := D.defineProcedure hr.good htarget.fits hop henv.fits
        refine hr.bind (hdefine.act hr.good hr₀.grips) fun _ g₁ m₁ hr₁ _ _ => ?_
        exact .pure hr₁ (D.immediate (by decide))
      · simp only [if_neg hp]
        exact tracks_raise hr

theorem obeys_evalQuote {tail : Word} (hm : D.Good g m) (hop : D.Fits g m (.operands .datum) operands)
    (hl : m.heap.Lists operands args tail) : D.Obeys g m (evalQuote args m) D.Yields := by
  match args, hl with
  | [], _ | _ :: _ :: _, _ => exact ⟨g, .refl hm⟩
  | [_], .cons hp _ => exact ⟨g, .refl hm, (D.operands hm hop hp).1⟩

theorem tracks_evalForm {head : Word} {form : Form} (hr : InHand D.toInvariant d hand g m)
    (hev : Evaluating D ev supervised) (hform : Operation.formOf? head = some form)
    (hop : D.Held d hand.lent g m (.operands (.ofHead head)) operands) (henv : D.Held d hand.lent g m .env env) :
    Tracks D d hand.lent g m (evalForm ev form operands env m)
      (Supervised.evalForm P supervised hand form operands env m) D.Yields := by
  unfold evalForm Supervised.evalForm
  refine .check .look hr.good hr.grips trivial (.get_bind ?_)
  cases hitems : m.heap.listItems operands form.name with
  | error e => exact tracks_raise hr
  | ok items =>
    obtain ⟨tail, hl⟩ := Heap.listItems_lists hitems
    have hstep {x : Eval Step} (hx : D.Obeys g m (x m) D.Yields) :
        Tracks D d hand.lent g m (x m) (act P hand x m) D.Yields :=
      (hx.act hr.good hr.grips).imp fun _ _ _ hq => hq.2
    simp only [Shape.ofHead, hform] at hop
    cases form with
    | quote => exact hstep (obeys_evalQuote hr.good hop.fits hl)
    | branch => exact tracks_evalBranch hr hev (hop.exprs hr.good hl) henv
    | define =>
      dsimp only
      generalize items.toList = args at hl
      cases hl with
      | nil => exact tracks_raise hr
      | cons hp hl =>
        obtain ⟨htarget, hmore⟩ := hop.operands hr.good hp
        refine tracks_evalDefine hr hev hop.fits ?_ (hmore.exprs hr.good hl) henv
        rintro target ⟨⟩
        exact htarget
    | lambda => exact hstep (D.lambda hr.good hop.fits hl henv.fits)
    | bind => exact hstep (D.bind hr.good hop.fits hl henv.fits)
    | bindInOrder => exact hstep (D.bindInOrder hr.good hop.fits hl henv.fits)
    | conjunction => exact tracks_evalConjunction hr hev (hop.exprs hr.good hl) henv
    | disjunction => exact tracks_evalDisjunction hr hev (hop.exprs hr.good hl) henv

end Forms

/-! ## Texts -/

section Texts

variable {P : Policy} {E : Moment → Prop} {D : Discipline P E} {d : Nat} {hand : Hand} {g : D.Ghost} {m : Machine}
  {ev : Evaluator} {supervised : Supervised.Evaluator}

/-- The end of file is still ahead. -/
def Reader.Terminated (r : Reader) : Prop := ∃ lexeme ∈ r.pending, lexeme.token = .endOfFile

theorem Reader.Terminated.length_pos {r : Reader} (hr : r.Terminated) : 0 < r.pending.length := by
  obtain ⟨lexeme, hmem, -⟩ := hr
  exact List.length_pos_of_mem hmem

theorem endOfFile_mem_scanAll {found lexemes : Array Lexeme} {loc : Location} {cs : List Char}
    (h : scanAll found loc cs = .ok lexemes) : ∃ lexeme ∈ lexemes, lexeme.token = .endOfFile := by
  fun_induction scanAll found loc cs with
  | case1 => cases h
  | case2 found _ _ loc =>
    cases h
    exact ⟨⟨.endOfFile, loc⟩, Array.mem_push_self, rfl⟩
  | case3 => cases h
  | case4 _ _ _ _ _ _ _ _ _ _ ih => exact ih h

theorem Reader.terminated_ofSource {source : String} {r : Reader} (h : Reader.ofSource source = .ok r) :
    r.Terminated := by
  unfold Reader.ofSource at h
  cases htokens : tokenize source with
  | error e =>
    rw [htokens] at h
    cases h
  | ok lexemes =>
    rw [htokens] at h
    cases h
    obtain ⟨lexeme, hmem, hend⟩ := endOfFile_mem_scanAll htokens
    exact ⟨lexeme, Array.mem_toList_iff.2 hmem, hend⟩

/-- Nothing stays open at the end of file. -/
theorem Reader.shift_endOfFile {frames frames' : List Reader.Frame} {lexeme : Lexeme} {mem mem' : Memory}
    (hend : lexeme.token = .endOfFile) : Reader.shift frames lexeme mem ≠ .ok (.more frames') mem' := by
  unfold Reader.shift
  rw [hend]
  split
  · rintro ⟨⟩
  · match frames with
    | [] | .quote _ :: _ | .list _ _ :: _ | .dotted _ _ _ :: _ | .closing _ _ _ :: _ => rintro ⟨⟩

theorem Reader.endOfFile_mem_readTokens (frames : List Reader.Frame) {lexemes : List Lexeme} (mem : Memory)
    (hend : ∃ lexeme ∈ lexemes, lexeme.token = .endOfFile) :
    ∃ lexeme ∈ (Reader.readTokens frames lexemes mem).1.2, lexeme.token = .endOfFile := by
  induction lexemes generalizing frames mem with
  | nil => exact hend
  | cons lexeme rest ih =>
    have hbehind : ∃ l ∈ Reader.behind lexeme rest, l.token = .endOfFile := by
      unfold Reader.behind
      split
      · exact ⟨lexeme, List.mem_cons_self, ‹_›⟩
      · obtain ⟨l, hmem, hl⟩ := hend
        rcases List.mem_cons.1 hmem with rfl | hmem
        · exact absurd hl ‹_›
        · exact ⟨l, hmem, hl⟩
    rw [Reader.readTokens]
    cases hshift : Reader.shift frames lexeme mem with
    | error fault mem' => exact hbehind
    | ok progress mem' =>
      cases progress with
      | failed error => exact hbehind
      | done datum => exact hbehind
      | more frames' =>
        refine ih frames' mem' ?_
        have hopen : lexeme.token ≠ .endOfFile := fun h => Reader.shift_endOfFile h hshift
        rwa [Reader.behind, if_neg hopen] at hbehind

theorem Reader.Terminated.readDatum {r r' : Reader} {m' : Machine} {datum : Word} (hr : r.Terminated)
    (h : Eval.readDatum r m = .ok (datum, r') m') : r'.Terminated := by
  have hread := Reader.endOfFile_mem_readTokens [] m.toMemory hr
  unfold Eval.readDatum Reader.read at h
  revert hread h
  rcases Reader.readTokens [] r.pending m.toMemory with ⟨⟨outcome, pending⟩, mem⟩
  intro h hread
  cases outcome with
  | error e => cases h
  | ok datum =>
    cases h
    exact hread

theorem tracks_readDatum {r : Reader} {lent : List Word} (hr : InHand D.toInvariant d hand g m) (hend : r.Terminated) :
    Tracks D d lent g m (Eval.readDatum r m) (plain (Eval.readDatum r) m) fun found g' m' =>
      D.Follows g m g' m' ∧ D.Fits g' m' .expr found.1 ∧ found.2.Terminated := by
  refine (D.readDatum hr.good).result.plain.imp fun found g' m' hq => ?_
  exact ⟨hq.1, hq.2.2, hend.readDatum hq.2.1⟩

theorem tracks_runForms {r : Reader} {last : Word} (hr : InHand D.toInvariant d hand g m)
    (hev : Evaluating D ev supervised) (limit : Nat) (hend : r.Terminated) (hlast : D.Fits g m .data last) :
    Tracks D d hand.lent g m (runForms ev limit r last m) (Supervised.runForms P supervised hand limit r last m)
      fun _ _ _ => True := by
  induction limit generalizing g m r last with
  | zero => exact .throw hr
  | succ limit ih =>
    refine .check (.token _) hr.good (hr.leave hlast).grips hend.length_pos ?_
    refine hr.bind (tracks_readDatum hr hend) ?_
    rintro ⟨datum, r'⟩ g₁ m₁ hr₁ - ⟨hf, hdatum, hend'⟩
    dsimp only
    by_cases heof : datum.isEof
    · simp only [if_pos heof]
      exact .pure hr₁ trivial
    · simp only [if_neg heof]
      refine .get_bind ?_
      have hnested := hev.tracks_inHand (hr₁.leave (hf.later _ _ hlast)) hdatum (D.globalEnv hr₁.good)
      exact hr₁.bind hnested fun v g₂ m₂ hr₂ _ hv => ih hr₂ hend' hv

theorem tracks_runText (hr : InHand D.toInvariant d hand g m) (hev : Evaluating D ev supervised) (source : String) :
    Tracks D d hand.lent g m (runText ev source m) (Supervised.runText P supervised hand source m)
      fun _ _ _ => True := by
  unfold runText Supervised.runText
  cases hsource : Reader.ofSource source with
  | error e => exact tracks_raise hr
  | ok r => exact tracks_runForms hr hev _ (Reader.terminated_ofSource hsource) (D.immediate (by decide))

theorem tracks_load {path : Word} (hr : InHand D.toInvariant d hand g m) (hev : Evaluating D ev supervised)
    (procedure : String) (hpath : D.Fits g m .data path) :
    Tracks D d hand.lent g m (load ev procedure path m) (Supervised.load P supervised hand procedure path m)
      (D.Gives .data) := by
  unfold load Supervised.load
  refine .get_bind ?_
  have htext : D.Obeys g m (Eval.ofExcept (Argument.text m.heap procedure path) m) fun _ _ _ => True := by
    unfold Eval.ofExcept
    cases Argument.text m.heap procedure path with
    | error e => exact ⟨g, .refl hr.good⟩
    | ok text => exact ⟨g, .refl hr.good, trivial⟩
  refine hr.bind (htext.act hr.good (hr.grips.hold hpath)) fun path g₁ m₁ hr₁ _ _ => ?_
  cases m.files.read? path with
  | none => exact .throw hr₁
  | some content =>
    cases content with
    | error reason => exact tracks_raise hr₁
    | ok source =>
      refine hr₁.bind (tracks_runText hr₁ hev source) fun _ g₂ m₂ hr₂ _ _ => ?_
      exact .pure hr₂ (D.immediate (by decide))

end Texts

end BoxedScheme
