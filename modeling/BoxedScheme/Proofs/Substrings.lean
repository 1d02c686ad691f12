import BoxedScheme.Proofs.Procedures

/-!
# Parts of strings

Strings are stored as bytes and indexed by character, so that every procedure on them decodes what it is given, and a
new string is encoded again. The bounds of a part are numbers of the program, brought into the range of 64 bits.

* `Heap.StoresText h w text` : the word is a string with this text;
* `IsIndex w k`, `BoundIs default bound k` : what an index or a bound counts for;
* `Strings.substring_eq`, `Strings.charAt_of_getElem?`, `Strings.charAt_of_not` : what is found, or the fault;
* `Machine.AddsText m text w m'` : a new string; `Primitive.call_substring` : a call makes one, or reports its bounds;
* `IsPart m s text a b r m'` : the new string `r` is the part of `s` from `a` to `b`, as the other procedures see it;
* `substring_characters` : which parts there are, and how they make up the string.
-/

namespace BoxedScheme

/-! ## Texts -/

structure Heap.StoresText (h : Heap) (w : Word) (text : String) : Prop where
  isString : w.isString
  live : h.strings.IsLive w.payload
  read : h.strings.read w.payload = text.toUTF8

namespace Heap.StoresText

variable {h h' : Heap} {w : Word} {text : String}

theorem kept (hw : h.StoresText w text) (hk : h.strings.KeptBy h'.strings) : h'.StoresText w text := by
  obtain ⟨hlive, hread⟩ := hk _ hw.live
  exact ⟨hw.isString, hlive, hread.trans hw.read⟩

theorem argument (hw : h.StoresText w text) (procedure : String) : Argument.text h procedure w = .ok text := by
  have hbytes : h.stringBytes w = .ok text.toUTF8 := by
    rw [Heap.stringBytes, hw.isString, hw.read]
    rfl
  rw [Argument.text, if_pos hw.isString, Heap.stringText, hbytes]
  exact congrArg Except.ok (ofBytes_toUTF8 text)

end Heap.StoresText

/-! ## Indices -/

/-- The word counts as this index, whichever procedure asks. -/
def IsIndex (w : Word) (k : Int) : Prop := ∀ procedure, Argument.integer procedure w = .ok k

/-- A bound counts as this index; if it is missing, as the default. -/
def BoundIs (default : Int) : Option Word → Int → Prop
  | none, k => k = default
  | some w, k => IsIndex w k

/-- Which index a word is does not depend on the procedure. -/
theorem isIndex_of_integer {procedure : String} {w : Word} {k : Int} (hk : Argument.integer procedure w = .ok k) :
    IsIndex w k := by
  intro other
  unfold Argument.integer Argument.number at hk ⊢
  cases hx : w.number? with
  | none =>
    rw [hx] at hk
    cases hk
  | some x =>
    rw [hx] at hk
    cases hn : x.toInt? with
    | none =>
      simp only [Bind.bind, Except.bind, hn] at hk
      cases hk
    | some n =>
      simp only [Bind.bind, Except.bind, hn] at hk ⊢
      exact hk

namespace Strings

variable {h : Heap} {s w : Word} {text : String} {a b k : Int} {cs : List Char}

/-! ## Slices -/

theorem slice?_of_le (ha : 0 ≤ a) (hab : a ≤ b) (hb : b ≤ cs.length) :
    slice? cs a b = some ((cs.drop a.toNat).take (b - a).toNat) :=
  if_neg (by omega)

theorem slice?_of_not (hnot : ¬ (0 ≤ a ∧ a ≤ b ∧ b ≤ cs.length)) : slice? cs a b = none := if_pos (by omega)

def part (text : String) (a b : Int) : String := .ofList ((text.toList.drop a.toNat).take (b - a).toNat)

theorem length_part (ha : 0 ≤ a) (hab : a ≤ b) (hb : b ≤ text.length) : (part text a b).length = (b - a).toNat := by
  rw [part, String.length_ofList, List.length_take, List.length_drop, String.length_toList]
  omega

theorem getElem?_part (text : String) (ha : 0 ≤ a) (hk : 0 ≤ k) (hlt : k < b - a) :
    (part text a b).toList[k.toNat]? = text.toList[(a + k).toNat]? := by
  rw [part, String.toList_ofList, List.getElem?_take_of_lt (by omega), List.getElem?_drop]
  congr 1
  omega

theorem part_whole (text : String) : part text 0 text.length = text := by
  rw [part, Int.toNat_zero, List.drop_zero, List.take_of_length_le, String.ofList_toList]
  rw [String.length_toList]
  omega

theorem part_append (ha : 0 ≤ a) (hab : a ≤ text.length) : part text 0 a ++ part text a text.length = text := by
  rw [part, part, ← String.ofList_append, Int.toNat_zero, List.drop_zero, Int.sub_zero,
    List.take_of_length_le (i := (text.length - a).toNat), List.take_append_drop, String.ofList_toList]
  rw [List.length_drop, String.length_toList]
  omega

/-! ## What the procedures find -/

/-- A bound as a message shows it: as it was given, or else the default. -/
def boundText (bound : Option Word) (value : Int) : String := (bound.map Argument.shown).getD (toString value)

/-- With its bounds read, a part is a slice of the characters. -/
theorem substring_eq (htext : h.StoresText s text) (procedure : String) {first? last? : Option Word}
    (hfirst : BoundIs 0 first? a) (hlast : BoundIs text.toList.length last? b) :
    substring h procedure s first? last? =
      (slice? text.toList a b).elim
        (.error (.invalidArgument procedure (.badRange (boundText first? a) (boundText last? b) text.toList.length)))
        fun cs => .ok (.ofList cs) := by
  unfold substring
  rw [htext.argument]
  cases first? with
  | none =>
    obtain rfl : a = 0 := hfirst
    cases last? with
    | none =>
      obtain rfl : b = text.toList.length := hlast
      simp only [Bind.bind, Except.bind, Pure.pure, Except.pure]
      cases slice? text.toList 0 text.toList.length <;> rfl
    | some last =>
      simp only [Bind.bind, Except.bind, Pure.pure, Except.pure, hlast procedure]
      cases slice? text.toList 0 b <;> rfl
  | some first =>
    cases last? with
    | none =>
      obtain rfl : b = text.toList.length := hlast
      simp only [Bind.bind, Except.bind, Pure.pure, Except.pure, hfirst procedure]
      cases slice? text.toList a text.toList.length <;> rfl
    | some last =>
      simp only [Bind.bind, Except.bind, hfirst procedure, hlast procedure]
      cases slice? text.toList a b <;> rfl

/-- An index inside the text finds the character there. -/
theorem charAt_of_getElem? (htext : h.StoresText s text) (procedure : String) (hindex : IsIndex w k) (hk : 0 ≤ k)
    {c : Char} (hc : text.toList[k.toNat]? = some c) : charAt h procedure s w = .ok (.char c) := by
  unfold charAt
  rw [htext.argument, hindex]
  simp only [Bind.bind, Except.bind]
  rw [if_neg (by omega), hc]
  rfl

/-- An index outside the text is reported. -/
theorem charAt_of_not (htext : h.StoresText s text) (procedure : String) (hindex : IsIndex w k)
    (hout : ¬ (0 ≤ k ∧ k < text.length)) :
    charAt h procedure s w = .error (.invalidArgument procedure (.indexOutOfRange (Argument.shown w))) := by
  have hnone : (if k < 0 then none else text.toList[k.toNat]?) = none := by
    split
    · rfl
    · exact List.getElem?_eq_none (by rw [String.length_toList]; omega)
  unfold charAt
  rw [htext.argument, hindex]
  simp only [Bind.bind, Except.bind]
  rw [hnone]
  rfl

/-- What is no index is reported too. -/
theorem charAt_of_not_isIndex (htext : h.StoresText s text) (procedure : String) (hindex : ∀ k, ¬ IsIndex w k) :
    ∃ e, charAt h procedure s w = .error e := by
  unfold charAt
  rw [htext.argument]
  cases hk : Argument.integer procedure w with
  | error e => exact ⟨e, rfl⟩
  | ok k => exact absurd (isIndex_of_integer hk) (hindex k)

end Strings

/-! ## Calls -/

namespace Machine

/-- A string slot that was not live holds the text, and nothing else changed. -/
structure AddsText (m : Machine) (text : String) (w : Word) (m' : Machine) : Prop where
  takes : ∃ i, w = .string i ∧ m.heap.strings.Takes m'.heap.strings i text.toUTF8
  only : m' = m.mapHeap fun h => { h with strings := m'.heap.strings }
  sound : m'.heap.Sound

namespace AddsText

variable {m m' : Machine} {w : Word} {text : String}

theorem kept (h : m.AddsText text w m') : m.heap.strings.KeptBy m'.heap.strings := by
  obtain ⟨i, -, htakes⟩ := h.takes
  intro j hlive
  refine ⟨(htakes.isLive j).2 (.inr hlive), (htakes.read j).trans (if_neg ?_)⟩
  rintro rfl
  exact htakes.dead hlive

theorem stores (h : m.AddsText text w m') : m'.heap.StoresText w text := by
  obtain ⟨i, rfl, htakes⟩ := h.takes
  have hpayload : (Word.string i).payload = i := Word.payload_string i
  refine ⟨by simp [Word.isString], ?_, ?_⟩
  · exact (htakes.isLive _).2 (.inl hpayload)
  · exact (htakes.read _).trans (if_pos hpayload)

end AddsText

end Machine

namespace Primitive

variable {m : Machine} {s : Word} {text : String} {a b k : Int}

/-- With a free slot, a new string is added. -/
theorem newString_addsText (hs : m.heap.Sound) (hroom : ¬ m.heap.strings.Full) (text : String) :
    ∃ r m', newString text m = .ok r m' ∧ m.AddsText text r m' := by
  have hmake := hs.allocates_makeString text.toUTF8
  have hsound := hs.makeString text.toUTF8
  unfold newString Eval.onHeap
  cases hresult : Heap.makeString text.toUTF8 m.heap with
  | error fault h' =>
    rw [hresult] at hmake
    exact absurd hmake.1 hroom
  | ok r h' =>
    rw [hresult] at hmake
    rw [after_of_ok hresult] at hsound
    obtain ⟨-, i, rfl, htakes, honly⟩ := hmake
    refine ⟨_, _, rfl, ⟨i, rfl, htakes⟩, ?_, hsound⟩
    exact congrArg (fun h => m.mapHeap fun _ => h) honly

/-- A call makes a new string of the part that the bounds give, or reports them. -/
theorem call_substring (hs : m.heap.Sound) (hroom : ¬ m.heap.strings.Full) (htext : m.heap.StoresText s text)
    (bounds : List Word) (hfirst : BoundIs 0 bounds[0]? a) (hlast : BoundIs text.length bounds[1]? b) (name : String) :
    (0 ≤ a ∧ a ≤ b ∧ b ≤ text.length →
      ∃ r m', substring.call name (s :: bounds).toArray m = .ok r m' ∧ m.AddsText (Strings.part text a b) r m') ∧
    (¬ (0 ≤ a ∧ a ≤ b ∧ b ≤ text.length) →
      substring.call name (s :: bounds).toArray m = .error (.error (.invalidArgument name
        (.badRange (Strings.boundText bounds[0]? a) (Strings.boundText bounds[1]? b) text.length))) m) := by
  rw [← String.length_toList] at hlast ⊢
  have hpart := Strings.substring_eq htext name hfirst hlast
  have hcall : substring.call name (s :: bounds).toArray m =
      (Eval.ofExcept (Strings.substring m.heap name s bounds[0]? bounds[1]?) >>= newString) m := by
    change (Eval.ofExcept (Strings.substring m.heap name s (s :: bounds).toArray[1]? (s :: bounds).toArray[2]?) >>=
      newString) m = _
    rw [List.getElem?_toArray, List.getElem?_toArray, List.getElem?_cons_succ, List.getElem?_cons_succ]
  rw [hcall, hpart]
  constructor
  · rintro ⟨ha, hab, hb⟩
    rw [Strings.slice?_of_le ha hab hb]
    exact newString_addsText hs hroom _
  · intro hnot
    rw [Strings.slice?_of_not hnot]
    rfl

theorem call_stringLength (htext : m.heap.StoresText s text) (name : String) :
    stringLength.call name #[s] m = .ok (.ofNat text.length) m := by
  have hlength : (do return Word.ofNat (← Argument.text m.heap name s).length : Except Error Word) =
      .ok (.ofNat text.length) := by
    rw [htext.argument]
    rfl
  exact congrArg (Eval.ofExcept · m) hlength

theorem call_stringRef (s w : Word) (name : String) :
    stringRef.call name #[s, w] m = Eval.ofExcept (Strings.charAt m.heap name s w) m := rfl

/-- Two strings with one text are equal. -/
theorem call_stringEq {s' : Word} (htext : m.heap.StoresText s text) (htext' : m.heap.StoresText s' text)
    (name : String) : stringEq.call name #[s, s'] m = .ok .true m := by
  have hequal : (do return Word.boolean (← Strings.allEqual m.heap name (← Argument.text m.heap name s) [s']) :
      Except Error Word) = .ok .true := by
    rw [htext.argument]
    simp [Strings.allEqual, htext'.argument, Bind.bind, Except.bind, Pure.pure, Except.pure, Word.boolean]
  exact congrArg (Eval.ofExcept · m) hequal

end Primitive

/-! ## Parts -/

open Primitive (stringLength stringRef stringEq substring)

/-- In `m'`, the word `r` is a new string of the characters that `s` has from `a` up to `b`; the procedures on strings
see no others, and `m` is otherwise as it was. -/
structure IsPart (m : Machine) (s : Word) (text : String) (a b : Int) (r : Word) (m' : Machine) : Prop where
  fresh : ∃ i, r = .string i ∧ i.toNat < m.heap.strings.capacity ∧ ¬ m.heap.strings.IsLive i
  only : m' = m.mapHeap fun h => { h with strings := m'.heap.strings }
  kept : m.heap.strings.KeptBy m'.heap.strings
  source : m'.heap.StoresText s text
  length : ∀ name, stringLength.call name #[r] m' = .ok (.ofNat (b - a).toNat) m'
  ref : ∀ name k w w', 0 ≤ k → k < b - a → IsIndex w k → IsIndex w' (a + k) →
    ∃ c, text.toList[(a + k).toNat]? = some c ∧
      stringRef.call name #[r, w] m' = .ok (.char c) m' ∧ stringRef.call name #[s, w'] m' = .ok (.char c) m'
  outside : ∀ name k w, IsIndex w k → ¬ (0 ≤ k ∧ k < b - a) →
    stringRef.call name #[r, w] m' =
      .error (.error (.invalidArgument name (.indexOutOfRange (Argument.shown w)))) m'
  noIndex : ∀ name w, (∀ k, ¬ IsIndex w k) → ∃ e, stringRef.call name #[r, w] m' = .error (.error e) m'

section Parts

variable {m m' : Machine} {s r : Word} {text : String} {a b : Int}

/-- A new string with the text of the part is the part. -/
theorem isPart_of_addsText (htext : m.heap.StoresText s text) (ha : 0 ≤ a) (hab : a ≤ b) (hb : b ≤ text.length)
    (hadds : m.AddsText (Strings.part text a b) r m') : IsPart m s text a b r m' := by
  have hr := hadds.stores
  have hs := htext.kept hadds.kept
  have hlength := Strings.length_part ha hab hb
  refine ⟨?_, hadds.only, hadds.kept, hs, ?_, ?_, ?_, ?_⟩
  · obtain ⟨i, hi, htakes⟩ := hadds.takes
    exact ⟨i, hi, htakes.inside, htakes.dead⟩
  · intro name
    rw [Primitive.call_stringLength hr, hlength]
  · intro name k w w' hk hlt hw hw'
    have hinside : (a + k).toNat < text.toList.length := by
      rw [String.length_toList]
      omega
    have hc := List.getElem?_eq_getElem hinside
    have hpart := (Strings.getElem?_part text ha hk hlt).trans hc
    refine ⟨_, hc, ?_, ?_⟩
    · rw [Primitive.call_stringRef, Strings.charAt_of_getElem? hr name hw hk hpart]
      rfl
    · rw [Primitive.call_stringRef, Strings.charAt_of_getElem? hs name hw' (by omega) hc]
      rfl
  · intro name k w hw hout
    rw [Primitive.call_stringRef, Strings.charAt_of_not hr name hw (by omega)]
    rfl
  · intro name w hw
    obtain ⟨e, he⟩ := Strings.charAt_of_not_isIndex hr name hw
    refine ⟨e, ?_⟩
    rw [Primitive.call_stringRef, he]
    rfl

variable {wa wb : Word} {name : String}

/-- With a free slot, a part is made exactly if its bounds are in order and inside the string; otherwise they are
reported and nothing is allocated. Bounds that are left out stand for the ends of the string: without any the part equals
the string, and the part before a bound and the part after it make up the string. -/
theorem substring_characters (hs : m.heap.Sound) (hroom : ¬ m.heap.strings.Full) (htext : m.heap.StoresText s text)
    (ha : Argument.integer name wa = .ok a) (hb : Argument.integer name wb = .ok b) :
    (0 ≤ a ∧ a ≤ b ∧ b ≤ text.length →
      ∃ r m', substring.call name #[s, wa, wb] m = .ok r m' ∧ IsPart m s text a b r m') ∧
    (¬ (0 ≤ a ∧ a ≤ b ∧ b ≤ text.length) →
      substring.call name #[s, wa, wb] m = .error (.error (.invalidArgument name
        (.badRange (Argument.shown wa) (Argument.shown wb) text.length))) m) ∧
    (∃ r m', substring.call name #[s] m = .ok r m' ∧ IsPart m s text 0 text.length r m' ∧
      ∀ equal, stringEq.call equal #[r, s] m' = .ok .true m' ∧ stringEq.call equal #[s, r] m' = .ok .true m') ∧
    (0 ≤ a ∧ a ≤ text.length → ∀ zero, IsIndex zero 0 →
      ∃ r m', substring.call name #[s, zero, wa] m = .ok r m' ∧ IsPart m s text 0 a r m' ∧
        (¬ m'.heap.strings.Full →
          ∃ r' m'', substring.call name #[s, wa] m' = .ok r' m'' ∧ IsPart m' s text a text.length r' m'' ∧
            ∃ before rest, m''.heap.StoresText r before ∧ m''.heap.StoresText r' rest ∧ before ++ rest = text)) := by
  have hbounds := Primitive.call_substring hs hroom htext [wa, wb] (isIndex_of_integer ha)
    (isIndex_of_integer hb) name
  refine ⟨?_, hbounds.2, ?_, ?_⟩
  · rintro ⟨ha, hab, hb⟩
    obtain ⟨r, m', hcall, hadds⟩ := hbounds.1 ⟨ha, hab, hb⟩
    exact ⟨r, m', hcall, isPart_of_addsText htext ha hab hb hadds⟩
  · obtain ⟨r, m', hcall, hadds⟩ :=
      (Primitive.call_substring hs hroom htext [] rfl rfl name).1 (by omega)
    have hr : m'.heap.StoresText r text := Strings.part_whole text ▸ hadds.stores
    have hsource := htext.kept hadds.kept
    refine ⟨r, m', hcall, isPart_of_addsText htext (by omega) (by omega) (by omega) hadds, ?_⟩
    intro equal
    exact ⟨Primitive.call_stringEq hr hsource equal, Primitive.call_stringEq hsource hr equal⟩
  · rintro ⟨hnonneg, hle⟩ zero hzero
    obtain ⟨r, m', hcall, hadds⟩ :=
      (Primitive.call_substring hs hroom htext [zero, wa] hzero (isIndex_of_integer ha) name).1 (by omega)
    refine ⟨r, m', hcall, isPart_of_addsText htext (by omega) hnonneg hle hadds, ?_⟩
    intro hroom'
    have hsource := htext.kept hadds.kept
    obtain ⟨r', m'', hcall', hadds'⟩ :=
      (Primitive.call_substring hadds.sound hroom' hsource [wa] (isIndex_of_integer ha) rfl name).1 (by omega)
    exact ⟨r', m'', hcall', isPart_of_addsText hsource hnonneg hle (by omega) hadds', _, _,
      hadds.stores.kept hadds'.kept, hadds'.stores, Strings.part_append hnonneg hle⟩

end Parts

/-- A string of characters of one, two and four bytes, and two free slots. -/
def oneText : Machine where
  heap := { Heap.fresh 0 3 0 with strings := (Pool.fresh 3).fill 0 "aé😀b".toUTF8 }
  symbols := {}
  globalEnv := .nil
  config := {}
  terminal := .capturing

theorem sound_oneText : oneText.heap.Sound :=
  { Heap.sound_fresh 0 3 0 with strings := (Pool.Sound.fresh (by decide)).fill (by cbv) _ }

theorem storesText_oneText : oneText.heap.StoresText (.string 0) "aé😀b" :=
  ⟨by decide +kernel, by decide +kernel, by decide +kernel⟩

/-- The middle is two characters long, whatever their bytes; the last character is not in it, and a bound beyond all
64-bit integers is reported. -/
theorem substring_characters_oneText :
    oneText.heap.Sound ∧ ¬ oneText.heap.strings.Full ∧ oneText.heap.StoresText (.string 0) "aé😀b" ∧
    (∃ r m', substring.call "substring" #[.string 0, .ofNat 1, .ofNat 3] oneText = .ok r m' ∧
      stringLength.call "string-length" #[r] m' = .ok (.ofNat 2) m' ∧
      stringRef.call "string-ref" #[r, .ofNat 1] m' = .ok (.char '😀') m' ∧
      stringRef.call "string-ref" #[r, .ofNat 2] m' =
        .error (.error (.invalidArgument "string-ref" (.indexOutOfRange "2"))) m') ∧
    substring.call "substring" #[.string 0, .ofNat 1, .ofNat (10 ^ 300)] oneText =
      .error (.error (.invalidArgument "substring" (.badRange "1" "1e300" 4))) oneText := by
  have hs := sound_oneText
  have hroom : ¬ oneText.heap.strings.Full := fun hfull => absurd (hfull 1 (by decide)) (by decide +kernel)
  have htext := storesText_oneText
  have hone : Argument.integer "substring" (.ofNat 1) = .ok 1 := by decide +kernel
  have htwo : Argument.integer "substring" (.ofNat 2) = .ok 2 := by decide +kernel
  have hthree : Argument.integer "substring" (.ofNat 3) = .ok 3 := by decide +kernel
  have hhuge : Argument.integer "substring" (.ofNat (10 ^ 300)) = .ok 0x7fffffffffffffff := by decide +kernel
  obtain ⟨r, m', hcall, hpart⟩ := (substring_characters hs hroom htext hone hthree).1 (by decide +kernel)
  obtain ⟨c, hc, href, -⟩ := hpart.ref "string-ref" 1 (.ofNat 1) (.ofNat 2) (by decide) (by decide)
    (isIndex_of_integer hone) (isIndex_of_integer htwo)
  have hface : c = '😀' := by
    have hthird : "aé😀b".toList[(1 + 1 : Int).toNat]? = some '😀' := by decide +kernel
    exact Option.some.inj (hc.symm.trans hthird)
  have hout := hpart.outside "string-ref" 2 (.ofNat 2) (isIndex_of_integer htwo) (by decide)
  have hfail := (substring_characters hs hroom htext hone hhuge).2.1 (by decide +kernel)
  rw [hface] at href
  refine ⟨hs, hroom, htext, ⟨r, m', hcall, hpart.length _, href, ?_⟩, ?_⟩
  · rw [hout, show Argument.shown (.ofNat 2) = "2" by decide +kernel]
  · rw [hfail, show Argument.shown (.ofNat 1) = "1" by decide +kernel,
      show Argument.shown (.ofNat (10 ^ 300)) = "1e300" by decide +kernel]
    rfl

end BoxedScheme
