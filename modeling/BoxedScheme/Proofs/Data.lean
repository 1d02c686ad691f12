import BoxedScheme.Printer
import BoxedScheme.Token.Scan
import BoxedScheme.Proofs.Heaps
import BoxedScheme.Proofs.Numerals

/-!
# Data and their text

A datum is what a program can write down: atoms, and pairs of data. A word of a heap represents a datum if its cells
and strings spell it; the printer writes such a word as the text of the datum, if the datum keeps to the printer's
limits.

* `Datum.chars` : the text of a datum;
* `Datum.tokens` : the tokens of that text;
* `Datum.Writable` : numbers and symbols that read back, and no list of more than a thousand elements;
* `Heap.Represents` : a word stands for a datum;
* `write_eq` : the printer writes the text of the datum.
-/

namespace BoxedScheme

/-! ## Data -/

inductive Atom where
  | boolean (value : Bool)
  | char (value : Char)
  | number (value : Double)
  | string (text : String)
  | symbol (name : String)
deriving DecidableEq

inductive Datum where
  | nil
  | atom (a : Atom)
  | pair (car cdr : Datum)
deriving DecidableEq

/-- The name splits into one token, the symbol of that name. -/
def StandsAlone (name : String) : Prop :=
  ∃ lexemes, tokenize name = .ok lexemes ∧ lexemes.toList.map (·.token) = [.symbol name, .endOfFile]

namespace Atom

def token : Atom → Token
  | boolean b => .boolean b
  | char c => .char c
  | number x => .number x
  | string s => .string s
  | symbol name => .symbol name

def chars : Atom → List Char
  | boolean b => (if b then "#t" else "#f").toList
  | char c => (Printer.charLiteral c).toList
  | number x => (Numeral.format x).toList
  | string s => (Printer.stringLiteral s).toList
  | symbol name => name.toList

/-- The atom has a text of its own. -/
def Writable : Atom → Prop
  | number x => x.isNaN = false ∧ x ≠ Numeral.negativeZero
  | symbol name => StandsAlone name
  | _ => True

end Atom

namespace Datum

mutual

def chars : Datum → List Char
  | nil => ['(', ')']
  | atom a => a.chars
  | pair a d => '(' :: (a.chars ++ d.tailChars)

/-- The text of a list behind an element. -/
def tailChars : Datum → List Char
  | nil => [')']
  | atom a => ' ' :: '.' :: ' ' :: (a.chars ++ [')'])
  | pair a d => ' ' :: (a.chars ++ d.tailChars)

end

mutual

def tokens : Datum → List Token
  | nil => [.leftParen, .rightParen]
  | atom a => [a.token]
  | pair a d => .leftParen :: (a.tokens ++ d.tailTokens)

def tailTokens : Datum → List Token
  | nil => [.rightParen]
  | atom a => [.dot, a.token, .rightParen]
  | pair a d => a.tokens ++ d.tailTokens

end

def spine : Datum → Nat
  | pair _ d => d.spine + 1
  | _ => 0

def nesting : Datum → Nat
  | pair a d => max (a.nesting + 1) d.nesting
  | _ => 0

/-- Atoms have a text of their own, and no list is too long. -/
def Writable : Datum → Prop
  | nil => True
  | atom a => a.Writable
  | pair a d => d.spine + 1 ≤ Printer.maxElements ∧ a.Writable ∧ d.Writable

end Datum

/-! ## Representation -/

/-- The string slot is live and holds the text. -/
def Heap.Holds (h : Heap) (i : UInt32) (text : String) : Prop := h.strings.IsLive i ∧ h.strings.read i = text.toUTF8

def Heap.RepresentsAtom (h : Heap) (w : Word) : Atom → Prop
  | .boolean b => w = .boolean b
  | .char c => w = .char c
  | .number x => w = ⟨x.bits⟩
  | .string s => ∃ i, w = .string i ∧ h.Holds i s
  | .symbol name => ∃ i, w = .symbol i ∧ h.Holds i name

def Heap.Represents (h : Heap) : Word → Datum → Prop
  | w, .nil => w = .nil
  | w, .atom a => h.RepresentsAtom w a
  | w, .pair a d => ∃ i, w = .pair i ∧ h.cells.IsLive i ∧ h.Represents (h.cells.read i).car a ∧
    h.Represents (h.cells.read i).cdr d

instance (h : Heap) (i : UInt32) (text : String) : Decidable (h.Holds i text) := inferInstanceAs (Decidable (_ ∧ _))

/-- A word of a kind refers to its payload. -/
theorem exists_payload_iff {kind : UInt32 → Word} (hkind : ∀ i, (kind i).payload = i) {w : Word} {P : UInt32 → Prop} :
    (w = kind w.payload ∧ P w.payload) ↔ ∃ i, w = kind i ∧ P i := by
  constructor
  · intro hw
    exact ⟨w.payload, hw⟩
  · rintro ⟨i, rfl, hi⟩
    rw [hkind]
    exact ⟨rfl, hi⟩

instance (h : Heap) (w : Word) : (a : Atom) → Decidable (h.RepresentsAtom w a)
  | .boolean b => inferInstanceAs (Decidable (w = .boolean b))
  | .char c => inferInstanceAs (Decidable (w = .char c))
  | .number x => inferInstanceAs (Decidable (w = ⟨x.bits⟩))
  | .string s => decidable_of_iff _ (exists_payload_iff (P := (h.Holds · s)) Word.payload_string)
  | .symbol name => decidable_of_iff _ (exists_payload_iff (P := (h.Holds · name)) Word.payload_symbol)

instance Heap.decidableRepresents (h : Heap) : (w : Word) → (d : Datum) → Decidable (h.Represents w d)
  | w, .nil => inferInstanceAs (Decidable (w = .nil))
  | w, .atom a => inferInstanceAs (Decidable (h.RepresentsAtom w a))
  | w, .pair a d =>
    have := h.decidableRepresents (h.cells.read w.payload).car a
    have := h.decidableRepresents (h.cells.read w.payload).cdr d
    decidable_of_iff _ (exists_payload_iff (P := fun i => h.cells.IsLive i ∧ h.Represents (h.cells.read i).car a ∧
      h.Represents (h.cells.read i).cdr d) Word.payload_pair)

/-! ## Printing -/

section Printing

variable {h : Heap} {w : Word}

theorem ofBytes_toUTF8 (text : String) : Text.ofBytes text.toUTF8 = text := by
  have hfrom : String.fromUTF8? text.toUTF8 = some text := by
    rw [String.fromUTF8?, dif_pos (show text.toUTF8.IsValidUTF8 from text.isValidUTF8)]
    rfl
  rw [Text.ofBytes, hfrom]

theorem storedText_eq {text : String} (htext : w.isString || w.isSymbol) (hread : h.strings.read w.payload = text.toUTF8) :
    Printer.storedText h w = text := by
  have hbytes : h.stringBytes w = .ok text.toUTF8 := by rw [Heap.stringBytes, if_pos htext, hread]
  rw [Printer.storedText, Heap.stringText, hbytes]
  exact ofBytes_toUTF8 text

theorem atom_eq {a : Atom} (ha : a.Writable) (hw : h.RepresentsAtom w a) :
    w.isPair = false ∧ w.isNull = false ∧ (Printer.atom h .write w).toList = a.chars := by
  cases a with
  | boolean b =>
    obtain rfl : w = .boolean b := hw
    rw [Printer.atom, Word.kind_boolean]
    cases b <;> exact ⟨by decide, by decide, rfl⟩
  | char c =>
    obtain rfl : w = .char c := hw
    rw [Printer.atom, Word.kind_char]
    exact ⟨by simp [Word.isPair], by simp [Word.isNull], rfl⟩
  | number x =>
    obtain ⟨hnan, -⟩ := ha
    obtain rfl : w = .number x := by
      rw [Word.number_of_isNaN hnan]
      exact hw
    have hnumber := Word.isNumber_number x
    rw [Printer.atom, Word.kind_number hnan]
    refine ⟨?_, ?_, rfl⟩
    · simp [Word.isPair, Word.tag_ne_of_isNumber hnumber (t := 0xfffc) (by decide)]
    · simp [Word.isNull, Word.tag_ne_of_isNumber hnumber (t := 0xfff1) (by decide)]
  | string s =>
    obtain ⟨i, rfl, -, hread⟩ := hw
    have htext : Printer.storedText h (.string i) = s := storedText_eq (by simp [Word.isString]) (by simpa using hread)
    rw [Printer.atom, Word.kind_string, htext]
    exact ⟨by simp [Word.isPair], by simp [Word.isNull], rfl⟩
  | symbol name =>
    obtain ⟨i, rfl, -, hread⟩ := hw
    have htext : Printer.storedText h (.symbol i) = name := storedText_eq (by simp [Word.isSymbol]) (by simpa using hread)
    rw [Printer.atom, Word.kind_symbol, htext]
    exact ⟨by simp [Word.isPair], by simp [Word.isNull], rfl⟩

theorem text_of_not_isPair (style : PrintStyle) (levels : Nat) (hw : w.isPair = false) :
    Printer.text h style levels w = Printer.atom h style w := by
  cases levels <;> simp [Printer.text, hw]

theorem text_pair (style : PrintStyle) (levels : Nat) (i : UInt32) :
    Printer.text h style (levels + 1) (.pair i) = "(" ++ Printer.text h style levels (h.cells.read i).car ++
      Printer.elements h (Printer.text h style levels) (Printer.maxElements - 1) (h.cells.read i).cdr := by
  simp [Printer.text, Word.isPair]

theorem elements_pair (item : Word → String) (budget : Nat) (i : UInt32) :
    Printer.elements h item (budget + 1) (.pair i) =
      " " ++ item (h.cells.read i).car ++ Printer.elements h item budget (h.cells.read i).cdr := by
  simp [Printer.elements, Word.isPair]

theorem elements_of_not_isPair (item : Word → String) (budget : Nat) (hw : w.isPair = false) :
    Printer.elements h item budget w = Printer.elements.closing item w := by
  cases budget <;> simp [Printer.elements, hw]

/-- The text of a datum, and of the elements of a list behind the first. -/
theorem text_eq (d : Datum) (hd : d.Writable) :
    (∀ {levels w}, h.Represents w d → d.nesting ≤ levels → (Printer.text h .write levels w).toList = d.chars) ∧
      ∀ {levels budget w}, h.Represents w d → d.nesting ≤ levels + 1 → d.spine ≤ budget →
        (Printer.elements h (Printer.text h .write levels) budget w).toList = d.tailChars := by
  induction d with
  | nil =>
    refine ⟨fun {levels w} hw _ => ?_, fun {levels budget w} hw _ _ => ?_⟩
    · obtain rfl : w = .nil := hw
      rw [text_of_not_isPair _ _ (by decide), Printer.atom, Word.kind_nil, Datum.chars]
      show "()".toList = ['(', ')']
      rfl
    · obtain rfl : w = .nil := hw
      rw [elements_of_not_isPair _ _ (by decide), Printer.elements.closing, if_pos (by decide), Datum.tailChars]
      show ")".toList = [')']
      rfl
  | atom a =>
    refine ⟨fun {levels w} hw _ => ?_, fun {levels budget w} hw _ _ => ?_⟩
    · obtain ⟨hpair, -, htext⟩ := atom_eq hd hw
      rw [text_of_not_isPair _ _ hpair, htext, Datum.chars]
    · obtain ⟨hpair, hnull, htext⟩ := atom_eq hd hw
      rw [elements_of_not_isPair _ _ hpair, Printer.elements.closing, if_neg (by simp [hnull]),
        text_of_not_isPair _ _ hpair, String.toList_append, String.toList_append, htext, Datum.tailChars]
      rfl
  | pair a d iha ihd =>
    obtain ⟨hspine, ha, hd⟩ := hd
    refine ⟨fun {levels w} hw hnesting => ?_, fun {levels budget w} hw hnesting hbudget => ?_⟩
    · obtain ⟨i, rfl, -, hcar, hcdr⟩ := hw
      simp only [Datum.nesting, Nat.max_le] at hnesting
      obtain ⟨levels, rfl⟩ : ∃ n, levels = n + 1 := ⟨levels - 1, by omega⟩
      rw [text_pair, String.toList_append, String.toList_append, (iha ha).1 hcar (by omega),
        (ihd hd).2 hcdr hnesting.2 (by omega), Datum.chars, List.append_assoc]
      rfl
    · obtain ⟨i, rfl, -, hcar, hcdr⟩ := hw
      simp only [Datum.nesting, Nat.max_le] at hnesting
      simp only [Datum.spine] at hbudget
      obtain ⟨budget, rfl⟩ : ∃ n, budget = n + 1 := ⟨budget - 1, by omega⟩
      rw [elements_pair, String.toList_append, String.toList_append, (iha ha).1 hcar (by omega),
        (ihd hd).2 hcdr hnesting.2 (by omega), Datum.tailChars, List.append_assoc]
      rfl

/-- Within the printer's limits a word is written as the text of its datum. -/
theorem write_eq {d : Datum} (hd : d.Writable) (hnesting : d.nesting ≤ Printer.maxDepth) (hw : h.Represents w d) :
    h.write w = .ofList d.chars := by
  have htext := (text_eq (h := h) d hd).1 hw hnesting
  rw [← htext, String.ofList_toList]
  rfl

end Printing

end BoxedScheme
