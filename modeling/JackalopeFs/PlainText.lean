import Mathlib.Data.Int.Notation
import Mathlib.Data.List.Basic
import Mathlib.Tactic.Ring

/-! # Plain text

A text is the list of its characters.  It is plain when none of them is a control
character, so that a terminal shows it and does nothing else.  The pieces programs
build texts from keep this: digits, padding and escapes are plain, and a text joined
from plain lines has a line end only between two of them.
-/

namespace JackalopeFs.PlainText

open List

abbrev Text := List Char

/-- A control character: the two blocks of general category Cc. -/
def isControl (c : Char) : Bool :=
  c.toNat < 0x20 || (0x7F ≤ c.toNat && c.toNat < 0xA0)

section Predicates

def Plain (text : Text) : Prop :=
  ∀ c ∈ text, isControl c = false

def OneLine (text : Text) : Prop :=
  '\n' ∉ text

instance (text : Text) : Decidable (Plain text) :=
  decidable_of_iff (text.all fun c => !isControl c) (by simp [Plain])

instance (text : Text) : Decidable (OneLine text) :=
  decidable_of_iff (text.all fun c => c != '\n') (by simp [OneLine, ← forall_mem_ne'])

@[simp] theorem plain_nil : Plain [] := by
  simp [Plain]

@[simp] theorem plain_cons (c : Char) (text : Text) :
    Plain (c :: text) ↔ isControl c = false ∧ Plain text := by
  simp [Plain]

@[simp] theorem plain_append (a b : Text) : Plain (a ++ b) ↔ Plain a ∧ Plain b := by
  simp [Plain, or_imp, forall_and]

@[simp] theorem oneLine_nil : OneLine [] := by
  simp [OneLine]

@[simp] theorem oneLine_append (a b : Text) : OneLine (a ++ b) ↔ OneLine a ∧ OneLine b := by
  simp [OneLine]

theorem Plain.oneLine {text : Text} (plain : Plain text) : OneLine text :=
  fun mem => Bool.noConfusion (plain '\n' mem)

theorem plain_flatMap {α : Type} {items : List α} {render : α → Text}
    (each : ∀ item ∈ items, Plain (render item)) : Plain (items.flatMap render) := by
  intro c mem
  obtain ⟨item, here, mem⟩ := mem_flatMap.mp mem
  exact each item here c mem

theorem oneLine_flatMap {α : Type} {items : List α} {render : α → Text}
    (each : ∀ item ∈ items, OneLine (render item)) : OneLine (items.flatMap render) := by
  intro mem
  obtain ⟨item, here, mem⟩ := mem_flatMap.mp mem
  exact each item here mem

end Predicates

section Numbers

theorem isControl_ite {p : Prop} [Decidable p] {a b : Char} (yes : isControl a = false)
    (no : isControl b = false) : isControl (if p then a else b) = false := by
  split
  · exact yes
  · exact no

theorem isControl_digitChar (n : ℕ) : isControl n.digitChar = false := by
  repeat refine isControl_ite rfl ?_
  rfl

theorem plain_toDigitsCore (base fuel n : ℕ) {digits : Text} (plain : Plain digits) :
    Plain (Nat.toDigitsCore base fuel n digits) := by
  induction fuel generalizing n digits with
  | zero => exact plain
  | succ _ ih =>
    have next : Plain ((n % base).digitChar :: digits) :=
      (plain_cons _ _).mpr ⟨isControl_digitChar _, plain⟩
    unfold Nat.toDigitsCore
    simp only
    split_ifs
    · exact next
    · exact ih _ next

def decimal (n : ℕ) : Text :=
  Nat.toDigits 10 n

def hexadecimal (n : ℕ) : Text :=
  Nat.toDigits 16 n

def signed : ℤ → Text
  | .ofNat n => decimal n
  | .negSucc n => '-' :: decimal (n + 1)

@[simp] theorem plain_decimal (n : ℕ) : Plain (decimal n) :=
  plain_toDigitsCore 10 _ n plain_nil

@[simp] theorem plain_hexadecimal (n : ℕ) : Plain (hexadecimal n) :=
  plain_toDigitsCore 16 _ n plain_nil

@[simp] theorem plain_signed (n : ℤ) : Plain (signed n) := by
  cases n with
  | ofNat n => exact plain_decimal n
  | negSucc n => exact (plain_cons _ _).mpr ⟨rfl, plain_decimal _⟩

@[simp] theorem oneLine_decimal (n : ℕ) : OneLine (decimal n) :=
  (plain_decimal n).oneLine

@[simp] theorem oneLine_signed (n : ℤ) : OneLine (signed n) :=
  (plain_signed n).oneLine

end Numbers

section Padding

def padLeft (width : ℕ) (text : Text) : Text :=
  List.replicate (width - text.length) ' ' ++ text

def padZeros (width : ℕ) (digits : Text) : Text :=
  List.replicate (width - digits.length) '0' ++ digits

def padRight (width : ℕ) (text : Text) : Text :=
  text ++ List.replicate (width - text.length) ' '

def cells (columns : List Text) : Text :=
  [' '].intercalate columns

@[simp] theorem cells_cons_cons (first next : Text) (further : List Text) :
    cells (first :: next :: further) = first ++ [' '] ++ cells (next :: further) :=
  intercalate_cons_cons

@[simp] theorem cells_singleton (only : Text) : cells [only] = only :=
  intercalate_singleton

theorem plain_replicate (n : ℕ) {c : Char} (shown : isControl c = false) :
    Plain (List.replicate n c) := by
  intro d mem
  rw [eq_of_mem_replicate mem]
  exact shown

@[simp] theorem plain_padLeft (width : ℕ) (text : Text) :
    Plain (padLeft width text) ↔ Plain text := by
  simp [padLeft, plain_replicate _ (show isControl ' ' = false from rfl)]

@[simp] theorem plain_padRight (width : ℕ) (text : Text) :
    Plain (padRight width text) ↔ Plain text := by
  simp [padRight, plain_replicate _ (show isControl ' ' = false from rfl)]

@[simp] theorem plain_padZeros (width : ℕ) (digits : Text) :
    Plain (padZeros width digits) ↔ Plain digits := by
  simp [padZeros, plain_replicate _ (show isControl '0' = false from rfl)]

end Padding

section Escapes

/-- A character as source code writes it, if it is not shown as itself. -/
def escapeDefault (c : Char) : Text :=
  if c = '\t' then ['\\', 't']
  else if c = '\r' then ['\\', 'r']
  else if c = '\n' then ['\\', 'n']
  else if c = '\'' ∨ c = '"' ∨ c = '\\' then ['\\', c]
  else if 0x20 ≤ c.toNat ∧ c.toNat ≤ 0x7E then [c]
  else ['\\', 'u', '\x7b'] ++ hexadecimal c.toNat ++ ['\x7d']

theorem plain_escapeDefault (c : Char) : Plain (escapeDefault c) := by
  unfold escapeDefault
  split_ifs with tab cr lf quote shown
  · decide
  · decide
  · decide
  · obtain rfl | rfl | rfl := quote <;> decide
  · have low : ¬c.toNat < 0x20 := Nat.not_lt.mpr shown.1
    have high : ¬0x7F ≤ c.toNat := by omega
    simp [isControl, low, high]
  · rw [plain_append, plain_append]
    exact ⟨⟨by decide, plain_hexadecimal _⟩, by decide⟩

end Escapes

section Lines

def writeln (row : Text) : Text :=
  row ++ ['\n']

/-- Without the carriage return its line end began with. -/
def stripReturn (line : Text) : Text :=
  if line.getLast? = some '\r' then line.dropLast else line

/-- The lines of a text split at its line feeds: what follows the last one is a line unless it is
empty, and keeps its carriage return. -/
def linesOfPieces : List Text → List Text
  | [] => []
  | [last] => if last = [] then [] else [last]
  | piece :: next :: rest => stripReturn piece :: linesOfPieces (next :: rest)

def lines (text : Text) : List Text :=
  linesOfPieces (text.splitOn '\n')

def joinLines (pieces : List Text) : Text :=
  ['\n'].intercalate pieces

variable {pieces : List Text}

theorem splitOn_joinLines (some_ : pieces ≠ []) (each : ∀ piece ∈ pieces, OneLine piece) :
    (joinLines pieces).splitOn '\n' = pieces :=
  splitOn_intercalate '\n' each some_

theorem joinLines_cons (first : Text) (further : List Text) :
    joinLines (first :: further) = first ++ further.flatMap ('\n' :: ·) := by
  induction further generalizing first with
  | nil => simp [joinLines]
  | cons _ _ ih =>
    rw [joinLines, intercalate_cons_cons, ← joinLines, ih, flatMap_cons,
      append_assoc]
    rfl

theorem lines_joinLines (some_ : pieces ≠ []) (each : ∀ piece ∈ pieces, OneLine piece) :
    lines (joinLines pieces) = linesOfPieces pieces :=
  congrArg linesOfPieces (splitOn_joinLines some_ each)

theorem linesOfPieces_cons {first : Text} (further : List Text) (some_ : first ≠ [])
    (ended : further = [] ∨ first.getLast? ≠ some '\r') :
    linesOfPieces (first :: further) = first :: linesOfPieces further := by
  cases further with
  | nil => exact if_neg some_
  | cons next rest =>
    have kept : stripReturn first = first :=
      if_neg (ended.resolve_left (cons_ne_nil next rest))
    rw [linesOfPieces, kept]

/-- What holds of the pieces and stripping a carriage return keeps holds of the lines. -/
theorem mem_linesOfPieces {P : Text → Prop} (strips : ∀ piece, P piece → P (stripReturn piece))
    (each : ∀ piece ∈ pieces, P piece) :
    ∀ line ∈ linesOfPieces pieces, P line := by
  induction pieces with
  | nil => exact fun line mem => absurd mem not_mem_nil
  | cons piece rest ih =>
    cases rest with
    | nil =>
      intro line mem
      rw [linesOfPieces] at mem
      split_ifs at mem with empty
      · exact absurd mem not_mem_nil
      · exact each line mem
    | cons =>
      intro line mem
      rw [linesOfPieces, mem_cons] at mem
      obtain rfl | mem := mem
      · exact strips piece (each piece mem_cons_self)
      · exact ih (fun piece later => each piece (mem_cons_of_mem _ later)) line mem

theorem oneLine_of_mem_splitOn {text piece : Text} (mem : piece ∈ text.splitOn '\n') :
    OneLine piece := by
  induction text generalizing piece with
  | nil =>
    rw [splitOn_nil, mem_singleton] at mem
    exact mem ▸ oneLine_nil
  | cons _ text ih =>
    rw [splitOn_cons_eq_if_modifyHead] at mem
    split at mem
    · obtain rfl | later := mem_cons.mp mem
      · exact oneLine_nil
      · exact ih later
    · next other =>
      obtain ⟨head, rest, split⟩ := exists_cons_of_ne_nil (splitOn_ne_nil '\n' text)
      rw [split, modifyHead_cons, mem_cons] at mem
      obtain rfl | later := mem
      · have first : OneLine head := ih (split ▸ mem_cons_self)
        intro here
        obtain same | here := mem_cons.mp here
        · exact other (beq_iff_eq.mpr same.symm)
        · exact first here
      · exact ih (split ▸ mem_cons_of_mem _ later)

theorem oneLine_stripReturn (line : Text) (one : OneLine line) : OneLine (stripReturn line) := by
  unfold stripReturn
  split_ifs
  · exact fun mem => one (dropLast_subset line mem)
  · exact one

theorem oneLine_of_mem_lines {text line : Text} (mem : line ∈ lines text) : OneLine line :=
  mem_linesOfPieces oneLine_stripReturn (fun _ => oneLine_of_mem_splitOn) line mem

end Lines

section Rows

/-- A text of `n` lines, each plain and with its line end. -/
def Rows (n : ℕ) (text : Text) : Prop :=
  ∃ rows : List Text, text = rows.flatMap writeln ∧ rows.length = n ∧ ∀ row ∈ rows, Plain row

theorem rows_nil : Rows 0 [] :=
  ⟨[], rfl, rfl, fun _ mem => absurd mem not_mem_nil⟩

theorem rows_writeln {row : Text} (plain : Plain row) : Rows 1 (writeln row) := by
  refine ⟨[row], ?_, rfl, ?_⟩
  · rw [flatMap_singleton]
  · intro other mem
    exact mem_singleton.mp mem ▸ plain

theorem rows_blank_writeln {row : Text} (plain : Plain row) : Rows 2 (writeln ('\n' :: row)) := by
  refine ⟨[[], row], ?_, rfl, ?_⟩
  · simp [writeln]
  · simp [plain]

theorem Rows.append {m n : ℕ} {a b : Text} (first : Rows m a) (second : Rows n b) :
    Rows (m + n) (a ++ b) := by
  obtain ⟨rows, rfl, rfl, plain⟩ := first
  obtain ⟨more, rfl, rfl, also⟩ := second
  refine ⟨rows ++ more, flatMap_append.symm, length_append, ?_⟩
  intro row mem
  obtain mem | mem := mem_append.mp mem
  · exact plain row mem
  · exact also row mem

theorem rows_flatMap {α : Type} {items : List α} {count : α → ℕ} {render : α → Text}
    (each : ∀ item ∈ items, Rows (count item) (render item)) :
    Rows (items.map count).sum (items.flatMap render) := by
  induction items with
  | nil => exact rows_nil
  | cons item _ ih =>
    exact (each item mem_cons_self).append
      (ih fun item mem => each item (mem_cons_of_mem _ mem))

theorem rows_each {α : Type} {items : List α} {row : α → Text}
    (plain : ∀ item ∈ items, Plain (row item)) :
    Rows items.length (items.flatMap fun item => writeln (row item)) := by
  have rows := rows_flatMap fun item mem => rows_writeln (plain item mem)
  rwa [map_const', sum_replicate_nat, Nat.mul_one] at rows

end Rows

end JackalopeFs.PlainText
