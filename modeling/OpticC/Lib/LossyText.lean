import Mathlib.Algebra.Ring.Int.Defs
import Mathlib.Algebra.Ring.Nat
import Mathlib.Data.List.Basic
import Mathlib.Data.Nat.Notation
import Mathlib.Tactic.Common

/-! Bytes read as text: UTF-8 with a replacement character for every maximal part that is no
character, and the lines of such a text. -/

namespace LossyText

/-- U+FFFD. -/
def replacement : List UInt8 := [0xEF, 0xBF, 0xBD]

def between (low high : UInt8) (b : UInt8) : Bool := low ≤ b && b ≤ high

def continuation : UInt8 → Bool := between 0x80 0xBF

/-- What the bytes behind the first byte of a character have to be. -/
def trails (b : UInt8) : Option (List (UInt8 → Bool)) :=
  if between 0xC2 0xDF b then some [continuation]
  else if b = 0xE0 then some [between 0xA0 0xBF, continuation]
  else if b = 0xED then some [between 0x80 0x9F, continuation]
  else if between 0xE1 0xEF b then some [continuation, continuation]
  else if b = 0xF0 then some [between 0x90 0xBF, continuation, continuation]
  else if between 0xF1 0xF3 b then some [continuation, continuation, continuation]
  else if b = 0xF4 then some [between 0x80 0x8F, continuation, continuation]
  else none

/-- The bytes that go on as they have to, whether these are all of them, and what follows. -/
def takeTrail : List (UInt8 → Bool) → List UInt8 → Bool × List UInt8 × List UInt8
  | [], rest => (true, [], rest)
  | _ :: _, [] => (false, [], [])
  | p :: ps, c :: rest =>
    if p c then
      let (whole, taken, rest) := takeTrail ps rest
      (whole, c :: taken, rest)
    else (false, [], c :: rest)

def lossyFrom : ℕ → List UInt8 → List UInt8
  | _, [] => []
  | 0, _ :: _ => []
  | fuel + 1, b :: rest =>
    if b < 0x80 then b :: lossyFrom fuel rest
    else
      match trails b with
      | none => replacement ++ lossyFrom fuel rest
      | some ps =>
        match takeTrail ps rest with
        | (true, taken, rest) => b :: taken ++ lossyFrom fuel rest
        | (false, _, rest) => replacement ++ lossyFrom fuel rest

/-- The text as UTF-8; every step of the decoding takes a byte. -/
def fromUtf8Lossy (bs : List UInt8) : List UInt8 := lossyFrom bs.length bs

def newline : UInt8 := 10

def carriageReturn : UInt8 := 13

def stripReturn (line : List UInt8) : List UInt8 :=
  if line.getLast? = some carriageReturn then line.dropLast else line

/-- The lines from a first part of a line on. A line ends with a newline, or a carriage return and
a newline; the last one may end without either. -/
def linesFrom (line : List UInt8) : List UInt8 → List (List UInt8)
  | [] => if line = [] then [] else [line]
  | b :: rest =>
    if b = newline then stripReturn line :: linesFrom [] rest else linesFrom (line ++ [b]) rest

def lines (text : List UInt8) : List (List UInt8) := linesFrom [] text

theorem fromUtf8Lossy_ascii {bs : List UInt8} (h : ∀ b ∈ bs, b < 0x80) : fromUtf8Lossy bs = bs := by
  unfold fromUtf8Lossy
  induction bs with
  | nil => rfl
  | cons b bs ih =>
    rw [List.length_cons, lossyFrom, if_pos (h b List.mem_cons_self),
      ih fun b hb => h b (List.mem_cons_of_mem _ hb)]

/-- A byte alone is a character or no part of one. -/
theorem fromUtf8Lossy_singleton (b : UInt8) :
    fromUtf8Lossy [b] = if b < 0x80 then [b] else replacement := by
  simp only [fromUtf8Lossy, List.length_cons, List.length_nil, lossyFrom]
  split_ifs
  · rfl
  · cases htrails : trails b with
    | none => simp
    | some ps =>
      cases ps with
      | nil =>
        unfold trails at htrails
        split_ifs at htrails
        all_goals cases htrails
      | cons p ps => simp [takeTrail, lossyFrom]

theorem linesFrom_append {line rest : List UInt8} (h : newline ∉ rest) :
    linesFrom line rest = if line ++ rest = [] then [] else [line ++ rest] := by
  induction rest generalizing line with
  | nil => rw [linesFrom, List.append_nil]
  | cons b rest ih =>
    have hb : b ≠ newline := fun hb => h (hb ▸ List.mem_cons_self)
    rw [linesFrom, if_neg hb, ih fun hmem => h (List.mem_cons_of_mem _ hmem), List.append_assoc,
      List.singleton_append]

/-- A text without a newline is one line. -/
theorem lines_of_not_mem {text : List UInt8} (h : newline ∉ text) (hne : text ≠ []) :
    lines text = [text] := by
  rw [lines, linesFrom_append h, List.nil_append, if_neg hne]

theorem lines_newlines (k : ℕ) : lines (List.replicate k newline) = List.replicate k [] := by
  unfold lines
  induction k with
  | zero => rfl
  | succ k ih =>
    rw [List.replicate_succ, linesFrom, if_pos rfl, ih]
    rfl

end LossyText
