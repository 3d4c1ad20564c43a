import Sil.Concrete.Tree

/-!
A place in a source text and the parsers that move along it. A parser fails without a reason, since
a text that cannot be read is refused as a whole.
-/
namespace Sil.SourceText

/-- The text from a place on, with the byte offset, the row and the byte column of the place. -/
structure Cursor where
  rest : List Char
  byte : Nat := 0
  row : Nat := 0
  column : Nat := 0

namespace Cursor

/-- The place after one character. Only a line feed starts a new row. -/
def next (c : Cursor) : Cursor :=
  match c.rest with
  | [] => c
  | ch :: rest =>
    if ch = '\n' then ⟨rest, c.byte + 1, c.row + 1, 0⟩
    else ⟨rest, c.byte + ch.utf8Size, c.row, c.column + ch.utf8Size⟩

def advance (c : Cursor) : Nat → Cursor
  | 0 => c
  | n + 1 => c.next.advance n

def startsWith (c : Cursor) (s : String) : Bool := s.toList.isPrefixOf c.rest

def extentTo (start stop : Cursor) : Extent :=
  ⟨start.byte, stop.byte, start.row, start.column, stop.row, stop.column⟩

end Cursor

abbrev Scan (α : Type) := StateT Cursor Option α

namespace Scan

def fail {α : Type} : Scan α := fun _ => none

def require (b : Bool) : Scan Unit := if b then pure () else fail

def take (n : Nat) : Scan Unit := modify (·.advance n)

/-- What a parser finds, if it succeeds; otherwise nothing is consumed. -/
def attempt {α : Type} (p : Scan α) : Scan (Option α) := fun c =>
  match p c with
  | some (a, next) => some (some a, next)
  | none => some (none, c)

def look {α : Type} (p : Scan α) : Scan α := fun c => (p c).map fun (a, _) => (a, c)

/-- Repeats a step that carries a value along until it has nothing more to do, `fuel` times at
most. -/
def iterate {α : Type} (step : α → Scan (Option α)) : Nat → α → Scan α
  | 0, a => pure a
  | fuel + 1, a => do
    match ← step a with
    | none => pure a
    | some b => iterate step fuel b

end Scan

/-- A node without a field between two places. -/
def tree (kind : String) (start stop : Cursor) (children : List ConcreteTree) : ConcreteTree :=
  .node kind (start.extentTo stop) true none {} children

/-- A piece of punctuation or a keyword between two places. -/
def mark (kind : String) (start stop : Cursor) : ConcreteTree :=
  .node kind (start.extentTo stop) false none {} []

end Sil.SourceText
