import Sil.SourceText.Reader

/-!
The concrete tree of a text that cannot be read. Where a parser puts its error nodes is its own
affair, so a recovery is anything that gives a tree with an error in it. The usual one reads as many
levels of the text as it can and makes an error of what nests deeper.
-/
namespace Sil.SourceText

open Scan

def isOpening (c : Char) : Bool := c == '(' || c == '[' || c == '\x7b'

def isClosing (c : Char) : Bool := c == ')' || c == ']' || c == '\x7d'

/-- How many characters an error takes in: all up to the bracket that closes what it stands in, and
no more than a clause unless it is a whole statement. -/
def errorLength (statement : Bool) (depth : Nat) : List Char → Nat
  | [] => 0
  | c :: rest =>
    if isOpening c then errorLength statement (depth + 1) rest + 1
    else if isClosing c then
      match depth with
      | 0 => 0
      | depth + 1 => errorLength statement depth rest + 1
    else if c = ';' && depth = 0 && !statement then 0
    else errorLength statement depth rest + 1

def errorNode (start stop : Cursor) : ConcreteTree :=
  .node "ERROR" (start.extentTo stop) true none { isError := true } []

/-- Input that fits nowhere. A statement has some of it, where an expression may also be missing. -/
def unexpected (statement : Bool) : Scan ConcreteTree := do
  let start ← skip
  let length := errorLength statement 0 start.rest
  require (0 < length || !statement)
  take length
  return errorNode start (← get)

/-- A grammar in which everything is an error. -/
def Grammar.unexpected (size : Nat) : Grammar :=
  let anything : Scan Term := do return { tree := ← SourceText.unexpected false }
  { size
    expression := fun _ => anything
    binary := fun _ _ => anything
    operand := fun _ => anything
    constructor := anything
    statement := SourceText.unexpected true
    element := SourceText.unexpected false }

/-- The tree of a text of which `depth` levels are read. -/
def readTo? (depth : Nat) (source : List Char) : Option ConcreteTree :=
  ((program (Grammar.deepen depth (Grammar.unexpected (source.length + 2)))).run
    { rest := source }).map (·.1)

/-- The most levels of a text that can be read. Each digit of the number is found by trying it. -/
def readableDepth (source : List Char) : Nat :=
  (List.range (Nat.log2 source.length + 2)).foldr (fun i depth =>
    let deeper := depth + Nat.pow 2 i
    if (readTo? deeper source).isSome then deeper else depth) 0

def errorProgram (source : List Char) : ConcreteTree :=
  let start : Cursor := { rest := source }
  let stop := start.advance source.length
  tree "program" start stop [errorNode start stop]

/-- What is made of a text that cannot be read. -/
structure Recovery where
  tree : String → ConcreteTree
  hasError : ∀ source, (tree source).hasError = true

/-- All levels that can be read, with an error in the place of the others. -/
def Recovery.usual : Recovery where
  tree source :=
    match readTo? (readableDepth source.toList) source.toList with
    | some root => if root.hasError then root else errorProgram source.toList
    | none => errorProgram source.toList
  hasError source := by
    split
    · split
      · assumption
      · rfl
    · rfl

end Sil.SourceText
