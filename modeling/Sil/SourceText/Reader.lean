import Sil.SourceText.Statement

/-!
Reading JavaScript text: its concrete tree, if it has one without errors.
-/
namespace Sil.SourceText

open Scan

/-- The grammar whose parts contain parts of the given one. -/
def Grammar.nested (g : Grammar) : Grammar where
  size := g.size
  expression := SourceText.expression g
  binary := SourceText.binary g
  operand := SourceText.operand g
  constructor := constructorTerm g
  statement := SourceText.statement g
  element := SourceText.element g

/-- The grammar with `depth` more levels of nesting. -/
def Grammar.deepen : Nat → Grammar → Grammar
  | 0, g => g
  | depth + 1, g => Grammar.deepen depth g.nested

def hashBangLine : Scan (List ConcreteTree) := do
  let start ← get
  if start.startsWith "#!" then
    take (start.rest.takeWhile (!isLineEnd ·)).length
    return [tree "hash_bang_line" start (← get) []]
  else return []

def program (g : Grammar) : Scan ConcreteTree := do
  let start := (← get).skipSpace
  set start
  let header ← hashBangLine
  let body ← iterate (fun body => do
    let c ← skip
    if c.rest.isEmpty then return none
    return some (body ++ [← g.statement])) g.size []
  let c ← skip
  require c.rest.isEmpty
  return tree "program" start c (header ++ body)

/-- The concrete tree of a source text, if it can be read. -/
def read? (source : List Char) : Option ConcreteTree :=
  let size := source.length + 2
  ((program (Grammar.deepen size (Grammar.empty size))).run { rest := source }).map (·.1)

end Sil.SourceText
