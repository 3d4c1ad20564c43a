import Sil.SourceText.Semicolon

/-!
The parts of the grammar that contain each other. A grammar holds a parser for each of them; the
productions take a grammar for the parts they contain, so that reading nests once for every level of
the source.
-/
namespace Sil.SourceText

/-- What an expression can still turn out to be once its surroundings are read. -/
inductive Form where
  /-- A variable. -/
  | name
  /-- A member of an object. -/
  | member
  /-- An expression in parentheses. -/
  | grouped
  /-- An array or object literal, which may be an expression, a pattern, or both. -/
  | collection (isExpression isPattern : Bool)
  /-- An assignment, which may be an item of a pattern with a default value. -/
  | assigned
  | other

/-- An expression as it was read, with what else it can be. -/
structure Term where
  tree : ConcreteTree
  form : Form := .other

namespace Term

def isExpression (t : Term) : Bool :=
  match t.form with
  | .collection isExpression _ => isExpression
  | _ => true

def isPattern (t : Term) : Bool :=
  match t.form with
  | .name | .member => true
  | .collection _ isPattern => isPattern
  | _ => false

/-- Whether the term can be an item of a pattern or a parameter. -/
def isPatternItem (t : Term) : Bool :=
  match t.form with
  | .assigned => true
  | _ => t.isPattern

def isTarget (t : Term) : Bool :=
  match t.form with
  | .grouped => true
  | _ => t.isPattern

def isUpdatable (t : Term) : Bool :=
  match t.form with
  | .name | .member | .grouped => true
  | _ => false

end Term

def asPattern : ConcreteTree → ConcreteTree
  | .node kind extent named field standing children =>
    let kind :=
      if kind = "array" then "array_pattern" else if kind = "object" then "object_pattern" else kind
    .node kind extent named field standing children

/-- A parser for each part of the grammar that may contain others. The flag of the expression
parsers says whether the operator `in` is to be left alone, as in the header of a loop. -/
structure Grammar where
  /-- More than the number of items that any list of the source can have. -/
  size : Nat
  /-- An expression without a comma. -/
  expression : Bool → Scan Term
  /-- Operands joined by operators that bind at least as tightly as a given level. -/
  binary : Bool → Nat → Scan Term
  /-- An operand of a binary operator. -/
  operand : Bool → Scan Term
  /-- What can follow `new`. -/
  constructor : Scan Term
  statement : Scan ConcreteTree
  /-- An element of markup. -/
  element : Scan ConcreteTree

namespace Grammar

def empty (size : Nat) : Grammar where
  size := size
  expression _ := Scan.fail
  binary _ _ := Scan.fail
  operand _ := Scan.fail
  constructor := Scan.fail
  statement := Scan.fail
  element := Scan.fail

def value (g : Grammar) (noIn : Bool) : Scan ConcreteTree := do
  let t ← g.expression noIn
  Scan.require t.isExpression
  return t.tree

def expressions (g : Grammar) (noIn : Bool) : Scan ConcreteTree := do
  let start ← Scan.skip
  let first ← g.value noIn
  if (← Scan.nextMark) == "," then
    Scan.iterate (fun _ => do
      if ← Scan.punct? "," then
        let _ ← g.value noIn
        return some ()
      else return none) g.size ()
    return tree "sequence_expression" start (← get) []
  else return first

end Grammar
end Sil.SourceText
