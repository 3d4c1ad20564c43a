import Sil.SourceText.Grammar

/-!
Patterns, array and object literals, parameters, functions and classes.
-/
namespace Sil.SourceText

open Scan

/-- Items with commas between them up to a closing mark, which is consumed. A comma may stand before
the closing mark. -/
def itemsUntil {α : Type} (g : Grammar) (closing : String) (item : Scan α) : Scan (List α) := do
  let items ← iterate (fun (items, done) => do
    if done || (← nextMark) == closing then return none
    let a ← item
    let more ← punct? ","
    return some (items ++ [a], !more)) g.size ([], false)
  let _ ← punct closing
  return items.1

def nextChar : Scan (Option Char) := do return (← get).skipTrivia.rest.head?

def privateName : Scan ConcreteTree := do
  let start ← skip
  require (start.rest.head? == some '#')
  take 1
  let n := nameLength (← get).rest
  require (0 < n)
  take n
  return tree "private_property_identifier" start (← get) []

/-- The key of a member in an object or a class: a word, a string, a number, a private name or an
expression in brackets. -/
def propertyName (g : Grammar) : Scan Unit := do
  match ← nextChar with
  | some '[' =>
    let _ ← punct "["
    let _ ← g.value false
    let _ ← punct "]"
  | some '#' => let _ ← privateName
  | some '"' => let _ ← string
  | some '\x27' => let _ ← string
  | some c =>
    if Numeral.isDigit c || c == '.' then let _ ← number
    else let _ ← anyWord
  | none => fail

/-- An item of an array literal: a hole, the rest after dots, or a value. The result says whether
the item can be part of an expression and of a pattern. -/
def arrayItem (g : Grammar) : Scan (Bool × Bool) := do
  if (← nextMark) == "," then return (true, true)
  else if ← punct? "..." then
    let t ← g.expression false
    return (t.isExpression, t.isPattern)
  else
    let t ← g.expression false
    return (t.isExpression, t.isPatternItem)

def collectionTerm (kind : String) (start stop : Cursor) (items : List (Bool × Bool)) : Term :=
  ⟨tree kind start stop [], .collection (items.all (·.1)) (items.all (·.2))⟩

def arrayLiteral (g : Grammar) : Scan Term := do
  let start ← skip
  let _ ← punct "["
  let items ← itemsUntil g "]" (arrayItem g)
  return collectionTerm "array" start (← get) items

/-- A block with its statements. Between statements a line of markup comment counts as one. -/
def block (g : Grammar) : Scan ConcreteTree := do
  let start ← skip
  let opening ← punct "\x7b"
  let body ← iterate (fun body => do
    if (← nextMark) == "\x7d" then return none
    return some (body ++ [← g.statement])) g.size []
  let closing ← punct "\x7d"
  return tree "statement_block" start (← get) (opening :: body ++ [closing])

def bindingPattern (arrayOrObject : Scan Term) : Scan ConcreteTree := do
  match ← nextMark with
  | "[" | "\x7b" =>
    let t ← arrayOrObject
    require t.isPattern
    return asPattern t.tree
  | _ => identifier

/-- A formal parameter: a pattern, the rest after dots, or a pattern with a default value. -/
def parameter (g : Grammar) (pattern : Scan ConcreteTree) : Scan ConcreteTree := do
  let start ← skip
  if ← punct? "..." then
    let _ ← pattern
    return tree "rest_pattern" start (← get) []
  else
    let p ← pattern
    if ← punct? "=" then
      let _ ← g.value false
      return tree "assignment_pattern" start (← get) []
    else return p

def parametersWith (g : Grammar) (pattern : Scan ConcreteTree) : Scan ConcreteTree := do
  let start ← skip
  let _ ← punct "("
  let items ← itemsUntil g ")" (parameter g pattern)
  return tree "formal_parameters" start (← get) items

def modifierWords : List String := ["static", "async", "get", "set", "accessor"]

def marksAfterKey : List String := ["(", ",", ":", "=", ";", "\x7d"]

/-- Whether a word before a member's key is a modifier of the member and not the key itself. -/
def isModifier (w : String) : Scan Bool := do
  let after ← afterWord nextMark
  return modifierWords.contains w && !marksAfterKey.contains after

/-- Skips the modifiers of a member and says whether there are any. -/
def modifiers (g : Grammar) : Scan Bool := do
  let found ← iterate (fun (_ : Bool) => do
    let w ← nextWord
    if ← isModifier w then
      let _ ← anyWord
      return some true
    else return none) g.size false
  let star ← punct? "*"
  return found || star

/-- A member of an object literal or the place of one that is left out, with whether it can be part
of an expression and of a pattern. -/
def objectMember (g : Grammar) (pattern : Scan ConcreteTree) : Scan (Bool × Bool) := do
  if (← nextMark) == "," then return (true, true)
  else if ← punct? "..." then
    let t ← g.expression false
    return (t.isExpression, t.isPattern)
  else
    let modified ← modifiers g
    let w ← nextWord
    let isName := !modified && w != "" && !reservedWords.contains w
    propertyName g
    match ← nextMark with
    | "(" =>
      let _ ← parametersWith g pattern
      let _ ← block g
      return (true, false)
    | ":" =>
      require (!modified)
      let _ ← punct ":"
      let t ← g.expression false
      return (t.isExpression, t.isPatternItem)
    | "=" =>
      require isName
      let _ ← punct "="
      let _ ← g.value false
      return (false, true)
    | _ =>
      require isName
      return (true, true)

/-- The patterns inside an object literal nest through the expressions of the grammar. -/
def nestedPattern (g : Grammar) : Scan ConcreteTree := do
  match ← nextMark with
  | "[" | "\x7b" =>
    let t ← g.operand false
    require t.isPattern
    return asPattern t.tree
  | _ => identifier

def objectLiteral (g : Grammar) : Scan Term := do
  let start ← skip
  let _ ← punct "\x7b"
  let items ← itemsUntil g "\x7d" (objectMember g (nestedPattern g))
  return collectionTerm "object" start (← get) items

/-- A name or a destructuring pattern that is being declared. -/
def pattern (g : Grammar) : Scan ConcreteTree := do
  match ← nextMark with
  | "[" => bindingPattern (arrayLiteral g)
  | _ => bindingPattern (objectLiteral g)

def parameters (g : Grammar) : Scan ConcreteTree := parametersWith g (pattern g)

/-- A function after the word for it: whether it is a generator, its name, parameters and body. -/
def functionRest (g : Grammar) :
    Scan (Bool × Option ConcreteTree × ConcreteTree × ConcreteTree) := do
  let generator ← punct? "*"
  let name ← attempt identifier
  let params ← parameters g
  return (generator, name, params, ← block g)

def functionExpression (g : Grammar) : Scan ConcreteTree := do
  let start ← skip
  let _ ← word? "async"
  let _ ← word "function"
  let (generator, _, _, _) ← functionRest g
  return tree (if generator then "generator_function" else "function_expression") start (← get) []

def decorators (g : Grammar) : Scan Unit := do
  let _ ← iterate (fun _ => do
    if ← punct? "@" then
      let _ ← g.operand false
      return some ()
    else return none) g.size ()

/-- A member of a class: a method, a field, a static block or a lone semicolon. -/
def classMember (g : Grammar) : Scan Unit := do
  if ← punct? ";" then return
  decorators g
  if (← nextWord) == "static" && (← afterWord nextMark) == "\x7b" then
    let _ ← anyWord
    let _ ← block g
    return
  let _ ← modifiers g
  propertyName g
  if (← nextMark) == "(" then
    let _ ← parameters g
    let _ ← block g
  else
    let hasValue ← punct? "="
    if hasValue then let _ ← g.value false
    let _ ← semicolon hasValue

/-- A class after its decorators, with whether it has a name. -/
def classRest (g : Grammar) : Scan Bool := do
  let _ ← word "class"
  let w ← nextWord
  let named := w != "" && w != "extends"
  if named then let _ ← identifier
  if ← word? "extends" then let _ ← g.operand false
  let _ ← punct "\x7b"
  let _ ← iterate (fun _ => do
    if (← nextMark) == "\x7d" then return none
    classMember g
    return some ()) g.size ()
  let _ ← punct "\x7d"
  return named

def classExpression (g : Grammar) : Scan ConcreteTree := do
  let start ← skip
  decorators g
  let _ ← classRest g
  return tree "class" start (← get) []

end Sil.SourceText
