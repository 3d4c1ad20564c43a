import Sil.SourceText.Grammar

/-!
Markup elements inside expressions.
-/
namespace Sil.SourceText

open Scan

def isMarkupNameChar (c : Char) : Bool := isNameChar c || c == '-' || c == '.' || c == ':'

def markupName : Scan Unit := do
  let start ← skip
  let n := (start.rest.takeWhile isMarkupNameChar).length
  require (0 < nameLength start.rest)
  take n

/-- A string in an attribute, which has no escapes. -/
def markupString : Scan Unit := do
  let start ← skip
  match start.rest with
  | quote :: rest =>
    require (quote == '"' || quote == '\x27')
    let n := (rest.takeWhile (· != quote)).length
    require (n < rest.length)
    take (n + 2)
  | [] => fail

/-- An expression in braces; it may be empty or open with dots. -/
def markupExpression (g : Grammar) : Scan Unit := do
  let _ ← punct "\x7b"
  if (← nextMark) != "\x7d" then
    let _ ← punct? "..."
    let _ ← g.expressions false
  let _ ← punct "\x7d"

def markupAttribute (g : Grammar) : Scan Unit := do
  if (← nextMark) == "\x7b" then markupExpression g
  else
    markupName
    if (← nextMark) == "=" then
      let _ ← punct "="
      match (← get).skipTrivia.rest.head? with
      | some '\x7b' => markupExpression g
      | some '<' => let _ ← g.element
      | _ => markupString

def sign (c : Char) : Scan Unit := do
  let start ← skip
  require (start.rest.head? == some c)
  take 1

/-- The start of an element up to its closing bracket, with whether it has no content. -/
def openingTag (g : Grammar) : Scan Bool := do
  sign '<'
  if (← get).skipTrivia.rest.head? != some '>' then
    markupName
    iterate (fun _ => do
      let next := (← get).skipTrivia.rest.head?
      if next == some '>' || next == some '/' then return none
      markupAttribute g
      return some ()) g.size ()
  let closed := (← get).skipTrivia.rest.head? == some '/'
  if closed then sign '/'
  sign '>'
  return closed

/-- The content of an element: text, expressions and elements up to its end. -/
def markupContent (g : Grammar) : Scan Unit :=
  iterate (fun _ => do
    take ((← get).rest.takeWhile fun c => c != '<' && c != '\x7b' && c != '>' && c != '\x7d').length
    match (← get).rest with
    | '\x7b' :: _ =>
      markupExpression g
      return some ()
    | '<' :: rest =>
      if (rest.dropWhile isSpace).head? == some '/' then return none
      let _ ← g.element
      return some ()
    | _ => fail) g.size ()

def closingTag : Scan Unit := do
  sign '<'
  sign '/'
  if (← get).skipTrivia.rest.head? != some '>' then markupName
  sign '>'

def element (g : Grammar) : Scan ConcreteTree := do
  let start ← skip
  if ← openingTag g then return tree "jsx_self_closing_element" start (← get) []
  else
    markupContent g
    closingTag
    return tree "jsx_element" start (← get) []

end Sil.SourceText
