import Sil.SourceText.Expression
import Sil.SourceText.Markup

/-!
Statements. Those that can be lowered keep all their parts; of the others only the extent is kept.
-/
namespace Sil.SourceText

open Scan

def condition (g : Grammar) : Scan ConcreteTree := do
  let start ← skip
  let opening ← punct "("
  let e ← g.expressions false
  let closing ← punct ")"
  return tree "parenthesized_expression" start (← get) [opening, e, closing]

def declarator (g : Grammar) (noIn : Bool) : Scan ConcreteTree := do
  let start ← skip
  let name := (← pattern g).inField "name"
  if (← nextMark) == "=" then
    let sign ← punct "="
    let value ← g.value noIn
    return tree "variable_declarator" start (← get) [name, sign, value.inField "value"]
  else return tree "variable_declarator" start (← get) [name]

def declarators (g : Grammar) (noIn : Bool) : Scan (List ConcreteTree) := do
  let first ← declarator g noIn
  iterate (fun found => do
    if (← nextMark) == "," then
      let comma ← punct ","
      return some (found ++ [comma, ← declarator g noIn])
    else return none) g.size [first]

def endsWithValue (ds : List ConcreteTree) : Bool :=
  match ds.getLast? with
  | some d => 1 < d.children.length
  | none => false

/-- A declaration of variables up to its end, which depends on whether the last one has a value. -/
def declarationUntil (g : Grammar) (keyword : String) (noIn : Bool)
    (stop : Bool → Scan (List ConcreteTree)) : Scan ConcreteTree := do
  let kind := if keyword = "var" then "variable_declaration" else "lexical_declaration"
  let start ← skip
  let w ← word keyword
  let ds ← declarators g noIn
  let closing ← stop (endsWithValue ds)
  return tree kind start (← get) (w.inField "kind" :: ds ++ closing)

def declaration (g : Grammar) (keyword : String) : Scan ConcreteTree :=
  declarationUntil g keyword false semicolon

/-- Whether the word `let` ahead starts a declaration. In the header of a loop, `of` after it is a
name only if something else than a word follows. -/
def declaresAhead (inHeader : Bool) : Scan Bool :=
  afterWord do
    let w ← nextWord
    let m ← nextMark
    let afterName ← afterWord nextMark
    if w == "of" then return !inHeader || afterName != ""
    else return (w != "" && !joiningWords.contains w) || m == "[" || m == "\x7b"

def ifStatement (g : Grammar) : Scan ConcreteTree := do
  let start ← skip
  let w ← word "if"
  let test := (← condition g).inField "condition"
  let consequence := (← g.statement).inField "consequence"
  if (← nextWord) == "else" then
    let elseStart ← skip
    let elseWord ← word "else"
    let body ← g.statement
    let clause := tree "else_clause" elseStart (← get) [elseWord, body]
    return tree "if_statement" start (← get)
      [w, test, consequence, clause.inField "alternative"]
  else return tree "if_statement" start (← get) [w, test, consequence]

def whileStatement (g : Grammar) : Scan ConcreteTree := do
  let start ← skip
  let w ← word "while"
  let test := (← condition g).inField "condition"
  let body := (← g.statement).inField "body"
  return tree "while_statement" start (← get) [w, test, body]

def doStatement (g : Grammar) : Scan ConcreteTree := do
  let start ← skip
  let _ ← word "do"
  let _ ← g.statement
  let _ ← word "while"
  let _ ← condition g
  let _ ← punct? ";"
  return tree "do_statement" start (← get) []

def emptyStatement : Scan ConcreteTree := do
  let start ← skip
  let _ ← punct ";"
  return tree "empty_statement" start (← get) []

/-- The header of a loop over a collection, from its opening parenthesis on. -/
def collectionHeader (g : Grammar) : Scan Unit := do
  let _ ← punct "("
  let w ← nextWord
  if ["var", "const", "let", "using"].contains w && (← declaresAhead true) then
    let _ ← anyWord
    let _ ← pattern g
    if w == "var" && (← nextMark) == "=" then
      let _ ← punct "="
      let _ ← g.value true
  else
    let t ← g.operand true
    require (t.isTarget)
  let joined ← anyWord
  require (joined == "in" || joined == "of")
  let _ ← g.expressions false
  let _ ← punct ")"

def loopClause (g : Grammar) (field : String) (noIn : Bool) : Scan (List ConcreteTree) := do
  if (← nextMark) == ";" then return [(← emptyStatement).inField field]
  let e ← g.expressions noIn
  let semi ← punct ";"
  return [e.inField field, semi]

def loopInitializer (g : Grammar) : Scan (List ConcreteTree) := do
  let w ← nextWord
  if w == "var" || w == "const" || (w == "let" && (← declaresAhead true)) then
    let d ← declarationUntil g w true fun _ => do return [← punct ";"]
    return [d.inField "initializer"]
  else loopClause g "initializer" true

def forStatement (g : Grammar) : Scan ConcreteTree := do
  let start ← skip
  let w ← word "for"
  let _ ← word? "await"
  match ← attempt (collectionHeader g) with
  | some _ =>
    let _ ← g.statement
    return tree "for_in_statement" start (← get) []
  | none =>
    let opening ← punct "("
    let init ← loopInitializer g
    let test ← loopClause g "condition" false
    let update ← if (← nextMark) == ")" then pure []
      else do pure [(← g.expressions false).inField "increment"]
    let closing ← punct ")"
    let body := (← g.statement).inField "body"
    return tree "for_statement" start (← get)
      (w :: opening :: init ++ test ++ update ++ [closing, body])

def returnStatement (g : Grammar) : Scan ConcreteTree := do
  let start ← skip
  let w ← word "return"
  let bare := (← endsHere false) || (← nextMark) == ";"
  let value ← if bare then pure [] else do pure [← g.expressions false]
  let semi ← semicolon !bare
  return tree "return_statement" start (← get) (w :: value ++ semi)

def jumpStatement (kind keyword : String) : Scan ConcreteTree := do
  let start ← skip
  let _ ← word keyword
  if !((← endsHere false) || (← nextMark) == ";") then
    let _ ← identifier
  let _ ← semicolon false
  return tree kind start (← get) []

def throwStatement (g : Grammar) : Scan ConcreteTree := do
  let start ← skip
  let _ ← word "throw"
  let _ ← g.expressions false
  let _ ← semicolon true
  return tree "throw_statement" start (← get) []

def debuggerStatement : Scan ConcreteTree := do
  let start ← skip
  let _ ← word "debugger"
  let _ ← semicolon false
  return tree "debugger_statement" start (← get) []

def tryStatement (g : Grammar) : Scan ConcreteTree := do
  let start ← skip
  let _ ← word "try"
  let _ ← block g
  if ← word? "catch" then
    if ← punct? "(" then
      let _ ← pattern g
      let _ ← punct ")"
    let _ ← block g
  if ← word? "finally" then
    let _ ← block g
  return tree "try_statement" start (← get) []

def switchCase (g : Grammar) : Scan Unit := do
  if ← word? "default" then pure ()
  else
    let _ ← word "case"
    let _ ← g.expressions false
  let _ ← punct ":"
  iterate (fun _ => do
    let w ← nextWord
    if w == "case" || w == "default" || (← nextMark) == "\x7d" then return none
    let _ ← g.statement
    return some ()) g.size ()

def switchStatement (g : Grammar) : Scan ConcreteTree := do
  let start ← skip
  let _ ← word "switch"
  let _ ← condition g
  let _ ← punct "\x7b"
  iterate (fun _ => do
    if (← nextMark) == "\x7d" then return none
    switchCase g
    return some ()) g.size ()
  let _ ← punct "\x7d"
  return tree "switch_statement" start (← get) []

def withStatement (g : Grammar) : Scan ConcreteTree := do
  let start ← skip
  let _ ← word "with"
  let _ ← condition g
  let _ ← g.statement
  return tree "with_statement" start (← get) []

def functionNamedAhead : Scan Bool :=
  look do
    let _ ← word? "async"
    let _ ← word? "function"
    let _ ← punct? "*"
    let w ← nextWord
    return w != "" && !reservedWords.contains w

/-- A function that is declared. A generator is of a foreign kind. -/
def functionDeclaration (g : Grammar) : Scan ConcreteTree := do
  let start ← skip
  let _ ← word? "async"
  let w ← word "function"
  match ← functionRest g with
  | (generator, some name, params, body) =>
    if generator then return tree "generator_function_declaration" start (← get) []
    else
      return tree "function_declaration" start (← get)
        [w, name.inField "name", params.inField "parameters", body.inField "body"]
  | _ => fail

def classNamedAhead : Scan Bool := do
  let w ← afterWord nextWord
  return w != "" && !reservedWords.contains w

/-- A class that is declared, whose decorators started at `start`. -/
def classDeclaration (g : Grammar) (start : Cursor) : Scan ConcreteTree := do
  require (← classRest g)
  return tree "class_declaration" start (← get) []

/-- A declaration whose value is disposed of at the end of its block. -/
def usingDeclaration (g : Grammar) : Scan ConcreteTree := do
  let start ← skip
  let _ ← word? "await"
  let _ ← word "using"
  let ds ← declarators g false
  let _ ← semicolon (endsWithValue ds)
  return tree "using_declaration" start (← get) []

/-- A name that crosses a module's border, with another name if one is given. -/
def moduleName : Scan Unit := do
  let plain : Scan Unit := do
    if (← nextWord) != "" then let _ ← anyWord
    else let _ ← string
  plain
  if ← word? "as" then plain

def moduleNames (g : Grammar) : Scan Unit := do
  let _ ← punct "\x7b"
  let _ ← itemsUntil g "\x7d" moduleName

def moduleSource (g : Grammar) : Scan Unit := do
  let _ ← string
  let w ← nextWord
  if w == "with" || w == "assert" then
    let _ ← anyWord
    let t ← objectLiteral g
    require t.isExpression

def importClause (g : Grammar) : Scan Unit := do
  let single : Scan Unit := do
    match ← nextMark with
    | "*" =>
      let _ ← punct "*"
      let _ ← word "as"
      let _ ← identifier
    | "\x7b" => moduleNames g
    | _ => let _ ← identifier
  single
  if ← punct? "," then single

def importStatement (g : Grammar) : Scan ConcreteTree := do
  let start ← skip
  let _ ← word "import"
  let quoted := match ← nextChar with
    | some c => c == '"' || c == '\x27'
    | none => false
  if !quoted then
    importClause g
    let _ ← word "from"
  moduleSource g
  let _ ← semicolon false
  return tree "import_statement" start (← get) []

def exportable (g : Grammar) : Scan Unit := do
  let w ← nextWord
  match w with
  | "function" | "async" => let _ ← functionDeclaration g
  | "class" => let _ ← classDeclaration g (← get)
  | "var" | "let" | "const" => let _ ← declaration g w
  | _ => let _ ← usingDeclaration g

def exportableAhead : Scan Bool := do
  match ← nextWord with
  | "function" => functionNamedAhead
  | "async" => if (← afterWord nextWord) == "function" then functionNamedAhead else return false
  | "class" => classNamedAhead
  | "var" | "let" | "const" => return true
  | _ => return false

def exportStatement (g : Grammar) (start : Cursor) : Scan ConcreteTree := do
  let _ ← word "export"
  match ← nextMark with
  | "*" =>
    let _ ← punct "*"
    if ← word? "as" then moduleName
    let _ ← word "from"
    moduleSource g
    let _ ← semicolon false
  | "\x7b" =>
    moduleNames g
    if ← word? "from" then moduleSource g
    let _ ← semicolon false
  | _ =>
    if ← word? "default" then
      if ← exportableAhead then exportable g
      else
        let _ ← g.value false
        let _ ← semicolon true
    else exportable g
  return tree "export_statement" start (← get) []

def expressionStatement (g : Grammar) : Scan ConcreteTree := do
  let start ← skip
  let e ← g.expressions false
  let semi ← semicolon true
  return tree "expression_statement" start (← get) (e :: semi)

def labeledStatement (g : Grammar) : Scan ConcreteTree := do
  let start ← skip
  let _ ← identifier
  let _ ← punct ":"
  let _ ← g.statement
  return tree "labeled_statement" start (← get) []

def decorated (g : Grammar) : Scan ConcreteTree := do
  let start ← skip
  decorators g
  if (← nextWord) == "export" then exportStatement g start else classDeclaration g start

def markupCommentAt (c : Cursor) : Bool := c.startsWith "<!--" || c.startsWith "-->"

/-- A comment in the manner of markup, which goes on to the end of its line. -/
def markupComment : Scan ConcreteTree := do
  let start ← skip
  require (markupCommentAt start)
  take (start.rest.takeWhile (!isLineEnd ·)).length
  return tree "html_comment" start (← get) []

def wordsAhead : Scan (String × String × String) := do
  let w ← nextWord
  if w == "" then return ("", "", ← nextMark)
  else afterWord do return (w, ← nextWord, ← nextMark)

def statement (g : Grammar) : Scan ConcreteTree := do
  if markupCommentAt (← get).skipTrivia then markupComment
  else
    let (w, follower, m) ← wordsAhead
    match w with
    | "" =>
      match m with
      | "\x7b" => block g
      | ";" => emptyStatement
      | "@" => decorated g
      | _ => expressionStatement g
    | "var" => declaration g "var"
    | "const" => declaration g "const"
    | "let" => if ← declaresAhead false then declaration g "let" else expressionStatement g
    | "if" => ifStatement g
    | "while" => whileStatement g
    | "do" => doStatement g
    | "for" => forStatement g
    | "return" => returnStatement g
    | "break" => jumpStatement "break_statement" "break"
    | "continue" => jumpStatement "continue_statement" "continue"
    | "throw" => throwStatement g
    | "debugger" => debuggerStatement
    | "try" => tryStatement g
    | "switch" => switchStatement g
    | "with" => withStatement g
    | "function" =>
      if ← functionNamedAhead then functionDeclaration g else expressionStatement g
    | "async" =>
      let named ← functionNamedAhead
      if follower == "function" && named then functionDeclaration g
      else if m == ":" then labeledStatement g
      else expressionStatement g
    | "class" =>
      if ← classNamedAhead then classDeclaration g (← skip) else expressionStatement g
    | "import" =>
      if m == "(" || m == "." then expressionStatement g else importStatement g
    | "export" => exportStatement g (← skip)
    | _ =>
      if m == ":" && !reservedWords.contains w then labeledStatement g
      else
        let third ← afterWord (afterWord nextWord)
        let isName (w : String) : Bool := w != "" && !joiningWords.contains w
        if (w == "using" && isName follower) ||
          (w == "await" && follower == "using" && isName third) then
          usingDeclaration g
        else expressionStatement g

end Sil.SourceText
