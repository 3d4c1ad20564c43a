import Sil.SourceText.Function

/-!
Expressions. Binary operators are read by their levels; an operand that can be assigned to takes the
assignment after it with all that is on its right side.
-/
namespace Sil.SourceText

open Scan

/-- The level of a binary operator: a higher one binds more tightly. -/
def operatorLevel? (noIn : Bool) (op : String) : Option Nat :=
  match op with
  | "??" => some 1
  | "||" => some 2
  | "&&" => some 3
  | "|" => some 4
  | "^" => some 5
  | "&" => some 6
  | "==" | "!=" | "===" | "!==" => some 7
  | "<" | ">" | "<=" | ">=" | "instanceof" => some 8
  | "in" => if noIn then none else some 8
  | "<<" | ">>" | ">>>" => some 9
  | "+" | "-" => some 10
  | "*" | "/" | "%" => some 11
  | "**" => some 12
  | _ => none

/-- The operators that assign a value computed from the old one. -/
def updatingOperators : List String :=
  ["+=", "-=", "*=", "/=", "%=", "^=", "&=", "|=", ">>=", ">>>=", "<<=", "**=", "&&=", "||=", "??="]

/-- The length of the characters of a template up to its end or the next expression in it; the first
`skip` of them belong to an escape. It ends at an escape that is none. -/
def templateRun (skip : Nat) : List Char → Nat
  | [] => 0
  | c :: rest =>
    match skip with
    | skip + 1 => templateRun skip rest + 1
    | 0 =>
      if c = '\x60' || (c = '$' && rest.head? == some '\x7b') then 0
      else if c = '\\' then
        match escapeLength? (c :: rest) with
        | some n => templateRun (n - 1) rest + 1
        | none => 0
      else templateRun 0 rest + 1

def template (g : Grammar) : Scan ConcreteTree := do
  let start ← skip
  require (start.rest.head? == some '\x60')
  take 1
  iterate (fun _ => do
    take (templateRun 0 (← get).rest)
    if (← get).startsWith "$\x7b" then
      take 2
      let _ ← g.expressions false
      let _ ← punct "\x7d"
      return some ()
    else return none) g.size ()
  require ((← get).rest.head? == some '\x60')
  take 1
  return tree "template_string" start (← get) []

/-- The length of a regular expression's body, which a slash outside brackets ends. -/
def regexRun (inClass skip : Bool) : List Char → Nat
  | [] => 0
  | c :: rest =>
    if c = '\n' then 0
    else if skip then regexRun inClass false rest + 1
    else if c = '/' && !inClass then 0
    else if c = '[' then regexRun true false rest + 1
    else if c = ']' then regexRun false false rest + 1
    else regexRun inClass (c == '\\') rest + 1

def isLowerLetter (c : Char) : Bool := 'a' ≤ c && c ≤ 'z'

def regex : Scan ConcreteTree := do
  let start ← skip
  require (start.rest.head? == some '/')
  take 1
  let body := regexRun false false (← get).rest
  require (0 < body && (← get).rest.head? != some '*')
  take body
  require ((← get).rest.head? == some '/')
  take 1
  take ((← get).rest.takeWhile isLowerLetter).length
  return tree "regex" start (← get) []

structure Group where
  /-- The items in order, with whether dots stand before them. -/
  items : List (Bool × Term) := []
  /-- Whether an item is left out. -/
  holes : Bool := false
  /-- Whether a comma stands after the last item. -/
  trailing : Bool := false

namespace Group

def isArguments (group : Group) : Bool := group.items.all fun (_, t) => t.isExpression

def isParameters (group : Group) : Bool :=
  !group.holes && group.items.all fun (dots, t) => if dots then t.isPattern else t.isPatternItem

def isValue (group : Group) : Bool :=
  !group.holes && !group.trailing && !group.items.isEmpty &&
    group.items.all fun (dots, t) => !dots && t.isExpression

end Group

/-- The items up to a closing parenthesis, which is not consumed. -/
def groupItems (g : Grammar) : Scan Group := do
  let (group, _) ← iterate (fun ((group, more) : Group × Bool) => do
    if !more || (← nextMark) == ")" then return none
    if ← punct? "," then return some ({ group with holes := true }, true)
    let dots ← punct? "..."
    let t ← g.expression false
    let comma ← punct? ","
    return some ({ group with items := group.items ++ [(dots, t)], trailing := comma }, comma))
    g.size ({}, true)
  return group

def arguments (g : Grammar) : Scan Unit := do
  let _ ← punct "("
  let group ← groupItems g
  require group.isArguments
  let _ ← punct ")"

/-- The body of an arrow function, which started at `start`. -/
def arrowRest (g : Grammar) (noIn : Bool) (start : Cursor) : Scan Term := do
  let _ ← punct "=>"
  if (← nextMark) == "\x7b" then
    let _ ← block g
  else
    let _ ← g.value noIn
  return ⟨tree "arrow_function" start (← get) [], .other⟩

/-- What stands between parentheses: the parameters of an arrow function, or an expression. -/
def parenthesized (g : Grammar) (noIn : Bool) : Scan Term := do
  let start ← skip
  let opening ← punct "("
  let inner ← skip
  let group ← groupItems g
  let innerEnd ← get
  let closing ← punct ")"
  if (← nextMark) == "=>" then
    require group.isParameters
    arrowRest g noIn start
  else
    require group.isValue
    let content := match group.items with
      | [(_, t)] => t.tree
      | _ => tree "sequence_expression" inner innerEnd []
    return ⟨tree "parenthesized_expression" start (← get) [opening, content, closing], .grouped⟩

/-- `async` as a name, a call of it, or an asynchronous arrow function. -/
def asyncTerm (g : Grammar) (noIn : Bool) : Scan Term := do
  let start ← skip
  let name ← identifier
  let asName : Term := ⟨name, .name⟩
  if (← nextMark) == "=>" then arrowRest g noIn start
  else if ← lineEndAhead then return asName
  else if ← punct? "(" then
    let group ← groupItems g
    let _ ← punct ")"
    if (← nextMark) == "=>" then
      require group.isParameters
      arrowRest g noIn start
    else
      require group.isArguments
      return ⟨tree "call_expression" start (← get) [], .other⟩
  else
    let arrow ← attempt (do
      let _ ← identifier
      arrowRest g noIn start)
    return arrow.getD asName

def nameTerm (g : Grammar) (noIn : Bool) : Scan Term := do
  let start ← skip
  let w ← nextWord
  let name ← identifier
  if (← nextMark) == "=>" then arrowRest g noIn start
  else
    let kind := if w = "undefined" then "undefined" else "identifier"
    return ⟨tree kind start (← get) name.children, .name⟩

def wordNode (kind : String) : Scan Term := do
  let start ← skip
  let _ ← anyWord
  return ⟨tree kind start (← get) [], .other⟩

/-- `import.meta`, or the callee of a dynamic import. -/
def importTerm : Scan Term := do
  let start ← skip
  let _ ← word "import"
  if ← punct? "." then
    let _ ← anyWord
    return ⟨tree "meta_property" start (← get) [], .other⟩
  else
    require ((← nextMark) == "(")
    return ⟨tree "import" start (← get) [], .other⟩

def wordTerm (g : Grammar) (noIn : Bool) : Scan Term := do
  match ← nextWord with
  | "this" => wordNode "this"
  | "super" => wordNode "super"
  | "null" => wordNode "null"
  | "true" => wordNode "true"
  | "false" => wordNode "false"
  | "function" => return ⟨← functionExpression g, .other⟩
  | "class" => return ⟨← classExpression g, .other⟩
  | "import" => importTerm
  | "async" =>
    let follower ← afterWord nextWord
    if follower == "function" then return ⟨← functionExpression g, .other⟩
    else asyncTerm g noIn
  | _ => nameTerm g noIn

def primary (g : Grammar) (noIn : Bool) : Scan Term := do
  match ← nextChar with
  | some '(' => parenthesized g noIn
  | some '[' => arrayLiteral g
  | some '\x7b' => objectLiteral g
  | some '\x60' => return ⟨← template g, .other⟩
  | some '"' => return ⟨← string, .other⟩
  | some '\x27' => return ⟨← string, .other⟩
  | some '/' => return ⟨← regex, .other⟩
  | some '<' => return ⟨← g.element, .other⟩
  | some '#' => return ⟨← privateName, .other⟩
  | some '@' => return ⟨← classExpression g, .other⟩
  | some '.' => return ⟨← number, .other⟩
  | some c => if Numeral.isDigit c then return ⟨← number, .other⟩ else wordTerm g noIn
  | none => fail

def memberName : Scan Unit := do
  if (← nextChar) == some '#' then let _ ← privateName
  else let _ ← anyWord

def memberStep (g : Grammar) (start : Cursor) : Scan (Option Term) := do
  match ← nextMark with
  | "." =>
    let _ ← punct "."
    memberName
    return some ⟨tree "member_expression" start (← get) [], .member⟩
  | "[" =>
    let _ ← punct "["
    let _ ← g.expressions false
    let _ ← punct "]"
    return some ⟨tree "subscript_expression" start (← get) [], .member⟩
  | _ => return none

def callStep (g : Grammar) (start : Cursor) : Scan (Option Term) := do
  match ← nextMark with
  | "(" =>
    arguments g
    return some ⟨tree "call_expression" start (← get) [], .other⟩
  | "?." =>
    let _ ← punct "?."
    match ← nextMark with
    | "(" =>
      arguments g
      return some ⟨tree "call_expression" start (← get) [], .other⟩
    | "[" => memberStep g start
    | _ =>
      memberName
      return some ⟨tree "member_expression" start (← get) [], .member⟩
  | _ =>
    if (← nextChar) == some '\x60' then
      let _ ← template g
      return some ⟨tree "call_expression" start (← get) [], .other⟩
    else return none

/-- A term followed by member accesses, and by calls if they are its own. -/
def chain (g : Grammar) (calls : Bool) (start : Cursor) (t : Term) : Scan Term :=
  if t.tree.kind = "arrow_function" then pure t
  else
    iterate (fun (t : Term) => do
      match ← memberStep g start with
      | some longer =>
        require t.isExpression
        return some longer
      | none =>
        if !calls then return none
        match ← callStep g start with
        | some longer =>
          require t.isExpression
          return some longer
        | none => return none) g.size t

def newTerm (g : Grammar) : Scan Term := do
  let start ← skip
  let _ ← word "new"
  if ← punct? "." then
    let _ ← word "target"
    return ⟨tree "meta_property" start (← get) [], .other⟩
  else
    let _ ← g.constructor
    if (← nextMark) == "(" then arguments g
    return ⟨tree "new_expression" start (← get) [], .other⟩

/-- What can follow `new`: a term with member accesses only. -/
def constructorTerm (g : Grammar) : Scan Term := do
  let start ← skip
  let t ← if (← nextWord) == "new" then newTerm g else primary g false
  chain g false start t

/-- A term with its calls, its update and the assignment to it. -/
def fullTerm (g : Grammar) (noIn : Bool) : Scan Term := do
  let start ← skip
  let t ← if (← nextWord) == "new" then newTerm g else primary g noIn
  let t ← chain g true start t
  let m ← nextMark
  if (m == "++" || m == "--") && !(← lineEndAhead) then
    require t.isExpression
    let _ ← punct m
    return ⟨tree "update_expression" start (← get) [], .other⟩
  else if m == "=" && t.isTarget then
    let operator ← punct "="
    let right ← g.value noIn
    return ⟨tree "assignment_expression" start (← get)
      [(asPattern t.tree).inField "left", operator, right.inField "right"],
      if t.isPattern then .assigned else .other⟩
  else if updatingOperators.contains m && t.isUpdatable then
    let operator ← punct m
    let right ← g.value noIn
    return ⟨tree "augmented_assignment_expression" start (← get)
      [t.tree.inField "left", operator.inField "operator", right.inField "right"], .other⟩
  else return t

def operated (g : Grammar) (noIn : Bool) (kind : String) (operator : Scan Unit) : Scan Term := do
  let start ← skip
  operator
  let t ← g.operand noIn
  require t.isExpression
  return ⟨tree kind start (← get) [], .other⟩

def operandAhead : Scan Bool := do
  let w ← nextWord
  if w != "" then return !joiningWords.contains w
  match ← nextChar with
  | some c =>
    return Numeral.isDigit c || "`\"'([\x7b!~".toList.contains c
  | none => return false

def yieldTerm (g : Grammar) (noIn : Bool) : Scan Term := do
  let start ← skip
  let _ ← word "yield"
  let delegates ← punct? "*"
  let ahead ← operandAhead
  if delegates || (ahead && !(← lineEndAhead)) then
    let _ ← g.value noIn
  return ⟨tree "yield_expression" start (← get) [], .other⟩

def operand (g : Grammar) (noIn : Bool) : Scan Term := do
  let m ← nextMark
  let w ← nextWord
  if ["!", "~", "+", "-"].contains m then
    operated g noIn "unary_expression" (do let _ ← punct m)
  else if m == "++" || m == "--" then
    operated g noIn "update_expression" (do let _ ← punct m)
  else if ["typeof", "void", "delete"].contains w then
    operated g noIn "unary_expression" (do let _ ← anyWord)
  else if w == "await" && (← afterWord operandAhead) then
    operated g noIn "await_expression" (do let _ ← anyWord)
  else if w == "yield" then yieldTerm g noIn
  else fullTerm g noIn

def operatorAhead (noIn : Bool) : Scan (Option (String × Nat)) := do
  let m ← nextMark
  let op ← if m == "" then nextWord else pure m
  return (operatorLevel? noIn op).map (op, ·)

/-- Operands joined by operators of at least the given level, from left to right. Only powers are
joined from right to left. -/
def binary (g : Grammar) (noIn : Bool) (level : Nat) : Scan Term := do
  let start ← skip
  let first ← operand g noIn
  iterate (fun (left : Term) => do
    match ← operatorAhead noIn with
    | none => return none
    | some (op, l) =>
      if l < level then return none
      require left.isExpression
      let mark ← if (← nextMark) == op then punct op else word op
      let right ← g.binary noIn (if op = "**" then l else l + 1)
      require right.isExpression
      return some ⟨tree "binary_expression" start (← get)
        [left.tree.inField "left", mark.inField "operator", right.tree.inField "right"],
        .other⟩) g.size first

/-- An expression without a comma: operands joined by operators, or a choice between two. -/
def expression (g : Grammar) (noIn : Bool) : Scan Term := do
  let start ← skip
  let t ← binary g noIn 0
  if (← nextMark) == "?" then
    require t.isExpression
    let _ ← punct "?"
    let _ ← g.value false
    let _ ← punct ":"
    let _ ← g.value noIn
    return ⟨tree "ternary_expression" start (← get) [], .other⟩
  else return t

end Sil.SourceText
