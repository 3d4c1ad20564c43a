import Sil.SourceText.Cursor
import Sil.Number.Numeral

/-!
Tokens. What may stand between them is skipped before each token, so that after a token the cursor
stands right at its end.
-/
namespace Sil.SourceText

/-- The spaces beyond the ASCII ones that part tokens. -/
def wideSpaces : List Nat :=
  [0xA0, 0x1680, 0x2000, 0x2001, 0x2002, 0x2003, 0x2004, 0x2005, 0x2006, 0x2007, 0x2008, 0x2009,
   0x200A, 0x200B, 0x2028, 0x2029, 0x202F, 0x205F, 0x2060, 0x3000, 0xFEFF]

def isSpace (c : Char) : Bool :=
  c == ' ' || (9 ≤ c.toNat && c.toNat ≤ 13) || wideSpaces.contains c.toNat

/-- The characters that end a line for comments and semicolons. -/
def isLineEnd (c : Char) : Bool := c == '\n' || c.toNat == 0x2028 || c.toNat == 0x2029

inductive TriviaMode where
  | space
  | lineComment
  | blockComment

/-- How many characters of space and comments a text opens with. A comment that is not closed is
none. -/
def triviaLength : TriviaMode → Nat → List Char → Nat
  | .space, n, '/' :: '/' :: rest => triviaLength .lineComment (n + 2) rest
  | .space, n, '/' :: '*' :: rest =>
    let closed := triviaLength .blockComment (n + 2) rest
    if closed = 0 then n else closed
  | .space, n, c :: rest => if isSpace c then triviaLength .space (n + 1) rest else n
  | .space, n, [] => n
  | .lineComment, n, c :: rest =>
    if isLineEnd c || c == '\r' then triviaLength .space (n + 1) rest
    else triviaLength .lineComment (n + 1) rest
  | .lineComment, n, [] => n
  | .blockComment, n, '*' :: '/' :: rest => triviaLength .space (n + 2) rest
  | .blockComment, n, _ :: rest => triviaLength .blockComment (n + 1) rest
  | .blockComment, _, [] => 0

namespace Cursor

def skipTrivia (c : Cursor) : Cursor := c.advance (triviaLength .space 0 c.rest)

/-- The next place that is no space; comments count as content. -/
def skipSpace (c : Cursor) : Cursor := c.advance (c.rest.takeWhile isSpace).length

end Cursor

/-- The ASCII characters that no name holds. -/
def separators : List Char := ":;`\"'@#.,|^&<=>+-*/\\%?!~()[]\x7b\x7d".toList

def isNameChar (c : Char) : Bool := 0x1F < c.toNat && !isSpace c && !separators.contains c

/-- The length of the escape that a text opens with, if it is one of a name. -/
def nameEscape? : List Char → Option Nat
  | '\\' :: 'u' :: '\x7b' :: rest =>
    let digits := rest.takeWhile fun c => (Numeral.digit? 16 c).isSome
    if digits.isEmpty || (rest.drop digits.length).head? != some '\x7d' then none
    else some (digits.length + 4)
  | '\\' :: 'u' :: rest =>
    if ((rest.take 4).filter fun c => (Numeral.digit? 16 c).isSome).length = 4 then some 6 else none
  | _ => none

/-- The length of the name characters that a text opens with; the first `skip` of them belong to an
escape. -/
def nameRest (skip : Nat) : List Char → Nat
  | [] => 0
  | c :: rest =>
    match skip with
    | skip + 1 => nameRest skip rest + 1
    | 0 =>
      if isNameChar c then nameRest 0 rest + 1
      else
        match nameEscape? (c :: rest) with
        | some n => nameRest (n - 1) rest + 1
        | none => 0

def nameLength (cs : List Char) : Nat :=
  match cs with
  | c :: _ => if Numeral.isDigit c then 0 else nameRest 0 cs
  | [] => 0

def reservedWords : List String :=
  ["break", "case", "catch", "class", "const", "continue", "debugger", "default", "delete", "do",
   "else", "export", "extends", "false", "finally", "for", "function", "if", "import", "in",
   "instanceof", "new", "null", "return", "super", "switch", "this", "throw", "true", "try",
   "typeof", "var", "void", "while", "with"]

/-- The words that stand between two operands, or between a variable and what a loop runs over. -/
def joiningWords : List String := ["in", "instanceof", "of"]

/-- The punctuation of the language, longer marks before their beginnings. -/
def punctuators : List String :=
  [">>>=", "...", "===", "!==", "**=", "<<=", ">>=", ">>>", "&&=", "||=", "??=", "=>", "==", "!=",
   "<=", ">=", "&&", "||", "??", "?.", "++", "--", "+=", "-=", "*=", "/=", "%=", "&=", "|=", "^=",
   "<<", ">>", "**", "\x7b", "\x7d", "(", ")", "[", "]", ";", ",", "<", ">", "+", "-", "*", "/",
   "%", "&", "|", "^", "!", "~", "?", ":", "=", ".", "@"]

/-- The mark that a text opens with, or the empty string. A question mark before a number is one of
its own. -/
def punctuatorAt (c : Cursor) : String :=
  match c.rest with
  | '?' :: '.' :: d :: _ => if Numeral.isDigit d then "?" else "?."
  | _ => (punctuators.find? c.startsWith).getD ""

namespace Scan

/-- The place of the next token, which becomes the current one. -/
def skip : Scan Cursor := do
  modify Cursor.skipTrivia
  get

def nextMark : Scan String := do return punctuatorAt (← get).skipTrivia

/-- The next word, reserved or not, with nothing consumed; the empty string if there is none. -/
def nextWord : Scan String := do
  let c := (← get).skipTrivia
  return String.ofList (c.rest.take (nameLength c.rest))

def punct (s : String) : Scan ConcreteTree := do
  let start ← skip
  require (punctuatorAt start == s)
  take s.length
  return mark s start (← get)

/-- Whether the next mark is the given one; it is consumed if so. -/
def punct? (s : String) : Scan Bool := do
  if (← nextMark) == s then
    let _ ← punct s
    return true
  else return false

def word (s : String) : Scan ConcreteTree := do
  require ((← nextWord) == s)
  let start ← skip
  take s.length
  return mark s start (← get)

/-- Whether the next word is the given one; it is consumed if so. -/
def word? (s : String) : Scan Bool := do
  if (← nextWord) == s then
    let _ ← word s
    return true
  else return false

def anyWord : Scan String := do
  let w ← nextWord
  require (w != "")
  let _ ← skip
  take w.length
  return w

/-- What a parser finds after the next word, if there is one, with nothing consumed. -/
def afterWord {α : Type} (p : Scan α) : Scan α :=
  look do
    let w ← nextWord
    let _ ← skip
    take w.length
    p

def identifier : Scan ConcreteTree := do
  let w ← nextWord
  require (w != "" && !reservedWords.contains w)
  let start ← skip
  take w.length
  return tree "identifier" start (← get) []

/-- Whether a line ends between the current place and the next token. -/
def lineEndAhead : Scan Bool := do
  let c ← get
  let trivia := c.rest.take (triviaLength .space 0 c.rest)
  return trivia.any isLineEnd

end Scan

/-- The length of a run of digits of a base with single underscores between them. -/
def digitRun (base : Nat) (cs : List Char) : Nat :=
  match cs with
  | c :: rest =>
    if (Numeral.digit? base c).isSome then go 1 rest else 0
  | [] => 0
where
  go (n : Nat) : List Char → Nat
    | '_' :: c :: rest => if (Numeral.digit? base c).isSome then go (n + 2) rest else n
    | c :: rest => if (Numeral.digit? base c).isSome then go (n + 1) rest else n
    | [] => n

def exponentLength (cs : List Char) : Nat :=
  match cs with
  | e :: rest =>
    if e == 'e' || e == 'E' then
      let sign := if rest.head? == some '+' || rest.head? == some '-' then 1 else 0
      let digits := digitRun 10 (rest.drop sign)
      if digits = 0 then 0 else 1 + sign + digits
    else 0
  | [] => 0

/-- The length of the integer that may stand before a point or an exponent: a zero, or digits that
open with at most one. -/
def wholeLength (cs : List Char) : Nat :=
  let isLeading (c : Char) : Bool := Numeral.isDigit c && c != '0'
  match cs with
  | '0' :: c :: _ => if isLeading c then digitRun 10 cs else 1
  | '0' :: [] => 1
  | c :: _ => if isLeading c then digitRun 10 cs else 0
  | [] => 0

/-- The length of the decimal number that a text opens with: the longest of its possible forms. -/
def decimalLength (cs : List Char) : Nat :=
  let digits := digitRun 10 cs
  let whole := wholeLength cs
  let afterWhole := cs.drop whole
  match cs, afterWhole with
  | '.' :: rest, _ =>
    let fraction := digitRun 10 rest
    if fraction = 0 then 0 else 1 + fraction + exponentLength (rest.drop fraction)
  | _, '.' :: rest =>
    if whole = 0 then digits
    else
      let fraction := digitRun 10 rest
      max digits (whole + 1 + fraction + exponentLength (rest.drop fraction))
  | _, _ =>
    let exponent := exponentLength afterWhole
    if whole = 0 || exponent = 0 then digits else max digits (whole + exponent)

/-- A run of digits after a base mark, as the length of the whole; zero if there is no digit. -/
def markedLength (base : Nat) (rest : List Char) : Nat :=
  let n := digitRun base rest
  if n = 0 then 0 else n + 2

/-- The length of the number that a text opens with. An integer may end in `n`. -/
def numberLength (cs : List Char) : Nat :=
  let integer := match cs with
    | '0' :: c :: rest =>
      match Numeral.markedBase? c with
      | some base => markedLength base rest
      | none => digitRun 10 cs
    | _ => digitRun 10 cs
  if 0 < integer && (cs.drop integer).head? == some 'n' then integer + 1
  else max integer (decimalLength cs)

/-- The length of the escape sequence that a text opens with in a string, if it is one. -/
def escapeLength? : List Char → Option Nat
  | '\\' :: c :: rest =>
    if c = 'x' then
      if ((rest.take 2).filter fun d => (Numeral.digit? 16 d).isSome).length =
        2 then some 4 else none
    else if c = 'u' then nameEscape? ('\\' :: c :: rest)
    else if (Numeral.digit? 8 c).isSome then
      some (1 + ((c :: rest).take 3 |>.takeWhile fun d => (Numeral.digit? 8 d).isSome).length)
    else if (c = '\r' || c = '?') && (rest.head?.map isLineEnd).getD false then some 3
    else some 2
  | _ => none

namespace Scan

def number : Scan ConcreteTree := do
  let start ← skip
  let n := numberLength start.rest
  require (0 < n)
  take n
  return tree "number" start (← get) []

/-- One part of a string: an escape sequence, or the characters up to the next one or the end. -/
def stringPart (quote : Char) : Scan ConcreteTree := do
  let start ← get
  match start.rest with
  | '\\' :: _ =>
    match escapeLength? start.rest with
    | some n =>
      take n
      return tree "escape_sequence" start (← get) []
    | none => fail
  | rest =>
    let plain := rest.takeWhile fun c => c != quote && c != '\\' && c != '\n' && c != '\r'
    require (!plain.isEmpty)
    take plain.length
    return tree "string_fragment" start (← get) []

def string : Scan ConcreteTree := do
  let start ← skip
  match start.rest with
  | quote :: rest =>
    require (quote == '"' || quote == '\x27')
    take 1
    let parts ← iterate (fun parts => do
      if (← get).rest.head? == some quote then return none
      return some (parts ++ [← stringPart quote])) (rest.length + 1) []
    require ((← get).rest.head? == some quote)
    take 1
    return tree "string" start (← get) parts
  | [] => fail

end Scan

end Sil.SourceText
