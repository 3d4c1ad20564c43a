import Sil.SourceText.Lexical

/-!
Where a statement may end without a semicolon: at the end of the text, before a closing brace, or at
the end of a line if the next line starts something new. Spaces that forbid a break hide such a
place.
-/
namespace Sil.SourceText

/-- The spaces beyond the ASCII ones at which a line may be broken. -/
def breakingSpaces : List Nat :=
  [0x1680, 0x2000, 0x2001, 0x2002, 0x2003, 0x2004, 0x2005, 0x2006, 0x2008, 0x2009, 0x200A, 0x2028,
   0x2029, 0x205F, 0x3000]

def isBreakingSpace (c : Char) : Bool :=
  c == ' ' || (9 ≤ c.toNat && c.toNat ≤ 13) || breakingSpaces.contains c.toNat

/-- How the space and comments that a text opens with end. -/
inductive TriviaEnd where
  /-- At something else, or after a comment over several lines. -/
  | reached
  /-- After a comment within one line. -/
  | sameLine
  /-- At a slash that starts no comment. -/
  | slash
  deriving DecidableEq

/-- Skips space and comments. Unless `all` is set, a comment between stars is the last one, if no
other follows it directly; `broken` says whether it went over several lines. -/
def skipComments (all : Bool) : TriviaMode → Bool → List Char → TriviaEnd × List Char
  | .space, _, [] => (.reached, [])
  | .space, broken, '/' :: '/' :: rest => skipComments all .lineComment broken rest
  | .space, broken, '/' :: '*' :: rest => skipComments all .blockComment broken rest
  | .space, broken, c :: rest =>
    if isBreakingSpace c then skipComments all .space broken rest
    else if c = '/' then (.slash, c :: rest)
    else (.reached, c :: rest)
  | .lineComment, _, [] => (.reached, [])
  | .lineComment, broken, c :: rest =>
    if isLineEnd c then skipComments all .space broken rest
    else skipComments all .lineComment broken rest
  | .blockComment, _, [] => (.reached, [])
  | .blockComment, broken, '*' :: '/' :: rest =>
    if !all && rest.head? != some '/' then (if broken then .reached else .sameLine, rest)
    else skipComments all .space broken rest
  | .blockComment, broken, c :: rest => skipComments all .blockComment (broken || isLineEnd c) rest

/-- Whether a word can go on with a character after a keyword. -/
def isLetter (c : Char) : Bool := c.isAlpha || (0x7F < c.toNat && isNameChar c)

def startsWithLetter (cs : List Char) : Bool := (cs.head?.map isLetter).getD false

/-- Whether a text starts something new, so that a statement may end on the line before it. -/
def startsStatement (cs : List Char) : Bool :=
  match cs with
  | [] => true
  | '.' :: rest => (rest.head?.map Numeral.isDigit).getD false
  | '+' :: rest => rest.head? == some '+'
  | '-' :: rest => rest.head? == some '-'
  | '!' :: rest => rest.head? != some '='
  | 'i' :: 'n' :: rest =>
    let operator := "stanceof".toList
    startsWithLetter rest &&
      !(operator.isPrefixOf rest && !startsWithLetter (rest.drop operator.length))
  | c :: _ => !"`,:;*%><=[(?^|&/".toList.contains c

/-- Whether the line after a line end starts something new. -/
def startsStatementAfter (cs : List Char) : Bool :=
  match skipComments true .space false cs with
  | (.slash, _) => false
  | (_, ahead) => startsStatement ahead

/-- Whether a statement may end before a text without a semicolon. After a value, a comment does not
end a line. The fuel is more than the length of the text. -/
def endsStatement (afterValue : Bool) : Nat → List Char → Bool
  | _, [] => true
  | 0, _ => false
  | fuel + 1, cs =>
    let (ended, ahead) := match cs with
      | '/' :: _ => skipComments false .space false cs
      | _ => (.sameLine, cs)
    let continues := ahead.head? == some ',' || ahead.head? == some '='
    if ended = .slash then false
    else if ended = .reached && !afterValue && !continues then true
    else
      match ahead with
      | [] => false
      | '\x7d' :: _ => true
      | c :: rest =>
        if isLineEnd c then startsStatementAfter rest
        else isBreakingSpace c && endsStatement afterValue fuel rest

/-- The length of the comment that a text opens with, if it is one. -/
def commentLength? (cs : List Char) : Option Nat :=
  match cs with
  | '/' :: '/' :: rest =>
    some (2 + (rest.takeWhile fun c => !isLineEnd c && c != '\r').length)
  | '/' :: '*' :: rest => go 2 rest
  | _ => none
where
  go (n : Nat) : List Char → Option Nat
    | '*' :: '/' :: _ => some (n + 2)
    | _ :: rest => go (n + 1) rest
    | [] => none

namespace Scan

def endsHere (afterValue : Bool) : Scan Bool := do
  let c ← get
  return endsStatement afterValue (c.rest.length + 1) c.rest

/-- Moves behind the next comment, if nothing but space is before it. -/
def comment? : Scan Bool := do
  let c := (← get).skipSpace
  match commentLength? c.rest with
  | some n =>
    set (c.advance n)
    return true
  | none => return false

/-- The end of a statement: a semicolon, or a place where none is needed. Comments before such a
place are part of the statement. -/
def semicolon (afterValue : Bool) : Scan (List ConcreteTree) := do
  if ← endsHere afterValue then return []
  if (← nextMark) == ";" then return [← punct ";"]
  let size := (← get).rest.length
  let _ ← iterate (fun () => do
    if ← endsHere afterValue then return none
    require (← comment?)
    return some ()) (size + 1) ()
  require (← endsHere afterValue)
  return []

end Scan

end Sil.SourceText
