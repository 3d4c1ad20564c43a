import Sil.Emission.Backend
import Sil.Number.Numeral
import Sil.Text.Display

/-!
The arguments of the command. An option may be given by any beginning of its long name that no other
option shares, short options may stand together in one word, and a value follows its option in the
same word or in the next one. After a lone `--` no word is an option.
-/
namespace Sil.CommandLine

inductive Switch where
  | help
  | backend
  | listingOnly
  | json
  | serve
  | host
  | portNumber
  | verbose
  deriving DecidableEq

/-- Every way to write an option, in the order in which choices are listed. -/
def spellings : List (String × Switch) :=
  [("-h", .help), ("--help", .help), ("--backend", .backend), ("-b", .backend),
   ("--ir-only", .listingOnly), ("--json", .json), ("--serve", .serve), ("--host", .host),
   ("--port", .portNumber), ("--verbose", .verbose), ("-v", .verbose)]

namespace Switch

def takesValue : Switch → Bool
  | .backend | .host | .portNumber => true
  | _ => false

/-- All spellings of an option, as a complaint names it. -/
def label (s : Switch) : String :=
  String.intercalate "/" ((spellings.filter fun (_, other) => other == s).map (·.1))

end Switch

inductive Refusal where
  | ambiguous (word : String) (choices : List String)
  | valueMissing (option : Switch)
  | valueNotTaken (option : Switch) (value : String)
  | unknownBackend (value : String)
  | portNotNumber (value : String)
  | unrecognized (words : List String)

def quotedWord (s : String) : String := Text.display (Text.ofString s)

def Refusal.message : Refusal → String
  | .ambiguous word choices =>
    "ambiguous option: " ++ word ++ " could match " ++ String.intercalate ", " choices
  | .valueMissing option => "argument " ++ option.label ++ ": expected one argument"
  | .valueNotTaken option value =>
    "argument " ++ option.label ++ ": ignored explicit argument " ++ quotedWord value
  | .unknownBackend value =>
    let choices := String.intercalate ", " (Backend.all.map fun b => quotedWord b.name)
    "argument " ++ Switch.backend.label ++ ": invalid choice: " ++ quotedWord value ++
      " (choose from " ++ choices ++ ")"
  | .portNotNumber value =>
    "argument " ++ Switch.portNumber.label ++ ": invalid int value: " ++ quotedWord value
  | .unrecognized words => "unrecognized arguments: " ++ String.intercalate " " words

inductive Attached where
  | nothing
  | afterSign (value : String)
  | directly (value : String)

inductive Word where
  | plain (text : String)
  | separator
  | option (switch : Switch) (isShort : Bool) (attached : Attached)
  | unknown (text : String)

/-- The two sides of the first `=`, if there is one. -/
def splitAtSign (cs : List Char) : Option (String × String) :=
  let before := cs.takeWhile (· != '=')
  match cs.drop before.length with
  | _ :: after => some (String.ofList before, String.ofList after)
  | [] => none

/-- Whether a word is a negative number, which is no option. A line end after it does not matter. -/
def isNegativeNumber (cs : List Char) : Bool :=
  let isDigit (c : Char) : Bool := (Text.decimalDigit? c).isSome
  let body := match cs.reverse with
    | '\n' :: rest => rest.reverse
    | _ => cs
  match body with
  | '-' :: rest =>
    let whole := rest.takeWhile isDigit
    match rest.drop whole.length with
    | [] => !whole.isEmpty
    | '.' :: fraction => !fraction.isEmpty && fraction.all isDigit
    | _ => false
  | _ => false

def isShortSpelling (s : String) : Bool := !s.startsWith "--"

/-- A word with a single dash before it: a short option with what follows it, a negative number, a
text with a space in it, or no option at all. -/
def classifyShort (word : String) : Word :=
  let cs := word.toList
  match spellings.lookup (String.ofList (cs.take 2)) with
  | some switch => .option switch true (.directly (String.ofList (cs.drop 2)))
  | none => if isNegativeNumber cs || cs.contains ' ' then .plain word else .unknown word

/-- A word with two dashes before it: the option whose name it begins. -/
def classifyLong (word : String) : Except Refusal Word :=
  let (name, attached) := match splitAtSign word.toList with
    | some (name, value) => (name, Attached.afterSign value)
    | none => (word, .nothing)
  match spellings.filter fun (spelling, _) => name.toList.isPrefixOf spelling.toList with
  | [] => .ok (if word.toList.contains ' ' then .plain word else .unknown word)
  | [(_, switch)] => .ok (.option switch false attached)
  | several => .error (.ambiguous word (several.map (·.1)))

def classify (word : String) : Except Refusal Word :=
  match word.toList with
  | '-' :: second :: _ =>
    match spellings.lookup word, splitAtSign word.toList with
    | some switch, _ => .ok (.option switch (isShortSpelling word) .nothing)
    | none, some (name, value) =>
      match spellings.lookup name with
      | some switch => .ok (.option switch (isShortSpelling name) (.afterSign value))
      | none => if second = '-' then classifyLong word else .ok (classifyShort word)
    | none, none => if second = '-' then classifyLong word else .ok (classifyShort word)
  | _ => .ok (.plain word)

/-- What each word is. After the separator all of them are plain. -/
def classifyAll : List String → Except Refusal (List Word)
  | [] => .ok []
  | "--" :: rest => .ok (.separator :: rest.map .plain)
  | word :: rest => do return (← classify word) :: (← classifyAll rest)

structure Options where
  file : Option String := none
  backends : List Backend := []
  listingOnly : Bool := false
  json : Bool := false
  serve : Bool := false
  host : String := "127.0.0.1"
  portNumber : Int := 5000
  verbose : Bool := false

def Options.targets (o : Options) : List Backend :=
  if o.backends.isEmpty then Backend.all else o.backends

inductive Stop where
  | help
  | refused (why : Refusal)

/-- The options read so far, whether the file has been named, and the words that have no place. -/
structure Progress where
  options : Options := {}
  fileNamed : Bool := false
  extras : List String := []

/-- The options with one more, given with its value if it takes one. -/
def Options.set (o : Options) (switch : Switch) (value : String) : Except Stop Options :=
  match switch with
  | .help => .error .help
  | .backend =>
    match Backend.ofName? value with
    | some b => .ok { o with backends := o.backends ++ [b] }
    | none => .error (.refused (.unknownBackend value))
  | .listingOnly => .ok { o with listingOnly := true }
  | .json => .ok { o with json := true }
  | .serve => .ok { o with serve := true }
  | .host => .ok { o with host := value }
  | .portNumber =>
    match Numeral.readInt (some 10) value.toList with
    | .ok n => .ok { o with portNumber := n }
    | .error _ => .error (.refused (.portNotNumber value))
  | .verbose => .ok { o with verbose := true }

/-- One word of options taken apart: the options with their values, a last one that still needs its
value, and what is left over of the word. -/
structure Bundle where
  complete : List (Switch × String) := []
  open? : Option Switch := none
  leftover : Option String := none

/-- The short options in the rest of a word after an option that takes no value. -/
def bundleRest (before : Switch) (found : List (Switch × String)) :
    List Char → Except Refusal Bundle
  | [] => .ok { complete := found }
  | '-' :: rest => .error (.valueNotTaken before (String.ofList ('-' :: rest)))
  | c :: rest =>
    match spellings.lookup (String.ofList ['-', c]) with
    | none => .ok { complete := found, leftover := some (String.ofList ('-' :: c :: rest)) }
    | some switch =>
      if switch.takesValue then
        match rest with
        | [] => .ok { complete := found, open? := some switch }
        | '=' :: value => .ok { complete := found ++ [(switch, String.ofList value)] }
        | value => .ok { complete := found ++ [(switch, String.ofList value)] }
      else
        match rest with
        | '=' :: value => .error (.valueNotTaken switch (String.ofList value))
        | rest => bundleRest switch (found ++ [(switch, "")]) rest

def bundle (switch : Switch) (isShort : Bool) (attached : Attached) : Except Refusal Bundle :=
  if switch.takesValue then
    match attached with
    | .nothing => .ok { open? := some switch }
    | .afterSign value | .directly value => .ok { complete := [(switch, value)] }
  else
    match attached with
    | .nothing => .ok { complete := [(switch, "")] }
    | .afterSign value => .error (.valueNotTaken switch value)
    | .directly value =>
      if isShort then bundleRest switch [(switch, "")] value.toList
      else .error (.valueNotTaken switch value)

/-- A bundle and the words after it, the first of which is the value of its open option. -/
def Bundle.close (b : Bundle) (rest : List Word) :
    Except Stop (List (Switch × String) × List Word) :=
  match b.open? with
  | none => .ok (b.complete, rest)
  | some switch =>
    match rest with
    | .plain value :: rest => .ok (b.complete ++ [(switch, value)], rest)
    | _ => .error (.refused (.valueMissing switch))

def orRefused {α : Type} : Except Refusal α → Except Stop α
  | .ok a => .ok a
  | .error why => .error (.refused why)

/-- Reads the words in order. The first plain word names the file; a separator right after it, or
right before it, is used up with it. The fuel is the number of words. -/
def readWords : Nat → Progress → List Word → Except Stop Progress
  | _, p, [] => .ok p
  | 0, p, _ => .ok p
  | fuel + 1, p, .plain text :: rest =>
    if p.fileNamed then readWords fuel { p with extras := p.extras ++ [text] } rest
    else
      let p := { p with fileNamed := true, options := { p.options with file := some text } }
      match rest with
      | .separator :: rest => readWords fuel p rest
      | rest => readWords fuel p rest
  | fuel + 1, p, .separator :: rest =>
    if p.fileNamed then readWords fuel { p with extras := p.extras ++ ["--"] } rest
    else
      match rest with
      | .plain text :: rest =>
        readWords fuel
          { p with fileNamed := true, options := { p.options with file := some text } } rest
      | rest => readWords fuel { p with fileNamed := true } rest
  | fuel + 1, p, .unknown text :: rest =>
    readWords fuel { p with extras := p.extras ++ [text] } rest
  | fuel + 1, p, .option switch isShort attached :: rest => do
    let b ← orRefused (bundle switch isShort attached)
    let (given, rest) ← b.close rest
    let options ← given.foldlM (fun o (switch, value) => o.set switch value) p.options
    readWords fuel { p with options, extras := p.extras ++ b.leftover.toList } rest

def Options.ofArguments (args : List String) : Except Stop Options := do
  let words ← orRefused (classifyAll args)
  let p ← readWords words.length {} words
  if p.extras.isEmpty then return p.options else throw (.refused (.unrecognized p.extras))

end Sil.CommandLine
