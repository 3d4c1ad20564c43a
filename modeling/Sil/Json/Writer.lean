import Sil.Json.Basic

/-!
JSON text in ASCII, on one line with a blank after each comma and colon, or with one item a line and
an indent of two blanks a level.
-/
namespace Sil.Json

def numberText : Binary64 → String
  | .infinite negative => if negative then "-Infinity" else "Infinity"
  | .nan => "NaN"
  | x => x.text

mutual

def compact : Json → String
  | .null => "null"
  | .bool b => if b then "true" else "false"
  | .int n => intText n
  | .float x => numberText x
  | .str s => s.quoted
  | .arr items => "[" ++ String.intercalate ", " (compactItems items) ++ "]"
  | .obj fields => "\x7b" ++ String.intercalate ", " (compactFields fields) ++ "\x7d"

def compactItems : List Json → List String
  | [] => []
  | j :: rest => compact j :: compactItems rest

def compactFields : List (Text × Json) → List String
  | [] => []
  | (k, j) :: rest => (k.quoted ++ ": " ++ compact j) :: compactFields rest

end

def lineBreak (level : Nat) : String := "\n" ++ String.ofList (List.replicate (2 * level) ' ')

/-- Items between brackets, each on a line of its own one level further in. -/
def bracketed (level : Nat) (opening closing : String) (items : List String) : String :=
  if items.isEmpty then opening ++ closing
  else
    opening ++ lineBreak (level + 1) ++ String.intercalate ("," ++ lineBreak (level + 1)) items ++
      lineBreak level ++ closing

mutual

/-- A value over several lines, its own line being at the given level. -/
def indented (level : Nat) : Json → String
  | .arr items => bracketed level "[" "]" (indentedItems (level + 1) items)
  | .obj fields => bracketed level "\x7b" "\x7d" (indentedFields (level + 1) fields)
  | .null => compact .null
  | .bool b => compact (.bool b)
  | .int n => compact (.int n)
  | .float x => compact (.float x)
  | .str s => compact (.str s)

def indentedItems (level : Nat) : List Json → List String
  | [] => []
  | j :: rest => indented level j :: indentedItems level rest

def indentedFields (level : Nat) : List (Text × Json) → List String
  | [] => []
  | (k, j) :: rest => (k.quoted ++ ": " ++ indented level j) :: indentedFields level rest

end

end Sil.Json
