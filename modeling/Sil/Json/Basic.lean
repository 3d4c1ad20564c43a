import Sil.Number.FloatText
import Sil.Number.Numeral
import Sil.Text.Display

/-!
JSON values. Integers of any size and 64-bit floating-point numbers are different values, and an
object keeps its fields in the order they were first written in. A literal of a program may hold any
of these values.
-/
namespace Sil

inductive Json where
  | null
  | bool (b : Bool)
  | int (n : Int)
  | float (x : Binary64)
  | str (s : Text)
  | arr (items : List Json)
  | obj (fields : List (Text × Json))

namespace Json

instance : Inhabited Json := ⟨.null⟩

def ofString (s : String) : Json := .str (Text.ofString s)

def object (fields : List (String × Json)) : Json :=
  .obj (fields.map fun (k, v) => (Text.ofString k, v))

def lookup (key : Text) : List (Text × Json) → Option Json
  | [] => none
  | (k, v) :: rest => if k = key then some v else lookup key rest

def get? (j : Json) (key : String) : Option Json :=
  match j with
  | .obj fields => lookup (Text.ofString key) fields
  | _ => none

/-- A field's value where a missing field counts as null. -/
def getD (j : Json) (key : String) : Json := (j.get? key).getD .null

def setField (key : Text) (value : Json) : List (Text × Json) → List (Text × Json)
  | [] => [(key, value)]
  | (k, v) :: rest => if k = key then (k, value) :: rest else (k, v) :: setField key value rest

mutual

/-- Whether every integer in a value has few enough digits to be written. -/
def isWritable : Json → Bool
  | .int n => Numeral.isWritable n
  | .arr items => areWritable items
  | .obj fields => fieldsWritable fields
  | _ => true

def areWritable : List Json → Bool
  | [] => true
  | j :: rest => isWritable j && areWritable rest

def fieldsWritable : List (Text × Json) → Bool
  | [] => true
  | (_, j) :: rest => isWritable j && fieldsWritable rest

end

def intText (n : Int) : String := if n < 0 then "-" ++ Nat.repr n.natAbs else Nat.repr n.natAbs

mutual

/-- The display of a value, with the words and quotes that a collection shows its items in. It goes
to any depth: that an interpreter cannot display a value that nests too deep is not part of the
model. -/
def display : Json → String
  | .null => "None"
  | .bool b => if b then "True" else "False"
  | .int n => intText n
  | .float x => x.text
  | .str s => Text.display s
  | .arr items => "[" ++ String.intercalate ", " (displayItems items) ++ "]"
  | .obj fields => "\x7b" ++ String.intercalate ", " (displayFields fields) ++ "\x7d"

def displayItems : List Json → List String
  | [] => []
  | j :: rest => display j :: displayItems rest

def displayFields : List (Text × Json) → List String
  | [] => []
  | (k, j) :: rest => (Text.display k ++ ": " ++ display j) :: displayFields rest

end

/-- A value as plain text: a string stands for itself, all else is displayed. -/
def plainText : Json → String
  | .str s => s.toString
  | j => j.display

end Json
end Sil
