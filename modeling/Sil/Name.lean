import Sil.Json.Basic

/-!
What stands in the place of a name. Code made from a source program has text there; a stream given
from outside may leave a name out or put any value in its place.
-/
namespace Sil

inductive Name where
  | absent
  | text (s : String)
  | value (v : Json)

namespace Name

instance : Coe String Name := ⟨.text⟩

def ofOption : Option String → Name
  | some s => .text s
  | none => .absent

def ofJson : Json → Name
  | .null => .absent
  | .str s =>
    match s.toString? with
    | some name => .text name
    | none => .value (.str s)
  | v => .value v

def toJson : Name → Json
  | .absent => .null
  | .text s => .ofString s
  | .value v => v

/-- How a name is written out; an absent one as `None`. -/
def shown : Name → String
  | .absent => "None"
  | .text s => s
  | .value v => v.plainText

/-- Whether a name can be written out: a number in its place must not have too many digits. -/
def isWritable : Name → Bool
  | .value v => v.isWritable
  | _ => true

/-- A number as an odd integer times a power of two, the same for all its representations. -/
def dyadic (negative : Bool) : Nat → Nat → Int → Int × Int
  | 0, m, e => (if negative then -m else m, e)
  | fuel + 1, m, e =>
    if m = 0 then (0, 0)
    else if m % 2 = 0 then dyadic negative fuel (m / 2) (e + 1)
    else (if negative then -m else m, e)

inductive Key where
  | absent
  | text (s : String)
  | points (t : Text)
  | number (odd : Int) (power : Int)
  | infinite (negative : Bool)
  deriving DecidableEq

/-- The key of a name: numbers by their value, truth values counting as one and zero. A name that is
not a number equals none, and a list or an object has no key. -/
def key? : Name → Option Key
  | .absent => some .absent
  | .text s => some (.text s)
  | .value (.str t) => some (.points t)
  | .value (.bool b) => some (if b then .number 1 0 else .number 0 0)
  | .value (.int n) =>
    let (odd, power) := dyadic (n < 0) (Nat.log2 n.natAbs + 1) n.natAbs 0
    some (.number odd power)
  | .value (.float (.finite negative m e)) =>
    let (odd, power) := dyadic negative (Nat.log2 m + 1) m e
    some (.number odd power)
  | .value (.float (.infinite negative)) => some (.infinite negative)
  | .value (.float .nan) => none
  | .value .null => some .absent
  | .value (.arr _) => none
  | .value (.obj _) => none

/-- The word for the kind of a name that cannot be looked up, if it is of such a kind. -/
def unhashable? : Name → Option String
  | .value (.arr _) => some "list"
  | .value (.obj _) => some "dict"
  | _ => none

def same (a b : Name) : Bool :=
  match a, b with
  | .text s, .text t => s == t
  | _, _ => a.key?.isSome && a.key? == b.key?

end Name
end Sil
