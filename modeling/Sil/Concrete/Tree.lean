import Sil.Error

/-!
Concrete syntax trees: every token of a source text with its extent, comments, parentheses and
punctuation included. A tree can hold errors, which are the nodes of input that fits nowhere and the
nodes of input that is missing.
-/
namespace Sil

/-- Where a node stands: its bytes, and its rows and byte columns, all counted from zero. -/
structure Extent where
  startByte : Int
  endByte : Int
  startRow : Int
  startColumn : Int
  endRow : Int
  endColumn : Int
  deriving DecidableEq

namespace Extent

def location (e : Extent) : Location :=
  ⟨e.startRow + 1, e.startColumn, e.endRow + 1, e.endColumn⟩

end Extent

/-- What a node has to do with an error: it is one, it stands for missing input, or it is said to
hold one. -/
structure Standing where
  isError : Bool := false
  isMissing : Bool := false
  saidToHoldError : Bool := false
  deriving DecidableEq

inductive ConcreteTree where
  | node (kind : String) (extent : Extent) (named : Bool) (field : Option String)
      (standing : Standing) (children : List ConcreteTree)

namespace ConcreteTree

def kind : ConcreteTree → String
  | .node kind .. => kind

def extent : ConcreteTree → Extent
  | .node _ extent .. => extent

def named : ConcreteTree → Bool
  | .node _ _ named .. => named

def field : ConcreteTree → Option String
  | .node _ _ _ field .. => field

def standing : ConcreteTree → Standing
  | .node _ _ _ _ standing _ => standing

def children : ConcreteTree → List ConcreteTree
  | .node _ _ _ _ _ children => children

def location (t : ConcreteTree) : Location := t.extent.location

def inField (t : ConcreteTree) (name : String) : ConcreteTree :=
  match t with
  | .node kind extent named _ standing children =>
    .node kind extent named (some name) standing children

/-- The children that are more than punctuation. -/
def namedChildren (t : ConcreteTree) : List ConcreteTree := t.children.filter named

def inField? (t : ConcreteTree) (name : String) : Option ConcreteTree :=
  t.children.find? (·.field == some name)

def isComment (t : ConcreteTree) : Bool := t.kind == "comment" || t.kind == "hash_bang_line"

/-- The first child that is more than punctuation or a comment. -/
def firstPart? (t : ConcreteTree) : Option ConcreteTree :=
  t.namedChildren.find? (!·.isComment)

def isBroken (t : ConcreteTree) : Bool := t.standing.isError || t.standing.isMissing

mutual

def hasError : ConcreteTree → Bool
  | .node _ _ _ _ standing children =>
    standing.isError || standing.isMissing || standing.saidToHoldError || anyHasError children

def anyHasError : List ConcreteTree → Bool
  | [] => false
  | t :: rest => hasError t || anyHasError rest

end

/-- The first error at or below a node, which is the node itself if none is flagged below it; `none`
if `room` levels are too few to find it. -/
def firstError? : Nat → ConcreteTree → Option ConcreteTree
  | 0, _ => none
  | room + 1, t =>
    if t.isBroken then some t
    else
      match t.children.find? hasError with
      | some child => firstError? room child
      | none => some t

end ConcreteTree
end Sil
