import Sil.Emission.Line

/-!
The state of an emission: the lines so far, the blocks that are open, and what is known about labels
and names. Blocks open and close like brackets; the depth of a line is the number of them around it.
-/
namespace Sil

/-- A block that is still open: the label that closes it or its function's name, and the depth of
the line that opened it. -/
structure Block where
  kind : BlockKind
  label : Option String
  depth : Nat
  hasStatement : Bool := false

/-- A function whose parameters are still being listed. -/
structure Header where
  name : Option String
  params : List (Option String) := []

abbrev ScopeMap := List (Nat × List Name)

structure EmissionState where
  depth : Nat
  lines : List Line := []
  /-- The open blocks, the innermost first. -/
  blocks : List Block := []
  tested : Option Operand := none
  definedLabels : List (Option String) := []
  forwardTargets : List (Option String) := []
  header : Option Header := none
  declared : List Name := []
  /-- The names that are declared at the top, in the order of their first use. -/
  hoisted : List (Name × ValueType) := []
  scopes : ScopeMap := []
  types : List (Name × ValueType) := []
  depthTrace : List Nat := []

namespace Name

def isIn (n : Name) (names : List Name) : Bool := names.any (·.same n)

def addTo (n : Name) (names : List Name) : List Name :=
  if n.isIn names then names else names ++ [n]

def typeIn? (n : Name) (types : List (Name × ValueType)) : Option ValueType :=
  (types.find? (·.1.same n)).map (·.2)

def setTypeIn (n : Name) (type : ValueType) : List (Name × ValueType) → List (Name × ValueType)
  | [] => [(n, type)]
  | (m, t) :: rest => if m.same n then (m, type) :: rest else (m, t) :: setTypeIn n type rest

end Name

namespace ScopeMap

def names (scopes : ScopeMap) (depth : Nat) : List Name :=
  ((scopes.find? (·.1 == depth)).map (·.2)).getD []

def setNames (depth : Nat) (names : List Name) : ScopeMap → ScopeMap
  | [] => [(depth, names)]
  | (d, old) :: rest =>
    if d = depth then (d, names) :: rest else (d, old) :: setNames depth names rest

def add (scopes : ScopeMap) (depth : Nat) (n : Name) : ScopeMap :=
  setNames depth (n.addTo (names scopes depth)) scopes

/-- What remains when a block that opened at `depth` closes. -/
def upTo (scopes : ScopeMap) (depth : Nat) : ScopeMap := scopes.filter (·.1 ≤ depth)

end ScopeMap

namespace EmissionState

def initial (b : Backend) : EmissionState := { depth := b.baseDepth }

def inFunction (s : EmissionState) : Bool := s.blocks.any (·.kind == .function)

def maxDepth (s : EmissionState) : Nat :=
  match s.depthTrace with
  | [] => s.depth
  | d :: rest => rest.foldl max d

def write (s : EmissionState) (content : Content) : EmissionState :=
  { s with lines := s.lines ++ [⟨s.depth, content⟩] }

def markStatement : List Block → List Block
  | [] => []
  | block :: rest => { block with hasStatement := true } :: rest

def writeStatement (s : EmissionState) (content : Content) : EmissionState :=
  { s.write content with blocks := markStatement s.blocks }

def openBlock (s : EmissionState) (kind : BlockKind) (label : Option String) (opener : Content) :
    EmissionState :=
  let s := s.writeStatement opener
  { s with blocks := ⟨kind, label, s.depth, false⟩ :: s.blocks, depth := s.depth + 1 }

/-- The innermost block closed: filled if it is empty and the language wants that, and ended by the
language's closing line. -/
def closeBlock (b : Backend) (s : EmissionState) : EmissionState :=
  match s.blocks with
  | [] => s
  | block :: rest =>
    let s := if b.fillsEmptyBlocks && !block.hasStatement then s.write .filler else s
    let s := { s with blocks := rest, depth := block.depth, scopes := s.scopes.upTo block.depth }
    if (b.closer block.kind).isSome then s.write (.close block.kind) else s

def closesInnermost (s : EmissionState) (label : Option String) : Bool :=
  match s.blocks with
  | [] => false
  | block :: _ => block.kind == .branch && block.label == label

/-- A name declared at the top, with the type of its first use. -/
def hoist (b : Backend) (s : EmissionState) (n : Name) (type : ValueType) : EmissionState :=
  { s with
    hoisted := s.hoisted ++ [(n, type)]
    types := if (n.typeIn? s.types).isSome then s.types else s.types ++ [(n, type)]
    scopes := s.scopes.add b.baseDepth n }

def knows (s : EmissionState) (n : Name) : Bool :=
  n.isIn s.declared || (n.typeIn? s.hoisted).isSome

/-- A name noted as used; the first use of an unknown name declares it at the top. -/
def noteUse (b : Backend) (s : EmissionState) (n : Name) (type : ValueType) : EmissionState :=
  if s.knows n then s else s.hoist b n type

end EmissionState
end Sil
