import Sil.Number.Numeral

/-!
Spans of source text. Lines count from one and columns from zero; the span of four zeros stands for
an unknown place.
-/
namespace Sil

structure Location where
  startLine : Int
  startColumn : Int
  endLine : Int
  endColumn : Int
  deriving DecidableEq

namespace Location

def unknown : Location := ⟨0, 0, 0, 0⟩

def isUnknown (l : Location) : Bool := l == unknown

@[irreducible]
def isWritable (l : Location) : Bool :=
  [l.startLine, l.startColumn, l.endLine, l.endColumn].all Numeral.isWritable

/-- `line:column-line:column`, for a span that is writable -/
def text (l : Location) : String :=
  if l.isUnknown then "<unknown>"
  else s!"{l.startLine}:{l.startColumn}-{l.endLine}:{l.endColumn}"

/-- The span with which a message closes, if it is known. -/
def suffixText : Option Location → String
  | some l => if l.isUnknown then "" else " at " ++ l.text
  | none => ""

end Location
end Sil
