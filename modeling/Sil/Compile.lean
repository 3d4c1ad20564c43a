import Sil.Emission.Output
import Sil.Lowering
import Sil.SourceText.Parse

/-!
A syntax tree compiled as a whole: its SIL code and one text for every target language asked for.
-/
namespace Sil

/-- The target languages, by name, the text of one level of indentation, and what all of it runs
on. -/
structure Settings where
  backends : List Name := Backend.all.map fun b => .text b.name
  indent : String := "    "
  host : Host := {}

def Backend.requested (n : Name) : Except Error Backend :=
  match n.unhashable? with
  | some kind => .error (.fault (.unhashable kind))
  | none =>
    match n with
    | .text s =>
      match Backend.ofName? s with
      | some b => .ok b
      | none => .error (.fault (.unknownBackend s))
    | _ => .error (.fault (.unknownBackend n.shown))

structure Compiled where
  instructions : List Instruction
  sil : String
  /-- The text for each target language, in the order asked for, none of them twice. -/
  outputs : List (String × String)

namespace Compiled

def output? (c : Compiled) (b : Backend) : Except Fault String :=
  match c.outputs.lookup b.name with
  | some text => .ok text
  | none => .error (.missingKey b.name)

def payload (c : Compiled) : Json :=
  .object (("sil", .ofString c.sil) :: c.outputs.map fun (name, text) => (name, .ofString text))

end Compiled

/-- The target languages asked for, or else those of the settings. Each of them has to be known. -/
def Settings.requested (settings : Settings) (names : Option (List Name)) :
    Except Error (List Backend) :=
  (names.getD settings.backends).mapM Backend.requested

def distinct {α : Type} [BEq α] : List α → List α
  | [] => []
  | a :: rest => a :: (distinct rest).filter (· != a)

/-- The code of a tree in SIL and in the given target languages. -/
def Node.compileTo (limits : Limits) (backends : List Backend) (indent : String) (tree : Node) :
    Except Error Compiled := do
  let code ← tree.lower limits
  let outputs ← (distinct backends).mapM fun b => do return (b.name, ← b.render indent code)
  return { instructions := code, sil := Instruction.listing code, outputs }

/-- The code of a tree in SIL and in the target languages asked for, whose names are looked at
first. -/
def Node.compile (settings : Settings) (names : Option (List Name)) (tree : Node) :
    Except Error Compiled := do
  tree.compileTo settings.host.limits (← settings.requested names) settings.indent

end Sil
