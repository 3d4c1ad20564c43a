import Sil.Compile

/-!
What a verbose run tells about its progress, one line for each step that has been taken.
-/
namespace Sil.CommandLine

inductive Event where
  | started (file : Option String) (targets : List Backend)
  | reading (characters : Nat)
  | grammarLoaded
  | treeBuilt (statements : Nat)
  | compiling (kind : String) (targets : List Backend)
  | lowered (kind : String) (instructions : Nat) (counters : Counters)
  | rendered (target : Backend) (instructions lines : Nat)

namespace Event

/-- Names in quotes between parentheses, a comma after a single one. -/
def tuple (names : List String) : String :=
  match names with
  | [name] => "('" ++ name ++ "',)"
  | names => "(" ++ String.intercalate ", " (names.map fun n => "'" ++ n ++ "'") ++ ")"

/-- The name of what is read: an empty name counts as none. -/
def fileText (file : Option String) : String :=
  match file with
  | none | some "" => "<demo>"
  | some name => name

def line : Event → String
  | .started file targets =>
    "DEBUG translator.cli: Translating " ++ fileText file ++ " with backends " ++
      tuple (targets.map Backend.name)
  | .reading characters => s!"INFO translator.api: Parsing source ({characters} bytes)"
  | .grammarLoaded => "DEBUG translator.parser: Loading javascript grammar"
  | .treeBuilt statements =>
    s!"DEBUG translator.frontend: Built syntax tree with {statements} top-level statements"
  | .compiling kind targets =>
    let names := String.intercalate ", " (targets.map Backend.name)
    s!"INFO translator.api: Translating {kind} (backends={names})"
  | .lowered kind instructions counters =>
    let temps := counters.temps
    let labels := counters.labels
    s!"DEBUG translator.lowering: Lowered {kind} into {instructions} instructions " ++
      s!"({temps} temporaries, {labels} labels)"
  | .rendered target instructions lines =>
    "DEBUG translator.backends._base: " ++ target.name ++
      s!" backend rendered {instructions} instructions into {lines} lines"

end Event

def statementCount : Node → Nat
  | .program _ body => body.length
  | _ => 0

def renderedEvents (indent : String) (code : List Instruction) : List Backend → List Event
  | [] => []
  | b :: rest =>
    match Emission.emit b code with
    | .ok s =>
      .rendered b code.length (b.textLines indent s).length :: renderedEvents indent code rest
    | .error _ => []

def compileEvents (settings : Settings) (targets : List Backend) (tree : Node) : List Event :=
  .compiling tree.kind targets ::
    match tree.lowerCounting settings.host.limits with
    | .ok (code, counters) =>
      .lowered tree.kind code.length counters :: renderedEvents settings.indent code targets
    | .error _ => []

/-- The steps of the compilation of a source text, up to the first failure. -/
def sourceEvents (settings : Settings) (targets : List Backend) (source : String) : List Event :=
  .reading source.length :: .grammarLoaded ::
    match Node.ofSource settings.host source with
    | .ok tree => .treeBuilt (statementCount tree) :: compileEvents settings targets tree
    | .error _ => []

end Sil.CommandLine
