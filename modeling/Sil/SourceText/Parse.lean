import Sil.Concrete.Build
import Sil.SourceText.Recovery

/-!
The syntax tree of a source text, by way of its concrete tree.
-/
namespace Sil

/-- What a translation runs on: how deep its passes can go, and how its parser recovers from
errors. -/
structure Host where
  limits : Limits := {}
  recovery : SourceText.Recovery := .usual

def SourceText.parse (recovery : Recovery) (source : String) : ConcreteTree :=
  match read? source.toList with
  | some root => root
  | none => recovery.tree source

/-- A text as a string. A surrogate has no encoding; the first run of them is reported. -/
def Text.encoded (t : Text) : Except Fault String :=
  match t.toString? with
  | some s => .ok s
  | none =>
    let before := t.takeWhile fun p => !p.isSurrogate
    let run := (t.drop before.length).takeWhile fun p => p.isSurrogate
    let first := match run with
      | p :: _ => p.val
      | [] => 0
    .error (.unencodable first before.length run.length)

def Node.ofSource (host : Host) (source : String) : Except Error Node :=
  Node.ofConcrete host.limits source.toUTF8 (SourceText.parse host.recovery source)

def Node.ofText (host : Host) (source : Text) : Except Error Node :=
  match source.encoded with
  | .ok s => Node.ofSource host s
  | .error fault => .error (.fault fault)

end Sil
