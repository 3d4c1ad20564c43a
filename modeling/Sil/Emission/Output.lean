import Sil.Emission.Step

/-!
The text of an emitted program: its lines between the frame that the target language needs.
-/
namespace Sil

namespace Backend

/-- The lines before the program: in the typed language the start of `main` with the declarations of
the hoisted names. -/
def prologue (b : Backend) (indent : String) (s : EmissionState) : List String :=
  match b with
  | .python => []
  | .cpp =>
    ["#include <iostream>", "#include <string>", "using namespace std;", "", "int main() \x7b"] ++
      s.hoisted.map fun (name, type) =>
        Line.indentation indent b.baseDepth ++ type.text ++ " " ++ name.shown ++ ";"

def epilogue (b : Backend) (indent : String) : List String :=
  match b with
  | .python => []
  | .cpp => [Line.indentation indent b.baseDepth ++ "return 0;", "\x7d"]

def textLines (b : Backend) (indent : String) (s : EmissionState) : List String :=
  b.prologue indent s ++ s.lines.map (Line.text b indent) ++ b.epilogue indent

def render (b : Backend) (indent : String) (is : List Instruction) : Except Error String := do
  let s ← Emission.emit b is
  return String.intercalate "\n" (b.textLines indent s)

def handledOpcodes (_ : Backend) : List String := Opcode.all.map Opcode.name

end Backend
end Sil
