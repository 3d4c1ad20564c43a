import Sil.Compile
import Sil.Syntax.Estree

/-!
One request to the service: a JSON object with source text or a syntax tree, answered by the
compiled texts or by the reason why there are none.
-/
namespace Sil

structure Reply where
  status : Nat
  body : Json

namespace Reply

/-- A refusal that is not about the program. -/
def refusal (status : Nat) (why kind : String) : Reply :=
  ⟨status, .object [("error", .ofString why), ("kind", .ofString kind)]⟩

def badRequest (why : String) : Reply := refusal 400 why "BadRequest"

/-- The reply for an error, which names the tag of the error first. A fault has no reply. -/
def ofError (e : Error) : Except Fault Reply := do
  let why ← e.report
  return ⟨400, .object [("kind", .ofString (e.tag?.getD "")), ("error", .ofString why)]⟩

def ofCompiled : Except Error Compiled → Except Fault Reply
  | .ok c => .ok ⟨200, c.payload⟩
  | .error e => ofError e

end Reply

/-- The answer to a request. Source text counts before a syntax tree. -/
def Settings.answer (settings : Settings) (payload : Json) : Except Fault Reply :=
  match payload with
  | .obj _ =>
    match payload.getD "code", payload.getD "ast" with
    | .str code, _ =>
      Reply.ofCompiled do (← Node.ofText settings.host code).compile settings none
    | _, .obj fields =>
      Reply.ofCompiled do (← Node.ofEstree (.obj fields)).compile settings none
    | _, _ => .ok (.badRequest "expected a 'code' string or an 'ast' object")
  | _ => .ok (.badRequest "request body must be a JSON object")

end Sil
