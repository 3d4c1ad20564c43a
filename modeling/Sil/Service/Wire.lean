import Sil.Service.Http

/-!
Requests and responses as bytes.
-/
namespace Sil.Http

/-- The bytes before the first empty line and those after it. -/
def splitHead : List UInt8 → Option (List UInt8 × List UInt8)
  | 13 :: 10 :: 13 :: 10 :: rest => some ([], rest)
  | b :: rest => (splitHead rest).map fun (head, body) => (b :: head, body)
  | [] => none

def byteText (bytes : List UInt8) : String := String.ofList (bytes.map fun b => Char.ofNat b.toNat)

def headerOfLine (line : String) : String × String :=
  let name := line.toList.takeWhile (· != ':')
  (String.ofList name, String.ofList (line.toList.drop (name.length + 1)))

/-- The request of a head and a body; the first line has to name a method and a path. -/
def Request.ofParts? (head body : List UInt8) : Option Request :=
  match (byteText head).splitOn "\r\n" with
  | [] => none
  | first :: rest =>
    match (first.splitOn " ").filter (· != "") with
    | method :: path :: _ =>
      some { method := .ofName method, path, headers := rest.map headerOfLine, body }
    | _ => none

/-- Whether a request has all of the body that it announces. -/
def Request.isComplete (r : Request) : Bool :=
  match r.announcedLength with
  | .ok n => n.toNat ≤ r.body.length
  | .error _ => true

/-- The request that some bytes hold, if they are all there. -/
def Request.ofBytes? (bytes : List UInt8) : Option Request := do
  let (head, body) ← splitHead bytes
  let r ← Request.ofParts? head body
  if r.isComplete then some r else none

def statusText : Nat → String
  | 200 => "OK"
  | 204 => "No Content"
  | 400 => "Bad Request"
  | 404 => "Not Found"
  | 500 => "Internal Server Error"
  | _ => "Not Implemented"

def Response.text (r : Response) : String :=
  let head := s!"HTTP/1.0 {r.status} " ++ statusText r.status ++ "\r\n"
  head ++ String.join (r.headers.map fun (key, value) => key ++ ": " ++ value ++ "\r\n") ++
    "\r\n" ++
    r.body

end Sil.Http
