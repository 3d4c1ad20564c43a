import Sil.Json.Reader
import Sil.Json.Writer
import Sil.Service.Request

/-!
The service over HTTP. A request is posted to one path as a JSON document; browsers of other origins
are told that they may do so.
-/
namespace Sil.Http

inductive Method where
  | get
  | post
  | options
  | other (name : String)

def Method.ofName : String → Method
  | "GET" => .get
  | "POST" => .post
  | "OPTIONS" => .options
  | name => .other name

structure Request where
  method : Method
  path : String
  headers : List (String × String) := []
  body : List UInt8 := []

structure Response where
  status : Nat
  headers : List (String × String)
  body : String := ""

/-- The texts to compile to, and the origin whose pages may read the answers. -/
structure Settings where
  compiler : Sil.Settings := {}
  allowOrigin : String := "*"

def servicePath : String := "/translate"

namespace Request

/-- The value of a header, by its name in any case, without the space before it. -/
def header? (r : Request) (name : String) : Option String :=
  (r.headers.find? fun (key, _) => key.toLower == name.toLower).map fun (_, value) =>
    String.ofList (value.toList.dropWhile fun c => c == ' ' || c == '\t')

/-- How many bytes the body is said to have: none if nothing is said. -/
def announcedLength (r : Request) : Except Numeral.Refusal Int :=
  match (r.header? "Content-Length").getD "" with
  | "" => .ok 0
  | value => Numeral.readInt (some 10) value.toList

/-- The path, with one slash where it opens with several, so that it names no other host. -/
def localPath (r : Request) : String :=
  match r.path.toList with
  | '/' :: '/' :: rest => String.ofList ('/' :: rest.dropWhile (· == '/'))
  | _ => r.path

def resource (r : Request) : String := String.ofList (r.localPath.toList.takeWhile (· != '?'))

end Request

def Response.ofReply (settings : Settings) (reply : Reply) : Response :=
  let body := reply.body.compact
  { status := reply.status
    headers :=
      [("Access-Control-Allow-Origin", settings.allowOrigin),
       ("Content-Type", "application/json"),
       ("Content-Length", toString body.utf8ByteSize)]
    body }

/-- What a browser gets that asks whether it may post. -/
def Response.permission (settings : Settings) : Response where
  status := 204
  headers :=
    [("Access-Control-Allow-Origin", settings.allowOrigin),
     ("Access-Control-Allow-Methods", "POST, OPTIONS"),
     ("Access-Control-Allow-Headers", "Content-Type"),
     ("Content-Length", "0")]

/-- A text with the characters that have a meaning in markup replaced. -/
def markupText (text : String) : String :=
  String.join (text.toList.map fun
    | '&' => "&amp;"
    | '<' => "&lt;"
    | '>' => "&gt;"
    | c => c.toString)

def unsupportedPage (method : String) : String :=
  String.intercalate "\n"
    ["<!DOCTYPE HTML>",
     "<html lang=\"en\">",
     "    <head>",
     "        <meta charset=\"utf-8\">",
     "        <title>Error response</title>",
     "    </head>",
     "    <body>",
     "        <h1>Error response</h1>",
     "        <p>Error code: 501</p>",
     "        <p>Message: Unsupported method (" ++
       markupText (Text.display (Text.ofString method)) ++ ").</p>",
     "        <p>Error code explanation: 501 - Server does not support this operation.</p>",
     "    </body>",
     "</html>",
     ""]

def Response.unsupported (method : String) : Response :=
  let page := unsupportedPage method
  { status := 501
    headers :=
      [("Connection", "close"), ("Content-Type", "text/html;charset=utf-8"),
       ("Content-Length", toString page.utf8ByteSize)]
    body := if method = "HEAD" then "" else page }

/-- The JSON document in a body, or the reply for a body that holds none. An empty body stands for
null. -/
def decodeBody (bytes : List UInt8) : Except Fault (Except Reply Json) :=
  match Text.decodeUtf8 bytes with
  | .error fault => .ok (.error (.badRequest ("invalid JSON: " ++ fault.message)))
  | .ok [] => .ok (.ok .null)
  | .ok document =>
    match Json.read document with
    | .ok payload => .ok (.ok payload)
    | .error (.malformed what position) =>
      let why := what.located position document
      .ok (.error (.badRequest ("invalid JSON: " ++ why)))
    | .error (.tooManyDigits n) => .error (.digitLimit (some n))

/-- The reply to what is posted. A body shorter than announced is taken as it is. -/
def postReply (settings : Settings) (r : Request) : Except Fault Reply :=
  if r.resource != servicePath then .ok (.refusal 404 ("no route for " ++ r.localPath) "NotFound")
  else
    match r.announcedLength with
    | .error _ => .ok (.badRequest "invalid Content-Length header")
    | .ok length =>
      if length < 0 then .ok (.badRequest "invalid Content-Length header")
      else do
        match ← decodeBody (r.body.take length.toNat) with
        | .error reply => return reply
        | .ok payload => settings.compiler.answer payload

def respond (settings : Settings) (r : Request) : Except Fault Response :=
  match r.method with
  | .options => .ok (.permission settings)
  | .post => (postReply settings r).map (Response.ofReply settings)
  | .get =>
    .ok (.ofReply settings (.refusal 404 ("no route for " ++ r.localPath) "NotFound"))
  | .other method => .ok (.unsupported method)

end Sil.Http
