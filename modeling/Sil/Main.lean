import Sil.CommandLine.Run
import Sil.Service.Wire
import Std.Async.TCP

/-!
The command: reads what the options ask for, prints the report, or answers requests until it is
stopped.
-/
open Sil Sil.CommandLine Std.Async Std.Async.TCP

/-- The number and name of the error that kept a file from being read. -/
def Sil.CommandLine.FileFault.ofError : IO.Error → FileFault
  | .noFileOrDirectory .. => .missing
  | .inappropriateType .. => .isDirectory
  | .permissionDenied .. => ⟨13, "Permission denied"⟩
  | e => ⟨5, toString e⟩

/-- Reads everything until the stream ends. -/
partial def readAll (stream : IO.FS.Stream) (found : ByteArray) : IO ByteArray := do
  let chunk ← stream.read 65536
  if chunk.isEmpty then return found else readAll stream (found ++ chunk)

def contentsOf : Origin → IO (Except FileFault (List UInt8))
  | .demo => return .ok []
  | .standardInput => do return .ok (← readAll (← IO.getStdin) .empty).toList
  | .file path => do
    try return .ok (← IO.FS.readBinFile path).toList
    catch e => return .error (.ofError e)

def deliver (result : Except Fault Report) : IO UInt32 := do
  match result with
  | .ok report =>
    IO.eprint report.log
    IO.print report.output
    return report.status.toUInt32
  | .error fault =>
    IO.eprintln fault.message
    return 1

/-- Reads one request from a connection. -/
partial def receive (client : Socket.Client) (found : List UInt8) :
  Async (Option Http.Request) := do
  match Http.Request.ofBytes? found with
  | some r => return some r
  | none =>
    match ← client.recv? 65536 with
    | some bytes => receive client (found ++ bytes.toList)
    | none => return none

def attend (client : Socket.Client) : Async Unit := do
  match ← receive client [] with
  | none => client.shutdown
  | some r =>
    let response := match Http.respond {} r with
      | .ok response => response
      | .error fault => .ofReply {} (.refusal 500 fault.message "Fault")
    client.send response.text.toUTF8
    client.shutdown

/-- Answers one connection after the other. A connection that breaks ends no other. -/
partial def attendAll (server : Socket.Server) : Async Unit := do
  let client ← server.accept
  try attend client
  catch e => IO.eprintln (toString e)
  attendAll server

def serve (host : String) (portNumber : Int) : IO UInt32 := do
  match Std.Net.IPv4Addr.ofString host with
  | none =>
    IO.eprintln ("not an address: " ++ host)
    return 1
  | some addr =>
    let server ← Socket.Server.mk
    server.bind (.v4 ⟨addr, portNumber.toNat.toUInt16⟩)
    server.listen 128
    IO.eprintln
      s!"INFO translator.server: Serving POST {Http.servicePath} on http://{host}:{portNumber}"
    (attendAll server).block
    return 0

def main (args : List String) : IO UInt32 := do
  match Options.ofArguments args with
  | .error stop => deliver (.ok stop.report)
  | .ok options =>
    if options.serve then serve options.host options.portNumber
    else
      let contents ← contentsOf options.origin
      deliver (options.run fun _ => contents)
