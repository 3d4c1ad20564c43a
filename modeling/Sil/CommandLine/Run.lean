import Sil.CommandLine.Arguments
import Sil.CommandLine.Log
import Sil.Json.Writer

/-!
One run of the command: from its arguments and what it reads to what it prints and its exit status.
-/
namespace Sil.CommandLine

inductive Origin where
  | demo
  | standardInput
  | file (path : String)

def Options.origin (o : Options) : Origin :=
  match o.file with
  | none => .demo
  | some "-" => .standardInput
  | some path => .file path

/-- Why a file cannot be read: the number of the error and its name. -/
structure FileFault where
  code : Nat
  text : String

namespace FileFault

def missing : FileFault := ⟨2, "No such file or directory"⟩

def notDirectory : FileFault := ⟨20, "Not a directory"⟩

def isDirectory : FileFault := ⟨21, "Is a directory"⟩

def message (f : FileFault) (path : String) : String :=
  s!"[Errno {f.code}] {f.text}: " ++ quotedWord path

end FileFault

structure Report where
  status : Nat
  output : String := ""
  log : String := ""

def demoSource : String :=
  "let a = 1;\n" ++
  "let b = 2;\n" ++
  "if (a < b && b < 10) \x7b\n" ++
  "    a = a + b;\n" ++
  "\x7d else \x7b\n" ++
  "    a = 0;\n" ++
  "\x7d\n" ++
  "while (a < 10) \x7b\n" ++
  "    a = a * 2;\n" ++
  "\x7d\n"

def usageText : String :=
  "usage: sil-translate [-h] [--backend \x7bpython,cpp\x7d] [--ir-only] [--json]\n" ++
  "                     [--serve] [--host HOST] [--port PORT] [--verbose]\n" ++
  "                     [file]\n"

def helpText : String :=
  usageText ++
  "\n" ++
  "Translate a JavaScript subset to SIL, Python and C++\n" ++
  "\n" ++
  "positional arguments:\n" ++
  "  file                  Source file ('-' reads stdin)\n" ++
  "\n" ++
  "options:\n" ++
  "  -h, --help            show this help message and exit\n" ++
  "  --backend \x7bpython,cpp\x7d, -b \x7bpython,cpp\x7d\n" ++
  "                        Backend to render (repeatable; default: all)\n" ++
  "  --ir-only             Only print the SIL instructions\n" ++
  "  --json                Print the \x7bsil, python, cpp\x7d payload\n" ++
  "  --serve               Run the HTTP translate endpoint\n" ++
  "  --host HOST\n" ++
  "  --port PORT\n" ++
  "  --verbose, -v         Enable debug logging and show source spans in the SIL\n"

def Stop.report : Stop → Report
  | .help => { status := 0, output := helpText }
  | .refused why =>
    { status := 2, log := usageText ++ "sil-translate: error: " ++ why.message ++ "\n" }

/-- A text in which every line ends with a line feed alone. -/
def plainLineEnds : List Char → List Char
  | '\r' :: '\n' :: rest => '\n' :: plainLineEnds rest
  | '\r' :: rest => '\n' :: plainLineEnds rest
  | c :: rest => c :: plainLineEnds rest
  | [] => []

def unlines (lines : List String) : String := String.join (lines.map (· ++ "\n"))

def heading (name : String) : String := "═══ " ++ name ++ " ═══"

def Options.printed (o : Options) (c : Compiled) : String :=
  if o.json then c.payload.indented 0 ++ "\n"
  else
    let listing := c.instructions.map fun i =>
      "  " ++ (if o.verbose then i.located else i.text)
    let outputs := c.outputs.flatMap fun (name, text) => ["", heading name.toUpper, text]
    unlines (heading "SIL" :: listing ++ if o.listingOnly then [] else outputs)

def Options.told (o : Options) (events : List Event) : String :=
  if o.verbose then unlines (events.map Event.line) else ""

/-- The text that a run compiles, with what it says first. -/
def Options.source (o : Options) (read : Origin → Except FileFault (List UInt8)) :
    Except Fault (String × Except String String) :=
  let started := o.told [.started o.file o.targets]
  let decoded (bytes : List UInt8) : Except Fault (String × Except String String) :=
    match Text.decodeUtf8 bytes with
    | .ok cs => .ok (started, .ok (String.ofList (plainLineEnds cs)))
    | .error fault => .error (.undecodable fault)
  match o.origin with
  | .demo =>
    let announced := "No file provided. Using built-in demo:\n\n" ++ demoSource ++ "\n"
    .ok (started ++ announced, .ok demoSource)
  | .standardInput =>
    match read .standardInput with
    | .ok bytes => decoded bytes
    | .error fault => .ok (started, .error (fault.message "-"))
  | .file path =>
    if path.toList.contains '\x00' then .error .nullInPath
    else
      match read (.file path) with
      | .ok bytes => decoded bytes
      | .error fault => .ok (started, .error (fault.message path))

def failure (log message : String) : Report :=
  { status := 1, log := log ++ "error: " ++ message ++ "\n" }

/-- A run that compiles what it reads. A fault ends it without a report. -/
def Options.run (o : Options) (read : Origin → Except FileFault (List UInt8)) :
    Except Fault Report := do
  let settings : Settings := {}
  let (log, source) ← o.source read
  match source with
  | .error message => return failure log message
  | .ok source =>
    let log := log ++ o.told (if o.verbose then sourceEvents settings o.targets source else [])
    let compiled := do
      (← Node.ofSource settings.host source).compileTo settings.host.limits o.targets
        settings.indent
    match compiled with
    | .ok c => return { status := 0, output := o.printed c, log }
    | .error e => return failure log (← e.report)

/-- The report of the command for its arguments and what it can read. -/
def report (args : List String) (read : Origin → Except FileFault (List UInt8)) :
    Except Fault Report :=
  match Options.ofArguments args with
  | .ok options => options.run read
  | .error stop => .ok stop.report

end Sil.CommandLine
