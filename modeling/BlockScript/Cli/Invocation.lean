import BlockScript.Cli.Arguments
import BlockScript.Output.Buffer
import BlockScript.Repl.Transcript
import BlockScript.Run
import BlockScript.Tree.Outline
import BlockScript.Tree.SExpr

/-!
# Invocations of the program

An invocation is a command line with the files and the standard input it can read.  It comes to an
exit status, what is written to standard output, and what is complained about.
-/

namespace BlockScript.Cli

inductive Exit where
  | success
  | failure
  /-- The command line is unusable. -/
  | usage
  deriving DecidableEq, Repr, Inhabited

def Exit.code : Exit → Nat
  | .success => 0
  | .failure => 1
  | .usage => 2

/-- What a program finds around it. -/
structure Surroundings where
  /-- The bytes of the file at a path, if there is one. -/
  file? : String → Option ByteArray
  /-- Whether a file can be written at a path. -/
  writable : String → Bool
  input : ByteArray

structure Outcome where
  exit : Exit
  output : Buffer
  complaints : List String

/-- Writes a line. -/
def say (text : String) (b : Buffer) : Buffer :=
  match Writer.writeLine text b with
  | .ok _ b => b
  | .error _ b => b

/-- The part of a file name after its last point, unless the name begins with that point. -/
def extension? (path : String) : Option String :=
  let name := (path.toList.reverse.dropWhile (· = '/')).takeWhile (· ≠ '/')
  let stem := name.dropWhile (· ≠ '.')
  match stem with
  | _ :: _ :: _ => some (String.ofList (name.takeWhile (· ≠ '.')).reverse)
  | _ => none

/-- The text of a source, its name and what is left of the input; or a complaint. -/
def readSource (around : Surroundings) (path : String) :
    Except String (String × String) × Surroundings :=
  if path = "-" then
    (match String.fromUTF8? around.input with
      | some text => .ok (text, "<stdin>")
      | none => .error "stream did not contain valid UTF-8",
      { around with input := .empty })
  else
    (match around.file? path with
      | none => .error ("File not found: " ++ path)
      | some bytes =>
        if extension? path = some "bj" then
          match String.fromUTF8? bytes with
          | some text => .ok (text, path)
          | none => .error "stream did not contain valid UTF-8"
        else .error ("Expected .bj file, got: " ++ path),
      around)

/-- Runs a program from a file.  What it printed before a fault is kept. -/
def runFile (fuel : Nat) (around : Surroundings) (path : String) : Outcome :=
  match (readSource around path).1 with
  | .error complaint => ⟨.failure, .unbounded, [complaint]⟩
  | .ok (text, name) =>
    match Program.parse text (some name) with
    | .error e => ⟨.failure, .unbounded, [e.message]⟩
    | .ok program =>
      match program.run fuel (Machine.new Buffer.unbounded) with
      | .ok _ m => ⟨.success, m.output, []⟩
      | .error (.fault f) m => ⟨.failure, m.output, [f.message]⟩
      | .error .exhausted m => ⟨.failure, m.output, ["Out of fuel"]⟩

/-- Shows the trees of files one after the other; `many` says whether there is more than one. -/
def showTrees (spans many : Bool) (around : Surroundings) (output : Buffer)
    (complaints : List String) : List String → Outcome
  | [] => ⟨if complaints.isEmpty then .success else .failure, output, complaints⟩
  | path :: rest =>
    let (source, around) := readSource around path
    let program := source.bind fun (text, name) =>
      match Program.parse text (some name) with
      | .ok program => .ok (program, name)
      | .error e => .error e.message
    match program with
    | .error complaint => showTrees spans many around output (complaints ++ [complaint]) rest
    | .ok (program, name) =>
      let output := say (if spans then program.outline.render else program.toSExpr.render) output
      let output := if many then say ("ok: " ++ name) output else output
      showTrees spans many around output complaints rest

/-- The lines of bytes, each with its end. -/
def byteLines : List UInt8 → List (List UInt8)
  | [] => []
  | byte :: rest =>
    if byte = Writer.lineFeed then [byte] :: byteLines rest
    else
      match byteLines rest with
      | [] => [[byte]]
      | line :: lines => (byte :: line) :: lines

/-- A line without its end, which may have a carriage return. -/
def chomp (line : List Char) : List Char :=
  match line.reverse with
  | '\n' :: '\r' :: rest => rest.reverse
  | '\n' :: rest => rest.reverse
  | _ => line

/-- The text of a line, if it is valid. -/
def lineText? (line : List UInt8) : Option String :=
  (String.fromUTF8? ⟨line.toArray⟩).map fun text => String.ofList (chomp text.toList)

/-- The texts of lines, up to the first line that is no text. -/
def lineTexts : List (List UInt8) → List String
  | [] => []
  | line :: rest =>
    match lineText? line with
    | none => []
    | some text => text :: lineTexts rest

/-- How an interactive session ended. -/
structure Conversation where
  session : Repl.Session (LineTracker Buffer)
  /-- Whether there was an input to remember. -/
  entered : Bool
  /-- Whether the session was quit before its inputs ended. -/
  quit : Bool

/-- Gives a session its inputs until they end or it is quit. -/
def converse (fuel : Nat) (session : Repl.Session (LineTracker Buffer)) (entered : Bool) :
    List String → Conversation
  | [] => ⟨session, entered, false⟩
  | input :: rest =>
    let entered := entered || !input.isEmpty
    match Repl.answer fuel input session with
    | (true, session) => converse fuel session entered rest
    | (false, session) => ⟨session, entered, true⟩

/-- Holds an interactive session.  At its end the inputs are saved, if that is wanted.  A line that
is no text is a failure, unless the session was quit before it. -/
def interact (fuel : Nat) (around : Surroundings) (config : Repl.Config) : Outcome :=
  let session := Repl.Session.new (LineTracker.new Buffer.unbounded) config
  let session := Repl.welcome.foldl (fun s line => Repl.showLine line s) session
  let lines := byteLines around.input.data.toList
  let texts := lineTexts lines
  let talk := converse fuel session false (Repl.inputs texts)
  if talk.quit || texts.length = lines.length then
    let session := Repl.showLine Repl.farewell talk.session
    let output := session.machine.output.inner
    match config.persistHistory, config.historyFile with
    | true, some path =>
      if talk.entered && !around.writable path then
        ⟨.failure, output, ["Cannot write: " ++ path]⟩
      else ⟨.success, output, []⟩
    | _, _ => ⟨.success, output, []⟩
  else
    ⟨.failure, talk.session.machine.output.inner, ["stream did not contain valid UTF-8"]⟩

def versionText : String := "bluejay 0.1.0"

def usageText : String :=
  Repl.unlines
    ["Interpreter for the BlueJay scripting language", "", "Usage: bluejay [OPTIONS] [COMMAND]", "",
      "Commands:",
      "  run    Run a BlueJay program",
      "  parse  Parse BlueJay source files and display their syntax tree",
      "  repl   Start an interactive session",
      "  help   Print this message or the help of the given subcommand(s)", "",
      "Options:",
      "      --log-level <FILTER>  Log filter directive",
      "  -h, --help                Print help",
      "  -V, --version             Print version"]

/-- The configuration of a session from the command line. -/
def replConfig (persistHistory : Bool) (historyFile : Option String) : Repl.Config :=
  { Repl.Config.standard with
    persistHistory
    historyFile := historyFile.or Repl.Config.standard.historyFile }

def execute (fuel : Nat) (around : Surroundings) : Command → Outcome
  | .run path => runFile fuel around path
  | .parse paths spans =>
    showTrees spans (decide (1 < paths.length)) around .unbounded [] paths
  | .repl persistHistory historyFile =>
    interact fuel around (replConfig persistHistory historyFile)
  | .help => ⟨.success, say usageText .unbounded, []⟩
  | .version => ⟨.success, say versionText .unbounded, []⟩

/-- What a whole command line comes to. -/
def invoke (fuel : Nat) (around : Surroundings) (args : List String) : Outcome :=
  match Command.ofArguments? args with
  | some command => execute fuel around command
  | none => ⟨.usage, .unbounded, ["unusable command line; try --help"]⟩

end BlockScript.Cli
