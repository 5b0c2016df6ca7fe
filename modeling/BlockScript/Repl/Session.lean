import BlockScript.Machine
import BlockScript.Text.Blank
import BlockScript.Tree.Reader

/-!
# Interactive sessions

A session evaluates one input after the other on one machine.  An input is a program, or a command
that begins with a slash.
-/

namespace BlockScript.Repl

structure Config where
  prompt : String
  /-- Whether the values of assignments and expressions are shown. -/
  showResults : Bool
  verboseErrors : Bool
  persistHistory : Bool
  historyFile : Option String
  deriving DecidableEq, Repr, Inhabited

def Config.standard : Config where
  prompt := "bluejay> "
  showResults := true
  verboseErrors := false
  persistHistory := true
  historyFile := some ".bluejay_history"

structure Stats where
  inputs : Nat
  errors : Nat
  commands : Nat
  deriving DecidableEq, Repr, Inhabited

structure Session (σ : Type) where
  machine : Machine σ
  config : Config
  stats : Stats

def Session.new {σ : Type} (output : σ) (config : Config) : Session σ :=
  ⟨Machine.new output, config, ⟨0, 0, 0⟩⟩

/-- What comes of an input. -/
inductive Reply where
  /-- The last statement was an expression. -/
  | value (value : Value)
  /-- The last statement was an assignment. -/
  | assigned (name : String) (value : Value)
  /-- The answer of a command. -/
  | message (text : String)
  | nothing
  | quit
  deriving Repr, Inhabited

/-- Why an input failed. -/
inductive Failure where
  | parse (error : ParseError)
  | fault (fault : Fault)
  | unknownCommand (name : String)
  | exhausted
  deriving Repr, Inhabited

def Failure.message : Failure → String
  | .parse e => "Parse error: " ++ e.message
  | .fault f => "Runtime error: " ++ f.message
  | .unknownCommand name => "REPL command error: Unknown command: " ++ name
  | .exhausted => "Out of fuel"

def Failure.ofHalt : Halt → Failure
  | .fault f => .fault f
  | .exhausted => .exhausted

def yesNo (b : Bool) : String :=
  if b then "true" else "false"

/-- Lines as one text. -/
def unlines (lines : List String) : String :=
  "\n".intercalate lines

def helpText : String :=
  unlines
    ["BlueJay REPL Commands:",
      "  /help, /h           Show this help message",
      "  /vars, /variables   List all variables with their values and kinds",
      "  /clear              Drop every variable",
      "  /stats              Show session statistics",
      "  /config             Show current configuration",
      "  /quit, /q, /exit    Exit the REPL",
      "",
      "Examples:",
      "  x = 42              # Bind a variable",
      "  x * 2 + 1           # Evaluate an expression",
      "  print_line(\"hi\")    # Print a line",
      "",
      "Multi-line input:",
      "  while x > 0 \x7b       # Type \x7b and press Enter",
      "      x--             # Continuation prompt (...)",
      "  \x7d                   # Completes when braces close",
      "",
      "Use Ctrl+C to interrupt, Ctrl+D to exit."]

namespace Session

variable {σ : Type}

def variablesText (s : Session σ) : String :=
  match s.machine.environment.bindings with
  | [] => "No variables defined"
  | bindings =>
    unlines ("Variables:" :: bindings.map fun (name, value) =>
      "  " ++ name ++ ": " ++ value.kind.name ++ " = " ++ value.render)

def statsText (s : Session σ) : String :=
  unlines
    ["Session Statistics:",
      "  Inputs evaluated: " ++ toString s.stats.inputs,
      "  Statements executed: " ++ toString s.machine.executed,
      "  Errors encountered: " ++ toString s.stats.errors,
      "  Commands executed: " ++ toString s.stats.commands]

def configText (s : Session σ) : String :=
  unlines
    ["REPL Configuration:",
      "  Prompt: \"" ++ s.config.prompt ++ "\"",
      "  Show results: " ++ yesNo s.config.showResults,
      "  Verbose errors: " ++ yesNo s.config.verboseErrors,
      "  Persist history: " ++ yesNo s.config.persistHistory,
      "  History file: " ++ s.config.historyFile.getD "<none>"]

/-- Forgets all the variables. -/
def cleared (s : Session σ) : Session σ :=
  { s with machine := { s.machine with environment := s.machine.environment.reset } }

/-- Counts an input that failed. -/
def withError (s : Session σ) : Session σ :=
  { s with stats := { s.stats with errors := s.stats.errors + 1 } }

/-- What is shown of a reply. -/
def echo? (s : Session σ) : Reply → Option String
  | .value value => if s.config.showResults then some value.render else none
  | .assigned name value =>
    if s.config.showResults then some (name ++ " = " ++ value.render) else none
  | .message text => some text
  | .nothing => none
  | .quit => none

end Session

variable {σ : Type}

/-- Runs the command of a name. -/
def command (name : String) : EStateM Failure (Session σ) Reply := fun s =>
  let s := { s with stats := { s.stats with commands := s.stats.commands + 1 } }
  match name with
  | "/help" | "/h" => .ok (.message helpText) s
  | "/vars" | "/variables" => .ok (.message s.variablesText) s
  | "/clear" => .ok (.message "Variables cleared") s.cleared
  | "/stats" => .ok (.message s.statsText) s
  | "/config" => .ok (.message s.configText) s
  | "/quit" | "/q" | "/exit" => .ok .quit s
  | name => .error (.unknownCommand name) s

/-- What is reported of a statement and its value. -/
def replyOf : Statement → Option Value → Reply
  | .assign a, some value => .assigned a.target.name value
  | .expression _ _, some value => .value value
  | _, _ => .nothing

/-- Runs statements and reports the last one. -/
def replies [Writer σ] (fuel : Nat) (statements : List Statement) : Execution σ Reply :=
  statements.foldlM (fun _ statement => do return replyOf statement (← statement.exec fuel))
    .nothing

/-- Runs the text of a program on the machine of a session. -/
def runInput [Writer σ] (fuel : Nat) (input : String) : EStateM Failure (Session σ) Reply := fun s =>
  let s := { s with stats := { s.stats with inputs := s.stats.inputs + 1 } }
  match Program.parse input (some "<repl>") with
  | .error error => .error (.parse error) s
  | .ok program =>
    match replies fuel program.statements s.machine with
    | .ok reply machine => .ok reply { s with machine }
    | .error halt machine => .error (.ofHalt halt) { s with machine }

/-- Evaluates an input: nothing for a blank or a comment, a command after a slash, and the text of a
program otherwise. -/
def evaluate [Writer σ] (fuel : Nat) (input : String) : EStateM Failure (Session σ) Reply :=
  match trimmed input.toList with
  | [] => pure .nothing
  | '#' :: _ => pure .nothing
  | '/' :: rest => command (String.ofList (firstWord ('/' :: rest)))
  | _ => runInput fuel input

end BlockScript.Repl
