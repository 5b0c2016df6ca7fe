/-!
# Arguments of the command line

Arguments are read from left to right.  The first one that cannot be understood makes the whole line
unusable, unless help was asked for before it.  After `--` no argument is an option.
-/

namespace BlockScript.Cli

inductive Argument where
  /-- The end of the options. -/
  | escape
  | long (name : String) (value : Option String)
  /-- A row of options of one letter each. -/
  | short (letters : List Char)
  | word (text : String)
  deriving DecidableEq, Repr, Inhabited

def Argument.ofString (arg : String) : Argument :=
  match arg.toList with
  | '-' :: '-' :: rest =>
    let name := String.ofList (rest.takeWhile (· ≠ '='))
    match rest.dropWhile (· ≠ '=') with
    | [] => if rest.isEmpty then .escape else .long name none
    | _ :: value => .long name (some (String.ofList value))
  | '-' :: letter :: rest => .short (letter :: rest)
  | _ => .word arg

/-- Whether an argument can be the value of the option before it. -/
def isOperand (arg : String) : Bool :=
  match Argument.ofString arg with
  | .word _ => true
  | _ => false

/-- What a command can be given besides the common options. -/
structure Shape where
  /-- Options without a value, with the letter that also names them. -/
  flags : List (String × Option Char)
  /-- Options with a value that must not be empty. -/
  options : List String
  /-- The greatest number of words, if there is one. -/
  words : Option Nat

/-- What a command has been given. -/
structure Given where
  flags : List String
  options : List (String × String)
  words : List String
  deriving DecidableEq, Repr, Inhabited

namespace Given

def empty : Given := ⟨[], [], []⟩

def option? (g : Given) (name : String) : Option String :=
  (g.options.find? fun (key, _) => key == name).map Prod.snd

/-- Nothing is given twice. -/
def addFlag? (g : Given) (name : String) : Option Given :=
  if g.flags.contains name then none else some { g with flags := name :: g.flags }

def addOption? (g : Given) (name value : String) : Option Given :=
  if (g.option? name).isSome then none
  else some { g with options := (name, value) :: g.options }

def addWord? (shape : Shape) (g : Given) (word : String) : Option Given :=
  if word.isEmpty then none
  else
    match shape.words with
    | none => some { g with words := g.words ++ [word] }
    | some most =>
      if g.words.length < most then some { g with words := g.words ++ [word] } else none

end Given

/-- What reading the arguments of a command comes to. -/
inductive Parsed where
  | given (g : Given)
  | help
  | unusable
  deriving DecidableEq, Repr, Inhabited

/-- The option that every command takes. -/
def logLevel : String := "log-level"

/-- Reads a row of letters. -/
def readLetters (shape : Shape) (g : Given) : List Char → Parsed
  | [] => .given g
  | letter :: rest =>
    if letter = 'h' then .help
    else
      match shape.flags.find? fun (_, short) => short == some letter with
      | none => .unusable
      | some (name, _) =>
        match g.addFlag? name with
        | none => .unusable
        | some g => readLetters shape g rest

/-- Reads arguments that are all words. -/
def readWords (shape : Shape) (g : Given) : List String → Parsed
  | [] => .given g
  | word :: rest =>
    match g.addWord? shape word with
    | none => .unusable
    | some g => readWords shape g rest

/-- Adds an option with its value. -/
def giveOption (shape : Shape) (g : Given) (name value : String) : Option Given :=
  if name = logLevel then g.addOption? name value
  else if shape.options.contains name && !value.isEmpty then g.addOption? name value
  else none

/-- Reads the arguments of a command. -/
def readArguments (shape : Shape) (g : Given) : List String → Parsed
  | [] => .given g
  | arg :: rest =>
    match Argument.ofString arg with
    | .escape => readWords shape g rest
    | .short letters =>
      match readLetters shape g letters with
      | .given g => readArguments shape g rest
      | other => other
    | .word word =>
      match g.addWord? shape word with
      | none => .unusable
      | some g => readArguments shape g rest
    | .long name (some value) =>
      match giveOption shape g name value with
      | none => .unusable
      | some g => readArguments shape g rest
    | .long name none =>
      if name = "help" then .help
      else if (shape.flags.map Prod.fst).contains name then
        match g.addFlag? name with
        | none => .unusable
        | some g => readArguments shape g rest
      else
        match rest with
        | [] => .unusable
        | value :: rest =>
          if isOperand value then
            match giveOption shape g name value with
            | none => .unusable
            | some g => readArguments shape g rest
          else .unusable

inductive Command where
  | run (file : String)
  | parse (files : List String) (spans : Bool)
  | repl (persistHistory : Bool) (historyFile : Option String)
  | help
  | version
  deriving DecidableEq, Repr, Inhabited

def runShape : Shape := ⟨[], [], some 1⟩

def parseShape : Shape := ⟨[("spans", some 's')], [], none⟩

def replShape : Shape := ⟨[("no-history", none)], ["history-file"], some 0⟩

/-- The command that what was given makes, if nothing is missing. -/
def finish (make : Given → Option Command) : Parsed → Option Command
  | .given g => make g
  | .help => some .help
  | .unusable => none

/-- Help can be asked for about a command, and about help itself. -/
def helpCommand : List String → Option Command
  | [] => some .help
  | [name] => if ["run", "parse", "repl", "help"].contains name then some .help else none
  | _ => none

/-- The command of a name with its arguments. -/
def namedCommand (name : String) (args : List String) : Option Command :=
  match name with
  | "run" =>
    finish (fun g => g.words.head?.map .run) (readArguments runShape .empty args)
  | "parse" =>
    finish
      (fun g => if g.words.isEmpty then none else some (.parse g.words (g.flags.contains "spans")))
      (readArguments parseShape .empty args)
  | "repl" =>
    finish
      (fun g => some (.repl (!g.flags.contains "no-history") (g.option? "history-file")))
      (readArguments replShape .empty args)
  | "help" => helpCommand args
  | _ => none

/-- Reads a whole command line; none if it is unusable.  Without a command there is help. -/
def commandFrom (leveled : Bool) : List String → Option Command
  | [] => some .help
  | arg :: rest =>
    match Argument.ofString arg with
    | .escape => if rest.isEmpty then some .help else none
    | .word name => namedCommand name rest
    | .short letters =>
      match letters.head? with
      | some 'h' => some .help
      | some 'V' => some .version
      | _ => none
    | .long name value =>
      match value with
      | some _ => if name = logLevel && !leveled then commandFrom true rest else none
      | none =>
        if name = "help" then some .help
        else if name = "version" then some .version
        else if name = logLevel && !leveled then
          match rest with
          | [] => none
          | value :: rest => if isOperand value then commandFrom true rest else none
        else none

def Command.ofArguments? (args : List String) : Option Command :=
  commandFrom false args

end BlockScript.Cli
