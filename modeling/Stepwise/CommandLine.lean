import Stepwise.Session.History

/-! One request given as the words of a command line. Options may stand before the command and
behind it, each at most once in either place. A word that starts with a dash is no argument,
unless `--` stands before it or the word is a single dash. -/
namespace Stepwise.CommandLine

inductive Word where
  /-- All words behind it are arguments. -/
  | escape
  | long (name : String) (value : Option String)
  | short (letter : Char)
  | plain (text : String)
deriving DecidableEq, Repr

def Word.ofText (text : String) : Word :=
  match text.toList with
  | ['-', '-'] => .escape
  | '-' :: '-' :: rest =>
    let name := String.ofList (rest.takeWhile (· ≠ '='))
    match rest.dropWhile (· ≠ '=') with
    | [] => .long name none
    | _ :: value => .long name (some (String.ofList value))
  | '-' :: letter :: _ => .short letter
  | _ => .plain text

inductive Command where
  | compute (mode : Mode)
  | interactive
deriving DecidableEq, Repr

namespace Command

def ofName? : String → Option Command
  | "eval" => some (.compute .expression)
  | "solve" => some (.compute .system)
  | "matrix" => some (.compute .matrix)
  | "set" => some (.compute .set)
  | "tui" => some .interactive
  | _ => none

/-- The number of arguments; a system has an equation in each. -/
def admits (command : Command) (arguments : Nat) : Bool :=
  match command with
  | .compute .system => 0 < arguments
  | .compute _ => arguments = 1
  | .interactive => arguments = 0

/-- Whether one more argument may follow. -/
def admitsMore (command : Command) (arguments : Nat) : Bool :=
  match command with
  | .compute .system => true
  | .compute _ => arguments = 0
  | .interactive => false

end Command

inductive Flag where
  | logLevel
  | logFile
  | historyLimit
deriving DecidableEq, Repr

def Flag.ofName? : String → Option Flag
  | "log-level" => some .logLevel
  | "log-file" => some .logFile
  | "history-limit" => some .historyLimit
  | _ => none

def logLevels : List String := ["error", "warn", "info", "debug", "trace"]

/-- A count in decimal digits that a word of sixty-four bits can hold. -/
def readCount? (text : String) : Option Nat :=
  let digits := match text.toList with
    | '+' :: digits => digits
    | digits => digits
  if digits ≠ [] ∧ digits.all Char.isDigit then
    let n := digits.foldl (fun n c => 10 * n + (c.toNat - '0'.toNat)) 0
    if n < Decimal.twoTo 64 then some n else none
  else none

/-- The words read so far. No log is written: the options for one are only checked. -/
structure Reading where
  historyLimit : Nat := History.defaultLimit
  /-- The options given since the command, or before it. -/
  given : List Flag := []
  command : Option Command := none
  arguments : List String := []

/-- What a command line asks for. -/
inductive Intent where
  | compute (mode : Mode) (input : String)
  | interactive (historyLimit : Nat)
  | version
  | help
deriving DecidableEq, Repr

namespace Reading

def set? (r : Reading) (flag : Flag) (value : String) : Option Reading :=
  let r' := { r with given := flag :: r.given }
  if flag ∈ r.given then none
  else match flag with
    | .logLevel => if value ∈ logLevels then some r' else none
    | .logFile => if value.isEmpty then none else some r'
    | .historyLimit => (readCount? value).map fun historyLimit => { r' with historyLimit }

def addArgument? (r : Reading) (text : String) : Option Reading :=
  match r.command with
  | none => none
  | some command =>
    if command.admitsMore r.arguments.length then
      some { r with arguments := r.arguments ++ [text] }
    else none

def addArguments? (r : Reading) (texts : List String) : Option Reading := texts.foldlM addArgument? r

/-- Takes a word as a command, or as an argument of the command. -/
def addPlain? (r : Reading) (text : String) : Option Reading :=
  match r.command with
  | some _ => r.addArgument? text
  | none => (Command.ofName? text).map fun command => { r with command := some command, given := [] }

def finish? (r : Reading) : Option Intent :=
  match r.command with
  | none => some (.interactive r.historyLimit)
  | some command =>
    if command.admits r.arguments.length then
      match command with
      | .compute mode => some (.compute mode (String.intercalate ";" r.arguments))
      | .interactive => some (.interactive r.historyLimit)
    else none

/-- Help is there on each command. -/
def helpOn? : List String → Option Intent
  | [] => some .help
  | [name] => if name = "help" ∨ (Command.ofName? name).isSome then some .help else none
  | _ => none

/-- Reads words up to the first that is wrong, or that asks for help or the version. -/
def read? (r : Reading) : List String → Option Intent
  | [] => r.finish?
  | word :: rest =>
    match Word.ofText word with
    | .escape => (r.addArguments? rest).bind finish?
    | .plain text =>
      if r.command.isNone ∧ text = "help" then helpOn? rest
      else match r.addPlain? text with
        | some r => r.read? rest
        | none => none
    | .short letter =>
      if letter = 'h' then some .help
      else if letter = 'V' ∧ r.command.isNone then some .version
      else none
    | .long "help" none => some .help
    | .long "version" none => if r.command.isNone then some .version else none
    | .long name (some value) =>
      match (Flag.ofName? name).bind (r.set? · value) with
      | some r => r.read? rest
      | none => none
    | .long name none =>
      match rest with
      | [] => none
      | value :: rest =>
        match Word.ofText value with
        | .plain _ =>
          match (Flag.ofName? name).bind (r.set? · value) with
          | some r => r.read? rest
          | none => none
        | _ => none

end Reading

/-- What the words of a command line ask for, if they are in order. -/
def Intent.ofWords? (words : List String) : Option Intent := ({} : Reading).read? words

/-- What a run writes, and the code it ends with. -/
structure Report where
  code : UInt8 := 0
  output : String := ""
  errors : String := ""
deriving DecidableEq, Repr

def Report.ofEntry (entry : Entry) : Report :=
  let output := String.join (entry.steps.map (· ++ "\n"))
  match entry.outcome with
  | .ok _ => { output }
  | .error failure => { code := 1, output, errors := failure.line ++ "\n" }

def versionText : String := "calctty 0.1.0\n"

def helpText : String := String.join (List.map (· ++ "\n") [
  "Step-by-step symbolic calculator with a terminal UI",
  "",
  "Usage: calctty [OPTIONS] [COMMAND]",
  "",
  "Commands:",
  "  eval    Evaluate an expression or equation and print every step",
  "  solve   Solve a system of linear equations",
  "  matrix  Apply a matrix request such as \"2*I[1,2;3,4] + T[1,0;0,1]\"",
  "  set     Apply a set request such as \"\x7b1,2,3\x7d union \x7b2,3,4\x7d\"",
  "  tui     Start the terminal UI",
  "  help    Print this message",
  "",
  "Options:",
  "      --log-level <LOG_LEVEL>          One of error, warn, info, debug and trace",
  "      --log-file <LOG_FILE>            Write logs to this file",
  "      --history-limit <HISTORY_LIMIT>  Entries kept in the session history",
  "  -h, --help                           Print help",
  "  -V, --version                        Print version"])

inductive Outcome where
  | report (report : Report)
  /-- The words are not in order. -/
  | misused
  | interactive (historyLimit : Nat)
deriving DecidableEq, Repr

def run (words : List String) : Outcome :=
  match Intent.ofWords? words with
  | none => .misused
  | some (.compute mode input) => .report (.ofEntry (.compute mode input))
  | some (.interactive historyLimit) => .interactive historyLimit
  | some .version => .report { output := versionText }
  | some .help => .report { output := helpText }

end Stepwise.CommandLine
