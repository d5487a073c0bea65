import MatchLang.Code.Listing
import MatchLang.Conversation
import MatchLang.Directory

/-! The command line: what the arguments ask for, and what comes of it when the files and the input
are given. -/

namespace MatchLang

def version : String := "0.1.0"

def usageLines : List String :=
  [ "Snek interpreter",
    "",
    "Usage: snek <command> [options]",
    "",
    "Commands:",
    "  run <file>       Run a Snek script",
    "  repl             Start an interactive session",
    "  dis <file>       Print the compiled instructions of a file",
    "  help             Show this help message",
    "  version          Show version information",
    "",
    "Run options:",
    "  --root <dir>     Directory imports resolve against",
    "                   (default: $SNEK_ROOT, else the script's directory)",
    "  --no-prelude     Do not import the prelude",
    "",
    "Environment:",
    "  SNEK_LOG         Tracing filter, e.g. snek_vm=debug (falls back to RUST_LOG)",
    "  SNEK_LOG_TREE    Render tracing output as an indented tree" ]

/-- How a program is run. -/
structure Options where
  root : Option String
  withPrelude : Bool
  callLimit : Option Nat

def Options.default : Options :=
  { root := none, withPrelude := true, callLimit := some defaultCallLimit }

inductive Command where
  | help
  | version
  | run (file : String) (options : Options)
  | converse
  | list (file : String)

/-- What is wrong with the arguments. -/
inductive ArgumentError where
  | rootMissing
  | unexpected (argument : String)
  | fileMissing
  | listingFileMissing
  | unknown (command : String)

def ArgumentError.lines : ArgumentError → List String
  | .rootMissing => ["error: --root needs a directory"]
  | .unexpected a => ["error: unexpected argument '" ++ a ++ "'"]
  | .fileMissing =>
    ["error: missing file path", "Usage: snek run <file> [--root DIR] [--no-prelude]"]
  | .listingFileMissing => ["Usage: snek dis <file>"]
  | .unknown command => ["Unknown command: " ++ command, ""]

def rootOption : String := "--root="

/-- The options of a program to run, and its file. -/
def readOptions : List String → Options → Option String → Except ArgumentError Command
  | [], options, some file => .ok (.run file options)
  | [], _, none => .error .fileMissing
  | "--no-prelude" :: rest, options, file =>
    readOptions rest { options with withPrelude := false } file
  | ["--root"], _, _ => .error .rootMissing
  | "--root" :: dir :: rest, options, file =>
    readOptions rest { options with root := some dir } file
  | a :: rest, options, file =>
    if a.startsWith rootOption then
      let dir := String.ofList (a.toList.drop rootOption.length)
      readOptions rest { options with root := some dir } file
    else if !a.startsWith "-" && file.isNone then readOptions rest options (some a)
    else .error (.unexpected a)

/-- The command that some arguments ask for. -/
def Command.ofArguments : List String → Except ArgumentError Command
  | [] => .ok .help
  | "run" :: rest => readOptions rest .default none
  | "repl" :: _ => .ok .converse
  | ["dis"] => .error .listingFileMissing
  | "dis" :: file :: _ => .ok (.list file)
  | "help" :: _ => .ok .help
  | "--help" :: _ => .ok .help
  | "-h" :: _ => .ok .help
  | "version" :: _ => .ok .version
  | "--version" :: _ => .ok .version
  | "-V" :: _ => .ok .version
  | command :: _ => .error (.unknown command)

/-- Why a command failed. -/
inductive CommandError where
  | notFound (path : String)
  | unreadable (path : String) (reason : ReadError)
  | program (error : RunError)

def CommandError.message : CommandError → String
  | .notFound path => "cannot find file '" ++ path ++ "'"
  | .unreadable path reason => "error reading '" ++ path ++ "': " ++ reason.message
  | .program e => e.message

def CommandError.isReported : CommandError → Bool
  | .program e => e.isReported
  | _ => false

def readProgram (read : String → Except ReadError String) (path : String) :
    Except CommandError String :=
  match read path with
  | .ok text => .ok text
  | .error .missing => .error (.notFound path)
  | .error e => .error (.unreadable path e)

/-- The directory part of a path, without the slashes that end it. -/
def parentOf (path : String) : String :=
  let cs := path.toList.reverse.dropWhile (· != '/')
  let dir := (cs.dropWhile (· = '/')).reverse
  if dir.isEmpty && !cs.isEmpty then "/" else String.ofList dir

/-- The last name of a path. -/
def fileName (path : String) : String :=
  String.ofList (path.toList.reverse.takeWhile (· != '/')).reverse

/-- Where imports are looked for: the directory asked for, else the one of the environment, else the
directory of the script, else the one the program was started in. -/
def Options.appRoot (o : Options) (environmentRoot script : Option String) : String :=
  match o.root with
  | some dir => dir
  | none =>
    match environmentRoot with
    | some dir => dir
    | none =>
      match script.map parentOf with
      | some dir => if dir.isEmpty then "." else dir
      | none => "."

def Options.host (o : Options) (environmentRoot script : Option String)
    (read : String → Except ReadError String) : Host :=
  { appRoot := o.appRoot environmentRoot script
    withPrelude := o.withPrelude
    callLimit := o.callLimit
    read }

/-- Run the program in a file. -/
def runFile (host : Host) (fuel : Nat) (store : Store) (path : String) :
    Except CommandError (Option Value) × Store :=
  match readProgram host.read path with
  | .error e => (.error e, store)
  | .ok source =>
    let (r, store) := runSource host fuel store (fileName path) source
    (r.mapError .program, store)

/-- The listing of the program in a file. -/
def listFile (read : String → Except ReadError String) (path : String) :
    Except CommandError (List String) :=
  match readProgram read path with
  | .error e => .error e
  | .ok source =>
    match compileText source false 0 with
    | .ok (code, _) => .ok code.listing
    | .error e => .error (.program e)

/-- What a command leaves behind. -/
structure CommandResult where
  exitCode : Nat
  printed : String
  complaints : String

/-- An error that has not been reported is complained of. -/
def CommandResult.of (r : Except CommandError Unit) (store : Store) : CommandResult :=
  let printed := store.console.transcript
  let complaints := store.console.complaints
  match r with
  | .ok _ => { exitCode := 0, printed, complaints }
  | .error e =>
    { exitCode := 1
      printed
      complaints :=
        if e.isReported then complaints else complaints ++ "error: " ++ e.message ++ "\n" }

def CommandResult.printing (lines : List String) : CommandResult :=
  { exitCode := 0, printed := Console.joinLines lines, complaints := "" }

/-- An unknown command shows how the known ones are used. -/
def ArgumentError.result (e : ArgumentError) : CommandResult :=
  { exitCode := 1
    printed := match e with
      | .unknown _ => Console.joinLines usageLines
      | _ => ""
    complaints := Console.joinLines e.lines }

/-- Carry out a command with the given files and input lines. -/
def Command.perform (c : Command) (fuel : Nat) (environmentRoot : Option String)
    (read : String → Except ReadError String) (input : List String) : CommandResult :=
  let store := Store.initial (.listening input)
  match c with
  | .help => .printing usageLines
  | .version => .printing ["snek " ++ MatchLang.version]
  | .run file options =>
    let (r, store) := runFile (options.host environmentRoot (some file) read) fuel store file
    .of (r.map fun _ => ()) store
  | .converse =>
    let (r, store) := MatchLang.converse (Options.default.host environmentRoot none read) fuel store
    .of (r.mapError .program) store
  | .list file =>
    match listFile read file with
    | .ok lines => .printing lines
    | .error e => .of (.error e) store

/-- Carry out what some arguments ask for. -/
def commandLine (arguments : List String) (fuel : Nat) (environmentRoot : Option String)
    (read : String → Except ReadError String) (input : List String) : CommandResult :=
  match Command.ofArguments arguments with
  | .ok c => c.perform fuel environmentRoot read input
  | .error e => e.result

end MatchLang
