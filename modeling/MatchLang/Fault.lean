import MatchLang.Code
import MatchLang.CompileError
import MatchLang.ParseError

/-! What can go wrong while a program runs, and the report that is made of it. -/

namespace MatchLang

/-- Why a file cannot be read. -/
inductive ReadError where
  | missing
  | isDirectory
  | notDirectory
  | other (message : String)
  deriving DecidableEq, Repr

def ReadError.message : ReadError → String
  | .missing => "No such file or directory (os error 2)"
  | .isDirectory => "Is a directory (os error 21)"
  | .notDirectory => "Not a directory (os error 20)"
  | .other message => message

inductive Fault where
  | nameNotFound (name : String)
  | typeNotFound (name : String)
  | namespaceNotFound (path : String)
  | unassigned (name : String)
  | publicUnderPrivate (path : String)
  | wrongParts (typeName : String) (parts : Nat)
  | typeMismatch (expected got : String)
  | failedMatch
  | failed (message : String)
  | notCallable (value : String)
  | tooManyArguments (function : String)
  | partialTailCall
  | callDepthExceeded (limit : Nat)
  | privateImport (name : String)
  | importNotFound (name : String)
  | moduleRead (file : String) (reason : ReadError)
  | moduleSyntax (file : String) (error : ParseError)
  | moduleCompile (file : String) (error : CompileError)
  | moduleRun (file : String) (report : String)
  | badArgument (function expected got : String)
  | notANumber (text : String)
  | raised (message : String)
  | stackUnderflow
  | unattachedLabel (label : Nat)

def Fault.message : Fault → String
  | .nameNotFound name => "Name '" ++ name ++ "' not found"
  | .typeNotFound name => "Type '" ++ name ++ "' not found"
  | .namespaceNotFound path => "Namespace '" ++ path ++ "' not found"
  | .unassigned name => "Access of name '" ++ name ++ "' before assignment"
  | .publicUnderPrivate path =>
    "Cannot add public namespace as child of private namespace (" ++ path ++ ")"
  | .wrongParts typeName parts =>
    "Cannot decompose " ++ typeName ++ " into " ++ toString parts ++ " parts"
  | .typeMismatch expected got => "Expected a " ++ expected ++ ", got " ++ got
  | .failedMatch => "Failed match"
  | .failed message => "Fail: " ++ message
  | .notCallable value => value ++ " is not a function"
  | .tooManyArguments function => "Too many arguments given for function " ++ function
  | .partialTailCall => "Cannot create partial tail-call"
  | .callDepthExceeded limit => "Maximum call depth of " ++ toString limit ++ " exceeded"
  | .privateImport name => "Cannot import private name '" ++ name ++ "'"
  | .importNotFound name => "Module has no public name '" ++ name ++ "'"
  | .moduleRead file reason => "Cannot read module '" ++ file ++ "': " ++ reason.message
  | .moduleSyntax file error => "Syntax error in module '" ++ file ++ "': " ++ error.message
  | .moduleCompile file error => "Compile error in module '" ++ file ++ "': " ++ error.message
  | .moduleRun file report => "Error while loading module '" ++ file ++ "': " ++ report
  | .badArgument function expected got => function ++ " expects " ++ expected ++ ", got " ++ got
  | .notANumber text => "Cannot convert '" ++ text ++ "' to a number"
  | .raised message => message
  | .stackUnderflow => "Operand stack underflow"
  | .unattachedLabel label => "Jump to unattached label " ++ labelText label

/-- One function that was running, and the last line reached in it. -/
structure TraceEntry where
  function : String
  line : Nat
  deriving DecidableEq, Repr

def TraceEntry.text (t : TraceEntry) : String :=
  t.function ++ " at line " ++ toString t.line

/-- A fault and what was running, innermost first. -/
structure Failure where
  fault : Fault
  trace : List TraceEntry

def traceLines : List TraceEntry → String
  | [] => ""
  | t :: ts => "\n    in " ++ t.text ++ String.join (ts.map fun t => "\n  from " ++ t.text)

/-- The message, then a line for each function that was running. -/
def Failure.report (f : Failure) : String :=
  f.fault.message ++ traceLines f.trace

end MatchLang
