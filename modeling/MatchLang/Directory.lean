import MatchLang.Fault
import MatchLang.Table

/-! A directory of files as a value. Paths are followed name by name, as a file system does it:
every name but the last must be a directory, and two dots lead back up. -/

namespace MatchLang

inductive FileEntry where
  | file (text : String)
  | directory (entries : List (String × FileEntry))
  deriving Inhabited

namespace FileEntry

def empty : FileEntry := .directory []

def child? : FileEntry → String → Option FileEntry
  | .file _, _ => none
  | .directory es, name => Table.get? es name

/-- Write a file, with the directories it needs. -/
def write (text : String) : List String → FileEntry → FileEntry
  | [], _ => .file text
  | name :: path, e =>
    let inner := write text path ((e.child? name).getD empty)
    match e with
    | .directory es => .directory (Table.set es name inner)
    | .file _ => .directory [(name, inner)]

def remove : List String → FileEntry → FileEntry
  | [], e => e
  | _, .file text => .file text
  | [name], .directory es => .directory (es.filter (·.1 != name))
  | name :: path, .directory es =>
    match Table.get? es name with
    | some e => .directory (Table.set es name (remove path e))
    | none => .directory es

/-- No name in a directory is longer, in bytes. -/
def longestName : Nat := 255

/-- No path is longer, in bytes. -/
def longestPath : Nat := 4095

def tooLong : ReadError := .other "File name too long (os error 36)"

/-- Where a path has led: inside the tree, with the directories passed on the way, or out of it. -/
inductive Place where
  | inside (entry : FileEntry) (above : List FileEntry)
  | outside

/-- One name further. Nothing is known outside the tree. -/
def follow (name : String) : Place → Except ReadError Place
  | .outside =>
    if name == "." || name == ".." || name.isEmpty then .ok .outside else .error .missing
  | .inside (.file _) _ => .error .notDirectory
  | .inside (.directory es) above =>
    if name.isEmpty || name == "." then .ok (.inside (.directory es) above)
    else if name == ".." then
      match above with
      | [] => .ok .outside
      | e :: above => .ok (.inside e above)
    else if longestName < name.utf8ByteSize then .error tooLong
    else
      match Table.get? es name with
      | some e => .ok (.inside e (.directory es :: above))
      | none => .error .missing

/-- The text of the file at a path; an absolute path leads out of the tree. -/
def read (tree : FileEntry) (path : String) : Except ReadError String :=
  if path.isEmpty then .error .missing
  else if path.toList.contains '\x00' then
    .error (.other "file name contained an unexpected NUL byte")
  else if longestPath < path.utf8ByteSize then .error tooLong
  else
    let start : Place := if path.startsWith "/" then .outside else .inside tree []
    match (path.splitOn "/").foldlM (fun p name => follow name p) start with
    | .ok (.inside (.file text) _) => .ok text
    | .ok _ => .error .isDirectory
    | .error e => .error e

/-- The names of a path, for writing and removing. -/
def names (path : String) : List String :=
  (path.splitOn "/").filter fun s => !s.isEmpty && s != "."

end FileEntry

end MatchLang
