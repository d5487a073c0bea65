/-! The functions that are not written in the language itself. -/

namespace MatchLang

inductive Native where
  | add
  | subtract
  | multiply
  | divide
  | remainder
  | concat
  | equal
  | different
  | less
  | lessEqual
  | greater
  | greaterEqual
  | printLine
  | readLine
  | toNumber
  | toText
  | raise
  deriving DecidableEq, Inhabited, Repr

namespace Native

def all : List Native :=
  [.add, .subtract, .multiply, .divide, .remainder, .concat, .equal, .different, .less, .lessEqual,
    .greater, .greaterEqual, .printLine, .readLine, .toNumber, .toText, .raise]

def name : Native → String
  | .add => "+"
  | .subtract => "-"
  | .multiply => "*"
  | .divide => "/"
  | .remainder => "%"
  | .concat => "++"
  | .equal => "=="
  | .different => "!="
  | .less => "<"
  | .lessEqual => "<="
  | .greater => ">"
  | .greaterEqual => ">="
  | .printLine => "println"
  | .readLine => "input"
  | .toNumber => "to_num"
  | .toText => "to_str"
  | .raise => "error"

def arity : Native → Nat
  | .printLine => 1
  | .readLine => 1
  | .toNumber => 1
  | .toText => 1
  | .raise => 1
  | _ => 2

def ofName? (name : String) : Option Native :=
  all.find? (·.name == name)

theorem mem_all (f : Native) : f ∈ all := by
  cases f <;> decide

theorem ofName?_name (f : Native) : ofName? f.name = some f := by
  cases f <;> decide

end Native

end MatchLang
