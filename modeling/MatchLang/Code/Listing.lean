import MatchLang.Code

/-! The printed form of instructions: one line each, with its index, its source line and what it
does; labels stand on lines of their own, and a function's code is indented under the instruction
that loads it. -/

namespace MatchLang

mutual

def Shape.describe : Shape → String
  | .any => "_"
  | .number x => numberText x
  | .text s => quoted s
  | .emptyList => "[]"
  | .unit => "()"
  | .type path inners => "(" ++ " ".intercalate (dotted path :: describeShapes inners) ++ ")"

def describeShapes : List Shape → List String
  | [] => []
  | s :: ss => s.describe :: describeShapes ss

end

def placeText (path : List String) : String :=
  if path.isEmpty then "<root>" else dotted path

def CaseShape.describe (c : CaseShape) : String :=
  c.name ++ "/" ++ toString c.arity

def Op.describe : Op → String
  | .nothing => "NoOp"
  | .fail message => "Fail " ++ quoted message
  | .pop => "Pop"
  | .duplicate => "Duplicate"
  | .decompose path parts => "Decompose " ++ dotted path ++ " " ++ toString parts
  | .jump label => "Jump " ++ labelText label
  | .require shape => "Match " ++ shape.describe
  | .jumpIf shape label => "JumpIfMatch " ++ shape.describe ++ " " ++ labelText label
  | .loadLocal slot => "LoadLocal " ++ slot.text
  | .loadName path => "LoadName " ++ dotted path
  | .loadNumber x => "LoadNumber " ++ numberText x
  | .loadText s => "LoadString " ++ quoted s
  | .loadFunction _ arity => "LoadFunction/" ++ toString arity
  | .saveLocal slot => "SaveLocal " ++ slot.text
  | .publish name path => "SaveNamespace " ++ name ++ " in " ++ placeText path
  | .call argc => "Call " ++ toString argc
  | .tailCall argc => "TailCall " ++ toString argc
  | .makeNamespace path isPublic =>
    "MakeNamespace " ++ placeText path ++ if isPublic then " public" else " private"
  | .makeType name path cases =>
    "MakeType " ++ name ++ " in " ++ placeText path ++ " [" ++
      " | ".intercalate (cases.map CaseShape.describe) ++ "]"
  | .importAll file => "ImportAll " ++ quoted file
  | .importEntry file path => "ImportSelected " ++ dotted path ++ " from " ++ quoted file

/-- A number at the right end of a column of four. -/
def column (n : Nat) : String :=
  let s := toString n
  String.ofList (List.replicate (4 - s.length) ' ') ++ s

/-- The labels that stand at an index. -/
def labelLines (margin : String) (targets : List Nat) (index : Nat) : List String :=
  (targets.zipIdx.filter (·.1 == index)).map fun t => margin ++ labelText t.2 ++ ":"

mutual

def Code.listingAt (margin : String) : Code → List String
  | .mk instrs targets => listInstrs margin targets instrs 0

def listInstrs (margin : String) (targets : List Nat) : List Instr → Nat → List String
  | [], index => labelLines margin targets index
  | i :: is, index =>
    labelLines margin targets index ++ i.listingAt margin index ++
      listInstrs margin targets is (index + 1)

def Instr.listingAt (margin : String) : Instr → Nat → List String
  | .mk line op, index =>
    (margin ++ column index ++ " " ++ column line ++ "  " ++ op.describe) ::
      op.nestedListing (margin ++ "    ")

def Op.nestedListing (margin : String) : Op → List String
  | .loadFunction code _ => code.listingAt margin
  | _ => []

end

/-- The lines of a unit's listing. -/
def Code.listing (c : Code) : List String :=
  c.listingAt ""

end MatchLang
