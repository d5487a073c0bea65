import MatchLang.Lowering.Emitter

/-! The two lowerings of a pattern: instructions that take the value on top of the stack apart and
store its pieces, failing where it does not fit, and a shape that tests a value without binding
anything. -/

namespace MatchLang

/-- The name of the list case with a head and a tail. -/
def consName : String := "::"

/-- The name of the list case without fields. -/
def emptyName : String := "Empty"

/-- The name of the only case of the unit type. -/
def unitName : String := "Unit"

def Literal.shape : Literal → Shape
  | .number x => .number x
  | .text s => .text s
  | .unit => .unit
  | .emptyList => .emptyList

mutual

/-- A list pattern tests for nested pairs that end in the empty list. -/
def Pattern.shape : Pattern → Shape
  | .wildcard => .any
  | .name _ _ _ => .any
  | .literal value _ => value.shape
  | .list items => listShape items
  | .type n params => .type n.parts (patternShapes params)

def listShape : List Pattern → Shape
  | [] => .emptyList
  | p :: ps => .type [consName] [p.shape, listShape ps]

def patternShapes : List Pattern → List Shape
  | [] => []
  | p :: ps => p.shape :: patternShapes ps

end

/-- Store the top of the stack under a name; with a path, in the namespace there too. -/
def storeName (links : Links) (publishAt : Option (List String)) (id : Nat) (name : String)
    (line : Nat) : Emitter Unit := do
  let some slot := links.get? id | reject (.unknownDeclaration name) line
  if let some path := publishAt then
    emit line .duplicate
    emit line (.publish name path)
  emit line (.saveLocal slot)

mutual

/-- Consume the top of the stack into a pattern. -/
def storePattern (links : Links) (publishAt : Option (List String)) :
    Pattern → (line : Nat) → Emitter Unit
  | .wildcard, line => emit line .pop
  | .name id n nameLine, _ => storeName links publishAt id n nameLine
  | .literal value literalLine, _ => emit literalLine (.require value.shape)
  | .list items, line => storeItems links publishAt items line
  | .type n params, _ => do
    emit n.line (.decompose n.parts params.length)
    storePatterns links publishAt params n.line

/-- Each item is the head of what is left; after the last the list must be empty. -/
def storeItems (links : Links) (publishAt : Option (List String)) :
    List Pattern → (line : Nat) → Emitter Unit
  | [], line => emit line (.decompose [emptyName] 0)
  | p :: ps, line => do
    emit line (.decompose [consName] 2)
    storePattern links publishAt p line
    storeItems links publishAt ps line

def storePatterns (links : Links) (publishAt : Option (List String)) :
    List Pattern → (line : Nat) → Emitter Unit
  | [], _ => return
  | p :: ps, line => do
    storePattern links publishAt p line
    storePatterns links publishAt ps line

end

end MatchLang
