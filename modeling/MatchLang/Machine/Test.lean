import MatchLang.Builtins

/-! Testing a value against a shape, and taking the value on top of the stack apart. Types are found
by a function from paths, since the same path can mean another type in another module. -/

namespace MatchLang

def sameNumber (x : Float) : Value → Bool
  | .number y => y == x
  | _ => false

def sameText (s : String) : Value → Bool
  | .text t => t == s
  | _ => false

mutual

/-- Whether a value has a shape. It fails only if a type that comes up is not found. -/
def Shape.accepts (find : List String → Except Fault DataType) : Shape → Value → Except Fault Bool
  | .any, _ => .ok true
  | .number x, v => .ok (sameNumber x v)
  | .text s, v => .ok (sameText s v)
  | .emptyList, v => .ok (builtins.isEmptyList v)
  | .unit, v => .ok (builtins.isUnit v)
  | .type path inners, v =>
    match find path with
    | .error f => .error f
    | .ok (.case c) =>
      match v with
      | .constant d => .ok (d.id == c.id)
      | .record d fields =>
        if d.id == c.id && inners.length == fields.length then acceptsAll find inners fields
        else .ok false
      | _ => .ok false
    | .ok t =>
      match inners with
      | [inner] => if t.admits v then inner.accepts find v else .ok false
      | _ => .ok false

/-- Field by field, up to the first that does not fit. -/
def acceptsAll (find : List String → Except Fault DataType) :
    List Shape → List Value → Except Fault Bool
  | s :: ss, v :: vs =>
    match s.accepts find v with
    | .ok true => acceptsAll find ss vs
    | .ok false => .ok false
    | .error f => .error f
  | _, _ => .ok true

end

/-- Take the top of the stack apart as a value of a type. A case leaves its fields, the first on
top; any other type leaves the value itself, for the one part there must be. -/
def decompose (t : DataType) (parts : Nat) (operands : List Value) : Except Fault (List Value) :=
  match t with
  | .case c =>
    if parts ≠ c.arity then .error (.wrongParts c.name parts)
    else
      match operands with
      | [] => .error .stackUnderflow
      | v :: rest =>
        match v with
        | .record d fields =>
          if d.id == c.id then .ok (fields ++ rest) else .error (.typeMismatch c.name v.typeName)
        | .constant d =>
          if d.id == c.id then .ok rest else .error (.typeMismatch c.name v.typeName)
        | _ => .error (.typeMismatch c.name v.typeName)
  | t =>
    if parts ≠ 1 then .error (.wrongParts t.name parts)
    else
      match operands with
      | [] => .error .stackUnderflow
      | v :: rest =>
        if t.admits v then .ok (v :: rest) else .error (.typeMismatch t.name v.typeName)

end MatchLang
