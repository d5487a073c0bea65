import MatchLang.Namespace

/-! Importing from one tree of names into another. Namespaces that an import creates have the
visibility of the one they are created in; nothing below a private namespace is imported. -/

namespace MatchLang

mutual

/-- Everything public of a namespace in front of what another holds. -/
def Namespace.overlay : Namespace → (target : Namespace) → Namespace
  | .mk _ values types children, target =>
    overlayChildren children
      { target with
        values := Table.overlay values target.values
        types := Table.overlay types target.types }

def overlayChildren : List (String × Namespace) → (target : Namespace) → Namespace
  | [], target => target
  | (name, .mk true vs ts cs) :: rest, target =>
    let child := Namespace.overlay (.mk true vs ts cs) (target.childOr name target.isPublic)
    overlayChildren rest (target.setChild name child)
  | (_, .mk false _ _ _) :: rest, target => overlayChildren rest target

end

namespace Namespace

/-- The value, the type and the namespace of one name, if there are any of them and the namespace is
public. -/
def importName (source target : Namespace) (path : List String) (name : String) :
    Except Fault Namespace :=
  let found := (source.value? name).isSome || (source.type? name).isSome ||
    (source.child? name).isSome
  if !found then .error (.importNotFound (dotted path))
  else if (source.child? name).any (!·.isPublic) then .error (.privateImport (dotted path))
  else
    let target := match source.value? name with
      | some v => target.setValue name v
      | none => target
    let target := match source.type? name with
      | some t => target.setType name t
      | none => target
    match source.child? name with
    | some c => .ok (target.setChild name (c.overlay (target.childOr name target.isPublic)))
    | none => .ok target

/-- The entry at the end of a path, into the same place of another tree. The namespaces on the way
are created as the path is walked, so they stay even if the entry is missing in the end. -/
def importFrom (walked : List String) :
    (source target : Namespace) → List String → Namespace × Option Fault
  | _, target, [] => (target, some (.importNotFound (dotted walked)))
  | source, target, [name] =>
    match source.importName target (walked ++ [name]) name with
    | .ok target => (target, none)
    | .error f => (target, some f)
  | source, target, part :: path =>
    match source.child? part with
    | none => (target, some (.importNotFound (dotted (walked ++ [part]))))
    | some inner =>
      if inner.isPublic then
        let (c, f) :=
          inner.importFrom (walked ++ [part]) (target.childOr part target.isPublic) path
        (target.setChild part c, f)
      else (target, some (.privateImport (dotted (walked ++ [part]))))

def importEntry (source target : Namespace) (path : List String) : Namespace × Option Fault :=
  source.importFrom [] target path

end Namespace

end MatchLang
