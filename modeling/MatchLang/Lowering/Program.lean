import MatchLang.Lowering.Expression

/-! Lowering of declarations and programs, in source order: a namespace is made, a type is made, a
binding evaluates its block and stores the value in its pattern. -/

namespace MatchLang

def lowerImport (i : Import) : Emitter Unit :=
  if i.names.isEmpty then emit i.line (.importAll i.file)
  else i.names.forM fun n => emit i.line (.importEntry i.file n.parts)

/-- A type without a name declares nothing. A name of more parts makes the namespaces in front. -/
def lowerType (path : List String) (name : QName) (isPublic : Bool) (cases : List CaseDecl) :
    Emitter Unit :=
  match name.parts.getLast? with
  | none => return
  | some last => do
    let inner := name.parts.dropLast
    unless inner.isEmpty do
      emit name.line (.makeNamespace (path ++ inner) isPublic)
    emit name.line
      (.makeType last (path ++ inner) (cases.map fun c => { name := c.name, arity := c.arity }))

mutual

def lowerDecls (links : Links) (publishRoot : Bool) (path : List String) :
    List Decl → Emitter Unit
  | [] => return
  | d :: ds => do
    lowerDecl links publishRoot path d
    lowerDecls links publishRoot path ds

/-- A binding is published if it says so, and at the root also if the whole program is. -/
def lowerDecl (links : Links) (publishRoot : Bool) (path : List String) : Decl → Emitter Unit
  | .space ns => lowerNamespace links publishRoot path ns
  | .type name isPublic cases body => do
    lowerType path name isPublic cases
    match body with
    | some ns => if name.parts.isEmpty then return else lowerNamespace links publishRoot path ns
    | none => return
  | .binding p value isPublic => do
    lowerBlock links value false
    let publishes := isPublic || (path.isEmpty && publishRoot)
    storePattern links (if publishes then some path else none) p value.value.line

def lowerNamespace (links : Links) (publishRoot : Bool) (path : List String) :
    NamespaceDecl → Emitter Unit
  | .mk name isPublic decls => do
    emit name.line (.makeNamespace (path ++ name.parts) isPublic)
    lowerDecls links publishRoot (path ++ name.parts) decls

end

def lowerProgram (links : Links) (publishRoot : Bool) (p : Program) : Emitter Unit := do
  p.imports.forM lowerImport
  lowerDecls links publishRoot [] p.root.decls
  if let some c := p.trailing then
    lowerExpr links c.toExpr false

/-- The code of a program and the next free slot. With `publishRoot` the bindings at the root go
into the root namespace whether they say `public` or not. -/
def Program.compile (p : Program) (publishRoot : Bool) (nextSlot : Nat) :
    Except CompileError (Code × Nat) := do
  let linking := p.link nextSlot
  let ((), s) ← (lowerProgram linking.links publishRoot p).run ⟨.empty, linking.nextSlot⟩
  return (← s.unit.finish, s.nextSlot)

end MatchLang
