import MatchLang.Proofs.Direct.Evaluation
import MatchLang.Proofs.Machine.Inversion
import MatchLang.Session

/-! Declarations and whole programs, evaluated as they are written, and the modules that they import. -/

namespace MatchLang

namespace Activation

variable (a : Activation)

/-- Make a data type, with the namespaces in front of its name. -/
def makeType (path : List String) (name : QName) (isPublic : Bool) (cases : List CaseDecl) : Eval Unit :=
  match name.parts.getLast? with
  | none => pure ()
  | some last => do
    let inner := name.parts.dropLast
    if inner.isEmpty then pure ()
    else a.declare name.line fun ns => ns.make (path ++ inner) isPublic
    let id ← Eval.look World.nextIdentity
    Eval.change fun ω => { ω with nextIdentity := ω.nextIdentity + cases.length }
    a.declare name.line fun ns =>
      Machine.defineIn ns (path ++ inner) last
        (numberCases id (cases.map fun c => { name := c.name, arity := c.arity }))

/-- A fault that has been found, if there is one, comes up. -/
def raiseFound (line : Nat) : Option Fault → Eval Unit
  | none => pure ()
  | some f => a.raise line f

/-- Take over what an import takes from a module. -/
def receive (line source : Nat) (delivery : Delivery) : Eval Unit := do
  let home ← a.home
  let merged ← Eval.look fun ω => delivery.merge (ω.root source) home
  Eval.change (·.setRoot a.self.home merged.1)
  a.raiseFound line merged.2

end Activation

namespace Rules

variable (r : Rules) (a : Activation) (publishRoot : Bool)

mutual

def decls (env : Env) (path : List String) : List Decl → Eval Unit
  | [] => pure ()
  | d :: ds => do
    decl env path d
    decls env path ds

/-- A binding is published if it says so, and at the root also if the whole program is. -/
def decl (env : Env) (path : List String) : Decl → Eval Unit
  | .space ns => space env path ns
  | .type name isPublic cases none => a.makeType path name isPublic cases
  | .type name isPublic cases (some ns) => do
    a.makeType path name isPublic cases
    if name.parts.isEmpty then pure () else space env path ns
  | .binding p value isPublic => do
    let v ← r.block a env value
    let publishes := isPublic || (path.isEmpty && publishRoot)
    a.bind r.sugar env (if publishes then some path else none) p value.value.line v

/-- A namespace, with a group of its own. -/
def space (env : Env) (path : List String) : NamespaceDecl → Eval Unit
  | .mk name isPublic ds => do
    a.declare name.line fun ns => ns.make (path ++ name.parts) isPublic
    let inner ← openGroup (bindingPatterns ds) env
    decls inner (path ++ name.parts) ds

end

/-- A program without its imports. -/
def script (p : Program) : Eval (Option Value) := do
  let env ← openGroup (bindingPatterns p.root.decls) []
  r.decls a publishRoot env [] p.root.decls
  match p.trailing with
  | some c => some <$> r.expr a env c.toExpr
  | none => pure none

end Rules

/-- How a module is brought to the one that imports it, from a line. -/
abbrev Importer := Activation → (line : Nat) → (file : String) → Delivery → Eval Unit

/-- What the entries of one import take. -/
def Import.deliveries (i : Import) : List Delivery :=
  if i.names.isEmpty then [.whole] else i.names.map fun n => .entry n.parts

def bringAll (bring : Importer) (a : Activation) (line : Nat) (file : String) : List Delivery → Eval Unit
  | [] => pure ()
  | d :: ds => do
    bring a line file d
    bringAll bring a line file ds

def bringImports (bring : Importer) (a : Activation) : List Import → Eval Unit
  | [] => pure ()
  | i :: is => do
    bringAll bring a i.line i.file i.deliveries
    bringImports bring a is

/-- The body of a module in a root. -/
def moduleActivation (module : String) (root : Nat) : Activation :=
  { self := moduleBody module .empty 0 root, depth := 1 }

/-- A whole program. -/
def Program.evaluate (p : Program) (r : Rules) (bring : Importer) (publishRoot : Bool) (a : Activation) :
    Eval (Option Value) := do
  bringImports bring a p.imports
  r.script a publishRoot p

/-- The program that a module's text spells, if it can be compiled. -/
def readModule (file source : String) : Except Fault Program :=
  match Program.read source with
  | .error e => .error (.moduleSyntax file e)
  | .ok p =>
    match p.compile false 0 with
    | .error e => .error (.moduleCompile file e)
    | .ok _ => .ok p

/-- A new root with the built-in names. -/
def newModule : Eval Nat := fun ω =>
  (.ok ω.roots.size, { ω with roots := ω.roots.push (builtins.seed (.empty true)) })

/-- What a module has come to, for the one that imports it: what is asked for is taken over, and a fault in the
module is one of the importer, which quotes the report. -/
def Activation.moduleRan (a : Activation) (line : Nat) (file : String) (root : Nat) (delivery : Delivery) :
    Except Halt Unit × World → Except Halt Unit × World
  | (.error (.fault f trace), ω) => a.raise line (.moduleRun file ({ fault := f, trace : Failure }).report) ω
  | (.error h, ω) => (.error h, ω)
  | (.ok (), ω) => a.receive line root delivery { ω with modules := Table.set ω.modules file root }

/-- Run a module for the one that imports it. -/
def Activation.runModule (a : Activation) (line : Nat) (file : String) (delivery : Delivery)
    (run : Activation → Eval Unit) : Eval Unit := do
  let root ← newModule
  fun ω => a.moduleRan line file root delivery (run (moduleActivation file root) ω)

section

variable (r : Rules) (bring : Importer)

/-- A module that has been run is not run again. -/
def Activation.bringText (a : Activation) (line : Nat) (file : String) (delivery : Delivery)
    (text : Except Fault String) (equip : Activation → Eval Unit) : Eval Unit := do
  match ← Eval.look (·.module? file) with
  | some root => a.receive line root delivery
  | none => do
    let source ← a.orRaise line text
    let p ← a.orRaise line (readModule file source)
    a.runModule line file delivery fun inner => do
      equip inner
      let _ ← p.evaluate r bring false inner

/-- The prelude does not begin with itself. -/
def Activation.bringPrelude (a : Activation) (line : Nat) (delivery : Delivery) : Eval Unit :=
  a.bringText r bring line preludeName delivery (.ok preludeSource) fun _ => pure ()

/-- What a module begins with. -/
def Activation.equip (withPrelude : Bool) (a : Activation) : Eval Unit :=
  if withPrelude then a.bringPrelude r bring 0 .whole else pure ()

/-- Bring a module, from memory, or else from its file. -/
def bringModule (host : Host) : Importer := fun a line file delivery =>
  if file = preludeName then a.bringPrelude r bring line delivery
  else
    a.bringText r bring line file delivery
      ((host.read (joinPath host.appRoot file)).mapError (.moduleRead file))
      (Activation.equip r bring host.withPrelude)

end

/-- How evaluations under a host go, with some fuel for the functions that are called. -/
def Host.rules (host : Host) (sugar : Sugar) (fuel : Nat) : Rules :=
  { sugar, callLimit := host.callLimit, enter := runLambda sugar host.callLimit fuel }

/-- How modules are brought, with some fuel for those that are imported in them. -/
def Host.importer (host : Host) (sugar : Sugar) : (fuel : Nat) → Importer
  | 0 => fun _ _ _ _ => .halt .cut
  | fuel + 1 => bringModule (host.rules sugar fuel) (host.importer sugar fuel) host

/-- How an evaluation ends: with a value, with a failure, or cut short. A failure is reported. -/
def World.settle : Except Halt (Option Value) × World → Except RunError (Option Value) × World
  | (.ok v, ω) => (.ok v, ω)
  | (.error (.fault f trace), ω) =>
    let e : Failure := { fault := f, trace }
    (.error (.runtime e), { ω with console := ω.console.complain e.report })
  | (.error _, ω) => (.error .unfinished, ω)

/-- Evaluate a program as a module. -/
def Program.evaluateAs (p : Program) (host : Host) (sugar : Sugar) (fuel : Nat) (module : String) :
    Eval (Option Value) := do
  let root ← newModule
  let r := host.rules sugar fuel
  let bring := host.importer sugar fuel
  let a := moduleActivation module root
  Activation.equip r bring host.withPrelude a
  p.evaluate r bring false a

/-- Evaluate a program as a line in a root. -/
def Program.evaluateIn (p : Program) (host : Host) (sugar : Sugar) (fuel : Nat) (module : String)
    (root : Nat) : Eval (Option Value) :=
  p.evaluate (host.rules sugar fuel) (host.importer sugar fuel) true (moduleActivation module root)

end MatchLang
