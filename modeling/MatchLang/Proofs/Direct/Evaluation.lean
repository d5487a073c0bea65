import Mathlib.Data.List.Dedup
import MatchLang.Lowering.Expression
import MatchLang.Machine.Call
import MatchLang.Machine.Step
import MatchLang.Proofs.Links.Occurrences
import MatchLang.Proofs.Pattern.Pieces

/-! What a program means without code. A tree is evaluated in a world, where every name of a group has a cell
of its own and functions are kept as they were written. A function value is the number of its function and
what messages say about it; it has no code and no scope. -/

namespace MatchLang

/-- Names with the cells that they mean, the innermost first. -/
abbrev Env := List (String × Nat)

/-- A function as it was written, with the names around it. -/
structure Lambda where
  params : List Pattern
  body : Block
  env : Env

/-- What outlives an evaluation. A cell that has not been assigned is empty. -/
structure World where
  cells : Array (Option Value)
  lambdas : List (Nat × Lambda)
  roots : Array Namespace
  modules : List (String × Nat)
  nextIdentity : Nat
  console : Console

namespace World

def initial (console : Console) : World :=
  { cells := #[], lambdas := [], roots := #[], modules := [], nextIdentity := Builtins.count, console }

/-- The value of a cell, if it has one. -/
def cell? (ω : World) (cell : Nat) : Option Value :=
  (ω.cells[cell]?).join

def root (ω : World) (id : Nat) : Namespace :=
  ω.roots.getD id (.empty true)

def setRoot (ω : World) (id : Nat) (ns : Namespace) : World :=
  { ω with roots := ω.roots.modify id fun _ => ns }

def module? (ω : World) (file : String) : Option Nat :=
  Table.get? ω.modules file

def assign (ω : World) (cell : Nat) (v : Value) : World :=
  { ω with cells := ω.cells.modify cell fun _ => some v }

/-- An empty cell for each of some names. -/
def withCells (ω : World) (names : List String) : World :=
  { ω with cells := ω.cells ++ Array.replicate names.length none }

section

variable {ω : World} {cell i id : Nat} {v : Value} {names : List String} {ns : Namespace}

theorem cell?_assign :
    (ω.assign cell v).cell? i = if i = cell ∧ cell < ω.cells.size then some v else ω.cell? i := by
  by_cases hi : i = cell
  · subst hi
    by_cases hlt : i < ω.cells.size <;> simp [cell?, assign, Array.getElem_modify, hlt]
  · simp [cell?, assign, Array.getElem?_modify, hi, Ne.symm hi]

@[simp] theorem size_assign : (ω.assign cell v).cells.size = ω.cells.size := by
  simp [assign]

/-- New cells are empty. -/
theorem cell?_withCells : (ω.withCells names).cell? i = ω.cell? i := by
  simp only [cell?, withCells, Array.getElem?_append, Array.getElem?_replicate]
  split
  · rfl
  · rename_i h
    rw [Array.getElem?_eq_none (Nat.le_of_not_lt h)]
    split <;> rfl

@[simp] theorem size_withCells : (ω.withCells names).cells.size = ω.cells.size + names.length := by
  simp [withCells]

theorem root_setRoot :
    (ω.setRoot id ns).root i = if i = id ∧ id < ω.roots.size then ns else ω.root i := by
  by_cases hi : i = id
  · subst hi
    by_cases hlt : i < ω.roots.size <;>
      simp [root, setRoot, Array.getElem_modify, Array.getD_eq_getD_getElem?, hlt]
  · simp [root, setRoot, Array.getElem?_modify, hi, Ne.symm hi, Array.getD_eq_getD_getElem?]

@[simp] theorem size_setRoot : (ω.setRoot id ns).roots.size = ω.roots.size := by
  simp [setRoot]

end

end World

/-- Why an evaluation has no value. A fault is traced up to the function in which the evaluation began; the
end of a function asks for it to be run again; or the evaluation was cut short. -/
inductive Halt where
  | fault (fault : Fault) (trace : List TraceEntry)
  | restart (args : List Value)
  | cut

/-- An evaluation: what it comes to in a world, and the world afterwards. -/
def Eval (α : Type) :=
  World → Except Halt α × World

namespace Eval

variable {α β : Type}

def halt (h : Halt) : Eval α := fun ω => (.error h, ω)

/-- Go on with the value, if there is one. -/
def andThen (x : Eval α) (f : α → Eval β) : Eval β := fun ω =>
  match x ω with
  | (.ok a, ω) => f a ω
  | (.error h, ω) => (.error h, ω)

instance : Monad Eval where
  pure a := fun ω => (.ok a, ω)
  bind := andThen

theorem bind_ok {x : Eval α} {f : α → Eval β} {ω ω' : World} {a : α} (h : x ω = (.ok a, ω')) :
    (x >>= f) ω = f a ω' := by
  show andThen x f ω = _
  rw [andThen, h]

theorem bind_error {x : Eval α} {f : α → Eval β} {ω ω' : World} {e : Halt} (h : x ω = (.error e, ω')) :
    (x >>= f) ω = (.error e, ω') := by
  show andThen x f ω = _
  rw [andThen, h]

theorem bind_assoc {γ : Type} (x : Eval α) (f : α → Eval β) (g : β → Eval γ) :
    ((x >>= f) >>= g) = (x >>= fun a => f a >>= g) := by
  funext ω
  show andThen (andThen x f) g ω = andThen x (fun a => andThen (f a) g) ω
  simp only [andThen]
  rcases x ω with ⟨_ | _, _⟩ <;> rfl

/-- What can be read off the world. -/
def look (f : World → α) : Eval α := fun ω => (.ok (f ω), ω)

def change (f : World → World) : Eval Unit := fun ω => (.ok (), f ω)

/-- The value, or else what to do if the function is to be run again. -/
def orRestart (x : Eval α) (again : List Value → Eval α) : Eval α := fun ω =>
  match x ω with
  | (.error (.restart args), ω) => again args ω
  | r => r

end Eval

/-- A number that nothing else has. -/
def newNumber : Eval Nat := fun ω =>
  (.ok ω.nextIdentity, { ω with nextIdentity := ω.nextIdentity + 1 })

/-- The names of some patterns, each once. -/
def patternsNames (ps : List Pattern) : List String :=
  ((patternsLeaves ps).map Leaf.name).dedup

/-- Enter a group: its names mean new cells, which are empty. -/
def openGroup (ps : List Pattern) (env : Env) : Eval Env := fun ω =>
  (.ok ((patternsNames ps).zipIdx ω.cells.size ++ env), ω.withCells (patternsNames ps))

/-- A function that is being evaluated: as which value it was called, and how many calls it is in. -/
structure Activation where
  self : Closure
  depth : Nat

namespace Activation

variable {α : Type} (a : Activation)

def entry (line : Nat) : TraceEntry :=
  { function := a.self.text, line }

def raise (line : Nat) (f : Fault) : Eval α :=
  .halt (.fault f [a.entry line])

def orRaise (line : Nat) : Except Fault α → Eval α
  | .ok x => pure x
  | .error f => a.raise line f

/-- The root of the module that the function was made in. -/
def home : Eval Namespace :=
  .look (·.root a.self.home)

/-- A fault of what is called from a line goes on to the caller. -/
def calling (line : Nat) (x : Eval α) : Eval α := fun ω =>
  match x ω with
  | (.error (.fault f trace), ω) => (.error (.fault f (trace ++ [a.entry line])), ω)
  | r => r

end Activation

/-- How lists and the unit are written: with the built-in cases, or with whatever the names `::`, `Empty` and
`Unit` stand for in the module. In the second way a list of functions and literals is made from its end. -/
inductive Sugar where
  | builtIn
  | named
  deriving DecidableEq, Repr

/-- Where the names of lists and of the unit are looked up. -/
def Sugar.space (sugar : Sugar) (a : Activation) : Eval Namespace :=
  match sugar with
  | .builtIn => pure (builtins.seed (.empty true))
  | .named => a.home

/-- What an evaluation relies on: how lists are written, how deep calls may nest, and what becomes of a
function that is called with all its arguments, as deep as the number says. -/
structure Rules where
  sugar : Sugar
  callLimit : Option Nat
  enter : (depth : Nat) → Closure → List Value → Eval Value

namespace Rules

variable (r : Rules) (a : Activation) (line : Nat)

/-- Begin a function, unless calls nest too deep already. -/
def begin (c : Closure) (args : List Value) : Eval Value :=
  match r.callLimit with
  | some limit =>
    if limit ≤ a.depth then a.raise line (.callDepthExceeded limit)
    else a.calling line (r.enter (a.depth + 1) c args)
  | none => a.calling line (r.enter (a.depth + 1) c args)

/-- Call a native function. -/
def compute (f : Native) (args : List Value) : Eval Value := do
  let result ← a.orRaise line (f.run args (← Eval.look World.console))
  Eval.change fun ω => { ω with console := result.2 }
  return result.1

/-- Call a value with exactly the arguments it wants. -/
def apply (callee : Value) (args : List Value) : Eval Value :=
  match applyFull callee args with
  | .enter c args => r.begin a line c args
  | .build c fields _ => pure (.record c fields)
  | .compute f args _ => compute a line f args
  | .fault f => a.raise line f

/-- Call a value. With too few arguments it waits for the others. -/
def call (callee : Value) (args : List Value) : Eval Value :=
  match callee.arity? with
  | none => a.raise line (.notCallable callee.display)
  | some arity =>
    if args.length = arity then r.apply a line callee args
    else if args.length < arity then do
      return .partialCall (← newNumber) callee args
    else a.raise line (.tooManyArguments callee.display)

end Rules

/-! Patterns, tested and bound as they are written. Types are looked up in the module of the running function;
those of lists may be the built-in ones. -/

/-- Whether a value is that of a literal. -/
def Literal.fits : Literal → Value → Bool
  | .number x, v => sameNumber x v
  | .text s, v => sameText s v
  | .unit, v => builtins.isUnit v
  | .emptyList, v => builtins.isEmptyList v

section

variable (home lists : List String → Except Fault DataType)

mutual

/-- Whether a pattern fits a value, which binds nothing. It fails only if a type that comes up is not found. -/
def Pattern.fits : Pattern → Value → Except Fault Bool
  | .wildcard, _ => .ok true
  | .name _ _ _, _ => .ok true
  | .literal value _, v => .ok (value.fits v)
  | .list items, v => itemsFit items v
  | .type n params, v =>
    match home n.parts with
    | .error f => .error f
    | .ok (.case c) =>
      match v with
      | .constant d => .ok (d.id == c.id)
      | .record d fields =>
        if d.id == c.id && params.length == fields.length then patternsFit params fields
        else .ok false
      | _ => .ok false
    | .ok t =>
      match params with
      | [p] => if t.admits v then p.fits v else .ok false
      | _ => .ok false

/-- Each item is the head of what is left. -/
def itemsFit : List Pattern → Value → Except Fault Bool
  | [], v => .ok (builtins.isEmptyList v)
  | p :: ps, v =>
    match lists [consName] with
    | .error f => .error f
    | .ok (.case c) =>
      match v with
      | .constant d => .ok (d.id == c.id)
      | .record d [head, tail] =>
        if d.id == c.id then
          match p.fits head with
          | .ok true => itemsFit ps tail
          | .ok false => .ok false
          | .error f => .error f
        else .ok false
      | _ => .ok false
    | .ok _ => .ok false

/-- One after another, up to the first that does not fit. -/
def patternsFit : List Pattern → List Value → Except Fault Bool
  | p :: ps, v :: vs =>
    match p.fits v with
    | .ok true => patternsFit ps vs
    | .ok false => .ok false
    | .error f => .error f
  | _, _ => .ok true

end

end

namespace Activation

variable (a : Activation) (sugar : Sugar)

/-- Whether a pattern fits a value. -/
def test (line : Nat) (p : Pattern) (v : Value) : Eval Bool := do
  let home ← a.home
  let lists ← sugar.space a
  a.orRaise line (p.fits home.findType lists.findType v)

/-- The parts of a value as a value of a type of the module. -/
def apart (line : Nat) (path : List String) (parts : Nat) (v : Value) : Eval (List Value) := do
  let home ← a.home
  a.orRaise line (takeApart home.findType path parts v)

/-- The parts of a value as a list. -/
def listApart (line : Nat) (name : String) (parts : Nat) (v : Value) : Eval (List Value) := do
  let lists ← sugar.space a
  a.orRaise line (takeApart lists.findType [name] parts v)

/-- Change the root of the module. -/
def declare (line : Nat) (change : Namespace → Except Fault Namespace) : Eval Unit := do
  let home ← a.home
  let after ← a.orRaise line (change home)
  Eval.change (·.setRoot a.self.home after)

/-- Give a value a name in a namespace of the module. -/
def publish (line : Nat) (path : List String) (name : String) (v : Value) : Eval Unit :=
  a.declare line fun ns => Machine.publishIn ns path name v

/-- Assign to the cell of a name; with a path, give the value a name there first. -/
def bindName (env : Env) (publishAt : Option (List String)) (name : String) (line : Nat) (v : Value) :
    Eval Unit := do
  match publishAt with
  | some path => a.publish line path name v
  | none => pure ()
  match env.lookup name with
  | some cell => Eval.change (·.assign cell v)
  | none => pure ()

variable (env : Env) (publishAt : Option (List String))

mutual

/-- Take a value apart and assign to the cells of the names in a pattern, from the left. -/
def bind : Pattern → (line : Nat) → Value → Eval Unit
  | .wildcard, _, _ => pure ()
  | .name _ name line, _, v => a.bindName env publishAt name line v
  | .literal value line, _, v => if value.fits v then pure () else a.raise line .failedMatch
  | .list items, line, v => bindItems items line v
  | .type n params, _, v => do
    let parts ← a.apart n.line n.parts params.length v
    bindAll params n.line parts

/-- Each item is the head of what is left; after the last the list must be empty. -/
def bindItems : List Pattern → (line : Nat) → Value → Eval Unit
  | [], line, v => do
    let _ ← a.listApart sugar line emptyName 0 v
  | p :: ps, line, v => do
    match ← a.listApart sugar line consName 2 v with
    | [head, tail] =>
      bind p line head
      bindItems ps line tail
    | _ => a.raise line .stackUnderflow

def bindAll : List Pattern → (line : Nat) → List Value → Eval Unit
  | [], _, _ => pure ()
  | p :: ps, line, v :: vs => do
    bind p line v
    bindAll ps line vs
  | _ :: _, line, [] => a.raise line .stackUnderflow

end

end Activation

/-! Blocks and expressions, evaluated as they are written. A name of one part means the cell of the innermost
group that has it; any other is looked up in the module of the running function. -/

namespace Activation

variable (a : Activation) (sugar : Sugar)

/-- The value of a cell. -/
def readCell (line : Nat) (name : String) (cell : Nat) : Eval Value := do
  match ← Eval.look (·.cell? cell) with
  | some v => pure v
  | none => a.raise line (.unassigned name)

/-- The value of a name. -/
def readName (env : Env) (n : QName) : Eval Value :=
  match n.single?.bind fun s => (env.lookup s).map (s, ·) with
  | some (s, cell) => a.readCell n.line s cell
  | none => do
    let home ← a.home
    a.orRaise n.line (home.findValue n.parts)

/-- The value of a name that lists or the unit are written with. -/
def readSugar (line : Nat) (name : String) : Eval Value := do
  let space ← sugar.space a
  a.orRaise line (space.findValue [name])

def literal (line : Nat) : Literal → Eval Value
  | .number x => pure (.number x)
  | .text s => pure (.text s)
  | .unit => a.readSugar sugar line unitName
  | .emptyList => a.readSugar sugar line emptyName

/-- A new function of the module. -/
def make (env : Env) (params : List Pattern) (body : Block) (line : Nat) : Eval Value := do
  let id ← newNumber
  Eval.change fun ω => { ω with lambdas := (id, { params, body, env }) :: ω.lambdas }
  return .function
    { id, code := .empty, scope := 0, home := a.self.home, arity := params.length, module := a.self.module,
      line }

end Activation

namespace Rules

variable (r : Rules) (a : Activation)

/-- A list with one value in front. -/
def cons (line : Nat) (head tail : Value) : Eval Value := do
  let callee ← a.readSugar r.sugar line consName
  r.call a line callee [head, tail]

/-- A list with some values in front. -/
def consAll (line : Nat) : List Value → Value → Eval Value
  | [], tail => pure tail
  | v :: vs, tail => do
    let rest ← consAll line vs tail
    r.cons a line v rest

mutual

def expr (env : Env) : Expr → Eval Value
  | .call callee args line =>
    if callee.isMatchName then
      match args with
      | [scrutinee, .list cases _] => do
        let v ← expr env scrutinee
        arms env line v cases
      | _ => a.raise line (.failed noMatch)
    else do
      let vs ← exprs env args
      match callee with
      | .self _ =>
        if vs.length = a.self.arity then Eval.halt (.restart vs)
        else a.raise line .partialTailCall
      | callee => do
        let f ← expr env callee
        r.call a line f vs
  | .function params body line => a.make env params body line
  | .list elements line =>
    if r.sugar = .named ∧ allPure elements then do
      let empty ← a.readSugar r.sugar line emptyName
      inFront env line elements empty
    else do
      let vs ← blocks env elements
      let empty ← a.readSugar r.sugar line emptyName
      r.consAll a line vs empty
  | .literal value line => a.literal r.sugar line value
  | .name n => a.readName env n
  | .self line => a.raise line (.failed noMatch)

/-- Arguments, last to first. -/
def exprs (env : Env) : List Expr → Eval (List Value)
  | [] => pure []
  | e :: es => do
    let vs ← exprs env es
    let v ← expr env e
    return v :: vs

/-- Elements, first to last. -/
def blocks (env : Env) : List Block → Eval (List Value)
  | [] => pure []
  | b :: bs => do
    let inner ← openGroup b.patterns env
    let v ← body inner b
    let vs ← blocks env bs
    return v :: vs

/-- Elements in front of a list, the last one first. -/
def inFront (env : Env) (line : Nat) : List Block → Value → Eval Value
  | [], tail => pure tail
  | b :: bs, tail => do
    let rest ← inFront env line bs tail
    let inner ← openGroup b.patterns env
    let v ← body inner b
    r.cons a line v rest

/-- The first arm that fits, if there is one. -/
def arms (env : Env) (line : Nat) (v : Value) : List Block → Eval Value
  | .result (.function [p] b armLine) :: cases => do
    if ← a.test r.sugar armLine p v then
      let inner ← openGroup [p] env
      a.bind r.sugar inner none p armLine v
      let inner ← openGroup b.patterns inner
      body inner b
    else arms env line v cases
  | _ => a.raise line (.failed noMatch)

/-- A block whose group has been entered. -/
def body (env : Env) : Block → Eval Value
  | .result e => expr env e
  | .bind p value _ rest => do
    let inner ← openGroup value.patterns env
    let v ← body inner value
    a.bind r.sugar env none p value.value.line v
    body env rest

end

/-- A block with its group. -/
def block (env : Env) (b : Block) : Eval Value := do
  let inner ← openGroup b.patterns env
  r.body a inner b

/-- The body of a function, with its parameters bound. -/
def lambda (f : Lambda) (args : List Value) : Eval Value := do
  let env ← openGroup f.params f.env
  a.bindAll r.sugar env none f.params a.self.line args
  r.block a env f.body

end Rules

/-- Run a function. Each call and each restart takes one unit of fuel. -/
def runLambda (sugar : Sugar) (callLimit : Option Nat) : (fuel depth : Nat) → Closure → List Value → Eval Value
  | 0, _, _, _ => .halt .cut
  | fuel + 1, depth, c, args => do
    match ← Eval.look (·.lambdas.lookup c.id) with
    | some f =>
      let r : Rules := { sugar, callLimit, enter := runLambda sugar callLimit fuel }
      (r.lambda { self := c, depth } f args).orRestart (runLambda sugar callLimit fuel depth c)
    | none => .halt (.fault (.notCallable (Value.function c).display) [])

end MatchLang
