import MatchLang.Lowering.Program

/-! The code of each form of the syntax, as a relation between what is left to run before and after
it. In `ExprCode l e c tail i j is k` the instructions `is` of the unit `c` begin with the code of `e`
and go on with `k`; the slots of list items in it have the numbers from `i` up to `j`. Jumps are
followed in the unit, so the bodies of a choice need not stand in any order; but nothing of the code of
a form stands among the instructions behind it. -/

namespace MatchLang

/-- The instructions that store the top of the stack in a slot, and publish it before. -/
def leafCode (publishAt : Option (List String)) (name : String) (line : Nat) (slot : Slot) :
    List Instr :=
  match publishAt with
  | some path =>
    [.mk line .duplicate, .mk line (.publish name path), .mk line (.saveLocal slot)]
  | none => [.mk line (.saveLocal slot)]

mutual

/-- The code that takes the top of the stack apart. -/
def PatternCode (l : Links) (publishAt : Option (List String)) :
    Pattern → (line : Nat) → List Instr → List Instr → Prop
  | .wildcard, line, is, k => is = .mk line .pop :: k
  | .name id name nameLine, _, is, k =>
    ∃ slot, l.get? id = some slot ∧ is = leafCode publishAt name nameLine slot ++ k
  | .literal value literalLine, _, is, k => is = .mk literalLine (.require value.shape) :: k
  | .list items, line, is, k => ItemPatternsCode l publishAt items line is k
  | .type n params, _, is, k =>
    ∃ r, is = .mk n.line (.decompose n.parts params.length) :: r ∧
      PatternsCode l publishAt params n.line r k

def ItemPatternsCode (l : Links) (publishAt : Option (List String)) :
    List Pattern → (line : Nat) → List Instr → List Instr → Prop
  | [], line, is, k => is = .mk line (.decompose [emptyName] 0) :: k
  | p :: ps, line, is, k =>
    ∃ r r', is = .mk line (.decompose [consName] 2) :: r ∧ PatternCode l publishAt p line r r' ∧
      ItemPatternsCode l publishAt ps line r' k

def PatternsCode (l : Links) (publishAt : Option (List String)) :
    List Pattern → (line : Nat) → List Instr → List Instr → Prop
  | [], _, is, k => is = k
  | p :: ps, line, is, k =>
    ∃ r, PatternCode l publishAt p line is r ∧ PatternsCode l publishAt ps line r k

end

/-- The code that makes a list of the slots of its items. -/
def consCode (line : Nat) : List Slot → List Instr
  | [] => []
  | slot :: slots =>
    consCode line slots ++
      [.mk line (.loadLocal slot), .mk line (.loadName [consName]), .mk line (.call 2)]

mutual

def ExprCode (l : Links) :
    Expr → Code → (allowTail : Bool) → Nat → Nat → List Instr → List Instr → Prop
  | .call callee args line, c, allowTail, i, j, is, k =>
    if callee.isMatchName then
      match args with
      | [scrutinee, .list cases _] =>
        ∃ m tests bodies done, ExprCode l scrutinee c false i m is tests ∧
          ArmsCode l cases c done allowTail (k.length + 1) m j tests
            (.mk line (.fail noMatch) :: bodies) ∧
          k.length < bodies.length ∧ c.from? done = some (.mk line .nothing :: k)
      | _ => False
    else
      match callee with
      | .self _ =>
        allowTail = true ∧ ArgsCode l args c i j is (.mk line (.tailCall args.length) :: k)
      | callee =>
        ∃ m r, ArgsCode l args c i m is r ∧
          ExprCode l callee c false m j r (.mk line (.call args.length) :: k)
  | .function params body line, _, _, i, j, is, k =>
    ∃ unit r, PatternsCode l none params line unit.instrs r ∧ BlockCode l body unit true i j r [] ∧
      is = .mk line (.loadFunction unit params.length) :: k
  | .list elements line, c, _, i, j, is, k =>
    if allPure elements then
      ∃ r, is = .mk line (.loadName [emptyName]) :: r ∧ PureCode l elements c line i j r k
    else
      ∃ slots, ItemsCode l elements c line slots i j is
        (.mk line (.loadName [emptyName]) :: (consCode line slots ++ k))
  | .literal value line, _, _, i, j, is, k => j = i ∧ is = .mk line value.op :: k
  | .name n, _, _, i, j, is, k => j = i ∧ is = .mk n.line (n.op l) :: k
  | .self _, _, _, _, _, _, _ => False

/-- Arguments, last to first. -/
def ArgsCode (l : Links) : List Expr → Code → Nat → Nat → List Instr → List Instr → Prop
  | [], _, i, j, is, k => j = i ∧ is = k
  | e :: es, c, i, j, is, k =>
    ∃ m r, ArgsCode l es c i m is r ∧ ExprCode l e c false m j r k

/-- Pure elements in front of the list on top of the stack, last to first. -/
def PureCode (l : Links) :
    List Block → Code → (line : Nat) → Nat → Nat → List Instr → List Instr → Prop
  | [], _, _, i, j, is, k => j = i ∧ is = k
  | b :: bs, c, line, i, j, is, k =>
    ∃ m r, PureCode l bs c line i m is r ∧
      BlockCode l b c false m j r (.mk line (.loadName [consName]) :: .mk line (.call 2) :: k)

/-- Elements in order, each into the slot of its item. -/
def ItemsCode (l : Links) :
    List Block → Code → (line : Nat) → List Slot → Nat → Nat → List Instr → List Instr → Prop
  | [], _, _, slots, i, j, is, k => slots = [] ∧ j = i ∧ is = k
  | b :: bs, c, line, slots, i, j, is, k =>
    ∃ m r rest,
      BlockCode l b c false i m is
        (.mk line (.saveLocal { id := m, name := itemName, line := b.value.line }) :: r) ∧
      slots = { id := m, name := itemName, line := b.value.line } :: rest ∧
      ItemsCode l bs c line rest (m + 1) j r k

/-- The tests of a choice. Each leads to a body that ends where the label `done` stands; at least
`behind` instructions stand behind the bodies. -/
def ArmsCode (l : Links) :
    List Block → Code → (done : Nat) → (allowTail : Bool) → (behind : Nat) → Nat → Nat →
      List Instr → List Instr → Prop
  | [], _, _, _, _, i, j, is, k => j = i ∧ is = k
  | .result (.function [pattern] body line) :: cases, c, done, allowTail, behind, i, j, is, k =>
    ∃ label m r start bound rest,
      is = .mk line .duplicate :: .mk line (.jumpIf pattern.shape label) :: r ∧
      c.from? label = some start ∧ PatternCode l none pattern line start bound ∧
      BlockCode l body c allowTail i m bound (.mk line (.jump done) :: rest) ∧
      behind ≤ rest.length ∧ ArmsCode l cases c done allowTail behind m j r k
  | _, _, _, _, _, _, _, _, _ => False

def BlockCode (l : Links) :
    Block → Code → (allowTail : Bool) → Nat → Nat → List Instr → List Instr → Prop
  | .result e, c, allowTail, i, j, is, k => ExprCode l e c allowTail i j is k
  | .bind p value _ rest, c, allowTail, i, j, is, k =>
    ∃ m r r', BlockCode l value c false i m is r ∧
      PatternCode l none p value.value.line r r' ∧ BlockCode l rest c allowTail m j r' k

end

section

variable {l : Links} {callee : Expr} {line : Nat} {c : Code} {allowTail : Bool} {i j : Nat}
  {is k : List Instr}

theorem exprCode_match {scrutinee : Expr} {cases : List Block} {caseLine : Nat}
    (hm : callee.isMatchName = true) :
    ExprCode l (.call callee [scrutinee, .list cases caseLine] line) c allowTail i j is k ↔
      ∃ m tests bodies done, ExprCode l scrutinee c false i m is tests ∧
        ArmsCode l cases c done allowTail (k.length + 1) m j tests
          (.mk line (.fail noMatch) :: bodies) ∧
        k.length < bodies.length ∧ c.from? done = some (.mk line .nothing :: k) := by
  rw [ExprCode.eq_def]
  simp only [hm, if_true]

/-- A choice has a value to test and a list of arms. -/
theorem exprCode_match_args {args : List Expr} (hm : callee.isMatchName = true)
    (h : ExprCode l (.call callee args line) c allowTail i j is k) :
    ∃ scrutinee cases caseLine, args = [scrutinee, .list cases caseLine] := by
  rw [ExprCode.eq_def] at h
  simp only [hm, if_true] at h
  split at h
  · exact ⟨_, _, _, rfl⟩
  · exact h.elim

theorem exprCode_self {selfLine : Nat} {args : List Expr} :
    ExprCode l (.call (.self selfLine) args line) c allowTail i j is k ↔
      allowTail = true ∧ ArgsCode l args c i j is (.mk line (.tailCall args.length) :: k) := by
  rw [ExprCode.eq_def]
  simp [Expr.isMatchName]

theorem exprCode_call {args : List Expr} (hm : callee.isMatchName = false)
    (hs : ∀ selfLine, callee ≠ .self selfLine) :
    ExprCode l (.call callee args line) c allowTail i j is k ↔
      ∃ m r, ArgsCode l args c i m is r ∧
        ExprCode l callee c false m j r (.mk line (.call args.length) :: k) := by
  rw [ExprCode.eq_def]
  cases callee with
  | self selfLine => exact absurd rfl (hs selfLine)
  | _ => simp [hm]

/-- The arms of a choice are functions of one parameter. -/
theorem armsCode_cons {b : Block} {cases : List Block} {done behind : Nat}
    (h : ArmsCode l (b :: cases) c done allowTail behind i j is k) :
    ∃ pattern body armLine, b = .result (.function [pattern] body armLine) := by
  rw [ArmsCode.eq_def] at h
  split at h
  · rename_i he
    cases he
  · rename_i he
    cases he
    exact ⟨_, _, _, rfl⟩
  · exact h.elim

end

/-- The code that makes a type, with the namespaces in front of its name. -/
def typeCode (path : List String) (name : QName) (isPublic : Bool) (cases : List CaseDecl) :
    List Instr :=
  match name.parts.getLast? with
  | none => []
  | some last =>
    let inner := name.parts.dropLast
    (if inner.isEmpty then [] else [.mk name.line (.makeNamespace (path ++ inner) isPublic)]) ++
      [.mk name.line (.makeType last (path ++ inner)
        (cases.map fun c => { name := c.name, arity := c.arity }))]

mutual

def DeclsCode (l : Links) (publishRoot : Bool) :
    List Decl → (path : List String) → Code → Nat → Nat → List Instr → List Instr → Prop
  | [], _, _, i, j, is, k => j = i ∧ is = k
  | d :: ds, path, c, i, j, is, k =>
    ∃ m r, DeclCode l publishRoot d path c i m is r ∧ DeclsCode l publishRoot ds path c m j r k

def DeclCode (l : Links) (publishRoot : Bool) :
    Decl → (path : List String) → Code → Nat → Nat → List Instr → List Instr → Prop
  | .space ns, path, c, i, j, is, k => NamespaceCode l publishRoot ns path c i j is k
  | .type name isPublic cases body, path, c, i, j, is, k =>
    ∃ r, is = typeCode path name isPublic cases ++ r ∧
      match body with
      | some ns =>
        if name.parts.isEmpty then j = i ∧ r = k
        else NamespaceCode l publishRoot ns path c i j r k
      | none => j = i ∧ r = k
  | .binding p value isPublic, path, c, i, j, is, k =>
    ∃ r, BlockCode l value c false i j is r ∧
      PatternCode l (if isPublic || (path.isEmpty && publishRoot) then some path else none) p
        value.value.line r k

def NamespaceCode (l : Links) (publishRoot : Bool) :
    NamespaceDecl → (path : List String) → Code → Nat → Nat → List Instr → List Instr → Prop
  | .mk name isPublic decls, path, c, i, j, is, k =>
    ∃ r, is = .mk name.line (.makeNamespace (path ++ name.parts) isPublic) :: r ∧
      DeclsCode l publishRoot decls (path ++ name.parts) c i j r k

end

def importCode (m : Import) : List Instr :=
  if m.names.isEmpty then [.mk m.line (.importAll m.file)]
  else m.names.map fun n => .mk m.line (.importEntry m.file n.parts)

/-- The code of a whole program, which is all of its unit. -/
def ProgramCode (l : Links) (publishRoot : Bool) (p : Program) (c : Code) (i j : Nat) : Prop :=
  ∃ m r r', c.instrs = p.imports.flatMap importCode ++ r ∧
    DeclsCode l publishRoot p.root.decls [] c i m r r' ∧
    match p.trailing with
    | some call => ExprCode l call.toExpr c false m j r' []
    | none => j = m ∧ r' = []

end MatchLang
