import MatchLang.Lowering.Pattern

/-! Lowering of blocks and expressions. An expression leaves one value on the stack. Arguments are
evaluated last to first, so that the first is on top when the call begins. -/

namespace MatchLang

/-- One arm of a choice: a function of one parameter. -/
structure Arm where
  pattern : Pattern
  line : Nat

/-- The arms of a choice; each must be a function of one parameter without bindings around it. -/
def armsOf : List Block → Except CompileError (List Arm)
  | [] => .ok []
  | b :: bs =>
    match b.value with
    | .function params _ line =>
      if b.hasBindings then .error ⟨.matchCaseNotFunction, line⟩
      else
        match params with
        | [pattern] => (armsOf bs).map (⟨pattern, line⟩ :: ·)
        | _ => .error ⟨.matchCaseArity, line⟩
    | e => .error ⟨.matchCaseNotFunction, e.line⟩

mutual

/-- Evaluating the expression can neither fail nor run a function, so the time does not matter. -/
def Expr.isPure : Expr → Bool
  | .literal _ _ => true
  | .function _ _ _ => true
  | .list elements _ => allPure elements
  | .call _ _ _ => false
  | .name _ => false
  | .self _ => false

def Block.isPure : Block → Bool
  | .result e => e.isPure
  | .bind _ _ _ _ => false

def allPure : List Block → Bool
  | [] => true
  | b :: bs => b.isPure && allPure bs

end

/-- The instruction that a literal comes to. -/
def Literal.op : Literal → Op
  | .number x => .loadNumber x
  | .text s => .loadText s
  | .unit => .loadName [unitName]
  | .emptyList => .loadName [emptyName]

def lowerLiteral (value : Literal) (line : Nat) : Emitter Unit :=
  emit line value.op

/-- A name with a link is a slot; any other is looked up when the instruction runs. -/
def QName.op (links : Links) (n : QName) : Op :=
  match links.get? n.id with
  | some slot => .loadLocal slot
  | none => .loadName n.parts

def lowerName (links : Links) (n : QName) : Emitter Unit :=
  emit n.line (n.op links)

/-- Put the value on top of the stack in front of the list below it. -/
def emitCons (line : Nat) : Emitter Unit := do
  emit line (.loadName [consName])
  emit line (.call 2)

/-- One label for each arm. -/
def armLabels : List Arm → Emitter (List Nat)
  | [] => return []
  | a :: as => do
    let label ← freshLabel a.line
    return label :: (← armLabels as)

/-- Try the arms in order, each on a copy of the value. -/
def emitTests : List Arm → List Nat → Emitter Unit
  | a :: as, label :: labels => do
    emit a.line .duplicate
    emit a.line (.jumpIf a.pattern.shape label)
    emitTests as labels
  | _, _ => return

/-- A list from the slots of its elements, built from the last one. -/
def emitItems (line : Nat) : List Slot → Emitter Unit
  | [] => return
  | slot :: slots => do
    emitItems line slots
    emit line (.loadLocal slot)
    emitCons line

/-- The slot name of a list element that is not pure. -/
def itemName : String := "<item>"

def noMatch : String := "no match"

mutual

/-- A call of the bare name `match` is a choice between arms; the dot as callee restarts the running
function, which only the last thing a function does may do. -/
def lowerExpr (links : Links) : Expr → (allowTail : Bool) → Emitter Unit
  | .call callee args line, allowTail =>
    if callee.isMatchName then
      match args with
      | [scrutinee, .list cases _] => do
        let arms ← armsOf cases
        lowerExpr links scrutinee false
        let done ← freshLabel line
        let labels ← armLabels arms
        emitTests arms labels
        emit line (.fail noMatch)
        lowerArms links cases labels done allowTail
        attach done line
        emit line .nothing
      | [_, e] => reject .matchCasesNotList e.line
      | _ => reject .matchArgCount line
    else do
      lowerArgs links args
      match callee with
      | .self _ =>
        if allowTail then emit line (.tailCall args.length) else reject .illegalTailCall line
      | callee =>
        lowerExpr links callee false
        emit line (.call args.length)
  | .function params body line, _ => do
    let code ← inOwnUnit do
      storePatterns links none params line
      lowerBlock links body true
    emit line (.loadFunction code params.length)
  | .list elements line, _ =>
    if allPure elements then do
      emit line (.loadName [emptyName])
      lowerPure links elements line
    else do
      let slots ← lowerItems links elements line
      emit line (.loadName [emptyName])
      emitItems line slots
  | .literal value line, _ => lowerLiteral value line
  | .name n, _ => lowerName links n
  | .self line, _ => reject .selfOutsideCall line

/-- Last to first. -/
def lowerArgs (links : Links) : List Expr → Emitter Unit
  | [] => return
  | e :: es => do
    lowerArgs links es
    lowerExpr links e false

/-- Pure elements in front of the list on top of the stack, last to first. -/
def lowerPure (links : Links) : List Block → (line : Nat) → Emitter Unit
  | [], _ => return
  | b :: bs, line => do
    lowerPure links bs line
    lowerBlock links b false
    emitCons line

/-- Elements in order, each into a slot of its own. -/
def lowerItems (links : Links) : List Block → (line : Nat) → Emitter (List Slot)
  | [], _ => return []
  | b :: bs, line => do
    lowerBlock links b false
    let slot ← freshSlot itemName b.value.line
    emit line (.saveLocal slot)
    return slot :: (← lowerItems links bs line)

/-- The arms' bodies, each behind its label and with a jump to the end of the choice. -/
def lowerArms (links : Links) :
    List Block → List Nat → (done : Nat) → (allowTail : Bool) → Emitter Unit
  | .result (.function [pattern] body line) :: cases, label :: labels, done, allowTail => do
    attach label line
    storePattern links none pattern line
    lowerBlock links body allowTail
    emit line (.jump done)
    lowerArms links cases labels done allowTail
  | _, _, _, _ => return

/-- The bindings in order, then the value; only the value may be in tail position. -/
def lowerBlock (links : Links) : Block → (allowTail : Bool) → Emitter Unit
  | .result e, allowTail => lowerExpr links e allowTail
  | .bind p value _ rest, allowTail => do
    lowerBlock links value false
    storePattern links none p value.value.line
    lowerBlock links rest allowTail

end

end MatchLang
