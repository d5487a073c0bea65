import MatchLang.Machine.NativeCall
import MatchLang.Machine.State

/-! Calls. The first argument is on top of the stack and the callee above it. With exactly as many
arguments as it wants the callee is applied; with fewer it becomes a partial call; with more the
call fails. -/

namespace MatchLang

/-- The top `n` operands, the top first, and those below. -/
def takeOperands : Nat → List Value → Option (List Value × List Value)
  | 0, vs => some ([], vs)
  | _ + 1, [] => none
  | n + 1, v :: vs => (takeOperands n vs).map fun r => (v :: r.1, r.2)

theorem takeOperands_append (vs ws : List Value) :
    takeOperands vs.length (vs ++ ws) = some (vs, ws) := by
  induction vs with
  | nil => rfl
  | cons v vs ih => simp [takeOperands, ih]

/-- What a call with all its arguments comes to. -/
inductive Application where
  | enter (closure : Closure) (operands : List Value)
  | build (case : Case) (fields rest : List Value)
  | compute (function : Native) (args rest : List Value)
  | fault (fault : Fault)

/-- Apply a callee to the operands. The arguments that a partial call has go on top of the
others. -/
def applyFull : Value → List Value → Application
  | .function c, operands => .enter c operands
  | .partialCall _ callee args, operands => applyFull callee (args ++ operands)
  | .constructor c, operands =>
    match takeOperands c.arity operands with
    | some (fields, rest) => .build c fields rest
    | none => .fault .stackUnderflow
  | .native f, operands =>
    match takeOperands f.arity operands with
    | some (args, rest) => .compute f args rest
    | none => .fault .stackUnderflow
  | v, _ => .fault (.notCallable v.display)

namespace Machine

/-- A new frame for a function, with a scope of its own inside the one the function was made in. -/
def pushFrame (m : Machine) (c : Closure) : Machine :=
  let (scope, store) := m.store.newScope (some c.scope)
  { m with store }.updateFrames
    (·.push { closure := c, scope, line := c.line, rest := c.code.instrs })

/-- Begin a function, unless calls nest too deep already. -/
def enter (host : Host) (m : Machine) (c : Closure) : Transition :=
  match host.callLimit with
  | some limit =>
    if limit ≤ m.task.frames.depth then m.raise (.callDepthExceeded limit)
    else .running (m.pushFrame c)
  | none => .running (m.pushFrame c)

def apply (host : Host) (m : Machine) (callee : Value) (operands : List Value) : Transition :=
  match applyFull callee operands with
  | .enter c operands => (m.withOperands operands).enter host c
  | .build c fields rest => .running (m.withOperands (.record c fields :: rest))
  | .compute f args rest =>
    match f.run args m.store.console with
    | .ok (v, console) =>
      .running ((m.updateStore fun s => { s with console }).withOperands (v :: rest))
    | .error fault => m.raise fault
  | .fault f => m.raise f

/-- Keep a callee with the first of its arguments. -/
def hold (m : Machine) (callee : Value) (argc : Nat) (operands : List Value) : Transition :=
  match takeOperands argc operands with
  | some (args, rest) =>
    let (id, store) := m.store.newIdentity
    .running ({ m with store }.withOperands (.partialCall id callee args :: rest))
  | none => m.raise .stackUnderflow

def call (host : Host) (m : Machine) (argc : Nat) : Transition :=
  match m.operands with
  | [] => m.raise .stackUnderflow
  | callee :: operands =>
    match callee.arity? with
    | none => m.raise (.notCallable callee.display)
    | some arity =>
      if argc = arity then m.apply host callee operands
      else if argc < arity then m.hold callee argc operands
      else m.raise (.tooManyArguments callee.display)

/-- Run the current function again from its start, in the same frame with a new scope. -/
def tailCall (m : Machine) (argc : Nat) : Transition :=
  let c := m.frame.closure
  if c.arity = argc then
    let (scope, store) := m.store.newScope (some c.scope)
    .running ({ m with store }.updateFrame fun f => { f with scope, rest := c.code.instrs })
  else m.raise .partialTailCall

end Machine

end MatchLang
