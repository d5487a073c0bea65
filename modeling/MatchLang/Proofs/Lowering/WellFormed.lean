import MatchLang.CompileError
import MatchLang.Proofs.Grammar.Spelling

/-! The calls that are written in a program, and which of them can be compiled: the running function is
restarted only by the last thing that it does, and a choice is written with its arms. -/

namespace MatchLang

/-- Where a form stands. The value of some is that of the function around them; a choice has a list of
arms, and the value of an arm is that of the choice. -/
inductive Site where
  | value (isLast : Bool)
  | arms (isLast : Bool)
  | arm (isLast : Bool)
  deriving DecidableEq, Repr

/-- Whether the value of a form is that of the function around it. -/
def Site.isLast : Site → Bool
  | .value isLast => isLast
  | .arms _ => false
  | .arm _ => false

/-- A call as it is written, and whether it is the last thing that the function around it does. -/
structure WrittenCall where
  callee : Expr
  args : List Expr
  isLast : Bool

mutual

/-- The calls in an expression. The arms of a choice are not functions of their own: what they do last is
what the function around them does last, if the choice is. -/
def Expr.calls : Expr → Site → List WrittenCall
  | .call callee args _, site =>
    { callee, args, isLast := site.isLast } ::
      (callee.calls (.value false) ++
        exprsCalls args (if callee.isMatchName then [.value false, .arms site.isLast] else []))
  | .function _ body _, .arm isLast => body.calls (.value isLast)
  | .function _ body _, _ => body.calls (.value true)
  | .list elements _, .arms isLast => blocksCalls elements (.arm isLast)
  | .list elements _, _ => blocksCalls elements (.value false)
  | .literal _ _, _ => []
  | .name _, _ => []
  | .self _, _ => []

/-- The calls in some arguments, of which the first stand where the list says. -/
def exprsCalls : List Expr → List Site → List WrittenCall
  | [], _ => []
  | e :: es, [] => e.calls (.value false) ++ exprsCalls es []
  | e :: es, site :: sites => e.calls site ++ exprsCalls es sites

def blocksCalls : List Block → Site → List WrittenCall
  | [], _ => []
  | b :: bs, site => b.calls site ++ blocksCalls bs site

/-- The value of a block is that of the expression at its end. -/
def Block.calls : Block → Site → List WrittenCall
  | .result e, site => e.calls site
  | .bind _ value _ rest, site => value.calls (.value false) ++ rest.calls site

end

section

variable {isLast : Bool} {line : Nat}

theorem calls_function {params : List Pattern} {body : Block} :
    (Expr.function params body line).calls (.value isLast) = body.calls (.value true) := rfl

theorem calls_list {elements : List Block} :
    (Expr.list elements line).calls (.value isLast) = blocksCalls elements (.value false) := rfl

theorem calls_arm {params : List Pattern} {body : Block} :
    (Block.result (.function params body line)).calls (.arm isLast) =
      body.calls (.value isLast) := rfl

theorem mem_calls {callee : Expr} {args : List Expr} :
    { callee, args, isLast } ∈ (Expr.call callee args line).calls (.value isLast) :=
  List.mem_cons_self

theorem calls_call {callee : Expr} {args : List Expr} (hm : callee.isMatchName = false) :
    (Expr.call callee args line).calls (.value isLast) =
      { callee, args, isLast } :: (callee.calls (.value false) ++ exprsCalls args []) := by
  simp only [Expr.calls, hm, Site.isLast]
  rfl

theorem calls_choice {callee scrutinee : Expr} {cases : List Block} {caseLine : Nat}
    (hm : callee.isMatchName = true) :
    (Expr.call callee [scrutinee, .list cases caseLine] line).calls (.value isLast) =
      { callee, args := [scrutinee, .list cases caseLine], isLast } ::
        (scrutinee.calls (.value false) ++ blocksCalls cases (.arm isLast)) := by
  cases callee with
  | name n => simp [Expr.calls, exprsCalls, hm, Site.isLast]
  | _ => cases hm

end

mutual

def declsCalls : List Decl → List WrittenCall
  | [] => []
  | d :: ds => d.calls ++ declsCalls ds

def Decl.calls : Decl → List WrittenCall
  | .space ns => ns.calls
  | .type _ _ _ (some ns) => ns.calls
  | .type _ _ _ none => []
  | .binding _ value _ => value.calls (.value false)

def NamespaceDecl.calls : NamespaceDecl → List WrittenCall
  | .mk _ _ decls => declsCalls decls

end

/-- All calls in a program. No function is around its declarations or its call at the end. -/
def Program.calls (p : Program) : List WrittenCall :=
  p.root.calls ++ match p.trailing with
    | some c => c.toExpr.calls (.value false)
    | none => []

/-- A function of one parameter, with no bindings in front. -/
def Block.IsArm (b : Block) : Prop :=
  ∃ pattern body line, b = .result (.function [pattern] body line)

/-- The arguments of a choice: a value, and a list of arms in brackets. -/
def WrittenCall.HasArms (c : WrittenCall) : Prop :=
  ∃ scrutinee cases line, c.args = [scrutinee, .list cases line] ∧ ∀ b ∈ cases, b.IsArm

def Block.isArm : Block → Bool
  | .result (.function [_] _ _) => true
  | _ => false

theorem Block.isArm_iff {b : Block} : b.isArm = true ↔ b.IsArm := by
  constructor
  · intro h
    unfold isArm at h
    split at h
    · exact ⟨_, _, _, rfl⟩
    · cases h
  · rintro ⟨pattern, body, line, rfl⟩
    rfl

instance (c : WrittenCall) : Decidable c.HasArms :=
  match h : c.args with
  | [scrutinee, .list cases line] =>
    decidable_of_iff (∀ b ∈ cases, b.isArm = true)
      ⟨fun hall => ⟨scrutinee, cases, line, h, fun b hb => Block.isArm_iff.mp (hall b hb)⟩,
        fun ⟨_, _, _, he, hall⟩ b hb => by
          rw [h] at he
          cases he
          exact Block.isArm_iff.mpr (hall b hb)⟩
  | [] | [_] | _ :: _ :: _ :: _ => isFalse fun ⟨_, _, _, he, _⟩ => by simp [h] at he
  | [_, .call _ _ _] | [_, .function _ _ _] | [_, .literal _ _] | [_, .name _] | [_, .self _] =>
    isFalse fun ⟨_, _, _, he, _⟩ => by simp [h] at he

structure WrittenCall.Formed (c : WrittenCall) : Prop where
  restart : c.callee.isSelf = true → c.isLast = true
  choice : c.callee.isMatchName = true → c.HasArms

/-- What can be wrong with a call. -/
inductive WrittenCall.Refused (c : WrittenCall) : CompileFailure → Prop where
  | restart : c.callee.isSelf = true → c.isLast = false → Refused c .illegalTailCall
  | argCount : c.callee.isMatchName = true → c.args.length ≠ 2 → Refused c .matchArgCount
  | casesNotList {scrutinee e} : c.callee.isMatchName = true → c.args = [scrutinee, e] →
    (∀ cases line, e ≠ .list cases line) → Refused c .matchCasesNotList
  | caseNotFunction {scrutinee cases line b} : c.callee.isMatchName = true →
    c.args = [scrutinee, .list cases line] → b ∈ cases →
    (∀ params body line, b ≠ .result (.function params body line)) →
    Refused c .matchCaseNotFunction
  | caseArity {scrutinee cases line params body caseLine} : c.callee.isMatchName = true →
    c.args = [scrutinee, .list cases line] → .result (.function params body caseLine) ∈ cases →
    params.length ≠ 1 → Refused c .matchCaseArity

/-- There is nothing wrong with a call that is formed as it should be. -/
theorem WrittenCall.Refused.not_formed {c : WrittenCall} {f : CompileFailure} (h : c.Refused f) :
    ¬ c.Formed := by
  intro hf
  cases h with
  | restart hs hl =>
    rw [hf.restart hs] at hl
    cases hl
  | argCount hm hl =>
    obtain ⟨scrutinee, cases, line, ha, _⟩ := hf.choice hm
    exact hl (by rw [ha]; rfl)
  | casesNotList hm ha he =>
    obtain ⟨scrutinee, cases, line, ha', _⟩ := hf.choice hm
    rw [ha] at ha'
    cases ha'
    exact he cases line rfl
  | caseNotFunction hm ha hb hn =>
    obtain ⟨scrutinee, cases, line, ha', harms⟩ := hf.choice hm
    rw [ha] at ha'
    cases ha'
    obtain ⟨pattern, body, caseLine, rfl⟩ := harms _ hb
    exact hn [pattern] body caseLine rfl
  | caseArity hm ha hb hl =>
    obtain ⟨scrutinee, cases, line, ha', harms⟩ := hf.choice hm
    rw [ha] at ha'
    cases ha'
    obtain ⟨pattern, body, caseLine, he⟩ := harms _ hb
    cases he
    exact hl rfl

/-- The failures that a call can cause. -/
theorem WrittenCall.Refused.failure {c : WrittenCall} {f : CompileFailure} (h : c.Refused f) :
    f = .illegalTailCall ∨ f = .matchArgCount ∨ f = .matchCasesNotList ∨
      f = .matchCaseNotFunction ∨ f = .matchCaseArity := by
  cases h <;> simp

end MatchLang
