import MatchLang.Code

/-! Why a program that parses cannot be compiled. -/

namespace MatchLang

inductive CompileFailure where
  | illegalTailCall
  | selfOutsideCall
  | matchArgCount
  | matchCasesNotList
  | matchCaseNotFunction
  | matchCaseArity
  | duplicateLabel (label : Nat)
  | unattachedLabel (label : Nat)
  | unknownDeclaration (name : String)
  deriving DecidableEq, Repr

structure CompileError where
  failure : CompileFailure
  line : Nat
  deriving DecidableEq, Repr

def CompileError.message (e : CompileError) : String :=
  let atLine := " (line " ++ toString e.line ++ ")"
  match e.failure with
  | .illegalTailCall => "Tail call not allowed here" ++ atLine
  | .selfOutsideCall => "`.` can only be used as the callable of a tail call" ++ atLine
  | .matchArgCount => "Incorrect number of args in match" ++ atLine
  | .matchCasesNotList => "match requires a list as second argument" ++ atLine
  | .matchCaseNotFunction => "every case in a match must be a lambda" ++ atLine
  | .matchCaseArity => "every case in a match must have exactly one parameter" ++ atLine
  | .duplicateLabel label => "label " ++ labelText label ++ " attached twice" ++ atLine
  | .unattachedLabel label =>
    "label " ++ labelText label ++ " was never attached (created at line " ++ toString e.line ++ ")"
  | .unknownDeclaration name => "no declaration for `" ++ name ++ "`" ++ atLine

end MatchLang
