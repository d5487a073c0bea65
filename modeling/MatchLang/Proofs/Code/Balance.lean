import MatchLang.Value

/-! A static account of the operands that code has on the stack. In `Balanced s h ps is` a stretch of
code is at the instructions `is` with `h` operands of its own, and the namespaces `ps` are known to be
there; it never takes more operands than its own, its jumps lead somewhere within it, and it ends with as
many operands as it should. Code for which no namespace is known declares nothing, and behind an
instruction that restarts the function nothing is done any more. -/

namespace MatchLang

/-- A stretch of code in a unit: where it ends and with how many operands, the slots it may save to,
and whether it may restart the function it is in. -/
structure Stretch where
  unit : Code
  restarts : Bool
  saves : Nat → Prop
  height : Nat
  rest : List Instr

/-- All the code of a function, which ends with its result. -/
def Stretch.body (code : Code) : Stretch :=
  { unit := code, restarts := true, saves := fun _ => True, height := 1, rest := [] }

/-- Code that only leads to the end of its unit. -/
inductive Idle (c : Code) : List Instr → Prop where
  | done : Idle c []
  | nothing {line k} : Idle c k → Idle c (.mk line .nothing :: k)
  | jump {line label k target} : c.from? label = some target → Idle c target →
    Idle c (.mk line (.jump label) :: k)

inductive Balanced : Stretch → Nat → List (List String) → List Instr → Prop where
  | done {s h ps is} : h = s.height → is = s.rest → Balanced s h ps is
  | nothing {s h ps line k} : Balanced s h ps k → Balanced s h ps (.mk line .nothing :: k)
  | fail {s h ps line message k} :
    s.rest.length ≤ k.length → Balanced s h ps (.mk line (.fail message) :: k)
  | pop {s h ps line k} : Balanced s h ps k → Balanced s (h + 1) ps (.mk line .pop :: k)
  | duplicate {s h ps line k} :
    Balanced s (h + 2) ps k → Balanced s (h + 1) ps (.mk line .duplicate :: k)
  | decompose {s h ps line path n k} :
    Balanced s (h + n) ps k → Balanced s (h + 1) ps (.mk line (.decompose path n) :: k)
  | jump {s h ps line label k target} :
    s.unit.from? label = some target → Balanced s h ps target → s.rest.length ≤ k.length →
      Balanced s h ps (.mk line (.jump label) :: k)
  | require {s h ps line shape k} :
    Balanced s h ps k → Balanced s (h + 1) ps (.mk line (.require shape) :: k)
  | jumpIf {s h ps line shape label k target} :
    s.unit.from? label = some target → Balanced s h ps target → Balanced s h ps k →
      Balanced s (h + 1) ps (.mk line (.jumpIf shape label) :: k)
  | loadLocal {s h ps line slot k} :
    Balanced s (h + 1) ps k → Balanced s h ps (.mk line (.loadLocal slot) :: k)
  | loadName {s h ps line path k} :
    Balanced s (h + 1) ps k → Balanced s h ps (.mk line (.loadName path) :: k)
  | loadNumber {s h ps line x k} :
    Balanced s (h + 1) ps k → Balanced s h ps (.mk line (.loadNumber x) :: k)
  | loadText {s h ps line text k} :
    Balanced s (h + 1) ps k → Balanced s h ps (.mk line (.loadText text) :: k)
  | loadFunction {s h ps line code arity k} :
    Balanced (.body code) arity [] code.instrs → Balanced s (h + 1) ps k →
      Balanced s h ps (.mk line (.loadFunction code arity) :: k)
  | saveLocal {s h ps line slot k} :
    s.saves slot.id → Balanced s h ps k → Balanced s (h + 1) ps (.mk line (.saveLocal slot) :: k)
  | publish {s h ps line name path k} :
    path ∈ ps → Balanced s h ps k → Balanced s (h + 1) ps (.mk line (.publish name path) :: k)
  | call {s h ps line argc k} :
    Balanced s (h + 1) ps k → Balanced s (h + argc + 1) ps (.mk line (.call argc) :: k)
  | tailCall {s ps line argc k} :
    s.restarts = true → Idle s.unit k → s.rest.length ≤ k.length →
      Balanced s argc ps (.mk line (.tailCall argc) :: k)
  | makeNamespace {s h ps line path isPublic k} :
    [] ∈ ps → Balanced s h (path :: ps) k →
      Balanced s h ps (.mk line (.makeNamespace path isPublic) :: k)
  | makeType {s h ps line name path cases k} :
    path ∈ ps → Balanced s h ps k → Balanced s h ps (.mk line (.makeType name path cases) :: k)
  | importAll {s h ps line file k} :
    [] ∈ ps → Balanced s h ps k → Balanced s h ps (.mk line (.importAll file) :: k)
  | importEntry {s h ps line file path k} :
    [] ∈ ps → Balanced s h ps k → Balanced s h ps (.mk line (.importEntry file path) :: k)

/-- More namespaces may be there than are known. -/
theorem Balanced.mono {s : Stretch} {h : Nat} {ps qs : List (List String)} {is : List Instr}
    (hb : Balanced s h ps is) (hs : ps ⊆ qs) : Balanced s h qs is := by
  induction hb generalizing qs with
  | done hh hr => exact .done hh hr
  | nothing _ ih => exact .nothing (ih hs)
  | fail hr => exact .fail hr
  | pop _ ih => exact .pop (ih hs)
  | duplicate _ ih => exact .duplicate (ih hs)
  | decompose _ ih => exact .decompose (ih hs)
  | jump hl _ hr ih => exact .jump hl (ih hs) hr
  | require _ ih => exact .require (ih hs)
  | jumpIf hl _ _ iht ihk => exact .jumpIf hl (iht hs) (ihk hs)
  | loadLocal _ ih => exact .loadLocal (ih hs)
  | loadName _ ih => exact .loadName (ih hs)
  | loadNumber _ ih => exact .loadNumber (ih hs)
  | loadText _ ih => exact .loadText (ih hs)
  | loadFunction hc _ _ ih => exact .loadFunction hc (ih hs)
  | saveLocal hw _ ih => exact .saveLocal hw (ih hs)
  | publish hp _ ih => exact .publish (hs hp) (ih hs)
  | call _ ih => exact .call (ih hs)
  | tailCall ht hi hr => exact .tailCall ht hi hr
  | makeNamespace hp _ ih => exact .makeNamespace (hs hp) (ih (List.cons_subset_cons _ hs))
  | makeType hp _ ih => exact .makeType (hs hp) (ih hs)
  | importAll hp _ ih => exact .importAll (hs hp) (ih hs)
  | importEntry hp _ ih => exact .importEntry (hs hp) (ih hs)

/-- A stretch does not run past its end. -/
theorem Balanced.length_le {s : Stretch} {h : Nat} {ps : List (List String)} {is : List Instr}
    (hb : Balanced s h ps is) : s.rest.length ≤ is.length := by
  induction hb with
  | done _ hr => exact Nat.le_of_eq (congrArg List.length hr.symm)
  | fail hr | jump _ _ hr | tailCall _ _ hr => exact Nat.le_succ_of_le hr
  | saveLocal _ _ ih | publish _ _ ih | makeNamespace _ _ ih | makeType _ _ ih
  | importAll _ _ ih | importEntry _ _ ih => exact Nat.le_succ_of_le ih
  | jumpIf _ _ _ _ ih | loadFunction _ _ _ ih => exact Nat.le_succ_of_le ih
  | nothing _ ih | pop _ ih | duplicate _ ih | decompose _ ih | require _ ih | loadLocal _ ih
  | loadName _ ih | loadNumber _ ih | loadText _ ih | call _ ih => exact Nat.le_succ_of_le ih

/-- With no more instructions left than there are behind it, a stretch is at its end. -/
theorem Balanced.eq_of_length {s : Stretch} {h : Nat} {ps : List (List String)} {is : List Instr}
    (hb : Balanced s h ps is) (hl : is.length = s.rest.length) : is = s.rest ∧ h = s.height := by
  have hlt : ∀ {i : Instr} {k : List Instr}, s.rest.length ≤ k.length →
      (i :: k).length = s.rest.length → False := by
    intro i k hle he
    rw [List.length_cons] at he
    omega
  cases hb with
  | done hh hr => exact ⟨hr, hh⟩
  | fail hr | jump _ _ hr | tailCall _ _ hr => exact (hlt hr hl).elim
  | saveLocal _ hk | publish _ hk | makeNamespace _ hk | makeType _ hk | importAll _ hk
  | importEntry _ hk | loadFunction _ hk | jumpIf _ _ hk => exact (hlt hk.length_le hl).elim
  | nothing hk | pop hk | duplicate hk | decompose hk | require hk | loadLocal hk | loadName hk
  | loadNumber hk | loadText hk | call hk => exact (hlt hk.length_le hl).elim

/-- All the code of a module, which ends with the given number of operands. -/
def Stretch.main (code : Code) (height : Nat) : Stretch :=
  { unit := code, restarts := false, saves := fun _ => True, height, rest := [] }

/-- A function that takes its arguments and leaves its result. -/
def Closure.Balanced (c : Closure) : Prop :=
  MatchLang.Balanced (.body c.code) c.arity [] c.code.instrs

/-- Instructions that are about the root of the running module. -/
def Op.touchesRoot : Op → Bool
  | .publish _ _ => true
  | .makeNamespace _ _ => true
  | .makeType _ _ _ => true
  | .importAll _ => true
  | .importEntry _ _ => true
  | _ => false

/-- Code for which no namespace is known does not touch the root. -/
theorem Balanced.leaves_root {s : Stretch} {h line : Nat} {op : Op} {k : List Instr}
    (hb : Balanced s h [] (.mk line op :: k)) (hs : s.rest = []) :
    op.touchesRoot = false := by
  cases hb with
  | done _ hr =>
    rw [hs] at hr
    cases hr
  | publish hp | makeNamespace hp | makeType hp | importAll hp | importEntry hp =>
    exact absurd hp List.not_mem_nil
  | _ => rfl

end MatchLang
