import MatchLang.Proofs.Machine.Frames
import MatchLang.Proofs.Namespace.Publish

/-! A step in two parts: what an instruction comes to, which it settles from the store, the operands
and the running function alone, and how the machine then goes on. Neither the frames below nor the tasks
that wait have a say in the first part. -/

namespace MatchLang

/-- What an instruction can see. -/
structure Setting where
  store : Store
  operands : List Value
  closure : Closure
  scope : Nat
  root : Nat

def Setting.home (s : Setting) : Namespace :=
  s.store.root s.closure.home

def Machine.setting (m : Machine) : Setting :=
  { store := m.store
    operands := m.operands
    closure := m.frame.closure
    scope := m.frame.scope
    root := m.task.root }

/-- What an instruction comes to. -/
inductive Action where
  | proceed (store : Store) (operands : List Value) (rest : List Instr)
  | enter (closure : Closure) (operands : List Value)
  | restart
  | load (file : String) (delivery : Delivery)
  | fail (store : Store) (operands : List Value) (fault : Fault)

namespace Setting

variable (s : Setting)

def refuse (f : Fault) : Action :=
  .fail s.store s.operands f

def jump (label : Nat) : Action :=
  match s.closure.code.from? label with
  | some is => .proceed s.store s.operands is
  | none => s.refuse (.unattachedLabel label)

/-- Go on with the top operand and those below it. -/
def pop (next : Value → List Value → Action) : Action :=
  match s.operands with
  | [] => s.refuse .stackUnderflow
  | v :: os => next v os

def test (shape : Shape) (next : List Value → Bool → Action) : Action :=
  s.pop fun v os =>
    match shape.accepts s.home.findType v with
    | .ok fits => next os fits
    | .error f => s.refuse f

/-- Go on with another tree of names in the root of the running module. -/
def declare (σ : Store) (os : List Value) (k : List Instr) : Except Fault Namespace → Action
  | .ok ns => .proceed (σ.setRoot s.root ns) os k
  | .error f => .fail σ os f

def apply (callee : Value) (os : List Value) (k : List Instr) : Action :=
  match applyFull callee os with
  | .enter c os => .enter c os
  | .build c fields rest => .proceed s.store (.record c fields :: rest) k
  | .compute f args rest =>
    match f.run args s.store.console with
    | .ok (v, console) => .proceed { s.store with console } (v :: rest) k
    | .error fault => s.refuse fault
  | .fault f => s.refuse f

def hold (callee : Value) (argc : Nat) (os : List Value) (k : List Instr) : Action :=
  match takeOperands argc os with
  | some (args, rest) =>
    .proceed s.store.newIdentity.2 (.partialCall s.store.nextIdentity callee args :: rest) k
  | none => s.refuse .stackUnderflow

def call (argc : Nat) (k : List Instr) : Action :=
  s.pop fun callee os =>
    match callee.arity? with
    | none => s.refuse (.notCallable callee.display)
    | some arity =>
      if argc = arity then s.apply callee os k
      else if argc < arity then s.hold callee argc os k
      else s.refuse (.tooManyArguments callee.display)

end Setting

/-- The function that `loadFunction` makes at a line. -/
def Closure.inner (c : Closure) (id scope line : Nat) (code : Code) (arity : Nat) : Closure :=
  { id, code, scope, home := c.home, arity, module := c.module, line }

def Op.action (s : Setting) (line : Nat) (k : List Instr) : Op → Action
  | .nothing => .proceed s.store s.operands k
  | .fail message => s.refuse (.failed message)
  | .pop => s.pop fun _ os => .proceed s.store os k
  | .duplicate => s.pop fun v os => .proceed s.store (v :: v :: os) k
  | .decompose path parts =>
    match s.home.findType path with
    | .error f => s.refuse f
    | .ok t =>
      match MatchLang.decompose t parts s.operands with
      | .ok os => .proceed s.store os k
      | .error f => s.refuse f
  | .jump label => s.jump label
  | .require shape =>
    s.test shape fun os fits =>
      if fits then .proceed s.store os k else .fail s.store os .failedMatch
  | .jumpIf shape label =>
    s.test shape fun os fits =>
      if fits then { s with operands := os }.jump label else .proceed s.store os k
  | .loadLocal slot =>
    match s.store.lookup s.scope slot.id with
    | some v => .proceed s.store (v :: s.operands) k
    | none => s.refuse (.unassigned slot.name)
  | .loadName path =>
    match s.home.findValue path with
    | .ok v => .proceed s.store (v :: s.operands) k
    | .error f => s.refuse f
  | .loadNumber x => .proceed s.store (.number x :: s.operands) k
  | .loadText t => .proceed s.store (.text t :: s.operands) k
  | .loadFunction code arity =>
    .proceed s.store.newIdentity.2
      (.function (s.closure.inner s.store.nextIdentity s.scope line code arity) :: s.operands) k
  | .saveLocal slot => s.pop fun v os => .proceed (s.store.save s.scope slot.id v) os k
  | .publish name path =>
    s.pop fun v os =>
      s.declare s.store os k (Machine.publishIn (s.store.root s.root) path name v)
  | .call argc => s.call argc k
  | .tailCall argc =>
    if s.closure.arity = argc then .restart else s.refuse .partialTailCall
  | .makeNamespace path isPublic =>
    s.declare s.store s.operands k ((s.store.root s.root).make path isPublic)
  | .makeType name path cases =>
    s.declare { s.store with nextIdentity := s.store.nextIdentity + cases.length } s.operands k
      (Machine.defineIn (s.store.root s.root) path name
        (numberCases s.store.nextIdentity cases))
  | .importAll file => .load file .whole
  | .importEntry file path => .load file (.entry path)

/-- How the machine goes on. -/
def Machine.act (host : Host) (m : Machine) (line : Nat) (k : List Instr) : Action → Transition
  | .proceed σ os is => .running (m.resume σ os line is)
  | .enter c os => (m.resume m.store os line k).enter host c
  | .restart => .running (m.resume m.store m.operands line k).restarted
  | .load file delivery => (m.resume m.store m.operands line k).load host file delivery
  | .fail σ os f => .raised (m.resume σ os line k) f

/-- The frame at another place of its function. -/
def Frame.moved (f : Frame) (line : Nat) (rest : List Instr) : Frame :=
  { f with line, rest }

/-- The frame whose function begins again. -/
def Frame.again (f : Frame) (scope line : Nat) : Frame :=
  { f with scope, line, rest := f.closure.code.instrs }

/-- The frame of a function that begins. -/
def Closure.entered (c : Closure) (scope : Nat) : Frame :=
  { closure := c, scope, line := c.line, rest := c.code.instrs }

section

variable {m : Machine} {f : Frame} {fs : List Frame} {σ : Store} {os : List Value} {line : Nat}
  {k : List Instr} {c : Closure}

theorem Machine.toList_resume (h : m.task.frames.toList = f :: fs) :
    (m.resume σ os line k).task.frames.toList = f.moved line k :: fs := by
  obtain ⟨rfl, rfl⟩ := List.cons.inj h
  rfl

theorem Machine.toList_restarted (h : m.task.frames.toList = f :: fs) :
    (m.resume σ os line k).restarted.task.frames.toList = f.again σ.scopes.size line :: fs := by
  obtain ⟨rfl, rfl⟩ := List.cons.inj h
  rfl

theorem Machine.toList_pushFrame (h : m.task.frames.toList = f :: fs) :
    ((m.resume σ os line k).pushFrame c).task.frames.toList =
      c.entered σ.scopes.size :: f.moved line k :: fs :=
  congrArg (c.entered σ.scopes.size :: ·) (toList_resume h)

end

section

variable {host : Host} {m : Machine} {line : Nat} {k : List Instr}

theorem act_test {shape : Shape} {whenTested : Machine → Bool → Transition}
    {next : List Value → Bool → Action}
    (h : ∀ v os fits, m.operands = v :: os →
      whenTested (m.resume m.store os line k) fits = m.act host line k (next os fits)) :
    (m.resume m.store m.operands line k).test shape whenTested =
      m.act host line k (m.setting.test shape next) := by
  unfold Machine.test Setting.test Setting.pop
  have hos : m.setting.operands = m.operands := rfl
  rw [hos, Machine.resume_operands]
  cases ho : m.operands with
  | nil => simp only [Machine.act, Setting.refuse, Machine.raise, hos, ho]; rfl
  | cons v os =>
    have hhome : (m.resume m.store (v :: os) line k).home = m.setting.home := rfl
    simp only [hhome]
    cases shape.accepts m.setting.home.findType v with
    | ok fits => exact h v os fits ho
    | error f => simp only [Machine.act, Setting.refuse, Machine.raise, hos, ho]; rfl

theorem act_jump {os : List Value} {label : Nat} :
    (m.resume m.store os line k).jump label =
      m.act host line k (({ m.setting with operands := os } : Setting).jump label) := by
  have hc : (m.resume m.store os line k).frame.closure = m.setting.closure := rfl
  simp only [Machine.jump, Setting.jump, hc]
  cases m.setting.closure.code.from? label <;> rfl

theorem act_declare {σ : Store} {os : List Value}
    {change : Namespace → Except Fault Namespace} :
    (m.resume σ os line k).declare change =
      m.act host line k (m.setting.declare σ os k (change (σ.root m.setting.root))) := by
  have hr : (m.resume σ os line k).task.root = m.setting.root := rfl
  simp only [Machine.declare, hr, Machine.resume_store]
  cases change (σ.root m.setting.root) <;> rfl

theorem act_apply {callee : Value} {os : List Value} :
    (m.resume m.store m.operands line k).apply host callee os =
      m.act host line k (m.setting.apply callee os k) := by
  have hσ : m.setting.store = m.store := rfl
  simp only [Machine.apply, Setting.apply, Machine.resume_store, hσ]
  cases applyFull callee os with
  | compute f args rest =>
    simp only
    cases f.run args m.store.console <;> rfl
  | _ => rfl

theorem act_call {argc : Nat} :
    (m.resume m.store m.operands line k).call host argc =
      m.act host line k (m.setting.call argc k) := by
  have hos : (m.resume m.store m.operands line k).operands = m.setting.operands := rfl
  simp only [Machine.call, Setting.call, Setting.pop, hos]
  cases m.setting.operands with
  | nil => rfl
  | cons callee os =>
    simp only
    cases callee.arity? with
    | none => rfl
    | some arity =>
      simp only
      split
      · exact act_apply
      · split
        · simp only [Machine.hold, Setting.hold]
          cases takeOperands argc os <;> rfl
        · rfl

theorem step_eq_act {op : Op} (h : m.frame.rest = .mk line op :: k) :
    m.step host = m.act host line k (op.action m.setting line k) := by
  rw [step_cons h]
  have hhome : (m.resume m.store m.operands line k).home = m.setting.home := rfl
  have hos : (m.resume m.store m.operands line k).operands = m.setting.operands := rfl
  cases op with
  | nothing | fail _ | loadNumber _ | loadText _ | loadFunction _ _ | importAll _
  | importEntry _ _ => rfl
  | pop | saveLocal _ =>
    simp only [Machine.perform, Op.action, Setting.pop, hos]
    cases m.setting.operands <;> rfl
  | duplicate =>
    simp only [Machine.perform, Op.action, Setting.pop, hos]
    cases ho : m.setting.operands with
    | nil => rfl
    | cons v os =>
      have ho' : m.operands = v :: os := ho
      simp only [ho']
      rfl
  | decompose path parts =>
    simp only [Machine.perform, Op.action, hhome, hos]
    cases m.setting.home.findType path with
    | error f => rfl
    | ok t =>
      simp only
      cases MatchLang.decompose t parts m.setting.operands <;> rfl
  | jump label =>
    simp only [Machine.perform, Op.action]
    exact act_jump
  | require shape =>
    simp only [Machine.perform, Op.action]
    refine act_test fun v os fits ho => ?_
    cases fits <;> rfl
  | jumpIf shape label =>
    simp only [Machine.perform, Op.action]
    refine act_test fun v os fits ho => ?_
    cases fits with
    | false => rfl
    | true => exact act_jump
  | loadLocal slot =>
    have hl : (m.resume m.store m.operands line k).store.lookup
        (m.resume m.store m.operands line k).frame.scope slot.id =
          m.setting.store.lookup m.setting.scope slot.id := rfl
    simp only [Machine.perform, Op.action, hl]
    cases m.setting.store.lookup m.setting.scope slot.id <;> rfl
  | loadName path =>
    simp only [Machine.perform, Op.action, hhome]
    cases m.setting.home.findValue path <;> rfl
  | publish name path =>
    simp only [Machine.perform, Op.action, Setting.pop, hos]
    cases m.setting.operands with
    | nil => rfl
    | cons v os => exact act_declare
  | call argc => exact act_call
  | tailCall argc =>
    by_cases ha : m.frame.closure.arity = argc
    · have hl : (m.resume m.store m.operands line k).perform host (.tailCall argc) =
          .running (m.resume m.store m.operands line k).restarted := if_pos ha
      have hr : Op.action m.setting line k (.tailCall argc) = .restart := if_pos ha
      rw [hl, hr]
      rfl
    · have hl : (m.resume m.store m.operands line k).perform host (.tailCall argc) =
          .raised (m.resume m.store m.operands line k) .partialTailCall := if_neg ha
      have hr : Op.action m.setting line k (.tailCall argc) =
          m.setting.refuse .partialTailCall := if_neg ha
      rw [hl, hr]
      rfl
  | makeNamespace path isPublic =>
    simp only [Machine.perform, Machine.makeNamespace_eq, Op.action]
    exact act_declare
  | makeType name path cases =>
    simp only [Machine.perform, Op.action]
    exact act_declare

end

/-- The number of the slot that an instruction saves to. -/
def Op.saved? : Op → Option Nat
  | .saveLocal slot => some slot.id
  | _ => none

/-- The scopes are as in the setting, but for a slot of the running scope, if there is one to save to, and no
slots have been given out. -/
def Setting.Saves (s : Setting) (saved : Option Nat) (σ : Store) : Prop :=
  σ.nextSlot = s.store.nextSlot ∧ (σ.scopes = s.store.scopes ∨
    ∃ slot v, saved = some slot ∧ σ.scopes = s.store.scopes.modify s.scope (·.set slot v))

/-- The running function goes on, if anything does, and saves to a slot of its own at most; a fault saves
nothing. -/
def Action.Stays (s : Setting) (saved : Option Nat) : Action → Prop
  | .proceed σ _ _ => s.Saves saved σ
  | .restart => False
  | .enter _ _ => True
  | .load _ _ => True
  | .fail σ _ _ => s.Saves none σ

/-- What a declaration makes of the root of its module. -/
inductive Namespace.Declares (ns : Namespace) : Namespace → Prop where
  | value (path : List String) (name : String) (v : Value) :
    Declares ns (ns.updateAt (·.setValue name v) path)
  | family (path : List String) (name : String) (cases : List Case) :
    Declares ns (ns.updateAt (·.addFamily name cases) path)
  | space {path isPublic ns'} : ns.make path isPublic = .ok ns' → Declares ns ns'

/-- The file of an import, and what is taken from it. -/
def Op.import? : Op → Option (String × Delivery)
  | .importAll file => some (file, .whole)
  | .importEntry file path => some (file, .entry path)
  | _ => none

/-- The instructions to go on at: those that come next, or those from a label on. -/
def Setting.Follows (s : Setting) (k is : List Instr) : Prop :=
  is = k ∨ ∃ label, s.closure.code.from? label = some is

/-- The store after an instruction that goes on: identities have been given out, the console has been used, a slot
of the running scope has been written, or something has been declared in the root. -/
inductive Setting.Changes (s : Setting) (saved : Option Nat) : Store → Prop where
  | counts (next : Nat) : Changes s saved { s.store with nextIdentity := next }
  | computes {f args v c} : Native.run f args s.store.console = .ok (v, c) →
    Changes s saved { s.store with console := c }
  | saves {slot} (v : Value) : saved = some slot → Changes s saved (s.store.save s.scope slot v)
  | declares {ns} (next : Nat) : (s.store.root s.root).Declares ns →
    Changes s saved (Store.setRoot { s.store with nextIdentity := next } s.root ns)

/-- What an instruction can come to. -/
inductive Op.Outcome (s : Setting) (k : List Instr) (op : Op) : Action → Prop where
  | proceeds {σ os is} : s.Changes op.saved? σ → s.Follows k is → Outcome s k op (.proceed σ os is)
  | enters {argc c os} : op = .call argc → Outcome s k op (.enter c os)
  | restarts {argc} : op = .tailCall argc → s.closure.arity = argc → Outcome s k op .restart
  | loads {file delivery} : op.import? = some (file, delivery) → Outcome s k op (.load file delivery)
  | fails {os f} (next : Nat) : Outcome s k op (.fail { s.store with nextIdentity := next } os f)

section

variable {s : Setting} {line : Nat} {k : List Instr} {op : Op}

theorem publishIn_declares {ns ns' : Namespace} {path : List String} {name : String} {v : Value}
    (h : Machine.publishIn ns path name v = .ok ns') : ns.Declares ns' := by
  obtain ⟨-, rfl⟩ := publishIn_eq_ok.mp h
  exact .value path name v

theorem defineIn_declares {ns ns' : Namespace} {path : List String} {name : String}
    {cases : List Case} (h : Machine.defineIn ns path name cases = .ok ns') : ns.Declares ns' := by
  unfold Machine.defineIn at h
  cases hf : ns.find path with
  | error f =>
    rw [hf] at h
    cases h
  | ok c =>
    rw [hf] at h
    cases h
    exact .family path name cases

namespace Setting

theorem proceed_outcome {os : List Value} : op.Outcome s k (.proceed s.store os k) :=
  .proceeds (.counts s.store.nextIdentity) (.inl rfl)

theorem refuse_outcome {f : Fault} : op.Outcome s k (s.refuse f) :=
  .fails s.store.nextIdentity

theorem jump_outcome {os : List Value} {label : Nat} :
    op.Outcome s k (({ s with operands := os } : Setting).jump label) := by
  unfold jump
  simp only
  cases hl : s.closure.code.from? label with
  | some is => exact .proceeds (.counts s.store.nextIdentity) (.inr ⟨label, hl⟩)
  | none => exact .fails s.store.nextIdentity

theorem pop_outcome {next : Value → List Value → Action} (h : ∀ v os, op.Outcome s k (next v os)) :
    op.Outcome s k (s.pop next) := by
  unfold pop
  cases s.operands with
  | nil => exact refuse_outcome
  | cons v os => exact h v os

theorem test_outcome {shape : Shape} {next : List Value → Bool → Action}
    (h : ∀ os fits, op.Outcome s k (next os fits)) : op.Outcome s k (s.test shape next) := by
  refine pop_outcome fun v os => ?_
  cases shape.accepts s.home.findType v with
  | ok fits => exact h os fits
  | error f => exact refuse_outcome

theorem declare_outcome {next : Nat} {os : List Value} {r : Except Fault Namespace}
    (h : ∀ ns, r = .ok ns → (s.store.root s.root).Declares ns) :
    op.Outcome s k (s.declare { s.store with nextIdentity := next } os k r) := by
  cases r with
  | ok ns => exact .proceeds (.declares next (h ns rfl)) (.inl rfl)
  | error f => exact .fails next

theorem apply_outcome {callee : Value} {argc : Nat} {os : List Value} :
    (Op.call argc).Outcome s k (s.apply callee os k) := by
  unfold apply
  cases applyFull callee os with
  | enter c os => exact .enters rfl
  | build c fields rest => exact proceed_outcome
  | compute f args rest =>
    simp only
    cases hr : f.run args s.store.console with
    | ok r => exact .proceeds (.computes hr) (.inl rfl)
    | error fault => exact refuse_outcome
  | fault f => exact refuse_outcome

theorem call_outcome {argc : Nat} : (Op.call argc).Outcome s k (s.call argc k) := by
  refine pop_outcome fun callee os => ?_
  cases callee.arity? with
  | none => exact refuse_outcome
  | some arity =>
    simp only
    split
    · exact apply_outcome
    · split
      · unfold hold
        cases takeOperands argc os with
        | some r => exact .proceeds (.counts (s.store.nextIdentity + 1)) (.inl rfl)
        | none => exact refuse_outcome
      · exact refuse_outcome

end Setting

theorem Op.action_outcome (op : Op) (s : Setting) (line : Nat) (k : List Instr) :
    op.Outcome s k (op.action s line k) := by
  cases op with
  | nothing | loadNumber _ | loadText _ => exact Setting.proceed_outcome
  | loadFunction code arity => exact .proceeds (.counts (s.store.nextIdentity + 1)) (.inl rfl)
  | fail message => exact Setting.refuse_outcome
  | pop => exact Setting.pop_outcome fun _ _ => Setting.proceed_outcome
  | duplicate => exact Setting.pop_outcome fun _ _ => Setting.proceed_outcome
  | decompose path parts =>
    simp only [Op.action]
    cases s.home.findType path with
    | error f => exact Setting.refuse_outcome
    | ok t =>
      simp only
      cases MatchLang.decompose t parts s.operands with
      | ok os => exact Setting.proceed_outcome
      | error f => exact Setting.refuse_outcome
  | jump label => exact Setting.jump_outcome
  | require shape =>
    refine Setting.test_outcome fun os fits => ?_
    cases fits with
    | true => exact Setting.proceed_outcome
    | false => exact .fails s.store.nextIdentity
  | jumpIf shape label =>
    refine Setting.test_outcome fun os fits => ?_
    cases fits with
    | true => exact Setting.jump_outcome
    | false => exact Setting.proceed_outcome
  | loadLocal slot =>
    simp only [Op.action]
    cases s.store.lookup s.scope slot.id with
    | some v => exact Setting.proceed_outcome
    | none => exact Setting.refuse_outcome
  | loadName path =>
    simp only [Op.action]
    cases s.home.findValue path with
    | ok v => exact Setting.proceed_outcome
    | error f => exact Setting.refuse_outcome
  | saveLocal slot => exact Setting.pop_outcome fun v os => .proceeds (.saves v rfl) (.inl rfl)
  | publish name path =>
    exact Setting.pop_outcome fun v os => Setting.declare_outcome fun ns hn => publishIn_declares hn
  | call argc => exact Setting.call_outcome
  | tailCall argc =>
    simp only [Op.action]
    split
    · rename_i ha
      exact .restarts rfl ha
    · exact Setting.refuse_outcome
  | makeNamespace path isPublic => exact Setting.declare_outcome fun ns hn => .space hn
  | makeType name path cases => exact Setting.declare_outcome fun ns hn => defineIn_declares hn
  | importAll file | importEntry file path => exact .loads rfl

theorem Setting.Changes.saved {saved : Option Nat} {σ : Store} (h : s.Changes saved σ) : s.Saves saved σ := by
  cases h with
  | counts n | computes hr | declares n hd => exact ⟨rfl, .inl rfl⟩
  | saves v hs => exact ⟨rfl, .inr ⟨_, v, hs, rfl⟩⟩

/-- Of all instructions it is one alone that restarts the running function. -/
theorem Op.action_stays (hop : ∀ argc, op ≠ .tailCall argc) : (op.action s line k).Stays s op.saved? := by
  have ho : op.Outcome s k (op.action s line k) := op.action_outcome s line k
  generalize op.action s line k = a at ho ⊢
  cases ho with
  | proceeds hc _ => exact hc.saved
  | enters _ | loads _ => trivial
  | restarts he _ => exact absurd he (hop _)
  | fails n => exact ⟨rfl, .inl rfl⟩

end

end MatchLang
