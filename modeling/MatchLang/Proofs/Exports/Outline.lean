import MatchLang.Proofs.Exports.Awaiting
import MatchLang.Proofs.Exports.Storing
import MatchLang.Proofs.Machine.Passage

/-! A program clause by clause: its imports, and then its namespaces, data types and bindings in the order of the
text, each with the path of the namespace that it stands in. To each belongs a part of the run of the module,
and what that part writes into the root. -/

namespace MatchLang

/-- What a program has to say about the names of its module. -/
inductive Clause where
  | takes (file : String) (delivery : Delivery)
  | opens (path : List String) (isPublic : Bool)
  | declares (path : List String) (name : String) (cases : List CaseDecl)
  | binds (path : List String) (pattern : Pattern) (value : Block) (isPublic : Bool)

/-- The cases of a data type, as the instruction that makes it has them. -/
def caseShapes (cases : List CaseDecl) : List CaseShape :=
  cases.map fun c => { name := c.name, arity := c.arity }

def Import.clauses (i : Import) : List Clause :=
  if i.names.isEmpty then [.takes i.file .whole]
  else i.names.map fun n => .takes i.file (.entry n.parts)

/-- A type stands in the namespace that the parts in front of its name lead to. -/
def typeClauses (path : List String) (name : QName) (isPublic : Bool) (cases : List CaseDecl) :
    List Clause :=
  match name.parts.getLast? with
  | none => []
  | some last =>
    let inner := name.parts.dropLast
    (if inner.isEmpty then [] else [.opens (path ++ inner) isPublic]) ++
      [.declares (path ++ inner) last cases]

mutual

def declsClauses (path : List String) : List Decl → List Clause
  | [] => []
  | d :: ds => d.clauses path ++ declsClauses path ds

def Decl.clauses (path : List String) : Decl → List Clause
  | .space ns => ns.clauses path
  | .type name isPublic cases body =>
    typeClauses path name isPublic cases ++
      match body with
      | some ns => if name.parts.isEmpty then [] else ns.clauses path
      | none => []
  | .binding p value isPublic => [.binds path p value isPublic]

def NamespaceDecl.clauses (path : List String) : NamespaceDecl → List Clause
  | .mk name isPublic decls =>
    .opens (path ++ name.parts) isPublic :: declsClauses (path ++ name.parts) decls

end

/-- The imports of a program, and then its declarations. -/
def Program.clauses (p : Program) : List Clause :=
  p.imports.flatMap Import.clauses ++ declsClauses [] p.root.decls

/-- The body of a module goes on with other instructions, and with the operands it had. -/
def Machine.GoesOn (m : Machine) (k : List Instr) (m₁ : Machine) : Prop :=
  ∃ line, m₁ = m.resume m₁.store m.operands line k

/-- The part of a run that belongs to an clause, and what it writes. A binding that is not public, and the
evaluation of one that is, leave all roots alone in every step; a public one writes the names of its pattern,
each with its part of the value that has been evaluated. -/
inductive Clause.Performed (host : Host) (l : Links) :
    Clause → Machine → List Writing → Machine → Prop where
  | takes {m m₁ file delivery source line op k} : m.frame.rest = .mk line op :: k →
    op.import? = some (file, delivery) → m.Reaches host m₁ → m.GoesOn k m₁ →
    m₁.store.module? file = some source →
    Performed host l (.takes file delivery) m [.taken delivery (m₁.store.root source)] m₁
  | opens {m m₁ path isPublic line k} : m.frame.rest = .mk line (.makeNamespace path isPublic) :: k →
    m.step host = .running m₁ → m.GoesOn k m₁ → Performed host l (.opens path isPublic) m [] m₁
  | declares {m m₁ path name cases line k} :
    m.frame.rest = .mk line (.makeType name path (caseShapes cases)) :: k →
    m.step host = .running m₁ → m.GoesOn k m₁ →
    Performed host l (.declares path name cases) m
      (caseWritings path (numberCases m.store.nextIdentity (caseShapes cases))) m₁
  | keeps {m m₁ path p value i j r k} :
    BlockCode l value m.frame.closure.code false i j m.frame.rest r →
    PatternCode l none p value.value.line r k → m.Quiet host m₁ → m.GoesOn k m₁ →
    Performed host l (.binds path p value false) m [] m₁
  | publishes {m m₁ m₂ path p value i j r k line v} :
    BlockCode l value m.frame.closure.code false i j m.frame.rest r →
    PatternCode l (some path) p value.value.line r k → m.Quiet host m₁ →
    m₁ = m.resume m₁.store (v :: m.operands) line r → (p.pieces m₁.home.findType v).fault = none →
    m₁.Reaches host m₂ → m.GoesOn k m₂ →
    Performed host l (.binds path p value true) m
      (pieceWritings path (p.pieces m₁.home.findType v).found) m₂

/-- The parts of a run that belong to some clauses, one after another, and what they write. -/
inductive Machine.Performs (host : Host) (l : Links) :
    List Clause → Machine → List Writing → Machine → Prop where
  | nil {m} : Performs host l [] m [] m
  | cons {clause clauses m m₁ m₂ ws ws'} : clause.Performed host l m ws m₁ →
    Performs host l clauses m₁ ws' m₂ → Performs host l (clause :: clauses) m (ws ++ ws') m₂

/-- The body of a module in a run that comes to its end in `m'`. -/
structure Machine.InBody (host : Host) (spaces : List Workspace) (c : Code) (m m' : Machine) :
    Prop where
  occurs : Moment.Occurs (fun _ => True) True ⟨.running m, spaces⟩
  unit : m.frame.closure.code = c
  callers : m.task.frames.callers = []
  reaches : m.Reaches host m'
  root : m'.task.root = m.task.root
  atEnd : m'.task.AtEnd

/-- Some clauses have been performed, as far as the code `k`. -/
def Machine.PerformsTo (host : Host) (spaces : List Workspace) (l : Links) (c : Code) (m m' : Machine)
    (clauses : List Clause) (k : List Instr) : Prop :=
  ∃ ws m₁, m.Performs host l clauses ws m₁ ∧ m₁.InBody host spaces c m' ∧ m.GoesOn k m₁ ∧
    (m.store.root m.task.root).Written ws (m₁.store.root m.task.root)

section

variable {host : Host} {spaces : List Workspace} {c : Code} {m m₁ m₂ m' : Machine} {l : Links}
  {k k' : List Instr} {clauses clauses' : List Clause} {ws ws' : List Writing} {line i j : Nat}
  {path : List String} {clause : Clause}

theorem Machine.GoesOn.trans (h : m.GoesOn k m₁) (h' : m₁.GoesOn k' m₂) : m.GoesOn k' m₂ := by
  obtain ⟨_, h⟩ := h
  obtain ⟨line, h'⟩ := h'
  refine ⟨line, h'.trans ?_⟩
  rw [h]
  rfl

theorem Machine.GoesOn.rest (h : m.GoesOn k m₁) : m₁.frame.rest = k := by
  obtain ⟨_, h⟩ := h
  rw [h]
  rfl

theorem Machine.Performs.append (h : m.Performs host l clauses ws m₁)
    (h' : m₁.Performs host l clauses' ws' m₂) : m.Performs host l (clauses ++ clauses') (ws ++ ws') m₂ := by
  induction h with
  | nil => exact h'
  | cons hi _ ih =>
    rw [List.append_assoc]
    exact .cons hi (ih h')

namespace Machine.InBody

theorem ok (h : m.InBody host spaces c m') : ∃ κ n, m.Ok κ n := by
  obtain ⟨_, n, κ, _, hm, _⟩ := h.occurs.ok.now
  exact ⟨κ, n, hm⟩

theorem root_lt (h : m.InBody host spaces c m') : m.task.root < m.store.roots.size :=
  h.occurs.task_root_lt List.mem_cons_self

theorem past (h : m.InBody host spaces c m') (n : Nat) : m.Past n m' where
  callers := h.atEnd.callers.trans h.callers.symm
  rest := by
    have hr : m'.frame.rest = [] := h.atEnd.rest
    rw [hr]
    exact Nat.zero_le n

theorem later (h : m.InBody host spaces c m') {os : List Value} (hr : m.Reaches host m₁)
    (hr' : m₁.Reaches host m') (hp : m₁ = m.resume m₁.store os line k) :
    m₁.InBody host spaces c m' where
  occurs := h.occurs.reaches hr
  unit := by
    rw [hp]
    exact h.unit
  callers := by
    rw [hp]
    exact h.callers
  reaches := hr'
  root := by
    rw [hp]
    exact h.root
  atEnd := h.atEnd

/-- The next instruction of the body is executed. -/
theorem step (h : m.InBody host spaces c m') {op : Op} (hr : m.frame.rest = .mk line op :: k) :
    ∃ m₁, m.step host = .running m₁ ∧ m₁.Reaches host m' :=
  h.reaches.first_step hr (h.past _)

/-- A module that has run does not run again, so a body at its end is at the end meant. -/
theorem eq_of_rest (h : m.InBody host spaces c m') (hr : m.frame.rest = []) : m = m' := by
  obtain ⟨n, hn⟩ := h.reaches
  cases n with
  | zero => exact Option.some.inj hn
  | succ n =>
    have hs : m.step host = m.finish := step_nil hr h.callers
    rw [walk, hs] at hn
    cases hw : m.waiting with
    | nil =>
      unfold finish at hn
      rw [hw] at hn
      cases hn
    | cons w vs =>
      rw [finish_cons hw] at hs hn
      cases hd : (m.settled w vs).deliver m.task.root w.delivery with
      | finished τ v =>
        rw [hd] at hn
        cases hn
      | raised x f =>
        rw [hd] at hn
        cases hn
      | running m₁ =>
        rw [hd] at hs hn
        have hmod : m₁.store.module? m.task.module = some m.task.root := by
          have hm : m₁.store.modules = (m.settled w vs).store.modules := by
            have he : ((m.settled w vs).deliver m.task.root w.delivery).store.modules =
                (m.settled w vs).store.modules := deliver_modules
            rw [hd] at he
            exact he
          have hset : (m.settled w vs).store.module? m.task.module = some m.task.root := by
            rw [settled_module?, if_pos rfl]
          rw [Store.module?, hm]
          exact hset
        have ho : Moment.Occurs (fun _ => True) True ⟨.running m₁, spaces⟩ := h.occurs.step hs
        have hheld : Table.get? (Moment.holding ⟨.running m₁, spaces⟩).modules m.task.module =
            some m.task.root := by
          rw [Moment.holding_modules]
          exact hmod
        obtain ⟨ns, hl⟩ := ho.apart.left hheld
        have hlater : Moment.Later (fun _ => True) True ⟨.running m₁, spaces⟩ ⟨.running m', spaces⟩ :=
          .walk trivial hn spaces
        have hnow := (hl.moves hlater.holding).running
        rw [Moment.holding_running, List.map_map] at hnow
        exact absurd (h.root ▸ List.mem_cons_self) hnow

/-- An clause that has been performed. -/
theorem performed (h : m.InBody host spaces c m') (hi : clause.Performed host l m ws m₁)
    (hr : m.Reaches host m₁) (hr' : m₁.Reaches host m') (hg : m.GoesOn k m₁)
    (hw : (m.store.root m.task.root).Written ws (m₁.store.root m.task.root)) :
    m.PerformsTo host spaces l c m' [clause] k := by
  obtain ⟨line, hp⟩ := hg
  have hone : m.Performs host l [clause] (ws ++ []) m₁ := .cons hi .nil
  rw [List.append_nil] at hone
  exact ⟨ws, m₁, hone, h.later hr hr' hp, ⟨line, hp⟩, hw⟩

theorem nothing (h : m.InBody host spaces c m') (hr : m.frame.rest = k) :
    m.PerformsTo host spaces l c m' [] k :=
  ⟨[], m, .nil, h, ⟨m.frame.line, by rw [← hr]; rfl⟩, .refl _⟩

theorem takes (h : m.InBody host spaces c m') {op : Op} {file : String} {d : Delivery}
    (hr : m.frame.rest = .mk line op :: k) (hi : op.import? = some (file, d)) :
    m.PerformsTo host spaces l c m' [.takes file d] k := by
  obtain ⟨m₀, hs, hr'⟩ := h.step hr
  have hl : (m.resume m.store m.operands line k).Loaded host file d (.running m₀) := by
    have hload : m.step host = (m.resume m.store m.operands line k).load host file d := by
      rw [step_eq_act hr, Op.action_import hi]
      rfl
    rw [← hs, hload]
    exact load_loaded
  obtain ⟨m₁, source, h₁, h₂, hrec⟩ := hl.received h.root_lt (h.occurs.step hs) hr' h.root
  have hg : m.GoesOn k m₁ := by
    refine ⟨line, ?_⟩
    obtain ⟨σ, t, vs⟩ := m₁
    obtain rfl := hrec.task
    obtain rfl := hrec.waiting
    rfl
  have ho₁ : Moment.Occurs (fun _ => True) True ⟨.running m₁, spaces⟩ :=
    h.occurs.reaches (.head hs h₁)
  exact h.performed (.takes hr hi (.head hs h₁) hg hrec.module) (.head hs h₁) h₂ hg
    (Namespace.written_merge (ho₁.tidy source) hrec.merged)

theorem opens (h : m.InBody host spaces c m') {isPublic : Bool}
    (hr : m.frame.rest = .mk line (.makeNamespace path isPublic) :: k) :
    m.PerformsTo host spaces l c m' [.opens path isPublic] k := by
  obtain ⟨m₁, hs, hr'⟩ := h.step hr
  have hact : m.step host = _ := step_eq_act hr
  rw [hs] at hact
  cases hn : (m.store.root m.task.root).make path isPublic with
  | error f =>
    have ha : Op.action m.setting line k (.makeNamespace path isPublic) =
        .fail m.store m.operands f := by
      show m.setting.declare _ _ _ ((m.store.root m.task.root).make path isPublic) = _
      rw [hn]
      rfl
    rw [ha] at hact
    cases hact
  | ok ns =>
    have ha : Op.action m.setting line k (.makeNamespace path isPublic) =
        .proceed (m.store.setRoot m.task.root ns) m.operands k := by
      show m.setting.declare _ _ _ ((m.store.root m.task.root).make path isPublic) = _
      rw [hn]
      rfl
    rw [ha] at hact
    have hm : m₁ = m.resume (m.store.setRoot m.task.root ns) m.operands line k := by
      cases hact
      rfl
    have hg : m.GoesOn k m₁ := ⟨line, by rw [hm]; rfl⟩
    refine h.performed (.opens hr hs hg) (.of_step hs) hr' hg ?_
    rw [hm, resume_store, Store.root_setRoot, if_pos ⟨rfl, h.root_lt⟩]
    exact Namespace.written_make hn

theorem declares (h : m.InBody host spaces c m') {name : String} {cases : List CaseDecl}
    (hr : m.frame.rest = .mk line (.makeType name path (caseShapes cases)) :: k) :
    m.PerformsTo host spaces l c m' [.declares path name cases] k := by
  obtain ⟨m₁, hs, hr'⟩ := h.step hr
  have hact : m.step host = _ := step_eq_act hr
  rw [hs] at hact
  let cs := numberCases m.store.nextIdentity (caseShapes cases)
  let σ : Store := { m.store with nextIdentity := m.store.nextIdentity + (caseShapes cases).length }
  cases hn : Machine.defineIn (m.store.root m.task.root) path name cs with
  | error f =>
    have ha : Op.action m.setting line k (.makeType name path (caseShapes cases)) =
        .fail σ m.operands f := by
      show m.setting.declare _ _ _ (Machine.defineIn (m.store.root m.task.root) path name cs) = _
      rw [hn]
      rfl
    rw [ha] at hact
    cases hact
  | ok ns =>
    have ha : Op.action m.setting line k (.makeType name path (caseShapes cases)) =
        .proceed (σ.setRoot m.task.root ns) m.operands k := by
      show m.setting.declare _ _ _ (Machine.defineIn (m.store.root m.task.root) path name cs) = _
      rw [hn]
      rfl
    rw [ha] at hact
    have hm : m₁ = m.resume (σ.setRoot m.task.root ns) m.operands line k := by
      cases hact
      rfl
    have hg : m.GoesOn k m₁ := ⟨line, by rw [hm]; rfl⟩
    have hlt : m.task.root < σ.roots.size := h.root_lt
    refine h.performed (.declares hr hs hg) (.of_step hs) hr' hg ?_
    rw [hm, resume_store, Store.root_setRoot, if_pos ⟨rfl, hlt⟩]
    unfold defineIn at hn
    cases hf : (m.store.root m.task.root).find path with
    | error f =>
      rw [hf] at hn
      cases hn
    | ok d =>
      rw [hf] at hn
      cases hn
      exact Namespace.written_addFamily (by rw [Namespace.find_eq_ok.mp hf]; rfl)

/-- The stretch of a body that leaves some operands. -/
def stretch (c : Code) (height : Nat) (rest : List Instr) : Stretch :=
  { unit := c, restarts := false, saves := fun _ => True, height, rest }

theorem stretch_saves {height : Nat} {rest : List Instr} :
    (stretch c height rest).Saves l i :=
  ⟨fun _ _ _ => trivial, fun _ _ => trivial⟩

/-- A stretch of code that knows no namespace is passed without a change of any root. -/
theorem passes (h : m.InBody host spaces c m') {height : Nat}
    (hb : Balanced (stretch c height k) 0 [] m.frame.rest) :
    ∃ vs m₁ line, m.Quiet host m₁ ∧ m₁.Reaches host m' ∧
      m₁ = m.resume m₁.store (vs ++ m.operands) line k ∧ vs.length = height := by
  obtain ⟨κ, _, hm⟩ := h.ok
  have hempty : SoundAll κ Closure.Balanced [] := trivial
  obtain ⟨vs, m₁, hq, hr, hres, hl, -⟩ :=
    hm.ready.passes_quietly h.unit.symm rfl hb rfl hempty h.reaches (h.past _)
  obtain ⟨line, hp⟩ := hres.place
  exact ⟨vs, m₁, line, hq, hr, hp, hl⟩

theorem keeps (h : m.InBody host spaces c m') {p : Pattern} {value : Block} {r : List Instr}
    (hv : BlockCode l value c false i j m.frame.rest r)
    (hp : PatternCode l none p value.value.line r k) :
    m.PerformsTo host spaces l c m' [.binds path p value false] k := by
  have hk : Balanced (stretch c 0 k) 0 [] k := .done rfl rfl
  have hs : (stretch c 0 k).Saves l i := stretch_saves
  have hr : Balanced (stretch c 0 k) 1 [] r := PatternCode.balanced hs.names nothing_published p hp hk
  have hb := BlockCode.balanced value hv hs (fun h => absurd h Bool.false_ne_true) hr
  obtain ⟨vs, m₁, line, hq, hr', hplace, hl⟩ := h.passes hb
  obtain rfl := List.length_eq_zero_iff.mp hl
  have hg : m.GoesOn k m₁ := ⟨line, hplace⟩
  refine h.performed (.keeps (by rw [h.unit]; exact hv) hp hq hg) hq.reaches hr' hg ?_
  have hroot : m₁.store.root m.task.root = m.store.root m.task.root := by
    rw [Store.root, hq.roots]
    rfl
  rw [hroot]
  exact .refl _

theorem publishes (h : m.InBody host spaces c m') {p : Pattern} {value : Block} {r : List Instr}
    (hv : BlockCode l value c false i j m.frame.rest r)
    (hp : PatternCode l (some path) p value.value.line r k) :
    m.PerformsTo host spaces l c m' [.binds path p value true] k := by
  have hr : Balanced (stretch c 1 r) 1 [] r := .done rfl rfl
  have hb := BlockCode.balanced value hv stretch_saves (fun h => absurd h Bool.false_ne_true) hr
  obtain ⟨vs, m₁, line, hq, hr', hplace, hl⟩ := h.passes hb
  obtain ⟨v, rfl⟩ := List.length_eq_one_iff.mp hl
  have h₁ : m₁.InBody host spaces c m' := h.later hq.reaches hr' hplace
  obtain ⟨κ, _, hm⟩ := h₁.ok
  have hrest : m₁.frame.rest = r := by
    rw [hplace]
    rfl
  have hos : m₁.operands = v :: m.operands := by
    rw [hplace]
    rfl
  obtain ⟨hfits, m₂, hs, hr₂, ⟨line', hplace'⟩, hw⟩ :=
    hm.stores (by rw [hrest]; exact hp) hos hr' h.atEnd.rest
  have hg : m.GoesOn k m₂ := by
    refine ⟨line', hplace'.trans ?_⟩
    rw [hplace]
    rfl
  refine h.performed (.publishes (by rw [h.unit]; exact hv) hp hq hplace hfits hs hg)
    (hq.reaches.trans hs) hr₂ hg ?_
  have hsame : m₁.task.root = m.task.root := by
    rw [hplace]
    rfl
  have hroot : m₁.store.root m.task.root = m.store.root m.task.root := by
    rw [Store.root, hq.roots]
    rfl
  rw [hsame, hroot] at hw
  exact hw

end Machine.InBody

end

end MatchLang
