import MatchLang.Session

/-! Runs cut into pieces. A walk is a number of steps in which the machine keeps running; what is run
after it is run from where it ends. Between calls only the operands, the store and the place in the
running frame change. -/

namespace MatchLang

namespace Machine

variable {host : Host} {m m' m'' : Machine} {n k : Nat}

/-- The machine after some steps, if it is running all the while. -/
def walk (host : Host) : Nat → Machine → Option Machine
  | 0, m => some m
  | n + 1, m =>
    match m.step host with
    | .running m' => walk host n m'
    | _ => none

/-- One machine comes to be another by some number of steps. -/
def Reaches (host : Host) (m m' : Machine) : Prop :=
  ∃ n, m.walk host n = some m'

/-- A fault comes up after some number of steps. -/
def Raises (host : Host) (m m' : Machine) (f : Fault) : Prop :=
  ∃ m₁, m.Reaches host m₁ ∧ m₁.step host = .raised m' f

theorem walk_of_step (h : m.step host = .running m') (hw : m'.walk host n = some m'') :
    m.walk host (n + 1) = some m'' := by
  simp only [walk, h, hw]

theorem walk_one : m.walk host 1 = some m' ↔ m.step host = .running m' := by
  cases h : m.step host <;> simp [walk, h]

theorem walk_add : m.walk host (n + k) = (m.walk host n).bind (·.walk host k) := by
  induction n generalizing m with
  | zero => simp [walk]
  | succ n ih =>
    rw [Nat.succ_add]
    cases h : m.step host with
    | running m₁ => simp only [walk, h, ih]
    | finished store v => simp [walk, h]
    | raised m₁ f => simp [walk, h]

theorem walk_trans (h : m.walk host n = some m') (k' : m'.walk host k = some m'') :
    m.walk host (n + k) = some m'' := by
  rw [walk_add, h, Option.bind_some, k']

/-- Earlier machines of a walk. -/
theorem walk_le (h : m.walk host n = some m') (hk : k ≤ n) :
    ∃ m₁, m.walk host k = some m₁ ∧ m₁.walk host (n - k) = some m' := by
  rw [← Nat.add_sub_of_le hk, walk_add] at h
  obtain ⟨m₁, h₁, h₂⟩ := Option.bind_eq_some_iff.mp h
  exact ⟨m₁, h₁, by simpa using h₂⟩

theorem walk_succ_right (h : m.walk host (n + 1) = some m') :
    ∃ m₁, m.walk host n = some m₁ ∧ m₁.step host = .running m' := by
  rw [walk_add] at h
  obtain ⟨m₁, h₁, h₂⟩ := Option.bind_eq_some_iff.mp h
  exact ⟨m₁, h₁, walk_one.mp h₂⟩

namespace Reaches

theorem refl (m : Machine) : m.Reaches host m := ⟨0, rfl⟩

theorem of_step (h : m.step host = .running m') : m.Reaches host m' :=
  ⟨1, walk_one.mpr h⟩

theorem trans (h : m.Reaches host m') (k : m'.Reaches host m'') : m.Reaches host m'' := by
  obtain ⟨n, hn⟩ := h
  obtain ⟨j, hj⟩ := k
  exact ⟨n + j, walk_trans hn hj⟩

theorem head (h : m.step host = .running m') (k : m'.Reaches host m'') : m.Reaches host m'' :=
  (of_step h).trans k

/-- What is preserved by every step is preserved by every walk. -/
theorem preserves {P : Machine → Prop}
    (hp : ∀ m m' : Machine, P m → m.step host = .running m' → P m') (h : m.Reaches host m')
    (hm : P m) : P m' := by
  obtain ⟨n, h⟩ := h
  induction n generalizing m with
  | zero =>
    cases h
    exact hm
  | succ n ih =>
    cases hs : m.step host with
    | running m₁ =>
      simp only [walk, hs] at h
      exact ih (hp m m₁ hm hs) h
    | finished store v => simp [walk, hs] at h
    | raised m₁ f => simp [walk, hs] at h

end Reaches

/-- Two walks from one machine are parts of one. -/
theorem walk_le_or_ge {j : Nat} (h : m.walk host n = some m') (k : m.walk host j = some m'') :
    m'.Reaches host m'' ∨ m''.Reaches host m' := by
  rcases Nat.le_total n j with hl | hl
  · obtain ⟨m₁, h₁, h₂⟩ := walk_le k hl
    rw [h] at h₁
    cases h₁
    exact .inl ⟨_, h₂⟩
  · obtain ⟨m₁, h₁, h₂⟩ := walk_le h hl
    rw [k] at h₁
    cases h₁
    exact .inr ⟨_, h₂⟩

/-- Where a fault comes up nothing is reached, so a machine that raises one reaches only what is on
the way there. -/
theorem Raises.reached {f : Fault} {m₁ : Machine} (h : m.Raises host m' f)
    (k : m.Reaches host m₁) : m₁.Raises host m' f := by
  obtain ⟨m₂, ⟨i, hi⟩, hs⟩ := h
  obtain ⟨j, hj⟩ := k
  rcases walk_le_or_ge hi hj with ⟨n, hn⟩ | hr
  · cases n with
    | zero =>
      cases hn
      exact ⟨_, .refl _, hs⟩
    | succ n => simp [walk, hs] at hn
  · exact ⟨m₂, hr, hs⟩

theorem run_add (h : m.walk host n = some m') : m.run host (n + k) = m'.run host k := by
  induction n generalizing m with
  | zero =>
    cases h
    rw [Nat.zero_add]
  | succ n ih =>
    rw [Nat.succ_add]
    cases hs : m.step host with
    | running m₁ =>
      simp only [walk, hs] at h
      simp only [run, hs, ih h]
    | finished store v => simp [walk, hs] at h
    | raised m₁ f => simp [walk, hs] at h

/-- A run that is cut short is a walk. -/
theorem run_eq_cut : m.run host n = .cut m' ↔ m.walk host n = some m' := by
  induction n generalizing m with
  | zero => simp [run, walk]
  | succ n ih => cases hs : m.step host <;> simp [run, walk, hs, ih]

theorem run_eq_finished {store : Store} {v : Option Value} :
    m.run host n = .finished store v ↔
      ∃ k < n, ∃ m₁, m.walk host k = some m₁ ∧ m₁.step host = .finished store v := by
  induction n generalizing m with
  | zero => simp [run]
  | succ n ih =>
    constructor
    · intro h
      cases hs : m.step host with
      | running m₁ =>
        simp only [run, hs] at h
        obtain ⟨k, hk, m₂, hw, hf⟩ := ih.mp h
        exact ⟨k + 1, by omega, m₂, walk_of_step hs hw, hf⟩
      | finished store' v' =>
        simp only [run, hs, Ending.finished.injEq] at h
        obtain ⟨rfl, rfl⟩ := h
        exact ⟨0, by omega, m, rfl, hs⟩
      | raised m₁ f => simp [run, hs] at h
    · rintro ⟨k, hk, m₁, hw, hf⟩
      have hn : n + 1 = k + (n - k + 1) := by omega
      rw [hn, run_add hw]
      simp only [run, hf]

theorem run_eq_failed {store : Store} {e : Failure} :
    m.run host n = .failed store e ↔
      ∃ k < n, ∃ m₁ m₂ f, m.walk host k = some m₁ ∧ m₁.step host = .raised m₂ f ∧
        m₂.store = store ∧ m₂.failure f = e := by
  induction n generalizing m with
  | zero => simp [run]
  | succ n ih =>
    constructor
    · intro h
      cases hs : m.step host with
      | running m₁ =>
        simp only [run, hs] at h
        obtain ⟨k, hk, m₂, m₃, f, hw, hf, he⟩ := ih.mp h
        exact ⟨k + 1, by omega, m₂, m₃, f, walk_of_step hs hw, hf, he⟩
      | finished store' v' => simp [run, hs] at h
      | raised m₁ f =>
        simp only [run, hs, Ending.failed.injEq] at h
        exact ⟨0, by omega, m, m₁, f, rfl, hs, h⟩
    · rintro ⟨k, hk, m₁, m₂, f, hw, hf, rfl, rfl⟩
      have hn : n + 1 = k + (n - k + 1) := by omega
      rw [hn, run_add hw]
      simp only [run, hf]

/-- The same task with other operands, at another place of the running function. -/
def resume (m : Machine) (store : Store) (operands : List Value) (line : Nat)
    (rest : List Instr) : Machine :=
  { store
    task := { m.task with
      operands
      frames := m.task.frames.update fun f => { f with line, rest } }
    waiting := m.waiting }

section

variable {σ σ' : Store} {os os' : List Value} {line line' : Nat} {is is' : List Instr}

theorem resume_self (m : Machine) :
    m.resume m.store m.operands m.frame.line m.frame.rest = m := rfl

@[simp] theorem resume_resume :
    (m.resume σ os line is).resume σ' os' line' is' = m.resume σ' os' line' is' := rfl

@[simp] theorem resume_store : (m.resume σ os line is).store = σ := rfl

@[simp] theorem resume_operands : (m.resume σ os line is).operands = os := rfl

@[simp] theorem resume_rest : (m.resume σ os line is).frame.rest = is := rfl

@[simp] theorem resume_scope : (m.resume σ os line is).frame.scope = m.frame.scope := rfl

@[simp] theorem resume_closure : (m.resume σ os line is).frame.closure = m.frame.closure := rfl

@[simp] theorem resume_root : (m.resume σ os line is).task.root = m.task.root := rfl

@[simp] theorem resume_waiting : (m.resume σ os line is).waiting = m.waiting := rfl

@[simp] theorem resume_depth :
    (m.resume σ os line is).task.frames.depth = m.task.frames.depth := rfl

theorem resume_home :
    (m.resume σ os line is).home = σ.root m.frame.closure.home := rfl

/-- A step performs the next instruction, once the frame has passed it. -/
theorem step_resume {op : Op} :
    (m.resume σ os line (.mk line' op :: is)).step host =
      (m.resume σ os line' is).perform host op := rfl

end

end Machine

/-- A machine in a module of its own, about to run some code on some operands. -/
def codeMachine (c : Code) (operands : List Value) : Machine :=
  let (task, store) := (Store.initial .deaf).newTask "main" c
  { store, task := { task with operands }, waiting := [] }

def bareHost : Host :=
  { appRoot := ".", withPrelude := false, callLimit := none, read := fun _ => .error .missing }

end MatchLang
