import MatchLang.Proofs.Machine.Walk
import MatchLang.Proofs.Pattern.Pieces

/-! Runs inside one function that end at a place known beforehand, or at a fault before it. The
number of steps is the number of instructions between the two places. -/

namespace MatchLang

/-- From one place of the running function the machine comes to another in `n` steps, or to a fault
in fewer; the store is `r.1` then. -/
def Machine.Passes (host : Host) (m : Machine) (n : Nat) (σ : Store) (os : List Value)
    (is : List Instr) (r : Store × Option Fault) (os' : List Value) (k : List Instr) : Prop :=
  ∀ line, match r with
    | (σ', none) =>
      ∃ line', (m.resume σ os line is).walk host n = some (m.resume σ' os' line' k)
    | (σ', some f) =>
      ∃ j < n, ∃ m₁ os₁ line₁ is₁, (m.resume σ os line is).walk host j = some m₁ ∧
        m₁.step host = .raised (m.resume σ' os₁ line₁ is₁) f

namespace Machine.Passes

variable {host : Host} {m : Machine} {n j : Nat} {σ σ' : Store} {os os' os'' : List Value}
  {is is' k : List Instr} {r : Store × Option Fault} {f : Fault}

theorem refl : m.Passes host 0 σ os is (σ, none) os is :=
  fun line => ⟨line, rfl⟩

theorem trans (h : m.Passes host n σ os is (σ', none) os' is')
    (h' : m.Passes host j σ' os' is' r os'' k) : m.Passes host (n + j) σ os is r os'' k := by
  intro line
  obtain ⟨line', hw⟩ := h line
  obtain ⟨σ'', fault⟩ := r
  cases fault with
  | none =>
    obtain ⟨line'', hw'⟩ := h' line'
    exact ⟨line'', walk_trans hw hw'⟩
  | some f =>
    obtain ⟨i, hi, m₁, os₁, line₁, is₁, hw', hs⟩ := h' line'
    exact ⟨n + i, by omega, m₁, os₁, line₁, is₁, walk_trans hw hw', hs⟩

theorem fault_trans (h : m.Passes host n σ os is (σ', some f) os' is') :
    m.Passes host (n + j) σ os is (σ', some f) os'' k := by
  intro line
  obtain ⟨i, hi, h⟩ := h line
  exact ⟨i, by omega, h⟩

/-- One instruction that keeps the function running. -/
theorem of_step {op : Op} {line' : Nat}
    (h : (m.resume σ os line' is).perform host op = .running (m.resume σ' os' line' is)) :
    m.Passes host 1 σ os (.mk line' op :: is) (σ', none) os' is := by
  intro line
  exact ⟨line', walk_one.mpr (by rw [step_resume, h])⟩

/-- One instruction at which a fault comes up. -/
theorem of_fault {op : Op} {line' : Nat} {os₁ : List Value} {is₁ : List Instr}
    (h : (m.resume σ os line' is).perform host op = .raised (m.resume σ' os₁ line' is₁) f) :
    m.Passes host (n + 1) σ os (.mk line' op :: is) (σ', some f) os' k := by
  intro line
  exact ⟨0, Nat.succ_pos n, _, os₁, line', is₁, rfl, by rw [step_resume, h]⟩

end Machine.Passes

section

variable {host : Host} {m : Machine} {σ : Store} {v : Value} {os : List Value} {line line' : Nat}
  {is : List Instr} {shape : Shape} {path : List String} {f : Fault}

theorem test_eq_ok {fits : Bool} {whenTested : Machine → Bool → Transition}
    (h : shape.accepts (σ.root m.frame.closure.home).findType v = .ok fits) :
    (m.resume σ (v :: os) line is).test shape whenTested =
      whenTested (m.resume σ os line is) fits := by
  simp only [Machine.test, Machine.resume_operands, Machine.resume_home, h]
  rfl

theorem test_eq_error {whenTested : Machine → Bool → Transition}
    (h : shape.accepts (σ.root m.frame.closure.home).findType v = .error f) :
    (m.resume σ (v :: os) line is).test shape whenTested =
      .raised (m.resume σ (v :: os) line is) f := by
  simp only [Machine.test, Machine.resume_operands, Machine.resume_home, h]
  rfl

theorem perform_require_ok {fits : Bool}
    (h : shape.accepts (σ.root m.frame.closure.home).findType v = .ok fits) :
    (m.resume σ (v :: os) line is).perform host (.require shape) =
      if fits then .running (m.resume σ os line is)
      else .raised (m.resume σ os line is) .failedMatch := by
  rw [Machine.perform, test_eq_ok h]
  rfl

theorem perform_require_error
    (h : shape.accepts (σ.root m.frame.closure.home).findType v = .error f) :
    (m.resume σ (v :: os) line is).perform host (.require shape) =
      .raised (m.resume σ (v :: os) line is) f := by
  rw [Machine.perform, test_eq_error h]

theorem perform_jumpIf_ok {label : Nat} {fits : Bool}
    (h : shape.accepts (σ.root m.frame.closure.home).findType v = .ok fits) :
    (m.resume σ (v :: os) line is).perform host (.jumpIf shape label) =
      if fits then (m.resume σ os line is).jump label
      else .running (m.resume σ os line is) := by
  rw [Machine.perform, test_eq_ok h]

theorem perform_jumpIf_error {label : Nat}
    (h : shape.accepts (σ.root m.frame.closure.home).findType v = .error f) :
    (m.resume σ (v :: os) line is).perform host (.jumpIf shape label) =
      .raised (m.resume σ (v :: os) line is) f := by
  rw [Machine.perform, test_eq_error h]

/-- The test of an arm, made on a copy of the value. -/
theorem walk_copy {op : Op} :
    (m.resume σ (v :: os) line (.mk line' .duplicate :: .mk line' op :: is)).walk host 1 =
      some (m.resume σ (v :: v :: os) line' (.mk line' op :: is)) := rfl

theorem walk_test_yes {label : Nat} {start : List Instr}
    (h : shape.accepts (σ.root m.frame.closure.home).findType v = .ok true)
    (hl : m.frame.closure.code.from? label = some start) :
    (m.resume σ (v :: os) line (.mk line' .duplicate :: .mk line' (.jumpIf shape label) :: is)).walk host 2 =
      some (m.resume σ (v :: os) line' start) := by
  refine Machine.walk_trans walk_copy (Machine.walk_one.mpr ?_)
  rw [Machine.step_resume, perform_jumpIf_ok h, if_pos rfl, Machine.jump, Machine.resume_closure, hl]
  rfl

theorem walk_test_no {label : Nat}
    (h : shape.accepts (σ.root m.frame.closure.home).findType v = .ok false) :
    (m.resume σ (v :: os) line (.mk line' .duplicate :: .mk line' (.jumpIf shape label) :: is)).walk host 2 =
      some (m.resume σ (v :: os) line' is) := by
  refine Machine.walk_trans walk_copy (Machine.walk_one.mpr ?_)
  rw [Machine.step_resume, perform_jumpIf_ok h]
  rfl

theorem declare_eq_ok {change : Namespace → Except Fault Namespace} {ns : Namespace}
    (h : change (σ.root m.task.root) = .ok ns) :
    (m.resume σ os line is).declare change =
      .running (m.resume (σ.setRoot m.task.root ns) os line is) := by
  simp only [Machine.declare, Machine.resume_store, Machine.resume_root, h]
  rfl

theorem declare_eq_error {change : Namespace → Except Fault Namespace}
    (h : change (σ.root m.task.root) = .error f) :
    (m.resume σ os line is).declare change = .raised (m.resume σ os line is) f := by
  simp only [Machine.declare, Machine.resume_store, Machine.resume_root, h]
  rfl

theorem perform_publish_ok {name : String} {ns : Namespace}
    (h : Machine.publishIn (σ.root m.task.root) path name v = .ok ns) :
    (m.resume σ (v :: os) line is).perform host (.publish name path) =
      .running (m.resume (σ.setRoot m.task.root ns) os line is) := by
  show (m.resume σ os line is).declare (Machine.publishIn · path name v) = _
  exact declare_eq_ok h

theorem perform_publish_error {name : String}
    (h : Machine.publishIn (σ.root m.task.root) path name v = .error f) :
    (m.resume σ (v :: os) line is).perform host (.publish name path) =
      .raised (m.resume σ os line is) f := by
  show (m.resume σ os line is).declare (Machine.publishIn · path name v) = _
  exact declare_eq_error h

/-- Taking the top of the stack apart leaves its parts in front of what is below. -/
theorem perform_decompose_ok {n : Nat} {parts : List Value}
    (h : takeApart (σ.root m.frame.closure.home).findType path n v = .ok parts) :
    (m.resume σ (v :: os) line is).perform host (.decompose path n) =
      .running (m.resume σ (parts ++ os) line is) := by
  unfold takeApart at h
  simp only [Machine.perform, Machine.resume_operands, Machine.resume_home]
  cases ht : (σ.root m.frame.closure.home).findType path with
  | error f =>
    rw [ht] at h
    cases h
  | ok t =>
    rw [ht] at h
    simp only at h ⊢
    rw [decompose_cons, h]
    rfl

theorem perform_decompose_error {n : Nat}
    (h : takeApart (σ.root m.frame.closure.home).findType path n v = .error f) :
    (m.resume σ (v :: os) line is).perform host (.decompose path n) =
      .raised (m.resume σ (v :: os) line is) f := by
  unfold takeApart at h
  simp only [Machine.perform, Machine.resume_operands, Machine.resume_home]
  cases ht : (σ.root m.frame.closure.home).findType path with
  | error g =>
    rw [ht] at h
    cases h
    rfl
  | ok t =>
    rw [ht] at h
    simp only at h ⊢
    rw [decompose_cons, h]
    rfl

theorem perform_loadName_ok (h : (σ.root m.frame.closure.home).findValue path = .ok v) :
    (m.resume σ os line is).perform host (.loadName path) =
      .running (m.resume σ (v :: os) line is) := by
  simp only [Machine.perform, Machine.resume_home, h]
  rfl

theorem perform_loadName_error (h : (σ.root m.frame.closure.home).findValue path = .error f) :
    (m.resume σ os line is).perform host (.loadName path) = .raised (m.resume σ os line is) f := by
  simp only [Machine.perform, Machine.resume_home, h]
  rfl

theorem perform_loadLocal_some {slot : Slot} (h : σ.lookup m.frame.scope slot.id = some v) :
    (m.resume σ os line is).perform host (.loadLocal slot) =
      .running (m.resume σ (v :: os) line is) := by
  simp only [Machine.perform, Machine.resume_store, Machine.resume_scope, h]
  rfl

theorem perform_loadLocal_none {slot : Slot} (h : σ.lookup m.frame.scope slot.id = none) :
    (m.resume σ os line is).perform host (.loadLocal slot) =
      .raised (m.resume σ os line is) (.unassigned slot.name) := by
  simp only [Machine.perform, Machine.resume_store, Machine.resume_scope, h]
  rfl

end

end MatchLang
