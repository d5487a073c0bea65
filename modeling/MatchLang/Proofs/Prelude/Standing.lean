import MatchLang.Proofs.Prelude.Code
import MatchLang.Proofs.Store.Beyond

/-! The prelude when it has been run: its functions stand in the scope of its body and under their names. -/

namespace MatchLang

/-- The function that a definition makes. -/
def Definition.closure (d : Definition) (root scope id : Nat) : Closure :=
  { id, code := d.code, scope, home := root, arity := d.arity, module := preludeName, line := d.slot.line }

/-- The function of a definition is in its slot, and under its name. -/
def Store.Binds (σ : Store) (root scope : Nat) (d : Definition) : Prop :=
  ∃ id, σ.slot? scope d.slot.id = some (.function (d.closure root scope id)) ∧
    (σ.root root).valueAt? [] d.slot.name = some (.function (d.closure root scope id))

/-- What the functions on lists take from the names that are built in. -/
structure Namespace.HasLists (ns : Namespace) : Prop where
  cons : ns.findValue ["::"] = .ok (.constructor builtins.cons)
  empty : ns.findValue ["Empty"] = .ok builtins.emptyList
  consType : ns.findType ["::"] = .ok (.case builtins.cons)
  yesType : ns.findType ["True"] = .ok (.case builtins.yes)

theorem Namespace.findValue_setValue {ns : Namespace} {name x : String} {v : Value} (h : x ≠ name) :
    (ns.setValue name v).findValue [x] = ns.findValue [x] := by
  have hx : [x].getLast?.bind ((ns.setValue name v).valueAt? [x].dropLast) =
      [x].getLast?.bind (ns.valueAt? [x].dropLast) := by
    show (ns.setValue name v).value? x = ns.value? x
    rw [value?, setValue, Table.get?_set, if_neg h, ← value?]
  unfold findValue
  rw [hx]

/-- A new value takes nothing away that the functions on lists need, unless it has the name of a part of them. -/
theorem Namespace.HasLists.setValue {ns : Namespace} {name : String} {v : Value} (h : ns.HasLists)
    (hn : name ∉ ["::", "Empty"]) : (ns.setValue name v).HasLists := by
  have hne : ∀ x ∈ ["::", "Empty"], x ≠ name := fun x hx he => hn (he ▸ hx)
  refine ⟨?_, ?_, h.consType, h.yesType⟩
  · rw [findValue_setValue (hne _ List.mem_cons_self)]
    exact h.cons
  · rw [findValue_setValue (hne _ (List.mem_cons_of_mem _ List.mem_cons_self))]
    exact h.empty

theorem seed_hasLists : (builtins.seed (.empty true)).HasLists :=
  ⟨rfl, rfl, rfl, rfl⟩

/-- What is left to do of a definition, and what is on the stack for it. -/
inductive Definition.Stage (σ : Store) (r s : Nat) : List Definition → List Value → List Instr → Prop where
  | next (todo : List Definition) (os : List Value) : Stage σ r s todo os (todo.flatMap instrs)
  | made (d : Definition) (todo : List Definition) (id : Nat) (os : List Value) :
    Stage σ r s (d :: todo) (.function (d.closure r s id) :: os) (d.instrs.drop 1 ++ todo.flatMap instrs)
  | copied (d : Definition) (todo : List Definition) (id : Nat) (os : List Value) :
    Stage σ r s (d :: todo) (.function (d.closure r s id) :: .function (d.closure r s id) :: os)
      (d.instrs.drop 2 ++ todo.flatMap instrs)
  | published (d : Definition) (todo : List Definition) (id : Nat) (os : List Value) :
    (σ.root r).valueAt? [] d.slot.name = some (.function (d.closure r s id)) →
    Stage σ r s (d :: todo) (.function (d.closure r s id) :: os) (d.instrs.drop 3 ++ todo.flatMap instrs)

/-- The body of the prelude is running: some of its definitions have been run, and the others are still to come. -/
structure Machine.Defining (n : Nat) (ds : List Definition) (m : Machine) : Prop where
  module : m.task.module = preludeName
  callers : m.task.frames.callers = []
  home : m.frame.closure.home = m.task.root
  made : m.frame.closure.module = preludeName
  root : m.task.root < m.store.roots.size
  scope : m.frame.scope < m.store.scopes.size
  defines : Prelude.Defines n ds
  names : (m.store.root m.task.root).HasLists
  progress : ∃ done todo, ds = done ++ todo ∧ (∀ d ∈ done, m.store.Binds m.task.root m.frame.scope d) ∧
    Definition.Stage m.store m.task.root m.frame.scope todo m.operands m.frame.rest

section

variable {host : Host} {m : Machine} {n line : Nat} {ds done todo : List Definition} {d : Definition}
  {σ τ : Store} {os : List Value} {is : List Instr} {r s : Nat}

theorem Store.Binds.congr (h : σ.Binds r s d) (hs : τ.slot? s d.slot.id = σ.slot? s d.slot.id)
    (hr : (τ.root r).valueAt? [] d.slot.name = (σ.root r).valueAt? [] d.slot.name) : τ.Binds r s d := by
  obtain ⟨id, hslot, hvalue⟩ := h
  exact ⟨id, hs.trans hslot, hr.trans hvalue⟩

/-- The body goes on with another store, which has all that was there. -/
theorem Machine.Defining.resume (hm : m.Defining n ds) (hroots : τ.roots.size = m.store.roots.size)
    (hscopes : τ.scopes.size = m.store.scopes.size) (hnames : (τ.root m.task.root).HasLists)
    (hds : ds = done ++ todo) (hdone : ∀ d ∈ done, τ.Binds m.task.root m.frame.scope d)
    (hstage : Definition.Stage τ m.task.root m.frame.scope todo os is) :
    (m.resume τ os line is).Defining n ds where
  module := hm.module
  callers := hm.callers
  home := hm.home
  made := hm.made
  root := hroots ▸ hm.root
  scope := hscopes ▸ hm.scope
  defines := hm.defines
  names := hnames
  progress := ⟨done, todo, hds, hdone, hstage⟩

theorem Prelude.Defines.ne_of_append (h : Prelude.Defines n (done ++ d :: todo)) :
    ∀ e ∈ done, e.slot.name ≠ d.slot.name ∧ e.slot.id ≠ d.slot.id := by
  intro e he
  have hnames := h.names
  have hslots := h.slots
  rw [List.map_append, List.map_cons] at hnames hslots
  refine ⟨fun heq => ?_, fun heq => ?_⟩
  · exact (List.nodup_append.mp hnames).2.2 _ (List.mem_map_of_mem he) _ List.mem_cons_self heq
  · exact (List.nodup_append.mp hslots).2.2 _ (List.mem_map_of_mem he) _ List.mem_cons_self heq

end

end MatchLang
