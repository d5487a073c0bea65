import MatchLang.Proofs.Machine.Action
import MatchLang.Proofs.Namespace.Recode
import MatchLang.Session

/-! The names of slots have no effect on a run, but for the name in the fault of a slot that is read before
it has a value. -/

namespace MatchLang

/-- The slot with its name spelled another way. -/
def Slot.respell (r : String → String) (s : Slot) : Slot :=
  { s with name := r s.name }

section

variable (r : String → String)

def Scope.respell (s : Scope) : Scope where
  parent := s.parent
  slots := s.slots.map fun e => (e.1, e.2.mapSlots (Slot.respell r))

def Store.respell (σ : Store) : Store :=
  { σ with
    scopes := σ.scopes.map (·.respell r)
    roots := σ.roots.map (·.mapSlots (Slot.respell r)) }

def instrsRespell (is : List Instr) : List Instr :=
  is.map (·.mapSlots (Slot.respell r))

def operandsRespell (vs : List Value) : List Value :=
  vs.map (·.mapSlots (Slot.respell r))

def Frame.respell (f : Frame) : Frame where
  closure := f.closure.mapSlots (Slot.respell r)
  scope := f.scope
  line := f.line
  rest := instrsRespell r f.rest

def Frames.respell (fs : Frames) : Frames where
  current := fs.current.respell r
  callers := fs.callers.map (·.respell r)
  depth := fs.depth
  depth_eq := by rw [List.length_map, fs.depth_eq]

def Task.respell (t : Task) : Task where
  module := t.module
  root := t.root
  operands := operandsRespell r t.operands
  frames := t.frames.respell r

def Suspended.respell (s : Suspended) : Suspended where
  task := s.task.respell r
  delivery := s.delivery

def Machine.respell (m : Machine) : Machine where
  store := m.store.respell r
  task := m.task.respell r
  waiting := m.waiting.map (·.respell r)

def Transition.respell : Transition → Transition
  | .running m => .running (m.respell r)
  | .finished σ v => .finished (σ.respell r) (v.map (·.mapSlots (Slot.respell r)))
  | .raised m f => .raised (m.respell r) f

def Setting.respell (s : Setting) : Setting where
  store := s.store.respell r
  operands := operandsRespell r s.operands
  closure := s.closure.mapSlots (Slot.respell r)
  scope := s.scope
  root := s.root

def Action.respell : Action → Action
  | .proceed σ os is => .proceed (σ.respell r) (operandsRespell r os) (instrsRespell r is)
  | .enter c os => .enter (c.mapSlots (Slot.respell r)) (operandsRespell r os)
  | .restart => .restart
  | .load file delivery => .load file delivery
  | .fail σ os f => .fail (σ.respell r) (operandsRespell r os) f

end

section

variable {r : String → String}

namespace Store

variable (σ : Store)

@[simp] theorem root_respell (id : Nat) :
    (σ.respell r).root id = (σ.root id).mapSlots (Slot.respell r) := by
  unfold root respell
  simp only [Array.getD_eq_getD_getElem?, Array.getElem?_map]
  cases σ.roots[id]? with
  | none => exact (Namespace.empty_mapSlots true).symm
  | some ns => rfl

theorem map_modify {α β : Type} {g : α → β} {change : α → α} {change' : β → β}
    (h : ∀ a, change' (g a) = g (change a)) (xs : Array α) (i : Nat) :
    (xs.map g).modify i change' = (xs.modify i change).map g := by
  apply Array.ext_getElem?
  intro j
  simp only [Array.getElem?_modify, Array.getElem?_map]
  split
  · cases xs[j]? with
    | none => rfl
    | some a => exact congrArg some (h a)
  · rfl

theorem updateRoot_respell {change change' : Namespace → Namespace}
    (h : ∀ ns, change' (ns.mapSlots (Slot.respell r)) = (change ns).mapSlots (Slot.respell r))
    (id : Nat) : (σ.respell r).updateRoot id change' = (σ.updateRoot id change).respell r := by
  have hroots := map_modify h σ.roots id
  unfold updateRoot respell
  rw [hroots]

theorem setRoot_respell (id : Nat) (ns : Namespace) :
    (σ.respell r).setRoot id (ns.mapSlots (Slot.respell r)) = (σ.setRoot id ns).respell r := by
  have hset : (σ.respell r).updateRoot id (fun _ => ns.mapSlots (Slot.respell r)) =
      (σ.updateRoot id fun _ => ns).respell r := @σ.updateRoot_respell r (fun _ => ns) _ (fun _ => rfl) id
  exact hset

theorem get?_respell (s : Scope) (slot : Nat) :
    (s.respell r).get? slot = (s.get? slot).map (·.mapSlots (Slot.respell r)) := by
  unfold Scope.get? Scope.respell
  induction s.slots with
  | nil => rfl
  | cons e es ih =>
    rw [List.map_cons, List.lookup_cons, List.lookup_cons]
    cases slot == e.1 with
    | true => rfl
    | false => exact ih

theorem lookup_respell (scope slot : Nat) :
    (σ.respell r).lookup scope slot =
      (σ.lookup scope slot).map (·.mapSlots (Slot.respell r)) := by
  have hfrom : ∀ n scope, lookupFrom (σ.respell r).scopes n scope slot =
      (lookupFrom σ.scopes n scope slot).map (·.mapSlots (Slot.respell r)) := by
    intro n
    induction n with
    | zero => exact fun _ => rfl
    | succ n ih =>
      intro scope
      have hscope : (σ.respell r).scopes[scope]? = (σ.scopes[scope]?).map (·.respell r) := by
        simp [respell]
      rw [lookupFrom, lookupFrom, hscope]
      cases σ.scopes[scope]? with
      | none => rfl
      | some s =>
        simp only [Option.map_some, get?_respell]
        cases s.get? slot with
        | some v => rfl
        | none =>
          have hparent : (s.respell r).parent = s.parent := rfl
          simp only [Option.map_none, hparent]
          cases s.parent with
          | none => rfl
          | some p => exact ih p
  exact hfrom (scope + 1) scope

theorem save_respell (scope slot : Nat) (v : Value) :
    (σ.respell r).save scope slot (v.mapSlots (Slot.respell r)) =
      (σ.save scope slot v).respell r := by
  have hset : ∀ s : Scope, (s.respell r).set slot (v.mapSlots (Slot.respell r)) =
      (s.set slot v).respell r := by
    intro s
    have hslots : ∀ es : List (Nat × Value),
        Scope.setSlot (es.map fun e => (e.1, e.2.mapSlots (Slot.respell r))) slot
          (v.mapSlots (Slot.respell r)) =
          (Scope.setSlot es slot v).map fun e => (e.1, e.2.mapSlots (Slot.respell r)) := by
      intro es
      induction es with
      | nil => rfl
      | cons e es ih =>
        obtain ⟨k, w⟩ := e
        rw [List.map_cons, Scope.setSlot, Scope.setSlot, ih]
        split <;> rfl
    unfold Scope.set Scope.respell
    rw [hslots]
  unfold save respell
  rw [map_modify hset]

theorem newScope_respell (parent : Option Nat) :
    (σ.respell r).newScope parent = ((σ.newScope parent).1, (σ.newScope parent).2.respell r) := by
  simp [newScope, respell, Scope.respell]

theorem newSeededRoot_respell :
    (σ.respell r).newSeededRoot = (σ.newSeededRoot.1, σ.newSeededRoot.2.respell r) := by
  have hseed := Namespace.seed_mapSlots (f := Slot.respell r) builtins (.empty true)
  rw [Namespace.empty_mapSlots] at hseed
  simp [newSeededRoot, newRoot, respell, ← hseed]

end Store

theorem Setting.home_respell (s : Setting) :
    (s.respell r).home = s.home.mapSlots (Slot.respell r) :=
  s.store.root_respell _

theorem Setting.pop_respell {s : Setting} {next next' : Value → List Value → Action}
    (h : ∀ v os, next' (v.mapSlots (Slot.respell r)) (operandsRespell r os) =
      (next v os).respell r) :
    (s.respell r).pop next' = (s.pop next).respell r := by
  unfold pop
  have hos : (s.respell r).operands = operandsRespell r s.operands := rfl
  rw [hos]
  cases s.operands with
  | nil => exact rfl
  | cons v os => exact h v os

theorem Setting.jump_respell (s : Setting) (label : Nat) :
    (s.respell r).jump label = (s.jump label).respell r := by
  have hfrom : (s.respell r).closure.code.from? label =
      (s.closure.code.from? label).map (instrsRespell r) := by
    show (s.closure.code.mapSlots (Slot.respell r)).from? label = _
    unfold Code.from?
    rw [Code.targets_mapSlots, Code.instrs_mapSlots]
    cases s.closure.code.targets[label]? with
    | none => rfl
    | some t => simp [instrsRespell, List.map_drop]
  unfold jump
  rw [hfrom]
  cases s.closure.code.from? label with
  | none => exact rfl
  | some is => rfl

theorem applyFull_respell (v : Value) (os : List Value) :
    applyFull (v.mapSlots (Slot.respell r)) (operandsRespell r os) =
      match applyFull v os with
      | .enter c os => .enter (c.mapSlots (Slot.respell r)) (operandsRespell r os)
      | .build c fields rest => .build c (operandsRespell r fields) (operandsRespell r rest)
      | .compute g args rest => .compute g (operandsRespell r args) (operandsRespell r rest)
      | .fault f => .fault f := by
  match v with
  | .partialCall _ callee args =>
    have happend : valuesMapSlots (Slot.respell r) args ++ operandsRespell r os =
        operandsRespell r (args ++ os) := by
      rw [valuesMapSlots_eq]
      exact (List.map_append ..).symm
    rw [Value.mapSlots, applyFull, applyFull, happend]
    exact applyFull_respell callee (args ++ os)
  | .function c => rfl
  | .constructor c =>
    have htake := takeOperands_mapSlots (f := Slot.respell r) c.arity os
    simp only [Value.mapSlots, applyFull, operandsRespell, htake]
    cases takeOperands c.arity os <;> rfl
  | .native g =>
    have htake := takeOperands_mapSlots (f := Slot.respell r) g.arity os
    simp only [Value.mapSlots, applyFull, operandsRespell, htake]
    cases takeOperands g.arity os <;> rfl
  | .number _ | .text _ | .constant _ => rfl
  | .record c vs =>
    have hd := Value.display_mapSlots (f := Slot.respell r) (.record c vs)
    rw [Value.mapSlots] at hd
    simp only [Value.mapSlots, applyFull, hd]

theorem Setting.test_respell {s : Setting} {shape : Shape} {next next' : List Value → Bool → Action}
    (h : ∀ os fits, next' (operandsRespell r os) fits = (next os fits).respell r) :
    (s.respell r).test shape next' = (s.test shape next).respell r := by
  refine Setting.pop_respell fun v os => ?_
  rw [s.home_respell, Namespace.findType_mapSlots, Shape.accepts_mapSlots]
  cases shape.accepts s.home.findType v with
  | ok fits => exact h os fits
  | error f => rfl

theorem Setting.declare_respell {s : Setting} {σ : Store} {os : List Value} {k : List Instr}
    {x : Except Fault Namespace} :
    (s.respell r).declare (σ.respell r) (operandsRespell r os) (instrsRespell r k)
      (x.map (·.mapSlots (Slot.respell r))) = (s.declare σ os k x).respell r := by
  cases x with
  | error f => rfl
  | ok ns =>
    have hset := σ.setRoot_respell (r := r) s.root ns
    unfold declare Action.respell
    simp only [Except.map, ← hset]
    rfl

theorem Setting.apply_respell (s : Setting) (callee : Value) (os : List Value) (k : List Instr) :
    (s.respell r).apply (callee.mapSlots (Slot.respell r)) (operandsRespell r os)
      (instrsRespell r k) = (s.apply callee os k).respell r := by
  unfold apply
  rw [applyFull_respell]
  cases applyFull callee os with
  | enter c os => rfl
  | build c fields rest =>
    simp only [Action.respell, operandsRespell, List.map_cons, Value.mapSlots, valuesMapSlots_eq]
    rfl
  | compute g args rest =>
    have hconsole : (s.respell r).store.console = s.store.console := rfl
    have hrun := Native.run_mapSlots (f := Slot.respell r) g args s.store.console
    simp only [hconsole, operandsRespell, hrun]
    cases g.run args s.store.console <;> rfl
  | fault f => rfl

theorem Setting.hold_respell (s : Setting) (callee : Value) (argc : Nat) (os : List Value)
    (k : List Instr) :
    (s.respell r).hold (callee.mapSlots (Slot.respell r)) argc (operandsRespell r os)
      (instrsRespell r k) = (s.hold callee argc os k).respell r := by
  unfold hold operandsRespell
  rw [takeOperands_mapSlots]
  cases takeOperands argc os with
  | none => rfl
  | some taken =>
    simp only [Option.map_some, Action.respell, operandsRespell, List.map_cons, Value.mapSlots,
      valuesMapSlots_eq]
    rfl

theorem Setting.call_respell (s : Setting) (argc : Nat) (k : List Instr) :
    (s.respell r).call argc (instrsRespell r k) = (s.call argc k).respell r := by
  refine Setting.pop_respell fun callee os => ?_
  rw [Value.arity?_mapSlots, Value.display_mapSlots]
  cases callee.arity? with
  | none => rfl
  | some arity =>
    simp only
    split
    · exact s.apply_respell callee os k
    · split
      · exact s.hold_respell callee argc os k
      · rfl

/-- An instruction comes to the same, unless it reads a slot that has no value. -/
theorem Op.action_respell (op : Op) (s : Setting) (line : Nat) (k : List Instr)
    (h : ∀ slot, op = .loadLocal slot → s.store.lookup s.scope slot.id ≠ none) :
    (op.mapSlots (Slot.respell r)).action (s.respell r) line (instrsRespell r k) =
      (op.action s line k).respell r := by
  cases op with
  | nothing | fail _ | loadNumber _ | loadText _ | importAll _ | importEntry _ _ | loadFunction _ _ =>
    rfl
  | pop => exact Setting.pop_respell fun _ _ => rfl
  | duplicate => exact Setting.pop_respell fun _ _ => rfl
  | decompose path parts =>
    have hd := fun t => decompose_mapSlots (f := Slot.respell r) t parts s.operands
    simp only [Op.mapSlots, action, s.home_respell, Namespace.findType_mapSlots]
    cases s.home.findType path with
    | error f => rfl
    | ok t =>
      have ht : MatchLang.decompose t parts (s.respell r).operands = _ := hd t
      simp only [ht]
      cases MatchLang.decompose t parts s.operands <;> rfl
  | jump label => exact s.jump_respell label
  | require shape =>
    refine Setting.test_respell fun os fits => ?_
    cases fits <;> rfl
  | jumpIf shape label =>
    refine Setting.test_respell fun os fits => ?_
    cases fits with
    | false => rfl
    | true => exact ({ s with operands := os } : Setting).jump_respell label
  | loadLocal slot =>
    have hl : (s.respell r).store.lookup (s.respell r).scope (slot.respell r).id =
        (s.store.lookup s.scope slot.id).map (·.mapSlots (Slot.respell r)) :=
      s.store.lookup_respell s.scope slot.id
    simp only [Op.mapSlots, action, hl]
    cases hv : s.store.lookup s.scope slot.id with
    | none => exact absurd hv (h slot rfl)
    | some v => rfl
  | loadName path =>
    simp only [Op.mapSlots, action, s.home_respell, Namespace.findValue_mapSlots]
    cases s.home.findValue path <;> rfl
  | saveLocal slot =>
    refine Setting.pop_respell fun v os => ?_
    have hsave := s.store.save_respell (r := r) s.scope slot.id v
    simp only [Action.respell, ← hsave]
    rfl
  | publish name path =>
    refine Setting.pop_respell fun v os => ?_
    have hin : Machine.publishIn ((s.respell r).store.root s.root) path name
        (v.mapSlots (Slot.respell r)) =
        (Machine.publishIn (s.store.root s.root) path name v).map
          (·.mapSlots (Slot.respell r)) := by
      have hroot : (s.respell r).store.root s.root = _ := s.store.root_respell s.root
      unfold Machine.publishIn
      rw [hroot, Namespace.find_mapSlots]
      cases (s.store.root s.root).find path with
      | error f => rfl
      | ok _ =>
        exact congrArg Except.ok (Namespace.updateAt_mapSlots
          (fun ns => ns.setValue_mapSlots name v) path _)
    have hr : (s.respell r).root = s.root := rfl
    rw [hr, hin]
    exact Setting.declare_respell
  | call argc => exact s.call_respell argc k
  | tailCall argc =>
    have harity : (s.respell r).closure.arity = s.closure.arity := rfl
    simp only [Op.mapSlots, action, harity]
    split <;> rfl
  | makeNamespace path isPublic =>
    have hroot : (s.respell r).store.root s.root = _ := s.store.root_respell s.root
    have hmake := Namespace.make_mapSlots (f := Slot.respell r) (s.store.root s.root) path isPublic
    rw [← hroot] at hmake
    simp only [Op.mapSlots, action]
    have hr : (s.respell r).root = s.root := rfl
    rw [hr, hmake]
    exact Setting.declare_respell
  | makeType name path cases =>
    have hin : Machine.defineIn ((s.respell r).store.root s.root) path name
        (numberCases s.store.nextIdentity cases) =
        (Machine.defineIn (s.store.root s.root) path name
          (numberCases s.store.nextIdentity cases)).map (·.mapSlots (Slot.respell r)) := by
      have hroot : (s.respell r).store.root s.root = _ := s.store.root_respell s.root
      unfold Machine.defineIn
      rw [hroot, Namespace.find_mapSlots]
      cases (s.store.root s.root).find path with
      | error f => rfl
      | ok _ =>
        exact congrArg Except.ok (Namespace.updateAt_mapSlots
          (fun ns => ns.addFamily_mapSlots name _) path _)
    have hr : (s.respell r).root = s.root := rfl
    have hid : (s.respell r).store.nextIdentity = s.store.nextIdentity := rfl
    simp only [Op.mapSlots, action, hr, hid, hin]
    exact Setting.declare_respell
      (σ := { s.store with nextIdentity := s.store.nextIdentity + cases.length })

theorem Store.newTask_respell (σ : Store) (module : String) (code : Code) :
    (σ.respell r).newTask module (code.mapSlots (Slot.respell r)) =
      ((σ.newTask module code).1.respell r, (σ.newTask module code).2.respell r) := by
  have hroot := σ.newSeededRoot_respell (r := r)
  have hscope := σ.newSeededRoot.2.newScope_respell (r := r) none
  have hinstrs : (code.mapSlots (Slot.respell r)).instrs = instrsRespell r code.instrs :=
    code.instrs_mapSlots (Slot.respell r)
  have hleft : (σ.respell r).newTask module (code.mapSlots (Slot.respell r)) =
      ({ module
         root := (σ.respell r).newSeededRoot.1
         operands := []
         frames := .single
          { closure := moduleBody module (code.mapSlots (Slot.respell r))
              ((σ.respell r).newSeededRoot.2.newScope none).1 (σ.respell r).newSeededRoot.1
            scope := ((σ.respell r).newSeededRoot.2.newScope none).1
            line := 0
            rest := (code.mapSlots (Slot.respell r)).instrs } },
        ((σ.respell r).newSeededRoot.2.newScope none).2) := rfl
  rw [hleft, hroot, hscope, hinstrs]
  rfl

namespace Machine

variable (m : Machine)

theorem setting_respell : (m.respell r).setting = m.setting.respell r := rfl

theorem resume_respell (σ : Store) (os : List Value) (line : Nat) (is : List Instr) :
    (m.respell r).resume (σ.respell r) (operandsRespell r os) line (instrsRespell r is) =
      (m.resume σ os line is).respell r := rfl

theorem enter_respell (host : Host) (c : Closure) :
    (m.respell r).enter host (c.mapSlots (Slot.respell r)) = (m.enter host c).respell r := by
  have hpush : (m.respell r).pushFrame (c.mapSlots (Slot.respell r)) =
      (m.pushFrame c).respell r := by
    have hscope := m.store.newScope_respell (r := r) (some c.scope)
    have hinstrs : (c.mapSlots (Slot.respell r)).code.instrs = instrsRespell r c.code.instrs :=
      c.code.instrs_mapSlots (Slot.respell r)
    have hleft : (m.respell r).pushFrame (c.mapSlots (Slot.respell r)) =
        { store := ((m.store.respell r).newScope (some c.scope)).2
          task := { m.task.respell r with
            frames := (m.task.respell r).frames.push
              { closure := c.mapSlots (Slot.respell r)
                scope := ((m.store.respell r).newScope (some c.scope)).1
                line := c.line
                rest := (c.mapSlots (Slot.respell r)).code.instrs } }
          waiting := (m.respell r).waiting } := rfl
    rw [hleft, hscope, hinstrs]
    rfl
  have hdepth : (m.respell r).task.frames.depth = m.task.frames.depth := rfl
  unfold enter
  rw [hpush, hdepth]
  cases host.callLimit with
  | none => rfl
  | some limit =>
    simp only
    split <;> rfl

theorem restarted_respell : (m.respell r).restarted = m.restarted.respell r := by
  have hscope := m.store.newScope_respell (r := r) (some m.frame.closure.scope)
  have hinstrs : (m.frame.closure.mapSlots (Slot.respell r)).code.instrs =
      instrsRespell r m.frame.closure.code.instrs :=
    m.frame.closure.code.instrs_mapSlots (Slot.respell r)
  have hsize : (m.store.respell r).scopes.size = m.store.scopes.size := by simp [Store.respell]
  have hleft : (m.respell r).restarted =
      { store := ((m.store.respell r).newScope (some m.frame.closure.scope)).2
        task := { m.task.respell r with
          frames := (m.task.respell r).frames.update fun f =>
            { f with
              scope := (m.store.respell r).scopes.size
              rest := (m.frame.closure.mapSlots (Slot.respell r)).code.instrs } }
        waiting := (m.respell r).waiting } := rfl
  rw [hleft, hscope, hinstrs, hsize]
  rfl

theorem deliver_respell (source : Nat) (d : Delivery) :
    (m.respell r).deliver source d = (m.deliver source d).respell r := by
  cases d with
  | whole =>
    have hroot := m.store.root_respell (r := r) source
    have hupdate := m.store.updateRoot_respell (r := r)
      (fun ns => Namespace.overlay_mapSlots (f := Slot.respell r) (m.store.root source) ns) m.task.root
    have hleft : (m.respell r).deliver source .whole = .running { m.respell r with
        store := (m.store.respell r).updateRoot m.task.root
          ((m.store.respell r).root source).overlay } := rfl
    rw [hleft, hroot, hupdate]
    rfl
  | entry path =>
    have hsource := m.store.root_respell (r := r) source
    have htarget := m.store.root_respell (r := r) m.task.root
    have himport := Namespace.importEntry_mapSlots (f := Slot.respell r) (m.store.root source)
      (m.store.root m.task.root) path
    have hset := m.store.setRoot_respell (r := r) m.task.root
      ((m.store.root source).importEntry (m.store.root m.task.root) path).1
    have hstore : (m.respell r).store = m.store.respell r := rfl
    have htask : (m.respell r).task.root = m.task.root := rfl
    simp only [deliver, hstore, htask, hsource, htarget, himport]
    cases hf : ((m.store.root source).importEntry (m.store.root m.task.root) path).2 with
    | none =>
      simp only [updateStore, hstore, hset]
      rfl
    | some f =>
      simp only [updateStore, hstore, hset]
      rfl

theorem suspend_respell (d : Delivery) (file : String) (code : Code) :
    (m.respell r).suspend d file (code.mapSlots (Slot.respell r)) =
      (m.suspend d file code).respell r := by
  have hleft : (m.respell r).suspend d file (code.mapSlots (Slot.respell r)) =
      { store := ((m.store.respell r).newTask file (code.mapSlots (Slot.respell r))).2
        task := ((m.store.respell r).newTask file (code.mapSlots (Slot.respell r))).1
        waiting := { task := m.task.respell r, delivery := d } :: (m.respell r).waiting } := rfl
  rw [hleft, Store.newTask_respell]
  rfl

theorem finish_respell : (m.respell r).finish = m.finish.respell r := by
  cases hw : m.waiting with
  | nil =>
    have hw' : (m.respell r).waiting = [] := by
      show m.waiting.map _ = []
      rw [hw]
      rfl
    simp only [finish, hw, hw']
    show Transition.finished _ (operandsRespell r m.task.operands).head? = _
    unfold operandsRespell
    rw [List.head?_map]
    rfl
  | cons w ws =>
    have hw' : (m.respell r).waiting = w.respell r :: ws.map (·.respell r) := by
      show m.waiting.map _ = _
      rw [hw]
      rfl
    simp only [finish, hw, hw']
    exact deliver_respell ⟨m.store.remember m.task.module m.task.root, w.task, ws⟩ m.task.root
      w.delivery

end Machine

/-- Two transitions that are the same but for the names of slots: where they raise a fault, either both
read a slot of no value, or the fault is the same. -/
inductive Transition.Alike (r : String → String) : Transition → Transition → Prop where
  | running {m m'} : m.respell r = m'.respell r → Alike r (.running m) (.running m')
  | finished {σ σ'} {v v' : Option Value} : σ.respell r = σ'.respell r →
    v.map (·.mapSlots (Slot.respell r)) = v'.map (·.mapSlots (Slot.respell r)) →
    Alike r (.finished σ v) (.finished σ' v')
  | raised {m m'} (f : Fault) : m.respell r = m'.respell r → Alike r (.raised m f) (.raised m' f)
  | unassigned {m m'} {name name' : String} : m.respell r = m'.respell r → r name = r name' →
    Alike r (.raised m (.unassigned name)) (.raised m' (.unassigned name'))

theorem Transition.Alike.of_respell {t t' : Transition} (h : t.respell r = t'.respell r) :
    t.Alike r t' := by
  cases t <;> cases t' <;> simp only [respell, Transition.running.injEq,
    Transition.finished.injEq, Transition.raised.injEq, reduceCtorEq] at h
  · exact .running h
  · exact .finished h.1 h.2
  · obtain ⟨hm, rfl⟩ := h
    exact .raised _ hm

section

variable {m m' : Machine} {host : Host}

theorem Machine.suspend_alike (h : m.respell r = m'.respell r) (d : Delivery) (file : String)
    (code : Code) : (m.suspend d file code).respell r = (m'.suspend d file code).respell r := by
  rw [← m.suspend_respell, ← m'.suspend_respell, h]

theorem Machine.deliver_alike (h : m.respell r = m'.respell r) (source : Nat) (d : Delivery) :
    (m.deliver source d).respell r = (m'.deliver source d).respell r := by
  rw [← m.deliver_respell, ← m'.deliver_respell, h]

theorem Machine.store_respell_eq (h : m.respell r = m'.respell r) :
    m.store.respell r = m'.store.respell r :=
  congrArg Machine.store h

theorem Machine.module?_alike (h : m.respell r = m'.respell r) (file : String) :
    m.store.module? file = m'.store.module? file := by
  have hmodules := congrArg Store.modules (Machine.store_respell_eq h)
  exact congrArg (Table.get? · file) hmodules

theorem Machine.nextSlot_alike (h : m.respell r = m'.respell r) :
    m.store.nextSlot = m'.store.nextSlot := by
  have hnext := congrArg Store.nextSlot (Machine.store_respell_eq h)
  exact hnext

theorem Machine.withNextSlot_alike (h : m.respell r = m'.respell r) (next : Nat) :
    (m.updateStore fun s => { s with nextSlot := next }).respell r =
      (m'.updateStore fun s => { s with nextSlot := next }).respell r :=
  congrArg (fun n => n.updateStore fun s => { s with nextSlot := next }) h

theorem Machine.loadPrelude_alike (h : m.respell r = m'.respell r) (d : Delivery) :
    (m.loadPrelude d).respell r = (m'.loadPrelude d).respell r := by
  unfold loadPrelude
  generalize preludeSource = source
  rw [← module?_alike h, ← nextSlot_alike h]
  cases m.store.module? preludeName with
  | some root => exact deliver_alike h root d
  | none =>
    cases compileModule preludeName source m.store.nextSlot with
    | error f => simp only [Transition.respell, raise, h]
    | ok c =>
      have hs := suspend_alike (withNextSlot_alike h c.2) d preludeName c.1
      simp only [Transition.respell, hs]

/-- What is loaded is the same code on both sides. -/
theorem Machine.load_alike (h : m.respell r = m'.respell r) (file : String) (d : Delivery) :
    (m.load host file d).respell r = (m'.load host file d).respell r := by
  unfold load
  rw [← module?_alike h, ← nextSlot_alike h]
  cases m.store.module? file with
  | some root => exact deliver_alike h root d
  | none =>
    by_cases hp : file = preludeName
    · simp only [if_pos hp]
      exact loadPrelude_alike h d
    · simp only [if_neg hp]
      cases host.read (joinPath host.appRoot file) with
      | error e => simp only [Transition.respell, raise, h]
      | ok source =>
        simp only
        cases compileModule file source m.store.nextSlot with
        | error f => simp only [Transition.respell, raise, h]
        | ok c =>
          have hs := suspend_alike (withNextSlot_alike h c.2) d file c.1
          cases host.withPrelude with
          | true =>
            simp only [if_true]
            exact loadPrelude_alike hs .whole
          | false => simp only [Transition.respell, hs, Bool.false_eq_true, if_false]

theorem Machine.act_alike {a a' : Action} {line : Nat} {k k' : List Instr}
    (h : m.respell r = m'.respell r) (ha : a.respell r = a'.respell r)
    (hk : instrsRespell r k = instrsRespell r k') :
    (m.act host line k a).respell r = (m'.act host line k' a').respell r := by
  have hresume : ∀ {σ σ' : Store} {os os' : List Value} {is is' : List Instr},
      σ.respell r = σ'.respell r → operandsRespell r os = operandsRespell r os' →
      instrsRespell r is = instrsRespell r is' →
      (m.resume σ os line is).respell r = (m'.resume σ' os' line is').respell r := by
    intro σ σ' os os' is is' hσ ho hi
    rw [← m.resume_respell, ← m'.resume_respell, h, hσ, ho, hi]
  have hstore := Machine.store_respell_eq h
  cases a <;> cases a' <;> simp only [Action.respell, Action.proceed.injEq, Action.enter.injEq,
    Action.load.injEq, Action.fail.injEq, reduceCtorEq] at ha
  · exact congrArg Transition.running (hresume ha.1 ha.2.1 ha.2.2)
  · rename_i c os c' os'
    rw [act, act, ← Machine.enter_respell, ← Machine.enter_respell, hresume hstore ha.2 hk, ha.1]
  · have hos : operandsRespell r m.operands = operandsRespell r m'.operands :=
      congrArg (fun n => n.task.operands) h
    have hall := hresume hstore hos hk
    rw [act, act, Transition.respell, Transition.respell, ← Machine.restarted_respell,
      ← Machine.restarted_respell, hall]
  · have hos : operandsRespell r m.operands = operandsRespell r m'.operands :=
      congrArg (fun n => n.task.operands) h
    rw [act, act, ha.1, ha.2]
    exact load_alike (hresume hstore hos hk) _ _
  · rw [act, act, ha.2.2]
    exact congrArg (Transition.raised · _) (hresume ha.1 ha.2.1 hk)

/-- Only reading a slot becomes reading a slot. -/
theorem Op.mapSlots_eq_loadLocal {f : Slot → Slot} {op : Op} {slot : Slot}
    (h : op.mapSlots f = .loadLocal slot) : ∃ slot', op = .loadLocal slot' ∧ f slot' = slot := by
  cases op with
  | loadLocal slot' => exact ⟨slot', rfl, Op.loadLocal.inj h⟩
  | _ => cases h

/-- Slots that are the same but for their names have values in both stores or in neither. -/
theorem Machine.lookup_alike (h : m.respell r = m'.respell r) {slot slot' : Slot}
    (hs : slot.respell r = slot'.respell r) :
    m.store.lookup m.frame.scope slot.id = none ↔
      m'.store.lookup m'.frame.scope slot'.id = none := by
  have hlookup := congrArg (fun n => n.store.lookup n.frame.scope slot.id) h
  have hid : (slot.respell r).id = (slot'.respell r).id := congrArg Slot.id hs
  have hleft : (m.respell r).store.lookup (m.respell r).frame.scope slot.id = _ :=
    m.store.lookup_respell m.frame.scope slot.id
  have hright : (m'.respell r).store.lookup (m'.respell r).frame.scope slot.id = _ :=
    m'.store.lookup_respell m'.frame.scope slot.id
  have hid : slot.id = slot'.id := hid
  simp only [hleft, hright] at hlookup
  rw [← hid, ← Option.map_eq_none_iff, hlookup, Option.map_eq_none_iff]

theorem Frames.pop?_respell (fs : Frames) : (fs.respell r).pop? = fs.pop?.map (·.respell r) := by
  obtain ⟨f, callers, depth, hd⟩ := fs
  cases callers with
  | nil => rfl
  | cons g gs => rfl

/-- Machines that are the same but for the names of slots take the same step. -/
theorem Machine.step_alike (h : m.respell r = m'.respell r) :
    (m.step host).Alike r (m'.step host) := by
  have hrest : instrsRespell r m.frame.rest = instrsRespell r m'.frame.rest :=
    congrArg (fun n => n.frame.rest) h
  cases hr : m.frame.rest with
  | nil =>
    rw [hr] at hrest
    have hr' : m'.frame.rest = [] := List.map_eq_nil_iff.mp hrest.symm
    have hframes := congrArg (fun n => n.task.frames.pop?) h
    have hpop : m.task.frames.pop?.map (·.respell r) = m'.task.frames.pop?.map (·.respell r) := by
      rw [← Frames.pop?_respell, ← Frames.pop?_respell]
      exact hframes
    unfold step
    rw [hr, hr']
    cases hp : m.task.frames.pop? with
    | none =>
      have hp' : m'.task.frames.pop? = none := by
        rw [hp] at hpop
        exact Option.map_eq_none_iff.mp hpop.symm
      simp only [hp']
      refine .of_respell ?_
      rw [← finish_respell, ← finish_respell, h]
    | some fs =>
      rw [hp, Option.map_some] at hpop
      obtain ⟨fs', hp', hfs⟩ := Option.map_eq_some_iff.mp hpop.symm
      simp only [hp']
      refine .running ?_
      have hwith := congrArg (fun n => n.withFrames (fs.respell r)) h
      show (m.respell r).withFrames (fs.respell r) = (m'.respell r).withFrames (fs'.respell r)
      rw [hfs]
      exact hwith
  | cons i k =>
    obtain ⟨line, op⟩ := i
    rw [hr] at hrest
    obtain ⟨⟨line', op'⟩, k', hr', hi, hk⟩ := List.map_eq_cons_iff.mp hrest.symm
    obtain ⟨rfl, hop⟩ := Instr.mk.inj hi
    have hk : instrsRespell r k = instrsRespell r k' := hk.symm
    rw [step_eq_act hr, step_eq_act hr']
    by_cases hn : ∃ slot, op = .loadLocal slot ∧ m.store.lookup m.frame.scope slot.id = none
    · obtain ⟨slot, rfl, hnone⟩ := hn
      obtain ⟨slot', rfl, hs⟩ := Op.mapSlots_eq_loadLocal hop
      have hnone' := (lookup_alike h hs.symm).mp hnone
      have hfail : ∀ {m : Machine} {slot : Slot} {k : List Instr},
          m.store.lookup m.frame.scope slot.id = none →
          m.act host line' k (Op.action m.setting line' k (.loadLocal slot)) =
            .raised (m.resume m.store m.operands line' k) (.unassigned slot.name) := by
        intro m slot k hl
        have hl' : m.setting.store.lookup m.setting.scope slot.id = none := hl
        simp only [Op.action, hl']
        rfl
      rw [hfail hnone, hfail hnone']
      have hname : (slot'.respell r).name = (slot.respell r).name := congrArg Slot.name hs
      refine .unassigned ?_ hname.symm
      have hstore := Machine.store_respell_eq h
      have hos : operandsRespell r m.operands = operandsRespell r m'.operands :=
        congrArg (fun n => n.task.operands) h
      rw [← m.resume_respell, ← m'.resume_respell, h, hstore, hos, hk]
    · refine .of_respell (act_alike h ?_ hk)
      have hread : ∀ slot, op = .loadLocal slot →
          m.setting.store.lookup m.setting.scope slot.id ≠ none :=
        fun slot he hl => hn ⟨slot, he, hl⟩
      have hread' : ∀ slot', op' = .loadLocal slot' →
          m'.setting.store.lookup m'.setting.scope slot'.id ≠ none := by
        rintro slot' rfl hl
        obtain ⟨slot, rfl, hs⟩ := Op.mapSlots_eq_loadLocal hop.symm
        exact hread slot rfl ((lookup_alike h hs).mpr hl)
      rw [← op.action_respell _ _ _ hread, ← op'.action_respell _ _ _ hread', hop, hk,
        ← setting_respell, ← setting_respell, h]

/-- Runs that end the same but for the names of slots. Where a slot of no value is read, the failures
differ in its name and in nothing else. -/
inductive Ending.Alike (r : String → String) : Ending → Ending → Prop where
  | finished {σ σ'} {v v' : Option Value} : σ.respell r = σ'.respell r →
    v.map (·.mapSlots (Slot.respell r)) = v'.map (·.mapSlots (Slot.respell r)) →
    Alike r (.finished σ v) (.finished σ' v')
  | failed {σ σ'} (f : Failure) : σ.respell r = σ'.respell r → Alike r (.failed σ f) (.failed σ' f)
  | unassigned {σ σ'} {name name' : String} (task : Task) (waiting : List Suspended) :
    σ.respell r = σ'.respell r → r name = r name' →
    Alike r (.failed σ (unwind task (.unassigned name) waiting))
      (.failed σ' (unwind task (.unassigned name') waiting))
  | cut {m m' : Machine} : m.respell r = m'.respell r → Alike r (.cut m) (.cut m')

theorem unwind_respell (task : Task) (f : Fault) (waiting : List Suspended) :
    unwind (task.respell r) f (waiting.map (·.respell r)) = unwind task f waiting := by
  have htrace : ∀ t : Task, (t.respell r).trace = t.trace := by
    intro t
    show ((t.frames.current.respell r) :: t.frames.callers.map _).map Frame.entry = _
    rw [List.map_cons, List.map_map]
    rfl
  induction waiting generalizing task f with
  | nil => rw [List.map_nil, unwind, unwind, htrace]
  | cons w ws ih =>
    rw [List.map_cons, unwind, unwind, htrace]
    exact ih w.task _

theorem Machine.failure_alike {m m' : Machine} (h : m.respell r = m'.respell r) (f : Fault) :
    m'.failure f = unwind m.task f m.waiting := by
  have hunwind := congrArg (fun n => unwind n.task f n.waiting) h
  unfold failure
  rw [← unwind_respell m'.task, ← unwind_respell m.task]
  exact hunwind.symm

theorem Transition.Alike.follow {t t' : Transition} (host : Host) (fuel : Nat) (h : t.Alike r t') :
    (t.follow host fuel).Alike r (t'.follow host fuel) := by
  have hrun : ∀ (fuel : Nat) {m m' : Machine}, m.respell r = m'.respell r →
      (m.run host fuel).Alike r (m'.run host fuel) := by
    intro fuel
    induction fuel with
    | zero => exact fun h => .cut h
    | succ fuel ih =>
      intro m m' h
      have hs : (m.step host).Alike r (m'.step host) := Machine.step_alike h
      rw [Machine.run, Machine.run]
      revert hs
      generalize m.step host = t
      generalize m'.step host = t'
      intro hs
      cases hs with
      | running hm => exact ih hm
      | finished hσ hv => exact .finished hσ hv
      | raised f hm =>
        simp only [Machine.failure_alike hm]
        exact .failed _ (Machine.store_respell_eq hm)
      | unassigned hm hn =>
        simp only [Machine.failure_alike hm]
        exact .unassigned _ _ (Machine.store_respell_eq hm) hn
  cases h with
  | running hm => exact hrun fuel hm
  | finished hσ hv => exact .finished hσ hv
  | raised f hm =>
    rw [Transition.follow, Transition.follow, Machine.failure_alike hm]
    exact .failed _ (Machine.store_respell_eq hm)
  | unassigned hm hn =>
    rw [Transition.follow, Transition.follow, Machine.failure_alike hm]
    exact .unassigned _ _ (Machine.store_respell_eq hm) hn

/-- Code that is the same but for the names of slots begins in the same way. -/
theorem beginCode_alike {code code' : Code}
    (h : code.mapSlots (Slot.respell r) = code'.mapSlots (Slot.respell r)) (σ : Store)
    (withPrelude : Bool) (module : String) :
    (beginCode σ withPrelude module code).Alike r (beginCode σ withPrelude module code') := by
  have hbegin : ∀ code, (⟨(σ.newTask module code).2, (σ.newTask module code).1, []⟩ : Machine).respell r =
      ⟨((σ.respell r).newTask module (code.mapSlots (Slot.respell r))).2,
        ((σ.respell r).newTask module (code.mapSlots (Slot.respell r))).1, []⟩ := by
    intro code
    rw [Store.newTask_respell]
    rfl
  have hm : (⟨(σ.newTask module code).2, (σ.newTask module code).1, []⟩ : Machine).respell r =
      (⟨(σ.newTask module code').2, (σ.newTask module code').1, []⟩ : Machine).respell r := by
    rw [hbegin, hbegin, h]
  cases withPrelude with
  | false => exact .running hm
  | true =>
    have hl := Machine.loadPrelude_alike hm .whole
    unfold beginCode
    simp only [if_true]
    exact .of_respell hl

end

end

end MatchLang
