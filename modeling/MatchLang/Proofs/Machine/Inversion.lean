import MatchLang.Proofs.Machine.Action
import MatchLang.Proofs.Machine.Preservation

/-! What a step of a machine can do, seen from its tasks and the roots. A step goes on in the running frame,
begins or leaves a frame, loads a module, or ends the running task; of the roots it changes that of the
running module at most, by a declaration or by what an import hands over. -/

namespace MatchLang

/-- The running task and those that wait, innermost first. -/
def Machine.tasks (m : Machine) : List Task :=
  m.task :: m.waiting.map (·.task)

/-- What an import makes of the root of the importer. -/
def Delivery.merge (source target : Namespace) : Delivery → Namespace × Option Fault
  | .whole => (source.overlay target, none)
  | .entry path => source.importEntry target path

/-- The roots and the modules after an instruction that is not an import. -/
def Setting.Writes (s : Setting) (σ : Store) : Prop :=
  σ.modules = s.store.modules ∧
    (σ.roots = s.store.roots ∨
      ∃ ns, (s.store.root s.root).Declares ns ∧ σ.roots = (s.store.setRoot s.root ns).roots)

/-- An action that is not an import writes to the root of its module at most, and only if it goes on. -/
def Action.Writes (s : Setting) (k : List Instr) : Action → Prop
  | .proceed σ _ is => s.Writes σ ∧ s.Follows k is
  | .enter _ _ => True
  | .restart => True
  | .load _ _ => False
  | .fail σ _ _ => σ.modules = s.store.modules ∧ σ.roots = s.store.roots

section

variable {s : Setting} {line : Nat} {k : List Instr} {op : Op}

theorem Setting.Changes.writes {saved : Option Nat} {σ : Store} (h : s.Changes saved σ) : s.Writes σ := by
  cases h with
  | counts n | computes hr | saves v hs => exact ⟨rfl, .inl rfl⟩
  | declares n hd => exact ⟨rfl, .inr ⟨_, hd, rfl⟩⟩

theorem Op.action_writes (h : op.import? = none) : (op.action s line k).Writes s k := by
  have ho : op.Outcome s k (op.action s line k) := op.action_outcome s line k
  generalize op.action s line k = a at ho ⊢
  cases ho with
  | proceeds hc hf => exact ⟨hc.writes, hf⟩
  | enters _ | restarts _ _ => trivial
  | loads hi =>
    rw [hi] at h
    cases h
  | fails n => exact ⟨rfl, rfl⟩

theorem Op.action_import {file : String} {delivery : Delivery} (h : op.import? = some (file, delivery)) :
    op.action s line k = .load file delivery := by
  cases op with
  | importAll f | importEntry f path =>
    cases h
    rfl
  | _ => cases h

end

/-- What a step comes to. -/
inductive Machine.Stepped (host : Host) (m : Machine) : Transition → Prop where
  | goes {σ os line op k is} : m.frame.rest = .mk line op :: k → m.setting.Writes σ →
    m.setting.Follows k is → Stepped host m (.running (m.resume σ os line is))
  | enters {line op k c os} : m.frame.rest = .mk line op :: k →
    op.action m.setting line k = .enter c os →
    (∀ limit, host.callLimit = some limit → m.task.frames.depth < limit) →
    Stepped host m (.running ((m.resume m.store os line k).pushFrame c))
  | restarts {line argc k} : m.frame.rest = .mk line (.tailCall argc) :: k →
    Stepped host m (.running (m.resume m.store m.operands line k).restarted)
  | loads {line op k file delivery} : m.frame.rest = .mk line op :: k →
    op.import? = some (file, delivery) →
    Stepped host m ((m.resume m.store m.operands line k).load host file delivery)
  | faults {σ os line k f} : σ.modules = m.store.modules → σ.roots = m.store.roots →
    Stepped host m (.raised (m.resume σ os line k) f)
  | returns {frames} : m.frame.rest = [] → m.task.frames.pop? = some frames →
    Stepped host m (.running (m.withFrames frames))
  | ends : m.frame.rest = [] → m.task.frames.callers = [] → Stepped host m m.finish

section

variable {host : Host} {m : Machine} {line : Nat} {k : List Instr}

theorem Machine.enter_eq_running {m' : Machine} {c : Closure} (h : m.enter host c = .running m') :
    m' = m.pushFrame c ∧ ∀ limit, host.callLimit = some limit → m.task.frames.depth < limit := by
  unfold Machine.enter at h
  cases hl : host.callLimit with
  | none =>
    rw [hl] at h
    cases h
    exact ⟨rfl, nofun⟩
  | some limit =>
    rw [hl] at h
    simp only at h
    split at h
    · cases h
    · rename_i hd
      cases h
      refine ⟨rfl, fun l hs => ?_⟩
      cases hs
      omega

theorem Machine.stepped (host : Host) (m : Machine) : m.Stepped host (m.step host) := by
  cases hr : m.frame.rest with
  | nil =>
    cases hc : m.task.frames.callers with
    | nil =>
      rw [step_nil hr hc]
      exact .ends hr hc
    | cons g gs =>
      obtain ⟨frames, hp, -⟩ := Frames.pop?_cons (f := m.frame) (congrArg (m.frame :: ·) hc)
      rw [step_pop hr hp]
      exact .returns hr hp
  | cons i k =>
    obtain ⟨line, op⟩ := i
    rw [step_eq_act hr]
    cases hi : op.import? with
    | some r =>
      obtain ⟨file, delivery⟩ := r
      rw [Op.action_import hi]
      exact .loads hr hi
    | none =>
      have hw : (op.action m.setting line k).Writes m.setting k := Op.action_writes hi
      cases ha : op.action m.setting line k with
      | proceed σ os is =>
        rw [ha] at hw
        exact .goes hr hw.1 hw.2
      | enter c os =>
        show m.Stepped host ((m.resume m.store os line k).enter host c)
        cases he : (m.resume m.store os line k).enter host c with
        | running m' =>
          obtain ⟨rfl, hd⟩ := enter_eq_running he
          exact .enters hr ha hd
        | finished σ v =>
          unfold Machine.enter at he
          split at he <;> (try split at he) <;> cases he
        | raised m' f =>
          unfold Machine.enter at he
          split at he
          · split at he
            · cases he
              exact .faults rfl rfl
            · cases he
          · cases he
      | restart =>
        have ho : op.Outcome m.setting k (op.action m.setting line k) := op.action_outcome m.setting line k
        rw [ha] at ho
        cases ho with
        | restarts he _ => exact .restarts (he ▸ hr)
      | load file delivery =>
        rw [ha] at hw
        exact hw.elim
      | fail σ os f =>
        rw [ha] at hw
        exact .faults hw.1 hw.2

end

/-- The machine with what an import hands over in the root of its module. -/
def Machine.received (m : Machine) (source : Nat) (delivery : Delivery) : Machine :=
  m.updateStore (·.setRoot m.task.root
    (delivery.merge (m.store.root source) (m.store.root m.task.root)).1)

/-- A machine that goes on unless there is a fault. -/
def Machine.orRaise (m : Machine) : Option Fault → Transition
  | none => .running m
  | some f => .raised m f

/-- The running task waits for a module whose code ends with the given slot. -/
def Machine.await (m : Machine) (delivery : Delivery) (file : String) (code : Code) (next : Nat) :
    Machine :=
  (m.updateStore fun s => { s with nextSlot := next }).suspend delivery file code

/-- The text of a module, be it from memory or from a file. -/
def Host.Supplies (host : Host) (file source : String) : Prop :=
  if file = preludeName then source = preludeSource
  else host.read (joinPath host.appRoot file) = .ok source

/-- What becomes of an import. A module that is not there yet is begun, and with it the prelude, if its
names come with it. -/
inductive Machine.Loaded (host : Host) : Machine → String → Delivery → Transition → Prop where
  | cached {m file delivery root} : m.store.module? file = some root →
    Loaded host m file delivery (m.deliver root delivery)
  | faults {m file delivery f} : m.store.module? file = none →
    Loaded host m file delivery (.raised m f)
  | begins {m file delivery source code next} : m.store.module? file = none →
    host.Supplies file source →
    compileModule file source m.store.nextSlot = .ok (code, next) →
    Loaded host m file delivery (.running (m.await delivery file code next))
  | equips {m file delivery source code next t} : m.store.module? file = none →
    file ≠ preludeName → host.withPrelude = true → host.Supplies file source →
    compileModule file source m.store.nextSlot = .ok (code, next) →
    Loaded host (m.await delivery file code next) preludeName .whole t →
    Loaded host m file delivery t

section

variable {host : Host} {m : Machine} {source : Nat} {delivery : Delivery} {file : String}

theorem Store.updateRoot_eq_setRoot {σ : Store} {r : Nat} {change : Namespace → Namespace} :
    σ.updateRoot r change = σ.setRoot r (change (σ.root r)) := by
  have ha : σ.roots.modify r change = σ.roots.modify r fun _ => change (σ.root r) := by
    refine Array.ext_getElem? fun i => ?_
    rw [Array.getElem?_modify, Array.getElem?_modify]
    by_cases hi : r = i
    · subst hi
      cases hr : σ.roots[r]? with
      | none => rfl
      | some ns => simp [Store.root, hr]
    · rw [if_neg hi, if_neg hi]
  show { σ with roots := _ } = { σ with roots := _ }
  rw [ha]

theorem Machine.deliver_eq :
    m.deliver source delivery = (m.received source delivery).orRaise
      (delivery.merge (m.store.root source) (m.store.root m.task.root)).2 := by
  cases delivery with
  | whole =>
    show Transition.running (m.updateStore _) = .running (m.updateStore _)
    exact congrArg (fun σ => Transition.running { m with store := σ }) Store.updateRoot_eq_setRoot
  | entry path =>
    simp only [deliver, received, Delivery.merge]
    cases (m.store.root source).importEntry (m.store.root m.task.root) path with
    | mk ns fault => cases fault <;> rfl

theorem Machine.orRaise_store {fault : Option Fault} : (m.orRaise fault).store = m.store := by
  cases fault <;> rfl

theorem Host.supplies_prelude : host.Supplies preludeName preludeSource := by
  unfold Supplies
  rw [if_pos rfl]

theorem Machine.loadPrelude_loaded : m.Loaded host preludeName delivery (m.loadPrelude delivery) := by
  have hs : host.Supplies preludeName preludeSource := Host.supplies_prelude
  revert hs
  unfold loadPrelude
  generalize preludeSource = source
  intro hs
  cases hm : m.store.module? preludeName with
  | some root => exact .cached hm
  | none =>
    cases hc : compileModule preludeName source m.store.nextSlot with
    | error f => exact .faults hm
    | ok r => exact .begins hm hs hc

theorem Machine.load_loaded : m.Loaded host file delivery (m.load host file delivery) := by
  unfold load
  cases hm : m.store.module? file with
  | some root => exact .cached hm
  | none =>
    simp only
    split
    · rename_i he
      subst he
      exact loadPrelude_loaded
    · rename_i hne
      cases hread : host.read (joinPath host.appRoot file) with
      | error e => exact .faults hm
      | ok source =>
        have hs : host.Supplies file source := (if_neg hne).mpr hread
        simp only
        cases hc : compileModule file source m.store.nextSlot with
        | error f => exact .faults hm
        | ok r =>
          obtain ⟨code, next⟩ := r
          simp only
          split
          · rename_i hp
            exact .equips hm hne hp hs hc loadPrelude_loaded
          · exact .begins hm hs hc

end

end MatchLang
