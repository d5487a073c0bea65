import MatchLang.Proofs.Machine.Stack
import MatchLang.Proofs.Prelude.Loading

/-! The tasks that wait. Each of them has come to the import that it waits for, in the body of its module and with no
call begun, so a fault of a module comes up again in the module that waits for it, at the line of the import. The one
that waits for the prelude to be there has not begun; but the prelude meets no fault. -/

namespace MatchLang

/-- What a report calls the body of a module. -/
def moduleText (module : String) : String :=
  "<module " ++ module ++ ">"

/-- The last instruction that the frame has come to; what it has left comes after that. -/
def Frame.Behind (f : Frame) (op : Op) : Prop :=
  .mk f.line op :: f.rest <:+ f.closure.code.instrs

/-- A task with no call begun. -/
structure Task.InBody (t : Task) : Prop where
  callers : t.frames.callers = []
  body : t.frames.current.closure.text = moduleText t.module

/-- A task that has come to an import of a file. -/
structure Task.Imports (t : Task) (file : String) (delivery : Delivery) : Prop extends t.InBody where
  behind : ∃ op, op.import? = some (file, delivery) ∧ t.frames.current.Behind op

/-- Every one of some tasks waits at an import of the module that runs before it. The last is of a given module. -/
def Waits (outermost : String) : String → List Suspended → Prop
  | file, [] => file = outermost
  | file, w :: ws => w.task.Imports file w.delivery ∧ Waits outermost w.task.module ws

/-- All tasks wait at their imports, but for one that waits for the prelude at its start. -/
inductive Machine.Posted (outermost : String) (m : Machine) : Prop where
  | imports : Waits outermost m.task.module m.waiting → Posted outermost m
  | equips {w ws} : m.waiting = w :: ws → m.task.module = preludeName → w.delivery = .whole → w.task.InBody →
    Waits outermost w.task.module ws → Posted outermost m

/-- A step meets a fault at a line: in the instruction there, or in what the import there takes from a module that has
come to its end. -/
inductive Machine.FaultsAt (m m' : Machine) (line : Nat) : Prop where
  | instruction {op k} : m.frame.rest = .mk line op :: k → m'.task.module = m.task.module →
    m'.task.frames = m.task.frames.update (·.moved line k) → m'.waiting = m.waiting → FaultsAt m m' line
  | delivery {w} : m.frame.rest = [] → m.task.frames.callers = [] → m.waiting = w :: m'.waiting → m'.task = w.task →
    w.task.Imports m.task.module w.delivery → w.task.frames.current.line = line → FaultsAt m m' line

section

variable {κ : Registry} {host : Host} {m m' : Machine} {t : Transition} {f : Fault} {h : Nat} {spaces : List Workspace}
  {outermost file module : String} {delivery : Delivery} {code : Code} {scope root source next : Nat}

theorem bodyTask_inBody : (bodyTask module code scope root).InBody :=
  ⟨rfl, rfl⟩

namespace Machine

theorem deliver_raised (h : m.deliver source delivery = .raised m' f) :
    m'.task = m.task ∧ m'.waiting = m.waiting ∧ delivery ≠ .whole := by
  rw [deliver_eq] at h
  cases delivery with
  | whole => cases h
  | entry path =>
    generalize (Delivery.merge _ _ _).2 = fault at h
    cases fault with
    | none => cases h
    | some g =>
      cases h
      exact ⟨rfl, rfl, nofun⟩

theorem loadPrelude_raised (h : m.loadPrelude delivery = .raised m' f) :
    m'.task = m.task ∧ m'.waiting = m.waiting ∧ delivery ≠ .whole := by
  cases hm : m.store.module? preludeName with
  | some r =>
    unfold loadPrelude at h
    rw [hm] at h
    exact deliver_raised h
  | none =>
    obtain ⟨ds, next, hc, -⟩ := prelude_compiles m.store.nextSlot
    rw [loadPrelude_eq hm hc] at h
    cases h

/-- There is always a prelude. -/
theorem loadPrelude_running : ∃ m', m.loadPrelude .whole = .running m' := by
  cases hm : m.store.module? preludeName with
  | some r =>
    unfold loadPrelude
    generalize preludeSource = text
    rw [hm]
    exact ⟨_, rfl⟩
  | none =>
    obtain ⟨ds, next, hc, -⟩ := prelude_compiles m.store.nextSlot
    exact ⟨_, loadPrelude_eq hm hc⟩

/-- A module that cannot be loaded leaves the tasks as they are. -/
theorem load_raised (h : m.load host file delivery = .raised m' f) :
    m'.task = m.task ∧ m'.waiting = m.waiting := by
  unfold load at h
  cases hm : m.store.module? file with
  | some r =>
    rw [hm] at h
    obtain ⟨htask, hw, -⟩ := deliver_raised h
    exact ⟨htask, hw⟩
  | none =>
    rw [hm] at h
    simp only at h
    split at h
    · obtain ⟨htask, hw, -⟩ := loadPrelude_raised h
      exact ⟨htask, hw⟩
    · split at h
      · cases h
        exact ⟨rfl, rfl⟩
      · split at h
        · cases h
          exact ⟨rfl, rfl⟩
        · split at h
          · exact absurd rfl (loadPrelude_raised h).2.2
          · cases h

theorem enter_raised {c : Closure} (h : m.enter host c = .raised m' f) : m' = m := by
  unfold enter at h
  split at h
  · split at h
    · cases h
      rfl
    · cases h
  · cases h

theorem Posted.of_task (hp : m.Posted outermost) (ht : m'.task.module = m.task.module)
    (hw : m'.waiting = m.waiting) : m'.Posted outermost := by
  cases hp with
  | imports hwaits => exact .imports (ht ▸ hw ▸ hwaits)
  | equips hws hname hd hb hwaits => exact .equips (hw.trans hws) (ht.trans hname) hd hb hwaits

/-- The prelude is loaded for a task that is about to begin. -/
theorem Loaded.posted_prelude (hl : m.Loaded host preludeName .whole t) (hb : m.task.InBody)
    (hw : Waits outermost m.task.module m.waiting) : ∀ m', t = .running m' → m'.Posted outermost := by
  rintro m' rfl
  generalize hd : Delivery.whole = delivery at hl
  generalize hf : preludeName = file at hl
  generalize ht : Transition.running m' = t at hl
  cases hl with
  | cached _ =>
    obtain ⟨htask, hwait⟩ := deliver_tasks ht.symm
    exact .imports (htask ▸ hwait ▸ hw)
  | faults _ => cases ht
  | begins _ _ _ =>
    cases ht
    exact .equips rfl hf.symm hd.symm hb hw
  | equips _ hne _ _ _ _ => exact absurd hf.symm hne

theorem Loaded.posted (hl : m.Loaded host file delivery t) (hi : m.task.Imports file delivery)
    (hw : Waits outermost m.task.module m.waiting) : ∀ m', t = .running m' → m'.Posted outermost := by
  intro m' ht
  cases hl with
  | cached _ =>
    obtain ⟨htask, hwait⟩ := deliver_tasks ht
    exact .imports (htask ▸ hwait ▸ hw)
  | faults _ => cases ht
  | begins _ _ _ =>
    cases ht
    exact .imports ⟨hi, hw⟩
  | equips _ _ _ _ _ hl => exact hl.posted_prelude bodyTask_inBody ⟨hi, hw⟩ m' ht

/-- The prelude runs to its end without a fault, and begins nothing. -/
theorem Preparing.prelude_step (host : Host) {w : Suspended} {ws : List Suspended} (hprep : m.Preparing spaces)
    (hw : m.waiting = w :: ws) (hname : m.task.module = preludeName) (hd : w.delivery = .whole) :
    ∃ m', m.step host = .running m' ∧ (m'.task.module = m.task.module ∧ m'.waiting = m.waiting ∨
      m'.task = w.task ∧ m'.waiting = ws) := by
  obtain ⟨n, ds, hdef, -⟩ := hprep.running (hw ▸ List.cons_ne_nil w ws) hname
  rcases hdef.step host with ⟨hr, -⟩ | ⟨-, τ, os, line, is, hs, -⟩
  · refine ⟨(m.settled w ws).received m.task.root .whole, ?_, .inr ⟨rfl, rfl⟩⟩
    rw [step_nil hr hdef.callers, finish_cons hw, hd, deliver_eq]
    rfl
  · exact ⟨_, hs, .inl ⟨rfl, rfl⟩⟩

/-- A task comes to an import in the body of its module. -/
theorem task_imports {line : Nat} {op : Op} {k : List Instr} (hok : m.Ok κ h) (hin : m.frame.InCode)
    (hb : m.task.frames.callers = [] → m.frame.closure.text = moduleText m.task.module)
    (hr : m.frame.rest = .mk line op :: k) (hi : op.import? = some (file, delivery)) :
    (m.resume m.store m.operands line k).task.Imports file delivery := by
  obtain ⟨_, ht, -⟩ := hok.tasks.running
  have hcallers : m.task.frames.callers = [] := ht.callers_nil hr (Op.touchesRoot_import hi)
  refine ⟨⟨hcallers, hb hcallers⟩, op, hi, ?_⟩
  rw [Frame.InCode, hr] at hin
  exact hin

theorem Posted.step (hp : m.Posted outermost) (hok : m.Ok κ h) (hprep : m.Preparing spaces) (hin : m.frame.InCode)
    (hb : m.task.frames.callers = [] → m.frame.closure.text = moduleText m.task.module)
    (hs : m.step host = .running m') : m'.Posted outermost := by
  cases hp with
  | equips hw hname hd hbody hwaits =>
    obtain ⟨m₁, hs₁, ⟨ht, hwait⟩ | ⟨ht, hwait⟩⟩ := hprep.prelude_step host hw hname hd
    · rw [hs] at hs₁
      cases hs₁
      exact .equips (hwait.trans hw) (ht.trans hname) hd hbody hwaits
    · rw [hs] at hs₁
      cases hs₁
      exact .imports (ht ▸ hwait ▸ hwaits)
  | imports hwaits =>
    have hst := m.stepped host
    rw [hs] at hst
    generalize ht : Transition.running m' = t at hst
    cases hst with
    | goes _ _ _ | enters _ _ _ | restarts _ | returns _ _ =>
      cases ht
      exact .imports hwaits
    | faults _ _ => cases ht
    | @loads line op k file delivery hr hi =>
      have hl : (m.resume m.store m.operands line k).Loaded host file delivery _ := load_loaded
      exact hl.posted (task_imports hok hin hb hr hi) hwaits m' ht.symm
    | ends _ _ =>
      cases hw : m.waiting with
      | nil =>
        rw [finish, hw] at ht
        cases ht
      | cons w ws =>
        rw [finish_cons hw] at ht
        obtain ⟨htask, hwait⟩ := deliver_tasks ht.symm
        rw [hw] at hwaits
        exact .imports (htask ▸ hwait ▸ hwaits.2)

/-- Where a fault comes up all tasks wait at their imports. -/
theorem Posted.raised (hp : m.Posted outermost) (hprep : m.Preparing spaces) (hs : m.step host = .raised m' f) :
    (∃ line, m.FaultsAt m' line) ∧ Waits outermost m'.task.module m'.waiting := by
  cases hp with
  | equips hw hname hd _ _ =>
    obtain ⟨m₁, hs₁, -⟩ := hprep.prelude_step host hw hname hd
    rw [hs] at hs₁
    cases hs₁
  | imports hwaits =>
    cases hr : m.frame.rest with
    | nil =>
      cases hc : m.task.frames.callers with
      | cons g gs =>
        obtain ⟨frames, hp, -⟩ := Frames.pop?_cons (f := m.frame) (congrArg (m.frame :: ·) hc)
        rw [step_pop hr hp] at hs
        cases hs
      | nil =>
        rw [step_nil hr hc] at hs
        cases hw : m.waiting with
        | nil =>
          rw [finish, hw] at hs
          cases hs
        | cons w ws =>
          rw [finish_cons hw] at hs
          rw [hw] at hwaits
          obtain ⟨himports, hwaits⟩ := hwaits
          obtain ⟨htask, hwait, -⟩ := deliver_raised hs
          have hwait : m'.waiting = ws := hwait
          have htask : m'.task = w.task := htask
          rw [htask, hwait]
          exact ⟨⟨_, .delivery hr hc (hwait ▸ hw) htask himports rfl⟩, hwaits⟩
    | cons i k =>
      obtain ⟨line, op⟩ := i
      have hat : ∀ {σ os}, m'.task = (m.resume σ os line k).task → m'.waiting = m.waiting →
          (∃ line, m.FaultsAt m' line) ∧ Waits outermost m'.task.module m'.waiting := by
        intro σ os ht hw
        exact ⟨⟨line, .instruction hr (congrArg (·.module) ht) (congrArg (·.frames) ht) hw⟩,
          (congrArg (·.module) ht) ▸ hw ▸ hwaits⟩
      rw [step_eq_act hr] at hs
      cases ha : op.action m.setting line k with
      | proceed σ os is =>
        rw [ha] at hs
        cases hs
      | enter c os =>
        rw [ha] at hs
        have he : m' = m.resume m.store os line k := enter_raised hs
        exact hat (congrArg (·.task) he) (congrArg (·.waiting) he)
      | restart =>
        rw [ha] at hs
        cases hs
      | load file delivery =>
        rw [ha] at hs
        obtain ⟨ht, hw⟩ := load_raised hs
        exact hat ht hw
      | fail σ os f =>
        rw [ha] at hs
        cases hs
        exact hat rfl rfl

end Machine

end

end MatchLang
