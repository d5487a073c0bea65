import MatchLang.Proofs.Session.Identity

/-! A task that waits for a module. Whatever is loaded in the meantime, the task stays as it is and so does its
root, until the module has been run and hands over what was asked for. -/

namespace MatchLang

/-- The tasks `ws` and before them `w` wait for what runs the module `file`, or for what that waits for. -/
def Awaits (file : String) (w : Suspended) (ws : List Suspended) : Task → List Suspended → Prop
  | _, [] => False
  | t, v :: vs => (v = w ∧ vs = ws ∧ t.module = file) ∨ Awaits file w ws v.task vs

/-- The task `w` waits for a module, with the tree `ns` in its root. -/
structure Machine.Awaiting (file : String) (w : Suspended) (ws : List Suspended) (ns : Namespace)
    (m : Machine) : Prop where
  tasks : Awaits file w ws m.task m.waiting
  root : m.store.root w.task.root = ns

/-- The task of `m` goes on after an import: its root, which had the tree `ns`, now has what was taken from the
module besides. -/
structure Machine.Receives (file : String) (d : Delivery) (t : Task) (ws : List Suspended)
    (ns : Namespace) (m : Machine) (source : Nat) : Prop where
  task : m.task = t
  waiting : m.waiting = ws
  module : m.store.module? file = some source
  merged : d.merge (m.store.root source) ns = (m.store.root t.root, none)

section

variable {host : Host} {file other : String} {w : Suspended} {ws vs : List Suspended} {t t' : Task}
  {ns : Namespace} {m m' m₀ : Machine} {d : Delivery} {u : Transition} {spaces : List Workspace}

theorem Awaits.mem (h : Awaits file w ws t vs) : w ∈ vs := by
  induction vs generalizing t with
  | nil => exact h.elim
  | cons v vs ih =>
    rcases h with ⟨rfl, _, _⟩ | h
    · exact List.mem_cons_self
    · exact List.mem_cons_of_mem _ (ih h)

theorem Awaits.of_module (h : Awaits file w ws t vs) (hm : t'.module = t.module) :
    Awaits file w ws t' vs := by
  cases vs with
  | nil => exact h
  | cons v vs => exact h.imp (fun ⟨hv, hvs, ht⟩ => ⟨hv, hvs, hm.trans ht⟩) id

theorem Awaits.push (h : Awaits file w ws t vs) : Awaits file w ws t' (⟨t, d⟩ :: vs) :=
  .inr h

/-- The tasks of a session have roots of their own. -/
theorem Moment.Occurs.root_ne (ho : Moment.Occurs (fun _ => True) True ⟨.running m, spaces⟩)
    (hw : w ∈ m.waiting) : w.task.root ≠ m.task.root := by
  have hn := ho.apart.running
  rw [Moment.holding_running, List.map_map] at hn
  have hn : (m.task.root :: m.waiting.map fun v => v.task.root).Nodup := by
    have hm : ∀ ts : List Task, ts.map ((·.2) ∘ Task.owner) = ts.map (·.root) := fun ts => rfl
    have ht : (Transition.tasks (.running m)).map (·.root) =
        m.task.root :: m.waiting.map fun v => v.task.root := by
      show m.task.root :: (m.waiting.map (·.task)).map (·.root) = _
      rw [List.map_map]
      rfl
    rw [← ht, ← hm]
    exact hn
  intro he
  exact (List.nodup_cons.mp hn).1 (he ▸ List.mem_map_of_mem hw)

theorem Moment.Occurs.task_root_lt (ho : Moment.Occurs (fun _ => True) True ⟨.running m, spaces⟩)
    (ht : t ∈ m.tasks) : t.root < m.store.roots.size := by
  have hr := ho.apart.runningIn t.owner (by
    rw [Moment.holding_running]
    exact List.mem_map_of_mem ht)
  rw [Moment.holding_roots] at hr
  exact hr

theorem Moment.Occurs.step (ho : Moment.Occurs (fun _ => True) True ⟨.running m, spaces⟩)
    (hs : m.step host = .running m') : Moment.Occurs (fun _ => True) True ⟨.running m', spaces⟩ :=
  ho.later (.single (hs ▸ .steps trivial))

theorem Moment.Occurs.reaches (ho : Moment.Occurs (fun _ => True) True ⟨.running m, spaces⟩)
    (hw : m.Reaches host m') : Moment.Occurs (fun _ => True) True ⟨.running m', spaces⟩ := by
  obtain ⟨n, hn⟩ := hw
  exact ho.later (.walk trivial hn spaces)

namespace Machine

/-- What is loaded for another task leaves those that wait as they are. -/
theorem Loaded.awaits (hl : m.Loaded host other d (.running m')) (h : Awaits file w ws m.task m.waiting) :
    Awaits file w ws m'.task m'.waiting := by
  generalize ht : Transition.running m' = u at hl
  induction hl with
  | cached _ =>
    rw [deliver_eq] at ht
    generalize (Delivery.merge _ _ _).2 = fault at ht
    cases fault with
    | none =>
      cases ht
      exact h
    | some f => cases ht
  | faults _ => cases ht
  | begins _ _ _ =>
    cases ht
    exact h.push
  | equips _ _ _ _ _ _ ih => exact ih h.push ht

/-- Whatever is done while a task waits, it goes on waiting, or gets what it waits for. -/
theorem Awaiting.step (h : m.Awaiting file w ws ns)
    (ho : Moment.Occurs (fun _ => True) True ⟨.running m, spaces⟩) (hs : m.step host = .running m') :
    m'.Awaiting file w ws ns ∨ ∃ source, m'.Receives file w.delivery w.task ws ns source := by
  have hroot : Awaits file w ws m'.task m'.waiting → m'.store.root w.task.root = ns := by
    intro ha
    have hlt : w.task.root < m.store.roots.size :=
      ho.task_root_lt (List.mem_cons_of_mem _ (List.mem_map_of_mem h.tasks.mem))
    have hne : w.task.root ≠ m'.task.root := (ho.step hs).root_ne ha.mem
    have hkept : (m.step host).store.root w.task.root = m.store.root w.task.root := by
      refine step_root hlt ?_
      rw [hs]
      exact fun he => hne (Option.some.inj he).symm
    rw [hs] at hkept
    exact hkept.trans h.root
  have hsame : m'.waiting = m.waiting → m'.task.module = m.task.module →
      m'.Awaiting file w ws ns := by
    intro hwait hmodule
    have ha : Awaits file w ws m'.task m'.waiting := hwait ▸ h.tasks.of_module hmodule
    exact ⟨ha, hroot ha⟩
  have hst := m.stepped host
  rw [hs] at hst
  generalize ht : Transition.running m' = u at hst
  cases hst with
  | goes _ _ _ | enters _ _ _ | restarts | returns _ _ =>
    cases ht
    exact .inl (hsame rfl rfl)
  | faults _ _ => cases ht
  | @loads line op k other d _ _ =>
    have hl : (m.resume m.store m.operands line k).Loaded host other d _ := load_loaded
    rw [← ht] at hl
    have ha := hl.awaits (h.tasks.of_module rfl)
    exact .inl ⟨ha, hroot ha⟩
  | ends _ _ =>
    have htasks := h.tasks
    cases hw : m.waiting with
    | nil =>
      rw [hw] at htasks
      exact htasks.elim
    | cons v vs =>
      rw [hw] at htasks
      rw [finish_cons hw] at ht
      have hdel : m' = (m.settled v vs).received m.task.root v.delivery := by
        rw [deliver_eq] at ht
        generalize (Delivery.merge _ _ _).2 = fault at ht
        cases fault with
        | none =>
          cases ht
          rfl
        | some f => cases ht
      rcases htasks with ⟨rfl, rfl, hfile⟩ | hrest
      · right
        have hmem : v ∈ m.waiting := hw ▸ List.mem_cons_self
        have hne : m.task.root ≠ v.task.root := (ho.root_ne hmem).symm
        have hlt : v.task.root < m.store.roots.size :=
          ho.task_root_lt (List.mem_cons_of_mem _ (List.mem_map_of_mem hmem))
        have hm : v.delivery.merge (m'.store.root m.task.root) (m.store.root v.task.root) =
            (m'.store.root v.task.root, none) := by
          have hd := deliver_merge (m := m.settled v vs) hlt hne ht.symm
          exact hd
        refine ⟨m.task.root, by rw [hdel]; rfl, by rw [hdel]; rfl, ?_, h.root ▸ hm⟩
        rw [hdel]
        have hset : (m.settled v vs).store.module? file = some m.task.root := by
          rw [settled_module?, if_pos hfile.symm]
        exact hset
      · have ha : Awaits file w ws m'.task m'.waiting := by
          rw [hdel]
          exact hrest
        exact .inl ⟨ha, hroot ha⟩

/-- A run that gets beyond the waiting comes by the place where the task goes on. -/
theorem Awaiting.received (h : m.Awaiting file w ws ns)
    (ho : Moment.Occurs (fun _ => True) True ⟨.running m, spaces⟩) (hw : m.Reaches host m')
    (hn : ¬ Awaits file w ws m'.task m'.waiting) :
    ∃ m₁ source, m.Reaches host m₁ ∧ m₁.Reaches host m' ∧
      m₁.Receives file w.delivery w.task ws ns source := by
  obtain ⟨n, hw⟩ := hw
  induction n generalizing m with
  | zero =>
    cases hw
    exact absurd h.tasks hn
  | succ n ih =>
    cases hs : m.step host with
    | finished τ v => simp [walk, hs] at hw
    | raised m₁ f => simp [walk, hs] at hw
    | running m₁ =>
      simp only [walk, hs] at hw
      rcases h.step ho hs with ha | ⟨source, hr⟩
      · obtain ⟨m₂, source, h₁, h₂, hr⟩ := ih ha (ho.step hs) hw
        exact ⟨m₂, source, .head hs h₁, h₂, hr⟩
      · exact ⟨m₁, source, .of_step hs, ⟨n, hw⟩, hr⟩

/-- A run in which a task loads a module, and that comes back to this task, comes by the place where the task
has received what it has asked for. -/
theorem Loaded.received (hl : m.Loaded host file d (.running m₀))
    (hlt : m.task.root < m.store.roots.size)
    (ho : Moment.Occurs (fun _ => True) True ⟨.running m₀, spaces⟩)
    (hw : m₀.Reaches host m') (hr : m'.task.root = m.task.root) :
    ∃ m₁ source, m₀.Reaches host m₁ ∧ m₁.Reaches host m' ∧
      m₁.Receives file d m.task m.waiting (m.store.root m.task.root) source := by
  have hbegun : Awaits file ⟨m.task, d⟩ m.waiting m₀.task m₀.waiting →
      ∃ m₁ source, m₀.Reaches host m₁ ∧ m₁.Reaches host m' ∧
        m₁.Receives file d m.task m.waiting (m.store.root m.task.root) source := by
    intro ha
    have hne : m.task.root ≠ m₀.task.root := ho.root_ne ha.mem
    have hroot : m₀.store.root m.task.root = m.store.root m.task.root :=
      hl.root hlt fun he => hne (Option.some.inj he).symm
    exact Awaiting.received ⟨ha, hroot⟩ ho hw fun ha' => (ho.reaches hw).root_ne ha'.mem hr.symm
  generalize ht : Transition.running m₀ = u at hl
  cases hl with
  | faults _ => cases ht
  | begins _ _ _ =>
    cases ht
    exact hbegun (.inl ⟨rfl, rfl, rfl⟩)
  | equips _ _ _ _ _ hp =>
    rw [← ht] at hp
    exact hbegun (hp.awaits (.inl ⟨rfl, rfl, rfl⟩))
  | @cached m file d source hf =>
    have hd := ht.symm
    rw [deliver_eq] at ht
    generalize (Delivery.merge _ _ _).2 = fault at ht
    cases fault with
    | some f => cases ht
    | none =>
      cases ht
      have hne : source ≠ m.task.root := by
        intro he
        have hm := ho.apart.modules file source (by rw [Moment.holding_modules]; exact hf)
        refine hm.1 ?_
        rw [Moment.holding_running, List.map_map, he]
        exact List.mem_cons_self
      exact ⟨_, source, .refl _, hw, rfl, rfl, hf, deliver_merge hlt hne hd⟩

end Machine

end

end MatchLang
