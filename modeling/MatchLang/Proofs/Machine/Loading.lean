import MatchLang.Proofs.Machine.Inversion
import MatchLang.Proofs.Machine.Nesting

/-! No module is loaded that is being loaded already or has been before. As long as imports are without circles
this holds in every step, so that a module, once it is there, is never run again nor replaced. -/

namespace MatchLang

/-- All tasks but the last load modules that are not there yet. -/
def Machine.Nested (host : Host) (m : Machine) : Prop :=
  Nest host m.store.modules m.tasks

/-- The task `w` goes on after the running one, whose module is remembered. -/
def Machine.settled (m : Machine) (w : Suspended) (ws : List Suspended) : Machine :=
  { store := m.store.remember m.task.module m.task.root, task := w.task, waiting := ws }

def Transition.Nested (host : Host) : Transition → Prop
  | .running m => m.Nested host
  | .finished _ _ => True
  | .raised m _ => ∀ t ∈ m.tasks.dropLast, m.store.module? t.module = none

section

variable {κ : Registry} {host : Host} {m m' : Machine} {t : Transition} {h source root : Nat}
  {file : String} {delivery : Delivery} {w : Suspended} {ws : List Suspended}

namespace Machine

theorem finish_cons (hw : m.waiting = w :: ws) :
    m.finish = (m.settled w ws).deliver m.task.root w.delivery := by
  unfold finish
  rw [hw]
  rfl

theorem Nested.uncached (hm : m.Nested host) :
    ∀ t ∈ m.tasks.dropLast, m.store.module? t.module = none :=
  Nest.uncached hm

theorem Nested.of_task (hm : m.Nested host) (hn : m'.task.module = m.task.module)
    (hf : ∀ c, m.task.frames.Runs c → m'.task.frames.Runs c) (hw : m'.waiting = m.waiting)
    (hσ : m'.store.modules = m.store.modules) : m'.Nested host := by
  have hhead : Nest host m.store.modules (m'.task :: m.waiting.map (·.task)) := hm.of_head hn hf
  unfold Nested tasks
  rw [hw, hσ]
  exact hhead

theorem Nested.orRaise {fault : Option Fault} (hm : m.Nested host) : (m.orRaise fault).Nested host := by
  cases fault with
  | none => exact hm
  | some f => exact hm.uncached

theorem Nested.deliver (hm : m.Nested host) : (m.deliver source delivery).Nested host := by
  rw [deliver_eq]
  have hr : (m.received source delivery).Nested host := hm.of_task rfl (fun _ h => h) rfl rfl
  exact hr.orRaise

theorem deliver_modules : (m.deliver source delivery).store.modules = m.store.modules := by
  rw [deliver_eq]
  generalize (delivery.merge _ _).2 = fault
  cases fault <;> rfl

theorem Loaded.modules (hl : m.Loaded host file delivery t) :
    t.store.modules = m.store.modules := by
  induction hl with
  | cached _ => exact deliver_modules
  | faults _ => rfl
  | begins _ _ _ => rfl
  | equips _ _ _ _ _ _ ih => exact ih

theorem Nested.settled (ha : host.Acyclic) (hm : m.Nested host) (hw : m.waiting = w :: ws) :
    (m.settled w ws).Nested host := by
  unfold Nested tasks at hm
  rw [hw] at hm
  exact Nest.finish ha hm

theorem settled_module? : (m.settled w ws).store.module? file =
    if file = m.task.module then some m.task.root else m.store.module? file :=
  Table.get?_set ..

theorem Nested.await {text : String} {n next : Nat} {code : Code} (hm : m.Nested host)
    (hn : m.waiting ≠ [] → host.Needs m.task.module file) (hs : host.Supplies file text)
    (hu : m.store.module? file = none) (hc : compileModule file text n = .ok (code, next)) :
    (m.await delivery file code next).Nested host := by
  obtain ⟨p, hp, hcode⟩ := compileModule_eq_ok hc
  have hwait : m.waiting.map (·.task) ≠ [] → m.waiting ≠ [] :=
    fun hne he => hne (he ▸ rfl)
  exact ⟨⟨text, p, n, next, code, hs, hp, hcode, bodyTask_runs⟩, hu, fun hne => hn (hwait hne), hm⟩

theorem Nested.loaded (hm : m.Nested host) (hl : m.Loaded host file delivery t)
    (hn : m.waiting ≠ [] → host.Needs m.task.module file) : t.Nested host := by
  induction hl with
  | cached _ => exact hm.deliver
  | faults _ => exact hm.uncached
  | begins hu hs hc => exact hm.await hn hs hu hc
  | equips hu hne hp hs hc _ ih =>
    exact ih (hm.await hn hs hu hc) fun _ => .inr ⟨hne, hp, rfl⟩

theorem Nested.step (ha : host.Acyclic) (hok : m.Ok κ h) (hm : m.Nested host) :
    (m.step host).Nested host := by
  have hnext : ∀ {line op k}, m.frame.rest = .mk line op :: k → k ⊆ m.frame.rest := by
    intro line op k hr
    rw [hr]
    exact List.subset_cons_self _ _
  have hmove : ∀ {c line is}, m.task.frames.Runs c →
      is ⊆ m.frame.rest ∨ is ⊆ m.frame.closure.code.instrs →
      (m.task.frames.update fun f => { f with line, rest := is }).Runs c :=
    fun hc his => hc.update rfl his
  have hstep := m.stepped host
  generalize m.step host = t at hstep
  cases hstep with
  | @goes σ os line op k is hr hw hf =>
    have his : is ⊆ m.frame.rest ∨ is ⊆ m.frame.closure.code.instrs := by
      rcases hf with rfl | ⟨label, hl⟩
      · exact .inl (hnext hr)
      · obtain ⟨i, -, rfl⟩ := Option.map_eq_some_iff.mp hl
        exact .inr (List.drop_subset _ _)
    have hm' : (m.resume σ os line is).Nested host :=
      hm.of_task rfl (fun c hc => hmove hc his) rfl hw.1
    exact hm'
  | @enters line op k c os hr _ _ =>
    have hm' : ((m.resume m.store os line k).pushFrame c).Nested host :=
      hm.of_task rfl (fun c hc => (hmove hc (.inl (hnext hr))).push) rfl rfl
    exact hm'
  | @restarts line _ k _ =>
    let again (f : Frame) : Frame :=
      { f with scope := m.store.scopes.size, line, rest := m.frame.closure.code.instrs }
    have hagain : ∀ c, m.task.frames.Runs c → (m.task.frames.update again).Runs c :=
      fun c hc => hc.update rfl (.inr (List.Subset.refl _))
    have hm' : (m.resume m.store m.operands line k).restarted.Nested host :=
      hm.of_task rfl hagain rfl rfl
    exact hm'
  | @loads line op k file delivery hr hi =>
    have hm' : (m.resume m.store m.operands line k).Nested host :=
      hm.of_task rfl (fun c hc => hmove hc (.inl (hnext hr))) rfl rfl
    refine hm'.loaded load_loaded fun hw => ?_
    -- The task runs the text of its module, in which the import stands.
    obtain ⟨_, ht, -⟩ := hok.tasks.running
    obtain ⟨w, ws, hws⟩ := List.exists_cons_of_ne_nil hw
    have hws : m.waiting = w :: ws := hws
    unfold Nested tasks at hm
    rw [hws] at hm
    exact hm.1.needs ht hr hi
  | @faults σ os line k f hσ _ =>
    have hu := hm.uncached
    show ∀ t ∈ (m.resume σ os line k).tasks.dropLast, Table.get? σ.modules t.module = none
    rw [hσ]
    unfold tasks at hu ⊢
    cases hw : m.waiting with
    | nil =>
      rw [resume_waiting, hw]
      exact nofun
    | cons w ws =>
      rw [resume_waiting, hw]
      rw [hw] at hu
      obtain ⟨ht, hws⟩ := List.forall_mem_cons.mp hu
      exact List.forall_mem_cons.mpr ⟨ht, hws⟩
  | @returns frames _ hp =>
    have hm' : (m.withFrames frames).Nested host := hm.of_task rfl (fun c hc => hc.pop hp) rfl rfl
    exact hm'
  | ends _ _ =>
    cases hw : m.waiting with
    | nil =>
      unfold finish
      rw [hw]
      trivial
    | cons w ws =>
      rw [finish_cons hw]
      exact (hm.settled ha hw).deliver

theorem Nested.step_module? (hm : m.Nested host) (hf : m.store.module? file = some root) :
    (m.step host).store.module? file = some root := by
  have hstep := m.stepped host
  generalize m.step host = t at hstep
  have hsame : ∀ {σ : Store}, σ.modules = m.store.modules → σ.module? file = some root := by
    intro σ hσ
    show Table.get? σ.modules file = some root
    rw [hσ]
    exact hf
  cases hstep with
  | goes _ hw _ => exact hsame hw.1
  | enters _ _ _ | restarts | returns _ _ => exact hf
  | @loads line op k file delivery _ _ =>
    have hl : (m.resume m.store m.operands line k).Loaded host file delivery _ := load_loaded
    exact hsame hl.modules
  | faults hσ _ => exact hsame hσ
  | ends _ _ =>
    cases hw : m.waiting with
    | nil =>
      unfold finish
      rw [hw]
      exact hf
    | cons w ws =>
      have hu := hm.uncached
      unfold tasks at hu
      rw [hw] at hu
      -- What is remembered now has not been there before, so it is another module.
      have hne : file ≠ m.task.module := by
        rintro rfl
        rw [(List.forall_mem_cons.mp hu).1] at hf
        cases hf
      have hset : (m.settled w ws).store.module? file = some root := by
        rw [settled_module?, if_neg hne]
        exact hf
      rw [finish_cons hw, Store.module?, deliver_modules]
      exact hset

end Machine

end

end MatchLang
