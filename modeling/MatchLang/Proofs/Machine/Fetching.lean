import MatchLang.Proofs.Machine.Loading
import MatchLang.Session

/-! A file that is loaded from outside, by a task that has nothing else to do. The load ends with the module in
memory, or with a fault and without it. -/

namespace MatchLang

/-- A task with nothing left to do. -/
structure Task.AtEnd (t : Task) : Prop where
  rest : t.frames.current.rest = []
  callers : t.frames.callers = []

/-- The last of some tasks is at its end, and the one before it loads a file for it. -/
def Fetches (file : String) : Task → List Suspended → Prop
  | t, [] => t.AtEnd
  | t, [w] => t.module = file ∧ w.delivery = .whole ∧ w.task.AtEnd
  | _, w :: v :: ws => Fetches file w.task (v :: ws)

/-- A machine that loads a file for a task at its end, or has done so. -/
structure Machine.Fetching (file : String) (m : Machine) : Prop where
  tasks : Fetches file m.task m.waiting
  done : m.waiting = [] → m.store.module? file ≠ none

def Transition.Fetching (file : String) : Transition → Prop
  | .running m => m.Fetching file
  | .finished σ _ => σ.module? file ≠ none
  | .raised m _ => m.store.module? file = none

def Ending.Fetched (file : String) : Ending → Prop
  | .finished σ _ => σ.module? file ≠ none
  | .failed σ _ => σ.module? file = none
  | .cut _ => True

section

variable {κ : Registry} {host : Host} {m m' : Machine} {t t' : Task} {u : Transition} {h source : Nat}
  {σ : Store} {file other : String} {delivery : Delivery} {w : Suspended} {ws : List Suspended}

theorem Fetches.exists_task (hf : Fetches file t ws) (hw : ws ≠ []) :
    ∃ u ∈ (t :: ws.map (·.task)).dropLast, u.module = file := by
  induction ws generalizing t with
  | nil => exact absurd rfl hw
  | cons w ws ih =>
    cases ws with
    | nil => exact ⟨t, List.mem_cons_self, hf.1⟩
    | cons v ws =>
      obtain ⟨u, hu, he⟩ := ih hf (List.cons_ne_nil v ws)
      exact ⟨u, List.mem_cons_of_mem _ hu, he⟩

theorem Fetches.of_module (hf : Fetches file t ws) (hw : ws ≠ []) (hm : t'.module = t.module) :
    Fetches file t' ws := by
  cases ws with
  | nil => exact absurd rfl hw
  | cons w ws =>
    cases ws with
    | nil => exact ⟨hm.trans hf.1, hf.2⟩
    | cons v ws => exact hf

theorem Fetches.cons (hf : Fetches file t ws) (hw : ws ≠ []) : Fetches file t' (⟨t, delivery⟩ :: ws) := by
  cases ws with
  | nil => exact absurd rfl hw
  | cons v ws => exact hf

namespace Machine

theorem Fetching.uncached (hf : m.Fetching file) (hw : m.waiting ≠ []) (hn : m.Nested host) :
    m.store.module? file = none := by
  obtain ⟨t, ht, rfl⟩ := hf.tasks.exists_task hw
  exact hn.uncached t ht

theorem Fetching.of_task (hf : m.Fetching file) (hw : m.waiting ≠ []) (he : m'.waiting = m.waiting)
    (hm : m'.task.module = m.task.module) : m'.Fetching file where
  tasks := he ▸ hf.tasks.of_module hw hm
  done hnil := absurd (he ▸ hnil) hw

theorem Fetching.deliver (hf : m.Fetching file) (hw : m.waiting ≠ [])
    (hu : m.store.module? file = none) : (m.deliver source delivery).Fetching file := by
  rw [deliver_eq]
  generalize (delivery.merge _ _).2 = fault
  cases fault with
  | none => exact hf.of_task hw rfl rfl
  | some f => exact hu

theorem Fetching.loaded (hf : m.Fetching file) (hw : m.waiting ≠ []) (hu : m.store.module? file = none)
    (hl : m.Loaded host other delivery u) : u.Fetching file := by
  have hawait : ∀ {m : Machine} {d : Delivery} {g : String} {code : Code} {next : Nat},
      m.Fetching file → m.waiting ≠ [] → (m.await d g code next).Fetching file :=
    fun hf hw => ⟨hf.tasks.cons hw, nofun⟩
  induction hl with
  | cached _ => exact hf.deliver hw hu
  | faults _ => exact hu
  | begins _ _ _ => exact hawait hf hw
  | equips _ _ _ _ _ _ ih => exact ih (hawait hf hw) (List.cons_ne_nil _ _) hu

theorem fetching_of_loaded (hw : m.waiting = []) (ht : m.task.AtEnd)
    (hl : m.Loaded host file .whole u) : u.Fetching file := by
  have hawait : ∀ {code : Code} {next : Nat}, (m.await .whole file code next).Fetching file := by
    intro code next
    refine ⟨?_, nofun⟩
    show Fetches file _ (⟨m.task, .whole⟩ :: m.waiting)
    rw [hw]
    exact ⟨rfl, rfl, ht⟩
  cases hl with
  | cached hr =>
    rw [deliver_eq]
    refine ⟨?_, fun _ hnone => ?_⟩
    · show Fetches file _ m.waiting
      rw [hw]
      exact ht
    · have hnone : m.store.module? file = none := hnone
      rw [hr] at hnone
      cases hnone
  | faults hu => exact hu
  | begins _ _ _ => exact hawait
  | @equips _ _ _ source code next _ hu _ _ _ _ hl =>
    have hf : (m.await .whole file code next).Fetching file := hawait
    have hu' : (m.await .whole file code next).store.module? file = none := hu
    exact hf.loaded nofun hu' hl

theorem Fetching.step (ha : host.Acyclic) (hn : m.Nested host) (hf : m.Fetching file) :
    (m.step host).Fetching file := by
  by_cases hw : m.waiting = []
  -- The module has been delivered to a task that has nothing else to do.
  · have hend := hf.tasks
    rw [hw] at hend
    rw [step_nil hend.rest hend.callers, finish, hw]
    exact hf.done hw
  · have hu := hf.uncached hw hn
    have hsame : ∀ {m' : Machine}, m'.waiting = m.waiting → m'.task.module = m.task.module →
        m'.Fetching file := fun he hm => hf.of_task hw he hm
    have hs := m.stepped host
    generalize m.step host = u at hs
    cases hs with
    | goes _ _ _ | enters _ _ _ | restarts | returns _ _ => exact hsame rfl rfl
    | @loads line op k other delivery _ _ =>
      have hm : (m.resume m.store m.operands line k).Fetching file := hsame rfl rfl
      exact hm.loaded hw hu load_loaded
    | @faults σ os line k f hm _ =>
      show Table.get? σ.modules file = none
      rw [hm]
      exact hu
    | ends _ _ =>
      obtain ⟨w, ws, hws⟩ := List.exists_cons_of_ne_nil hw
      rw [finish_cons hws]
      have htasks := hf.tasks
      rw [hws] at htasks
      cases ws with
      | nil =>
        -- The file itself has been run; to hand all of it over causes no fault.
        obtain ⟨hm, hwhole, hend⟩ := htasks
        rw [hwhole, deliver_eq]
        refine ⟨hend, fun _ hnone => ?_⟩
        have hnone : (m.settled w []).store.module? file = none := hnone
        rw [settled_module?, if_pos hm.symm] at hnone
        cases hnone
      | cons v ws =>
        have hnext : (m.settled w (v :: ws)).Fetching file := ⟨htasks, nofun⟩
        exact hnext.deliver nofun (hnext.uncached nofun (hn.settled ha hws))

end Machine

theorem Transition.Fetching.follow (ha : host.Acyclic) (ht : u.Ok κ h σ) (hn : u.Nested host)
    (hf : u.Fetching file) (fuel : Nat) : (u.follow host fuel).Fetched file := by
  have hrun : ∀ (fuel : Nat) (m : Machine) (κ : Registry), m.Ok κ h → m.Nested host →
      m.Fetching file → (m.run host fuel).Fetched file := by
    intro fuel
    induction fuel with
    | zero => exact fun _ _ _ _ _ => trivial
    | succ fuel ih =>
      intro m κ hm hn hf
      have hm' := hm.step host
      have hn' := hn.step ha hm
      have hf' := hf.step ha hn
      rw [Machine.run]
      cases hs : m.step host with
      | running m' =>
        rw [hs] at hm' hn' hf'
        obtain ⟨κ', _, hm', _⟩ := hm'
        exact ih m' κ' hm' hn' hf'
      | finished τ v =>
        rw [hs] at hf'
        exact hf'
      | raised m' f =>
        rw [hs] at hf'
        exact hf'
  cases u with
  | running m =>
    obtain ⟨κ', _, hm, _⟩ := ht
    exact hrun fuel m κ' hm hn hf
  | finished τ v => exact hf
  | raised m f => exact hf

end

end MatchLang
