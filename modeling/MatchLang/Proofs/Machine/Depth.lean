import Mathlib.Data.List.Forall2
import MatchLang.Proofs.Machine.Inversion

/-! How deep calls nest. The limit keeps the frames of every task few; as long as it is not met, it might as
well not be there. A function that restarts itself does so in the frame that it has. -/

namespace MatchLang

/-- The same host with another limit, or none, on how deep calls nest. -/
def Host.withLimit (host : Host) (limit : Option Nat) : Host :=
  { host with callLimit := limit }

/-- No task has more than `n` frames. -/
def Machine.Shallow (n : Nat) (m : Machine) : Prop :=
  ∀ t ∈ m.tasks, t.frames.depth ≤ n

def Transition.Shallow (n : Nat) : Transition → Prop
  | .running m => m.Shallow n
  | .finished _ _ => True
  | .raised m _ => m.Shallow n

/-- How many frames each task has, innermost first. -/
def Machine.depths (m : Machine) : List Nat :=
  m.tasks.map (·.frames.depth)

/-- The next instruction begins a function in a frame of its own. -/
def Machine.Enters (m : Machine) : Prop :=
  ∃ line op k c os, m.frame.rest = .mk line op :: k ∧
    op.action m.setting line k = .enter c os

/-- The next instruction is an import. -/
def Machine.Imports (m : Machine) : Prop :=
  ∃ line op k, m.frame.rest = .mk line op :: k ∧ op.import?.isSome

section

variable {host : Host} {m m' : Machine} {n limit line argc : Nat} {k : List Instr} {file : String}
  {delivery : Delivery} {t : Transition} {bound : Option Nat}

namespace Machine.Shallow

theorem of_task (hm : m.Shallow n) (hd : m'.task.frames.depth ≤ n)
    (hw : m'.waiting = m.waiting) : m'.Shallow n := by
  intro t ht
  rcases List.mem_cons.mp ht with rfl | ht
  · exact hd
  · exact hm t (List.mem_cons_of_mem _ (hw ▸ ht))

theorem orRaise {fault : Option Fault} (hm : m.Shallow n) : (m.orRaise fault).Shallow n := by
  cases fault <;> exact hm

theorem deliver {source : Nat} (hm : m.Shallow n) : (m.deliver source delivery).Shallow n := by
  rw [deliver_eq]
  exact orRaise hm

theorem await {code : Code} {next : Nat} (hm : m.Shallow n) (hn : 0 < n) :
    (m.await delivery file code next).Shallow n := by
  intro t ht
  rcases List.mem_cons.mp ht with rfl | ht
  · exact hn
  · exact hm t ht

theorem loaded (hm : m.Shallow n) (hn : 0 < n) (hl : m.Loaded host file delivery t) :
    t.Shallow n := by
  induction hl with
  | cached _ => exact hm.deliver
  | faults _ => exact hm
  | begins _ _ _ => exact hm.await hn
  | equips _ _ _ _ _ _ ih => exact ih (hm.await hn)

end Machine.Shallow

theorem Frames.depth_pop? {fs gs : Frames} (h : fs.pop? = some gs) : gs.depth ≤ fs.depth := by
  unfold Frames.pop? at h
  split at h
  · cases h
  · cases h
    exact Nat.sub_le _ _

theorem Machine.Shallow.step (hm : m.Shallow n) (hn : 0 < n)
    (hl : ∃ limit ≤ n, host.callLimit = some limit) : (m.step host).Shallow n := by
  obtain ⟨limit, hle, hl⟩ := hl
  have hself : m.task.frames.depth ≤ n := hm m.task List.mem_cons_self
  have hs := m.stepped host
  generalize m.step host = t at hs
  cases hs with
  | goes _ _ _ => exact hm.of_task hself rfl
  | enters _ _ hd =>
    have hlt : m.task.frames.depth < limit := hd limit hl
    exact hm.of_task (Nat.le_trans hlt hle) rfl
  | restarts => exact hm.of_task hself rfl
  | @loads line op k file delivery _ _ =>
    have hr : (m.resume m.store m.operands line k).Shallow n := hm.of_task hself rfl
    exact hr.loaded hn load_loaded
  | faults _ _ => exact hm.of_task hself rfl
  | returns _ hp => exact hm.of_task (Nat.le_trans (Frames.depth_pop? hp) hself) rfl
  | ends _ _ =>
    unfold finish
    cases hw : m.waiting with
    | nil => trivial
    | cons w ws =>
      refine Machine.Shallow.deliver fun t ht => hm t (List.mem_cons_of_mem _ ?_)
      rw [hw]
      exact ht

theorem Machine.step_withLimit (hl : host.callLimit = some limit)
    (hb : ∀ l, bound = some l → limit ≤ l)
    (hs : ∀ m' l, m.step host ≠ .raised m' (.callDepthExceeded l)) :
    m.step (host.withLimit bound) = m.step host := by
  cases hr : m.frame.rest with
  | nil =>
    unfold step
    rw [hr]
  | cons i k =>
    obtain ⟨line, op⟩ := i
    rw [step_eq_act hr] at hs ⊢
    rw [step_eq_act hr]
    generalize op.action m.setting line k = a at hs
    cases a with
    | proceed σ os is => rfl
    | restart => rfl
    | load file delivery => rfl
    | fail σ os f => rfl
    | enter c os =>
      have hlt : m.task.frames.depth < limit := by
        refine Nat.lt_of_not_le fun hle => hs (m.resume m.store os line k) limit ?_
        show (m.resume m.store os line k).enter host c = _
        unfold enter
        rw [hl]
        exact if_pos hle
      have henter : ∀ host' : Host, (∀ l, host'.callLimit = some l → limit ≤ l) →
          (m.resume m.store os line k).enter host' c =
            .running ((m.resume m.store os line k).pushFrame c) := by
        intro host' hb'
        unfold enter
        cases hl' : host'.callLimit with
        | none => rfl
        | some l => exact if_neg (Nat.not_le.mpr (Nat.lt_of_lt_of_le hlt (hb' l hl')))
      show (m.resume m.store os line k).enter (host.withLimit bound) c =
        (m.resume m.store os line k).enter host c
      rw [henter _ hb, henter _ fun l h => Nat.le_of_eq (Option.some.inj (hl.symm.trans h))]

theorem Machine.depths_tailCall (hr : m.frame.rest = .mk line (.tailCall argc) :: k)
    (hs : m.step host = .running m') : m'.depths = m.depths := by
  rw [step_eq_act hr] at hs
  by_cases ha : m.setting.closure.arity = argc
  · have hact : Op.action m.setting line k (.tailCall argc) = .restart := if_pos ha
    rw [hact] at hs
    cases hs
    rfl
  · have hact : Op.action m.setting line k (.tailCall argc) = m.setting.refuse .partialTailCall :=
      if_neg ha
    rw [hact] at hs
    cases hs

/-- Some of the depths, each of them perhaps less. -/
def Below (ds ds' : List Nat) : Prop :=
  ds.SublistForall₂ (· ≤ ·) ds'

theorem Below.refl (ds : List Nat) : Below ds ds :=
  List.SublistForall₂.is_refl.refl ds

theorem Below.trans {ds ds' ds'' : List Nat} (h : Below ds ds') (h' : Below ds' ds'') :
    Below ds ds'' :=
  List.SublistForall₂.is_trans.trans _ _ _ h h'

theorem Machine.depths_eq (m : Machine) :
    m.depths = m.task.frames.depth :: m.waiting.map (·.task.frames.depth) := by
  unfold depths tasks
  rw [List.map_cons, List.map_map]
  rfl

theorem Machine.orRaise_depths {fault : Option Fault} (h : m.orRaise fault = .running m') :
    m'.depths = m.depths := by
  cases fault with
  | none =>
    cases h
    rfl
  | some f => cases h

/-- Where no function is begun in a frame of its own, and no module, calls do not nest deeper. -/
theorem Machine.depths_step (hs : m.step host = .running m') (he : ¬ m.Enters)
    (hi : ¬ m.Imports) : Below m'.depths m.depths := by
  have hst := m.stepped host
  rw [hs] at hst
  generalize ht : Transition.running m' = t at hst
  cases hst with
  | goes _ _ _ =>
    cases ht
    exact .refl _
  | enters hr ha _ => exact absurd ⟨_, _, _, _, _, hr, ha⟩ he
  | restarts =>
    cases ht
    exact .refl _
  | loads hr hd => exact absurd ⟨_, _, _, hr, by rw [hd]; rfl⟩ hi
  | faults _ _ => cases ht
  | returns _ hp =>
    cases ht
    rw [depths_eq, depths_eq]
    exact .cons (Frames.depth_pop? hp) (Below.refl _)
  | ends _ _ =>
    unfold finish at ht
    cases hw : m.waiting with
    | nil =>
      rw [hw] at ht
      cases ht
    | cons w ws =>
      rw [hw] at ht
      simp only [deliver_eq] at ht
      rw [orRaise_depths ht.symm, depths_eq m, hw, depths_eq]
      exact .cons_right (Below.refl _)

theorem Machine.depths_walk (hw : m.walk host n = some m')
    (hno : ∀ j < n, ∀ m₁, m.walk host j = some m₁ → ¬ m₁.Enters ∧ ¬ m₁.Imports) :
    Below m'.depths m.depths := by
  induction n generalizing m with
  | zero =>
    cases hw
    exact .refl _
  | succ n ih =>
    cases hs : m.step host with
    | running m₁ =>
      rw [walk, hs] at hw
      have h₁ : Below m'.depths m₁.depths := by
        refine ih hw fun j hj m₂ h₂ => ?_
        exact hno (j + 1) (Nat.succ_lt_succ hj) m₂ (walk_of_step hs h₂)
      obtain ⟨he, hi⟩ := hno 0 (Nat.succ_pos n) m rfl
      exact h₁.trans (depths_step hs he hi)
    | finished σ v =>
      rw [walk, hs] at hw
      cases hw
    | raised m₁ f =>
      rw [walk, hs] at hw
      cases hw

end

end MatchLang
