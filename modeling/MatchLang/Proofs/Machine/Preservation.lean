import MatchLang.Proofs.Lowering.Balance
import MatchLang.Proofs.Machine.Invariant
import MatchLang.Proofs.Namespace.Seed

/-! The invariant of a run is kept by every step. A module that is loaded is compiled first, so its task
starts with balanced code; what it hands over is well-formed, since its root is. -/

namespace MatchLang

section

variable {source target : Namespace} {walked path : List String} {f : Fault}

theorem importName_fault {name : String} (h : source.importName target path name = .error f) :
    ¬ f.Internal := by
  unfold Namespace.importName at h
  simp only at h
  split at h
  · cases h
    exact id
  · split at h
    · cases h
      exact id
    · split at h <;> cases h

theorem importFrom_fault (h : (source.importFrom walked target path).2 = some f) :
    ¬ f.Internal := by
  induction path generalizing source target walked with
  | nil =>
    cases h
    exact id
  | cons part path ih =>
    cases path with
    | nil =>
      rw [Namespace.importFrom] at h
      split at h
      · cases h
      · rename_i g hg
        cases h
        exact importName_fault hg
    | cons next path =>
      rw [Namespace.importFrom] at h
      · split at h
        · cases h
          exact id
        · split at h
          · exact ih h
          · cases h
            exact id
      · intro h
        cases h

theorem importEntry_fault (h : (source.importEntry target path).2 = some f) : ¬ f.Internal :=
  importFrom_fault h

end

section

variable {κ : Registry} {host : Host} {σ τ : Store} {h : Nat} {m : Machine} {t : Transition}

theorem Transition.Ok.of_grows (ht : t.Ok κ h τ) (hσ : σ.Grows τ) : t.Ok κ h σ := by
  cases t with
  | running m =>
    obtain ⟨κ', hκ, hm, hg⟩ := ht
    exact ⟨κ', hκ, hm, hσ.trans hg⟩
  | finished υ v =>
    obtain ⟨hs, hg, hv⟩ := ht
    exact ⟨hs, hσ.trans hg, hv⟩
  | raised m f =>
    obtain ⟨hs, hg, hf⟩ := ht
    exact ⟨hs, hσ.trans hg, hf⟩

/-- The store goes on without the tasks. -/
theorem Machine.Ok.updateStore {change : Store → Store} (hm : m.Ok κ h)
    (hs : (change m.store).Sound κ) (hg : m.store.Grows (change m.store)) :
    (m.updateStore change).Ok κ h :=
  ⟨hs, hm.tasks.mono (fun _ hc => hc) hg⟩

theorem Machine.Ok.running {m' : Machine} (hm : m'.Ok κ h) (hg : σ.Grows m'.store) :
    Transition.Ok κ h σ (.running m') :=
  ⟨κ, fun _ hc => hc, hm, hg⟩

theorem Machine.Ok.deliver {source : Nat} {delivery : Delivery} (hm : m.Ok κ h) :
    (m.deliver source delivery).Ok κ h m.store := by
  cases delivery with
  | whole =>
    have hg : m.store.Grows (m.store.updateRoot m.task.root (m.store.root source).overlay) :=
      .updateRoot (m.store.root source).extends_overlay
    have hs : (m.store.updateRoot m.task.root (m.store.root source).overlay).Sound κ :=
      hm.store.updateRoot ((hm.store.roots source).overlay (hm.store.roots _))
    exact (hm.updateStore hs hg).running hg
  | entry path =>
    have he : (m.store.root m.task.root).Extends
        ((m.store.root source).importEntry (m.store.root m.task.root) path).1 :=
      Namespace.extends_importEntry
    have hs : ((m.store.root source).importEntry (m.store.root m.task.root) path).1.Sound κ
        Closure.Balanced := (hm.store.roots source).importEntry (hm.store.roots m.task.root)
    simp only [Machine.deliver]
    cases hn : (m.store.root source).importEntry (m.store.root m.task.root) path with
    | mk ns fault =>
      rw [hn] at he hs
      have hg : m.store.Grows (m.store.setRoot m.task.root ns) := .updateRoot he
      have hm' : (m.updateStore (·.setRoot m.task.root ns)).Ok κ h :=
        hm.updateStore (hm.store.setRoot hs) hg
      cases fault with
      | none => exact hm'.running hg
      | some f => exact ⟨hm'.store, hg, importEntry_fault (congrArg Prod.snd hn)⟩

/-- A task that begins balanced code. -/
theorem bodyTask_ok {module : String} {code : Code} {scope root : Nat}
    (hb : Balanced (.main code h) 0 [[]] code.instrs) (hs : scope < σ.scopes.size)
    (hr : root < σ.roots.size) : (bodyTask module code scope root).Ok κ σ h := by
  refine ⟨code, [[]], ⟨moduleBody module code scope root, scope⟩,
    [{ closure := moduleBody module code scope root, scope, line := 0, rest := code.instrs }], [],
    rfl, rfl, trivial, ⟨⟨rfl, nofun, hb⟩, fun _ => rfl⟩, ?_, hr, ?_⟩
  · intro f hf
    rw [List.mem_singleton] at hf
    subst hf
    exact hs
  · intro p hp
    rw [List.mem_singleton] at hp
    subst hp
    rfl

theorem Store.Sound.newTask (module : String) (code : Code) (hσ : σ.Sound κ) :
    (σ.newTask module code).2.Sound κ :=
  hσ.newSeededRoot.newScope

theorem Store.Grows.newTask (module : String) (code : Code) :
    σ.Grows (σ.newTask module code).2 :=
  (Store.Grows.newRoot extends_seed).trans Store.Grows.newScope

theorem newTask_ok {module : String} {code : Code}
    (hb : Balanced (.main code h) 0 [[]] code.instrs) :
    (σ.newTask module code).1.Ok κ (σ.newTask module code).2 h := by
  refine bodyTask_ok hb ?_ ?_
  · show σ.scopes.size < (σ.scopes.push _).size
    rw [Array.size_push]
    exact Nat.lt_succ_self _
  · show σ.roots.size < (σ.roots.push _).size
    rw [Array.size_push]
    exact Nat.lt_succ_self _

theorem Machine.Ok.suspend {delivery : Delivery} {file : String} {code : Code} {h' : Nat}
    (hm : m.Ok κ h) (hb : Balanced (.main code h') 0 [[]] code.instrs) :
    (m.suspend delivery file code).Ok κ h :=
  ⟨hm.store.newTask file code, ⟨h', newTask_ok hb⟩,
    hm.tasks.mono (fun _ hc => hc) (.newTask file code)⟩

theorem compileModule_eq_ok {file source : String} {n next : Nat} {code : Code}
    (hc : compileModule file source n = .ok (code, next)) :
    ∃ p, Program.read source = .ok p ∧ p.compile false n = .ok (code, next) := by
  unfold compileModule at hc
  split at hc
  · cases hc
  · rename_i p hp
    split at hc
    · cases hc
    · rename_i r hr
      cases hc
      exact ⟨p, hp, hr⟩

theorem compileModule_fault {file source : String} {n : Nat} {f : Fault}
    (hc : compileModule file source n = .error f) : ¬ f.Internal := by
  unfold compileModule at hc
  split at hc
  · cases hc
    exact id
  · split at hc
    · cases hc
      exact id
    · cases hc

theorem Store.Sound.withNextSlot {n : Nat} (hσ : σ.Sound κ) :
    Store.Sound κ { σ with nextSlot := n } :=
  hσ.congr rfl rfl (Nat.le_refl _)

theorem Store.Grows.withNextSlot {n : Nat} : σ.Grows { σ with nextSlot := n } :=
  .of_eq rfl rfl

theorem Machine.Ok.await {delivery : Delivery} {file source : String} {n next : Nat} {code : Code}
    (hm : m.Ok κ h) (hc : compileModule file source n = .ok (code, next)) :
    ((m.updateStore fun s => { s with nextSlot := next }).suspend delivery file code).Ok κ h := by
  obtain ⟨p, -, hp⟩ := compileModule_eq_ok hc
  have hm' : (m.updateStore fun s => { s with nextSlot := next }).Ok κ h :=
    hm.updateStore hm.store.withNextSlot .withNextSlot
  exact hm'.suspend (compile_balanced hp)

theorem Store.Grows.await {n : Nat} {delivery : Delivery} {file : String} {code : Code} :
    m.store.Grows ((m.updateStore fun s => { s with nextSlot := n }).suspend delivery file
      code).store :=
  have hn : m.store.Grows { m.store with nextSlot := n } := .withNextSlot
  have ht : Store.Grows { m.store with nextSlot := n }
      (Store.newTask { m.store with nextSlot := n } file code).2 := .newTask file code
  hn.trans ht

theorem Machine.Ok.loadPrelude {delivery : Delivery} (hm : m.Ok κ h) :
    (m.loadPrelude delivery).Ok κ h m.store := by
  unfold Machine.loadPrelude
  generalize preludeSource = source
  cases m.store.module? preludeName with
  | some root => exact hm.deliver
  | none =>
    cases hc : compileModule preludeName source m.store.nextSlot with
    | ok r => exact (hm.await hc).running .await
    | error f => exact ⟨hm.store, .refl _, compileModule_fault hc⟩

theorem Machine.Ok.load {file : String} {delivery : Delivery} (hm : m.Ok κ h) :
    (m.load host file delivery).Ok κ h m.store := by
  unfold Machine.load
  split
  · exact hm.deliver
  · split
    · exact hm.loadPrelude
    · split
      · exact ⟨hm.store, .refl _, id⟩
      · split
        · rename_i hf
          exact ⟨hm.store, .refl _, compileModule_fault hf⟩
        · rename_i hc
          simp only
          split
          · exact (hm.await hc).loadPrelude.of_grows .await
          · exact (hm.await hc).running .await

/-- A run ends with the operands its task should end with. -/
theorem Machine.Ok.finish (hm : m.Ok κ h) (hl : m.waiting = [] → m.operands.length = h) :
    m.finish.Ok κ h m.store := by
  unfold Machine.finish
  cases hw : m.waiting with
  | nil =>
    refine ⟨hm.store, .refl _, ?_⟩
    rw [List.isSome_head?, ← hl hw]
    exact List.ne_nil_iff_length_pos
  | cons w ws =>
    have ht := hm.tasks
    rw [hw] at ht
    have hg : m.store.Grows (m.store.remember m.task.module m.task.root) := .of_eq rfl rfl
    have hm' : Machine.Ok κ h
        { store := m.store.remember m.task.module m.task.root, task := w.task, waiting := ws } :=
      ⟨hm.store.congr rfl rfl (Nat.le_refl _), ht.2.mono (fun _ hc => hc) hg⟩
    exact hm'.deliver.of_grows hg

theorem Machine.step_nil (hr : m.frame.rest = []) (hc : m.task.frames.callers = []) :
    m.step host = m.finish := by
  have hp : m.task.frames.pop? = none :=
    Frames.pop?_single (f := m.frame) (congrArg (m.task.frames.current :: ·) hc)
  unfold Machine.step
  rw [hr]
  simp only [hp]

/-- Every step keeps the invariant, and none meets a fault of the machine. -/
theorem Machine.Ok.step (host : Host) (hm : m.Ok κ h) : (m.step host).Ok κ h m.store := by
  obtain ⟨h', ⟨code, ps, b, hu⟩, hh, hback⟩ := hm.tasks.running
  rcases hu.advance host hm.store (Nat.zero_le _) with ⟨hr, hc, own, ho, hl⟩ | ha
  · rw [step_nil hr hc]
    refine hm.finish fun hw => ?_
    rw [ho, List.append_nil, hl]
    exact hh hw
  · generalize m.step host = t at ha
    cases ha with
    | @running κ' qs m' hκ hs hsteps _ hup _ _ hw =>
      obtain ⟨_, _, hon, _⟩ := hsteps
      exact ⟨κ', hκ, ⟨hs, hw ▸ hback hκ hon.grows ⟨code, qs, b, hup⟩⟩, hon.grows⟩
    | @loads m' file delivery _ hσ hw hup hroot =>
      have hm' : m'.Ok κ h := by
        refine ⟨hσ ▸ hm.store, ?_⟩
        rw [hw]
        exact hback (fun _ hc => hc) (hσ ▸ .refl _) ⟨code, ps, b, hup⟩
      exact hσ ▸ hm'.load
    | raises hs hon hf => exact ⟨hs, hon.grows, hf⟩

end

end MatchLang
