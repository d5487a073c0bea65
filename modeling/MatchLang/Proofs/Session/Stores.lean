import MatchLang.Proofs.Machine.Preservation

/-! The stores of a session: whatever has been run in it before, by whatever host and for however many
steps, the store is well-formed, and the workspaces that are open are in it. -/

namespace MatchLang

/-- The stores that come about in a session, each with the workspaces that have been opened. -/
inductive Session : Store → List Workspace → Prop where
  | begins (console : Console) : Session (.initial console) []
  | hears {σ ws} (console : Console) : Session σ ws → Session { σ with console } ws
  | runs {σ ws} (host : Host) (fuel : Nat) (module source : String) :
    Session σ ws → Session (runSource host fuel σ module source).2 ws
  | opens {σ ws} (host : Host) (fuel : Nat) (withPrelude : Bool) (module : String) : Session σ ws →
    Session (openWorkspace host fuel σ withPrelude module).2
      ((openWorkspace host fuel σ withPrelude module).1.toOption.toList ++ ws)
  | rescopes {σ ws w} : Session σ ws → w ∈ ws →
    Session (w.withNewScope σ).2 ((w.withNewScope σ).1 :: ws)
  | continues {σ ws w} (host : Host) (fuel : Nat) (line : String) : Session σ ws → w ∈ ws →
    Session (w.runLine host fuel σ line).2 ws
  | loads {σ ws} (host : Host) (fuel : Nat) (file : String) :
    Session σ ws → Session (loadModule host fuel σ file).2 ws
  | takes {σ ws} (host : Host) (fuel : Nat) (file source : String) :
    Session σ ws → Session (loadText host fuel σ file source).2 ws

/-- The root and the scope of a workspace are in the store. -/
structure Workspace.In (w : Workspace) (σ : Store) : Prop where
  root : w.root < σ.roots.size
  scope : w.scope < σ.scopes.size

def Ending.store : Ending → Store
  | .finished store _ => store
  | .failed store _ => store
  | .cut m => m.store

/-- The store has gone on and is well-formed, perhaps with more cases. -/
def Store.Leaves (κ : Registry) (σ τ : Store) : Prop :=
  σ.Grows τ ∧ ∃ κ' : Registry, (∀ c, κ.Has c → κ'.Has c) ∧ τ.Sound κ'

section

variable {κ : Registry} {host : Host} {fuel h n next : Nat} {σ τ υ : Store} {m : Machine}
  {t : Transition} {code : Code} {w : Workspace}

theorem Store.Leaves.same (hσ : σ.Sound κ) : Store.Leaves κ σ σ :=
  ⟨.refl σ, κ, fun _ hc => hc, hσ⟩

/-- The console and the slots given out do not count. -/
theorem Store.Leaves.congr (ht : Store.Leaves κ σ τ) (hs : υ.scopes = τ.scopes)
    (hr : υ.roots = τ.roots) (hi : τ.nextIdentity ≤ υ.nextIdentity) : Store.Leaves κ σ υ := by
  obtain ⟨hg, κ', hκ, hτ⟩ := ht
  exact ⟨hg.trans (.of_eq hs hr), κ', hκ, hτ.congr hs hr hi⟩

theorem Store.Leaves.of_grows (ht : Store.Leaves κ τ υ) (hg : σ.Grows τ) : Store.Leaves κ σ υ :=
  ⟨hg.trans ht.1, ht.2⟩

theorem Workspace.In.mono (hw : w.In σ) (hg : σ.Grows τ) : w.In τ :=
  ⟨Nat.lt_of_lt_of_le hw.root hg.roots, Nat.lt_of_lt_of_le hw.scope hg.scopes⟩

theorem Machine.Ok.run (host : Host) (fuel : Nat) (hm : m.Ok κ h) : m.store.Leaves κ (m.run host fuel).store := by
  induction fuel generalizing m κ with
  | zero => exact .same hm.store
  | succ fuel ih =>
    have hs := hm.step host
    rw [Machine.run]
    cases he : m.step host with
    | running m' =>
      rw [he] at hs
      obtain ⟨κ', hκ, hm', hg⟩ := hs
      obtain ⟨hg', κ'', hκ', hσ⟩ := ih hm'
      exact ⟨hg.trans hg', κ'', fun c hc => hκ' c (hκ c hc), hσ⟩
    | finished τ v =>
      rw [he] at hs
      exact ⟨hs.2.1, κ, fun _ hc => hc, hs.1⟩
    | raised m' f =>
      rw [he] at hs
      exact ⟨hs.2.1, κ, fun _ hc => hc, hs.1⟩

theorem Transition.Ok.follow (host : Host) (fuel : Nat) (ht : t.Ok κ h σ) : σ.Leaves κ (t.follow host fuel).store := by
  cases t with
  | running m =>
    obtain ⟨κ', hκ, hm, hg⟩ := ht
    obtain ⟨hg', κ'', hκ', hσ⟩ := hm.run host fuel
    exact ⟨hg.trans hg', κ'', fun c hc => hκ' c (hκ c hc), hσ⟩
  | finished τ v => exact ⟨ht.2.1, κ, fun _ hc => hc, ht.1⟩
  | raised m f => exact ⟨ht.2.1, κ, fun _ hc => hc, ht.1⟩

theorem settle_store {e : Ending} (ht : σ.Leaves κ e.store) : σ.Leaves κ (settle e).2 := by
  cases e with
  | finished store v => exact ht
  | failed store f => exact ht.congr rfl rfl (Nat.le_refl _)
  | cut m => exact ht

theorem compileText_eq_ok {source : String} {publishRoot : Bool}
    (hc : compileText source publishRoot n = .ok (code, next)) :
    ∃ p : Program, Program.read source = .ok p ∧ p.compile publishRoot n = .ok (code, next) := by
  unfold compileText at hc
  split at hc
  · cases hc
  · rename_i p hp
    refine ⟨p, hp, ?_⟩
    split at hc
    · cases hc
    · rename_i hr
      cases hc
      exact hr

theorem beginCode_ok {withPrelude : Bool} {module : String} (hσ : σ.Sound κ)
    (hb : Balanced (.main code h) 0 [[]] code.instrs) :
    (beginCode σ withPrelude module code).Ok κ h (σ.newTask module code).2 := by
  have hm : Machine.Ok κ h
      { store := (σ.newTask module code).2, task := (σ.newTask module code).1, waiting := [] } :=
    ⟨hσ.newTask module code, newTask_ok hb⟩
  unfold beginCode
  simp only
  split
  · exact hm.loadPrelude
  · exact hm.running (.refl _)

theorem runSource_store {module source : String} (hσ : σ.Sound κ) :
    σ.Leaves κ (runSource host fuel σ module source).2 := by
  unfold runSource beginSource
  cases hc : compileText source false σ.nextSlot with
  | error e => exact .same hσ
  | ok r =>
    obtain ⟨code, next⟩ := r
    obtain ⟨p, -, hp⟩ := compileText_eq_ok hc
    have hn : Store.Sound κ { σ with nextSlot := next } := hσ.withNextSlot
    have ht : Transition.Ok κ p.height { σ with nextSlot := next }
        (beginCode { σ with nextSlot := next } host.withPrelude module code) :=
      (beginCode_ok hn (compile_balanced hp)).of_grows (.newTask module code)
    exact (settle_store (ht.follow host fuel)).of_grows .withNextSlot

theorem Workspace.In.begin_ok (hw : w.In σ) (hσ : σ.Sound κ)
    (hb : Balanced (.main code h) 0 [[]] code.instrs) : (w.begin σ code).Ok κ h :=
  ⟨hσ, bodyTask_ok hb hw.scope hw.root⟩

theorem runLine_store {line : String} (hw : w.In σ) (hσ : σ.Sound κ) :
    σ.Leaves κ (w.runLine host fuel σ line).2 := by
  unfold Workspace.runLine Workspace.beginLine
  cases hc : compileText line true σ.nextSlot with
  | error e => exact .same hσ
  | ok r =>
    obtain ⟨code, next⟩ := r
    obtain ⟨p, -, hp⟩ := compileText_eq_ok hc
    have hn : Store.Sound κ { σ with nextSlot := next } := hσ.withNextSlot
    have hm := (hw.mono .withNextSlot).begin_ok hn (compile_balanced hp)
    exact (settle_store (hm.run host fuel)).of_grows .withNextSlot

theorem balanced_empty : Balanced (.main .empty 0) 0 [[]] Code.empty.instrs :=
  .done rfl rfl

theorem openWorkspace_store {withPrelude : Bool} {module : String} (hσ : σ.Sound κ) :
    σ.Leaves κ (openWorkspace host fuel σ withPrelude module).2 ∧
      ∀ w ∈ (openWorkspace host fuel σ withPrelude module).1.toOption,
        w.In (openWorkspace host fuel σ withPrelude module).2 := by
  have ht : Store.Leaves κ (σ.newTask module .empty).2
      ((beginCode σ withPrelude module .empty).follow host fuel).store :=
    (beginCode_ok hσ balanced_empty).follow host fuel
  have hw : (Workspace.next σ module).In (σ.newTask module .empty).2 := by
    constructor
    · show σ.roots.size < (σ.roots.push _).size
      rw [Array.size_push]
      exact Nat.lt_succ_self _
    · show σ.scopes.size < (σ.scopes.push _).size
      rw [Array.size_push]
      exact Nat.lt_succ_self _
  unfold openWorkspace
  simp only
  cases he : (beginCode σ withPrelude module .empty).follow host fuel with
  | finished store v =>
    rw [he] at ht
    refine ⟨ht.of_grows (.newTask module .empty), fun w' hw' => ?_⟩
    cases hw'
    exact hw.mono ht.1
  | failed store f =>
    rw [he] at ht
    exact ⟨ht.of_grows (.newTask module .empty), nofun⟩
  | cut m =>
    rw [he] at ht
    exact ⟨ht.of_grows (.newTask module .empty), nofun⟩

theorem Store.Grows.idleMachine : σ.Grows (idleMachine σ).store :=
  .trans (.newRoot (.refl _)) .newScope

theorem idleMachine_ok (hσ : σ.Sound κ) : (idleMachine σ).Ok κ 0 := by
  refine ⟨(hσ.newRoot Namespace.empty_sound).newScope, bodyTask_ok balanced_empty ?_ ?_⟩
  · show σ.scopes.size < (σ.scopes.push _).size
    rw [Array.size_push]
    exact Nat.lt_succ_self _
  · show σ.roots.size < (σ.roots.push _).size
    rw [Array.size_push]
    exact Nat.lt_succ_self _

theorem settleModule_store {file : String} {e : Ending} :
    (settleModule file e).2 = e.store := by
  cases e <;> rfl

theorem settleModule_module? {file : String} {e : Ending} {root : Nat}
    (h : (settleModule file e).1 = .ok (some root)) :
    (settleModule file e).2.module? file = some root := by
  cases e with
  | finished σ v => exact Except.ok.inj h
  | failed σ f => cases h
  | cut m => cases h

theorem loadModule_store {file : String} (hσ : σ.Sound κ) :
    σ.Leaves κ (loadModule host fuel σ file).2 := by
  unfold loadModule
  rw [settleModule_store]
  exact ((idleMachine_ok hσ).load.follow host fuel).of_grows .idleMachine

theorem loadText_store {file source : String} (hσ : σ.Sound κ) :
    σ.Leaves κ (loadText host fuel σ file source).2 := by
  unfold loadText
  cases hc : compileModule file source σ.nextSlot with
  | error f => exact .same hσ
  | ok r =>
    obtain ⟨code, next⟩ := r
    obtain ⟨p, -, hp⟩ := compileModule_eq_ok hc
    have hn : Store.Sound κ { σ with nextSlot := next } := hσ.withNextSlot
    have hm : ((idleMachine { σ with nextSlot := next }).suspend .whole file code).Ok κ 0 :=
      (idleMachine_ok hn).suspend (compile_balanced hp)
    have hg : σ.Grows ((idleMachine { σ with nextSlot := next }).suspend .whole file code).store :=
      .trans .withNextSlot (.trans .idleMachine (.newTask file code))
    simp only [settleModule_store]
    split
    · exact (hm.loadPrelude.follow host fuel).of_grows hg
    · exact ((hm.running (.refl _)).follow host fuel).of_grows hg

end

/-- Every store of a session is well-formed, and holds what its workspaces need. -/
theorem Session.sound {σ : Store} {ws : List Workspace} (h : Session σ ws) :
    ∃ κ, σ.Sound κ ∧ ∀ w ∈ ws, w.In σ := by
  have hmore : ∀ {κ : Registry} {σ τ : Store} {ws : List Workspace}, σ.Leaves κ τ →
      (∀ w ∈ ws, w.In σ) → ∃ κ', τ.Sound κ' ∧ ∀ w ∈ ws, w.In τ := by
    rintro κ σ τ ws ⟨hg, κ', -, hτ⟩ hws
    exact ⟨κ', hτ, fun w hw => (hws w hw).mono hg⟩
  induction h with
  | begins console => exact ⟨_, Store.initial_sound console, nofun⟩
  | hears console _ ih =>
    obtain ⟨κ, hσ, hws⟩ := ih
    exact hmore ((Store.Leaves.same hσ).congr rfl rfl (Nat.le_refl _)) hws
  | runs host fuel module source _ ih =>
    obtain ⟨κ, hσ, hws⟩ := ih
    exact hmore (runSource_store hσ) hws
  | opens host fuel withPrelude module _ ih =>
    obtain ⟨κ, hσ, hws⟩ := ih
    obtain ⟨ht, hw⟩ := openWorkspace_store hσ
    obtain ⟨κ', hτ, hws'⟩ := hmore ht hws
    refine ⟨κ', hτ, fun w hm => ?_⟩
    rcases List.mem_append.mp hm with hm | hm
    · exact hw w (Option.mem_toList.mp hm)
    · exact hws' w hm
  | @rescopes σ ws w _ hw ih =>
    obtain ⟨κ, hσ, hws⟩ := ih
    refine ⟨κ, hσ.newScope, fun w' hm => ?_⟩
    rcases List.mem_cons.mp hm with rfl | hm
    · exact ⟨(hws w hw).root, Nat.lt_of_lt_of_eq (Nat.lt_succ_self _) Store.size_newScope.symm⟩
    · exact (hws w' hm).mono .newScope
  | continues host fuel line _ hw ih =>
    obtain ⟨κ, hσ, hws⟩ := ih
    exact hmore (runLine_store (hws _ hw) hσ) hws
  | loads host fuel file _ ih =>
    obtain ⟨κ, hσ, hws⟩ := ih
    exact hmore (loadModule_store hσ) hws
  | takes host fuel file source _ ih =>
    obtain ⟨κ, hσ, hws⟩ := ih
    exact hmore (loadText_store hσ) hws

end MatchLang
