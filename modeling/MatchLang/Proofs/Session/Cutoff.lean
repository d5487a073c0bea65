import MatchLang.Proofs.Machine.Depth
import MatchLang.Proofs.Session.Moments

/-! The limit on how deep calls nest. It bounds the frames of all tasks, and does nothing else: a run that
does not meet it is the same under any larger limit, and without one. -/

namespace MatchLang

/-- Somewhere on the way a call meets the limit. -/
def Transition.Exceeds (host : Host) (t : Transition) : Prop :=
  ∃ m l, t = .raised m (.callDepthExceeded l) ∨
    ∃ m₀ m₁, t = .running m₀ ∧ m₀.Reaches host m₁ ∧ m₁.step host = .raised m (.callDepthExceeded l)

section

variable {host : Host} {m : Machine} {n limit fuel : Nat} {t : Transition} {bound : Option Nat}
  {allowed : Host → Prop} {texts : Prop} {a b : Moment}

theorem Machine.Shallow.equip (hm : m.Shallow n) (hn : 0 < n) (withPrelude : Bool) :
    (m.equip withPrelude).Shallow n := by
  unfold Machine.equip
  split
  · have hl : m.Loaded { appRoot := "", withPrelude, callLimit := none, read := fun _ => .error .missing }
        preludeName .whole (m.loadPrelude .whole) := Machine.loadPrelude_loaded
    exact hm.loaded hn hl
  · exact hm

theorem Machine.shallow_body {σ : Store} {module : String} {code : Code} {scope root : Nat}
    (hn : 0 < n) : Machine.Shallow n
      { store := σ, task := bodyTask module code scope root, waiting := [] } :=
  List.forall_mem_singleton.mpr hn

theorem Moment.Next.shallow (hs : Next allowed texts a b) (hn : 0 < n)
    (hl : ∀ host, allowed host → ∃ limit ≤ n, host.callLimit = some limit)
    (ha : a.now.Shallow n) : b.now.Shallow n := by
  cases hs with
  | steps hh => exact Machine.Shallow.step ha hn (hl _ hh)
  | @hears t ws console =>
    cases t with
    | running m => exact ha
    | finished σ v => trivial
    | raised m f => exact ha
  | begins hp =>
    cases hp with
    | module publishRoot withPrelude module _ =>
      exact Machine.Shallow.equip (Machine.shallow_body hn) hn withPrelude
    | line publishRoot _ _ => exact Machine.shallow_body hn
  | opens withPrelude module =>
    exact Machine.Shallow.equip (Machine.shallow_body hn) hn withPrelude
  | rescopes _ => trivial
  | @loads t ws host file _ =>
    have hi : (idleMachine t.store).Shallow n := Machine.shallow_body hn
    exact hi.loaded hn Machine.load_loaded
  | @takes t ws file source code next withPrelude _ _ =>
    have hi : (idleMachine t.store).Shallow n := Machine.shallow_body hn
    exact (hi.await hn).equip hn withPrelude

theorem Moment.Occurs.shallow (ha : Occurs allowed texts a) (hn : 0 < n)
    (hl : ∀ host, allowed host → ∃ limit ≤ n, host.callLimit = some limit) :
    a.now.Shallow n := by
  obtain ⟨console, hlater⟩ := ha
  induction hlater with
  | refl => trivial
  | tail _ hs ih => exact hs.shallow hn hl ih

theorem Machine.run_withLimit (hl : host.callLimit = some limit)
    (hb : ∀ l, bound = some l → limit ≤ l) (he : ¬ (Transition.running m).Exceeds host) :
    m.run (host.withLimit bound) fuel = m.run host fuel := by
  induction fuel generalizing m with
  | zero => rfl
  | succ fuel ih =>
    have hstep : m.step (host.withLimit bound) = m.step host := by
      refine step_withLimit hl hb fun m' l hs => he ?_
      exact ⟨m', l, .inr ⟨m, m, rfl, .refl m, hs⟩⟩
    rw [Machine.run, Machine.run, hstep]
    cases hs : m.step host with
    | running m₁ =>
      refine ih ?_
      rintro ⟨m', l, h⟩
      refine he ⟨m', l, .inr ?_⟩
      rcases h with h | ⟨m₀, m₂, h₀, hr, hs₂⟩
      · cases h
      · cases h₀
        exact ⟨m, m₂, rfl, .head hs hr, hs₂⟩
    | finished σ v => rfl
    | raised m' f => rfl

theorem Transition.not_exceeds {σ : Store} {v : Option Value}
    (h : t.follow host fuel = .finished σ v) : ¬ t.Exceeds host := by
  rintro ⟨m', l, he | ⟨m₀, m₁, he, hr, hs⟩⟩
  · subst he
    cases h
  · subst he
    obtain ⟨k, _, m₂, hw, hf⟩ := Machine.run_eq_finished.mp h
    have hraise : m₀.Raises host m' (.callDepthExceeded l) := ⟨m₁, hr, hs⟩
    obtain ⟨m₃, ⟨j, hj⟩, hs₃⟩ := hraise.reached ⟨k, hw⟩
    cases j with
    | zero =>
      cases hj
      rw [hf] at hs₃
      cases hs₃
    | succ j =>
      rw [Machine.walk, hf] at hj
      cases hj

theorem runSource_not_exceeds {σ : Store} {module source : String}
    (h : (runSource host fuel σ module source).1.toOption.isSome)
    (ht : beginSource host σ module source = .ok t) : ¬ t.Exceeds host := by
  unfold runSource at h
  rw [ht] at h
  simp only at h
  cases he : t.follow host fuel with
  | finished τ v => exact Transition.not_exceeds he
  | failed τ f =>
    rw [he] at h
    cases h
  | cut m =>
    rw [he] at h
    cases h

end

section

open Moment

/-- Under the limit `limit` no task has more frames than that, but for the one frame of its module. A run
that does not meet the limit, not even in a module that it loads, comes under any larger limit, or none, to
the same end after the same steps: the same value, output, fault and trace. A function that restarts
itself leaves all frames as they are; and as long as no function is begun by other calls, and no module
loaded, no task has more frames than before. -/
theorem call_limit_is_a_cutoff {host : Host} {limit : Nat} (hl : host.callLimit = some limit) :
    (∀ texts a, Occurs (fun host => host.callLimit = some limit) texts a →
      ∀ m, (a.now = .running m ∨ ∃ f, a.now = .raised m f) →
        ∀ t ∈ m.tasks, t.frames.toList.length ≤ max 1 limit) ∧
    (∀ bound, (∀ l, bound = some l → limit ≤ l) → ∀ t : Transition, ¬ t.Exceeds host →
      ∀ fuel, t.follow (host.withLimit bound) fuel = t.follow host fuel) ∧
    (∀ bound, (∀ l, bound = some l → limit ≤ l) → ∀ fuel σ module source,
      (∀ t, beginSource host σ module source = .ok t → ¬ t.Exceeds host) →
        runSource (host.withLimit bound) fuel σ module source =
          runSource host fuel σ module source) ∧
    (∀ bound, (∀ l, bound = some l → limit ≤ l) → ∀ fuel σ (w : Workspace) line,
      (∀ m, w.beginLine σ line = .ok m → ¬ (Transition.running m).Exceeds host) →
        w.runLine (host.withLimit bound) fuel σ line = w.runLine host fuel σ line) ∧
    (∀ (m m' : Machine) line argc k, m.frame.rest = .mk line (.tailCall argc) :: k →
      m.step host = .running m' → m'.depths = m.depths) ∧
    ∀ (m m' : Machine) n, m.walk host n = some m' →
      (∀ j < n, ∀ m₁, m.walk host j = some m₁ → ¬ m₁.Enters ∧ ¬ m₁.Imports) →
        Below m'.depths m.depths := by
  have hfollow : ∀ bound, (∀ l, bound = some l → limit ≤ l) → ∀ t : Transition, ¬ t.Exceeds host →
      ∀ fuel, t.follow (host.withLimit bound) fuel = t.follow host fuel := by
    intro bound hb t he fuel
    cases t with
    | running m => exact Machine.run_withLimit hl hb he
    | finished σ v => rfl
    | raised m f => rfl
  refine ⟨fun texts a ha m hm t ht => ?_, hfollow, fun bound hb fuel σ module source he => ?_,
    fun bound hb fuel σ w line he => ?_,
    fun m m' line argc k hr hs => Machine.depths_tailCall hr hs,
    fun m m' n hw hno => Machine.depths_walk hw hno⟩
  · have hs : a.now.Shallow (max 1 limit) :=
      ha.shallow (by omega) fun host hh => ⟨limit, Nat.le_max_right 1 limit, hh⟩
    rw [← Frames.depth_eq_length]
    rcases hm with hm | ⟨f, hm⟩
    · rw [hm] at hs
      exact hs t ht
    · rw [hm] at hs
      exact hs t ht
  · have hbegin : beginSource (host.withLimit bound) σ module source =
        beginSource host σ module source := rfl
    unfold runSource
    rw [hbegin]
    cases hc : beginSource host σ module source with
    | error e => rfl
    | ok t =>
      simp only
      rw [hfollow bound hb t (he t hc)]
  · unfold Workspace.runLine
    cases hc : w.beginLine σ line with
    | error e => rfl
    | ok m =>
      simp only
      rw [Machine.run_withLimit hl hb (he m hc)]

end

/-- A host that allows one call in the body of a module, and no more. -/
def narrowHost : Host where
  appRoot := ""
  withPrelude := false
  callLimit := some 2
  read _ := .error .missing

/-- A loop of restarts takes no more than that. -/
def loopSource : String :=
  "(\x7b x -> (match x [ \x7b (True) -> (. ()) \x7d \x7b _ -> x \x7d ]) \x7d True)"

theorem loop_stays_below_the_limit :
    (runSource narrowHost 100 (.initial .deaf) "loop" loopSource).1.toOption.isSome ∧
      ∀ fuel, runSource (narrowHost.withLimit none) fuel (.initial .deaf) "loop" loopSource =
        runSource narrowHost fuel (.initial .deaf) "loop" loopSource := by
  have hrun : (runSource narrowHost 100 (.initial .deaf) "loop" loopSource).1.toOption.isSome := by
    decide +kernel
  have hl : narrowHost.callLimit = some 2 := rfl
  exact ⟨hrun, fun fuel => (call_limit_is_a_cutoff hl).2.2.1 none nofun fuel _ _ _
    fun _ ht => runSource_not_exceeds hrun ht⟩

end MatchLang
