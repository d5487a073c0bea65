import Mathlib.Logic.Relation
import MatchLang.Proofs.Machine.Walk

/-! How runs end, for any way of taking a step. What counts of an end is the store and the value, or the
fault without the trace that it quotes. -/

namespace MatchLang

/-- A fault without the report of the module that it came up in. -/
def Fault.kind : Fault → Fault
  | .moduleRun file _ => .moduleRun file ""
  | f => f

structure Outcome where
  store : Store
  result : Except Fault (Option Value)

def Ending.outcome? : Ending → Option Outcome
  | .finished store v => some { store, result := .ok v }
  | .failed store e => some { store, result := .error e.fault.kind }
  | .cut _ => none

namespace Machine

/-- Run for at most the given number of steps, each of them given by `next`. -/
def runBy (next : Machine → Transition) : Nat → Machine → Ending
  | 0, m => .cut m
  | n + 1, m =>
    match next m with
    | .running m => runBy next n m
    | .finished store v => .finished store v
    | .raised m f => .failed m.store (m.failure f)

/-- A run comes to its end. -/
inductive Ends (next : Machine → Transition) : Machine → Outcome → Prop where
  | finished {m store v} : next m = .finished store v → Ends next m { store, result := .ok v }
  | failed {m m' f} : next m = .raised m' f →
    Ends next m { store := m'.store, result := .error (m'.failure f).fault.kind }
  | goes {m m' o} : next m = .running m' → Ends next m' o → Ends next m o

/-- One step that goes on. -/
def Goes (next : Machine → Transition) (m m' : Machine) : Prop :=
  next m = .running m'

end Machine

def Transition.followBy (next : Machine → Transition) (fuel : Nat) : Transition → Ending
  | .running m => m.runBy next fuel
  | .finished store v => .finished store v
  | .raised m f => .failed m.store (m.failure f)

section

open Relation

variable {next : Machine → Transition} {host : Host} {m m' : Machine} {n : Nat} {o : Outcome}

theorem Machine.run_eq_runBy : m.run host n = m.runBy (Machine.step host) n := by
  induction n generalizing m with
  | zero => rfl
  | succ n ih =>
    rw [Machine.run, Machine.runBy]
    cases m.step host with
    | running m' => exact ih
    | finished store v => rfl
    | raised m' f => rfl

theorem Transition.follow_eq_followBy {t : Transition} :
    t.follow host n = t.followBy (Machine.step host) n := by
  cases t with
  | running m => exact Machine.run_eq_runBy
  | finished store v => rfl
  | raised m f => rfl

/-- A run comes to its end when some number of steps is enough for it. -/
theorem Machine.ends_iff : m.Ends next o ↔ ∃ n, (m.runBy next n).outcome? = some o := by
  constructor
  · intro h
    induction h with
    | finished h => exact ⟨1, by rw [Machine.runBy, h]; rfl⟩
    | failed h => exact ⟨1, by rw [Machine.runBy, h]; rfl⟩
    | goes h _ ih =>
      obtain ⟨n, hn⟩ := ih
      exact ⟨n + 1, by rw [Machine.runBy, h]; exact hn⟩
  · rintro ⟨n, hn⟩
    induction n generalizing m with
    | zero => cases hn
    | succ n ih =>
      rw [Machine.runBy] at hn
      cases hs : next m with
      | running m' =>
        rw [hs] at hn
        exact .goes hs (ih hn)
      | finished store v =>
        rw [hs] at hn
        cases hn
        exact .finished hs
      | raised m' f =>
        rw [hs] at hn
        cases hn
        exact .failed hs

/-- Steps are determined, so a run ends as it does from any machine on its way. -/
theorem Machine.Ends.of_goes (hg : ReflTransGen (Goes next) m m') :
    m.Ends next o ↔ m'.Ends next o := by
  induction hg with
  | refl => exact Iff.rfl
  | @tail m₁ m₂ _ hs ih =>
    rw [ih]
    have hs : next m₁ = .running m₂ := hs
    constructor
    · intro h
      cases h with
      | finished h =>
        rw [hs] at h
        cases h
      | failed h =>
        rw [hs] at h
        cases h
      | goes h he =>
        rw [hs] at h
        cases h
        exact he
    · exact .goes hs

end

end MatchLang
