import MatchLang.Proofs.Machine.Inversion
import MatchLang.Proofs.Session.Stores

/-! What a run complains of. Its steps print and read but never complain, so there is nothing among the errors of the
console but what is made of the end of a run. -/

namespace MatchLang

/-- Nothing is complained of on the way from one console to another. -/
structure Console.Hushed (c d : Console) : Prop where
  errors : d.errors = c.errors
  silent : d.silent = c.silent

namespace Console

variable {a b c d : Console} {s : String}

theorem Hushed.refl (c : Console) : c.Hushed c :=
  ⟨rfl, rfl⟩

theorem Hushed.trans (h : a.Hushed b) (h' : b.Hushed c) : a.Hushed c :=
  ⟨h'.errors.trans h.errors, h'.silent.trans h.silent⟩

theorem hushed_print : c.Hushed (c.print s) := by
  unfold print
  split
  · exact .refl c
  · exact ⟨rfl, rfl⟩

theorem hushed_read : c.Hushed c.read.2 := by
  unfold read
  cases c.input with
  | nil => exact .refl c
  | cons s rest => exact ⟨rfl, rfl⟩

/-- What has been complained of before does not change what is added. -/
theorem Hushed.complain (h : c.Hushed d) : (c.complain s).Hushed (d.complain s) := by
  unfold Console.complain
  rw [h.silent]
  split
  · exact h
  · exact ⟨congrArg (·.push s) h.errors, rfl⟩

end Console

section

open Console

variable {host : Host} {m : Machine} {t : Transition} {s : Setting} {saved : Option Nat} {σ : Store} {file : String}
  {delivery : Delivery} {f : Native} {args : List Value} {v : Value} {c d : Console}

theorem Native.run_hushed (h : f.run args c = .ok (v, d)) : c.Hushed d := by
  unfold run at h
  split at h
  · cases h
    exact hushed_print
  · rename_i w
    have hread : (c.print w.display).Hushed (c.print w.display).read.2 := hushed_read
    split at h
    · rename_i hr
      cases h
      rw [hr] at hread
      exact hushed_print.trans hread
    · rename_i hr
      cases h
      rw [hr] at hread
      exact hushed_print.trans hread
  · generalize hr : compute _ _ = r at h
    cases r with
    | ok w =>
      cases h
      exact .refl c
    | error e => cases h

theorem Setting.Changes.hushed (h : s.Changes saved σ) : s.store.console.Hushed σ.console := by
  cases h with
  | counts next => exact .refl _
  | computes hr => exact Native.run_hushed hr
  | saves v hs => exact .refl _
  | declares next hd => exact .refl _

namespace Machine

theorem deliver_hushed {source : Nat} : m.store.console.Hushed (m.deliver source delivery).store.console := by
  rw [deliver_eq, orRaise_store]
  exact .refl _

theorem Loaded.hushed (hl : m.Loaded host file delivery t) : m.store.console.Hushed t.store.console := by
  induction hl with
  | cached _ => exact deliver_hushed
  | faults _ => exact .refl _
  | begins _ _ _ => exact .refl _
  | equips _ _ _ _ _ _ ih => exact ih

/-- A step complains of nothing. -/
theorem step_hushed : m.store.console.Hushed (m.step host).store.console := by
  cases hr : m.frame.rest with
  | nil =>
    cases hc : m.task.frames.callers with
    | nil =>
      rw [step_nil hr hc]
      unfold finish
      cases m.waiting with
      | nil => exact .refl _
      | cons w ws =>
        let next : Machine :=
          { store := m.store.remember m.task.module m.task.root, task := w.task, waiting := ws }
        exact deliver_hushed (m := next)
    | cons g gs =>
      obtain ⟨frames, hp, -⟩ := Frames.pop?_cons (f := m.frame) (congrArg (m.frame :: ·) hc)
      rw [step_pop hr hp]
      exact .refl _
  | cons i k =>
    obtain ⟨line, op⟩ := i
    have ho : op.Outcome m.setting k (op.action m.setting line k) := op.action_outcome m.setting line k
    rw [step_eq_act hr]
    cases ha : op.action m.setting line k with
    | proceed σ os is =>
      rw [ha] at ho
      cases ho with
      | proceeds hc _ => exact hc.hushed
    | enter c os =>
      show m.store.console.Hushed ((m.resume m.store os line k).enter host c).store.console
      unfold enter
      split
      · split <;> exact .refl _
      · exact .refl _
    | restart => exact .refl _
    | load file delivery =>
      have hl : (m.resume m.store m.operands line k).Loaded host file delivery _ := load_loaded
      exact hl.hushed
    | fail σ os f =>
      rw [ha] at ho
      cases ho with
      | fails next => exact .refl _

theorem run_hushed (fuel : Nat) : m.store.console.Hushed (m.run host fuel).store.console := by
  induction fuel generalizing m with
  | zero => exact .refl _
  | succ fuel ih =>
    have hs : m.store.console.Hushed (m.step host).store.console := step_hushed
    rw [run]
    cases he : m.step host with
    | running m' =>
      rw [he] at hs
      exact hs.trans ih
    | finished σ v | raised m' f =>
      rw [he] at hs
      exact hs

end Machine

end

end MatchLang
