import MatchLang.Proofs.Session.Calling

/-! What a call does, as it is seen from outside. A call of a function of the prelude applies the values it has been
given to arguments, one application after another; all the rest it does for itself. -/

namespace MatchLang

/-- What is applied to what; what comes next may depend on the answer. -/
inductive Script where
  | answer (v : Value)
  | apply (callee : Value) (args : List Value) (next : Value → Script)

/-- How many frames the functions of the prelude need. -/
def Prelude.room : Nat := 5

/-- The call goes on in a frame of the module with the root `r`, in front of which there is no more than the room
that the prelude needs. The frame has a scope that was not there before the call. -/
structure Machine.Serves (c : CallSite) (r : Nat) (m : Machine) : Prop where
  above : c.machine.task.frames.depth < m.task.frames.depth
  room : m.task.frames.depth ≤ c.machine.task.frames.depth + Prelude.room
  waiting : m.waiting = c.machine.waiting
  home : m.frame.closure.home = r
  scope : c.machine.store.scopes.size ≤ m.frame.scope

/-- What a step leaves as it is that is nobody's business: the console, the roots and modules, and the scopes below
the given one. -/
structure Store.Minds (n : Nat) (σ τ : Store) : Prop where
  console : τ.console = σ.console
  roots : τ.roots = σ.roots
  modules : τ.modules = σ.modules
  slots : ∀ t i, t < n → τ.slot? t i = σ.slot? t i

/-- A step that has no effect outside of the call. If it is a call itself, it is one of `::` or of a function of the
module with the root `r`. -/
structure Machine.Works (host : Host) (c : CallSite) (r : Nat) (m m' : Machine) : Prop where
  step : m.step host = .running m'
  minds : m.store.Minds c.machine.store.scopes.size m'.store
  calls : ∀ line argc k, m.frame.rest = .mk line (.call argc) :: k →
    m.operands.head? = some (.constructor builtins.cons) ∨
      ∃ f, m.operands.head? = some (.function f) ∧ f.home = r

/-- What the call comes to that is about to be made; none, if it comes to no end. -/
def Machine.ComesTo (host : Host) (m : Machine) : Option Transition → Prop
  | some t => m.Concludes host t
  | none => ∀ t, ¬ m.Concludes host t

/-- The call goes on as the script says, and comes to the transition, or to no end because of an application that
comes to none. -/
inductive Machine.Enacts (host : Host) (c : CallSite) (r : Nat) : Script → Machine → Option Transition → Prop where
  | works {s m m' o} : m.Serves c r → m.Works host c r m' → Enacts host c r s m' o → Enacts host c r s m o
  | answers {v m} : m.Serves c r → m.step host = .running (c.answered m.store v) →
    Enacts host c r (.answer v) m (some (.running (c.answered m.store v)))
  | applies {callee args next σ v o} {d : CallSite} : d.machine.Serves c r → d.Calls callee args →
    d.machine.Concludes host (.running (d.answered σ v)) → Enacts host c r (next v) (d.answered σ v) o →
    Enacts host c r (.apply callee args next) d.machine o
  | stops {callee args next m f} {d : CallSite} : d.machine.Serves c r → d.Calls callee args →
    d.machine.Concludes host (.raised m f) →
    Enacts host c r (.apply callee args next) d.machine (some (.raised m f))
  | hangs {callee args next} {d : CallSite} : d.machine.Serves c r → d.Calls callee args →
    d.machine.ComesTo host none → Enacts host c r (.apply callee args next) d.machine none

/-- The call that is about to be made enters a function, which goes on as the script says. -/
def CallSite.Enacts (host : Host) (c : CallSite) (r : Nat) (s : Script) (o : Option Transition) : Prop :=
  ∃ m, c.machine.step host = .running m ∧ m.Enacts host c r s o

section

variable {host : Host} {c : CallSite} {r level : Nat} {s : Script} {m m' : Machine} {t u : Transition}
  {o o' : Option Transition}

/-- A call comes to its end once. -/
theorem Machine.EndsAt.unique (h : m.EndsAt host level t) (h' : m.EndsAt host level u) : t = u := by
  induction h with
  | ends hover =>
    cases h' with
    | ends _ => rfl
    | goes hs hlt _ =>
      rw [hs] at hover
      exact absurd hlt (Nat.not_lt.mpr hover)
  | goes hs hlt _ ih => exact ih (h'.after_step hs hlt)

theorem Machine.ComesTo.unique (h : m.ComesTo host o) (h' : m.ComesTo host o') : o = o' := by
  cases o with
  | none =>
    cases o' with
    | none => rfl
    | some u => exact absurd h' (h u)
  | some t =>
    cases o' with
    | none => exact absurd h (h' t)
    | some u => exact congrArg some (EndsAt.unique h h')

theorem Machine.Serves.nesting_lt (h : m.Serves c r) : c.machine.nesting < m.nesting := by
  rw [nesting, nesting, h.waiting]
  exact Nat.add_lt_add_right h.above _

theorem Machine.Enacts.serves (h : m.Enacts host c r s o) : m.Serves c r := by
  cases h with
  | works hm _ _ => exact hm
  | answers hm _ => exact hm
  | applies hm _ _ _ => exact hm
  | stops hm _ _ => exact hm
  | hangs hm _ _ => exact hm

/-- A call that goes on as a script says comes to its end where the script does. -/
theorem Machine.Enacts.endsAt (h : m.Enacts host c r s o) (ho : o = some t) :
    m.EndsAt host c.machine.nesting t := by
  induction h with
  | works _ hw h ih => exact .goes hw.step h.serves.nesting_lt (ih ho)
  | @answers v m _ hs =>
    cases ho
    rw [← hs]
    exact .ends (hs ▸ Nat.le_refl _)
  | applies hm _ hd _ ih => exact hd.trans (Nat.le_of_lt hm.nesting_lt) rfl hm.nesting_lt (ih ho)
  | stops hm _ hd =>
    cases ho
    exact hd.fault (Nat.le_of_lt hm.nesting_lt) rfl
  | hangs _ _ _ => cases ho

/-- It comes to no end if one of the applications comes to none. -/
theorem Machine.Enacts.endless (h : m.Enacts host c r s o) (ho : o = none) :
    ¬ m.EndsAt host c.machine.nesting t := by
  induction h with
  | works _ hw h ih => exact fun ht => ih ho (ht.after_step hw.step h.serves.nesting_lt)
  | answers _ _ => cases ho
  | applies hm _ hd _ ih =>
    intro ht
    obtain ⟨u, hu, hrest⟩ := ht.split (Nat.le_of_lt hm.nesting_lt)
    obtain rfl := hd.unique hu
    rcases hrest with rfl | ⟨m', he, -, hend⟩
    · exact absurd hm.nesting_lt (Nat.not_lt.mpr ht.isOver)
    · cases he
      exact ih ho hend
  | stops _ _ _ => cases ho
  | hangs hm _ hd =>
    intro ht
    obtain ⟨u, hu, -⟩ := ht.split (Nat.le_of_lt hm.nesting_lt)
    exact hd u hu

theorem CallSite.Enacts.comesTo (h : c.Enacts host r s o) : c.machine.ComesTo host o := by
  obtain ⟨m, hs, hm⟩ := h
  have hlt := hm.serves.nesting_lt
  cases o with
  | some t => exact .goes hs hlt (hm.endsAt rfl)
  | none => exact fun t ht => hm.endless rfl (ht.after_step hs hlt)

end

/-- A machine that some run comes by. -/
def Machine.WellFormed (m : Machine) : Prop :=
  ∃ κ h, m.Ok κ h

/-- From here the call goes on as the script says. -/
def Script.Leads (host : Host) (c : CallSite) (r : Nat) (s : Script) (m : Machine) : Prop :=
  m.WellFormed → ∃ o, m.Enacts host c r s o

section

variable {host : Host} {c : CallSite} {r : Nat} {s : Script} {m m' : Machine} {callee : Value} {args : List Value}
  {next : Value → Script} {v : Value}

theorem Machine.WellFormed.step (h : m.WellFormed) (hs : m.step host = .running m') : m'.WellFormed := by
  obtain ⟨κ, i, hm⟩ := h
  have hok := hm.step host
  rw [hs] at hok
  obtain ⟨κ', _, hm', _⟩ := hok
  exact ⟨κ', i, hm'⟩

theorem Machine.WellFormed.reaches (h : m.WellFormed) (hr : m.Reaches host m') : m'.WellFormed :=
  hr.preserves (fun _ _ hm hs => hm.step hs) h

namespace Script.Leads

theorem of_works (hm : m.Serves c r) (hw : m.Works host c r m') (h : s.Leads host c r m') :
    s.Leads host c r m := by
  intro hok
  obtain ⟨o, ho⟩ := h (hok.step hw.step)
  exact ⟨o, .works hm hw ho⟩

theorem of_answers (hm : m.Serves c r) (hs : m.step host = .running (c.answered m.store v)) :
    (Script.answer v).Leads host c r m :=
  fun _ => ⟨_, .answers hm hs⟩

/-- An application answers, or ends the call with a fault, or comes to no end. -/
theorem of_applies {d : CallSite} (hm : d.machine.Serves c r) (hd : d.Calls callee args)
    (h : ∀ v τ, d.machine.store.Beyond τ → (∃ κ, v.Ok κ ∧ ∀ c, builtinRegistry.Has c → κ.Has c) →
      (next v).Leads host c r (d.answered τ v)) :
    (Script.apply callee args next).Leads host c r d.machine := by
  intro hok
  by_cases hends : ∃ t, d.machine.Concludes host t
  · obtain ⟨t, ht⟩ := hends
    have hreaches : ∀ m', d.machine.Reaches host m' → m'.WellFormed := fun _ => hok.reaches
    obtain ⟨κ, i, hmok⟩ := hok
    rcases hmok.call_ends hd.rest hd.operands ht with ⟨v, τ, rfl, hτ, hv⟩ | ⟨m', f, rfl⟩
    · obtain ⟨o, ho⟩ := h v τ hτ ⟨κ, hv, hmok.store.builtin⟩ (hreaches _ (ht.reaches rfl))
      exact ⟨o, .applies hm hd ht ho⟩
    · exact ⟨_, .stops hm hd ht⟩
  · exact ⟨none, .hangs hm hd (not_exists.mp hends)⟩

end Script.Leads

/-- If the function that is entered goes on as the script says, then what the call comes to, it comes to in this way
and in no other. -/
theorem CallSite.enacts_iff (hok : c.machine.WellFormed) (hs : c.machine.step host = .running m)
    (h : s.Leads host c r m) (o : Option Transition) : c.machine.ComesTo host o ↔ c.Enacts host r s o := by
  obtain ⟨o', ho'⟩ := h (hok.step hs)
  have henacts : c.Enacts host r s o' := ⟨m, hs, ho'⟩
  constructor
  · intro ho
    rw [ho.unique henacts.comesTo]
    exact henacts
  · exact CallSite.Enacts.comesTo

end

end MatchLang
