import MatchLang.Proofs.Machine.Action
import MatchLang.Proofs.Machine.Outcome
import MatchLang.Proofs.Machine.Preservation

/-! Restarting the running function against calling it. A machine that calls has the same frames as one
that restarts, and below some of them others that have nothing left to do but to reach the end of their
code. -/

namespace MatchLang

/-- A step of a machine on which a function calls itself instead of restarting. -/
def Machine.stepCalling (host : Host) (m : Machine) : Transition :=
  match m.frame.rest with
  | .mk line (.tailCall argc) :: k =>
    ((m.resume m.store m.operands line k).push (.function m.frame.closure)).call host argc
  | _ => m.step host

/-- The frame restarts itself with all its arguments only, and only where nothing is left to do. -/
def Frame.RestartsLast (f : Frame) : Prop :=
  ∀ line argc k, f.rest = .mk line (.tailCall argc) :: k →
    argc = f.closure.arity ∧ Idle f.closure.code k

/-- Two frames are at the same place of the same activation. -/
structure Frame.Like (f g : Frame) : Prop where
  closure : g.closure = f.closure
  scope : g.scope = f.scope
  rest : g.rest = f.rest

/-- The second frames are the first with others in between that have nothing left to do. -/
inductive Stretched : List Frame → List Frame → Prop where
  | nil : Stretched [] []
  | frame {f g fs gs} : f.Like g → Stretched fs gs → Stretched (f :: fs) (g :: gs)
  | idle {g fs gs} : Idle g.closure.code g.rest → Stretched fs gs → Stretched fs (g :: gs)

structure Task.Mimics (t u : Task) : Prop where
  module : u.module = t.module
  root : u.root = t.root
  operands : u.operands = t.operands
  current : t.frames.current.Like u.frames.current
  callers : Stretched t.frames.callers u.frames.callers

structure Suspended.Mimics (w v : Suspended) : Prop where
  task : w.task.Mimics v.task
  delivery : v.delivery = w.delivery

/-- The second machine is the first with idle frames. -/
structure Machine.Mimics (m n : Machine) : Prop where
  store : n.store = m.store
  task : m.task.Mimics n.task
  waiting : List.Forall₂ Suspended.Mimics m.waiting n.waiting

inductive Transition.Mimics : Transition → Transition → Prop where
  | running {m n} : m.Mimics n → Mimics (.running m) (.running n)
  | finished {store v} : Mimics (.finished store v) (.finished store v)
  | raised {m n f} : n.store = m.store → (n.failure f).fault.kind = (m.failure f).fault.kind →
    Mimics (.raised m f) (.raised n f)

section

open Relation

variable {host : Host} {m n : Machine} {t u : Task} {σ : Store} {os : List Value} {line : Nat}
  {k : List Instr}

theorem Frame.Like.refl (f : Frame) : f.Like f :=
  ⟨rfl, rfl, rfl⟩

theorem Task.Mimics.refl (h : t.frames.callers = []) : t.Mimics t :=
  ⟨rfl, rfl, rfl, .refl _, h ▸ .nil⟩

/-- Idle frames are seen in the trace only. -/
theorem unwind_kind {f g : Fault} {ws vs : List Suspended} (hm : u.module = t.module)
    (hf : g.kind = f.kind) (hw : List.Forall₂ Suspended.Mimics ws vs) :
    (unwind u g vs).fault.kind = (unwind t f ws).fault.kind := by
  induction hw generalizing t u f g with
  | nil => exact hf
  | cons hw _ ih =>
    rw [unwind, unwind]
    refine ih hw.task.module ?_
    rw [hm]
    rfl

namespace Machine.Mimics

theorem raise {f : Fault} (h : m.Mimics n) : Transition.Mimics (m.raise f) (n.raise f) :=
  .raised h.store (unwind_kind h.task.module rfl h.waiting)

theorem setting_eq (h : m.Mimics n) : n.setting = m.setting := by
  have hc : n.frame.closure = m.frame.closure := h.task.current.closure
  have hs : n.frame.scope = m.frame.scope := h.task.current.scope
  have ho : n.operands = m.operands := h.task.operands
  unfold Machine.setting
  rw [h.store, hc, hs, ho, h.task.root]

theorem resume (h : m.Mimics n) : (m.resume σ os line k).Mimics (n.resume σ os line k) where
  store := rfl
  task := ⟨h.task.module, h.task.root, rfl, ⟨h.task.current.closure, h.task.current.scope, rfl⟩,
    h.task.callers⟩
  waiting := h.waiting

theorem updateStore (h : m.Mimics n) (change : Store → Store) :
    (m.updateStore change).Mimics (n.updateStore change) where
  store := congrArg change h.store
  task := h.task
  waiting := h.waiting

theorem pushFrame (h : m.Mimics n) (c : Closure) : (m.pushFrame c).Mimics (n.pushFrame c) where
  store := congrArg (fun σ : Store => (σ.newScope (some c.scope)).2) h.store
  task := by
    have hs : n.store.scopes.size = m.store.scopes.size := by rw [h.store]
    exact ⟨h.task.module, h.task.root, h.task.operands, ⟨rfl, hs, rfl⟩,
      .frame h.task.current h.task.callers⟩
  waiting := h.waiting

theorem enter (h : m.Mimics n) (hl : host.callLimit = none) (c : Closure) :
    Transition.Mimics (m.enter host c) (n.enter host c) := by
  unfold Machine.enter
  rw [hl]
  exact .running (h.pushFrame c)

theorem deliver (h : m.Mimics n) (source : Nat) (delivery : Delivery) :
    Transition.Mimics (m.deliver source delivery) (n.deliver source delivery) := by
  cases delivery with
  | whole =>
    unfold Machine.deliver
    rw [h.task.root, h.store]
    exact .running (h.updateStore _)
  | entry path =>
    simp only [Machine.deliver]
    rw [h.task.root, h.store]
    generalize (m.store.root source).importEntry (m.store.root m.task.root) path = r
    obtain ⟨ns, fault⟩ := r
    cases fault with
    | none => exact .running (h.updateStore _)
    | some f => exact (h.updateStore _).raise

theorem suspend (h : m.Mimics n) (delivery : Delivery) (file : String) (code : Code) :
    (m.suspend delivery file code).Mimics (n.suspend delivery file code) := by
  unfold Machine.suspend
  rw [h.store]
  exact ⟨rfl, .refl rfl, .cons ⟨h.task, rfl⟩ h.waiting⟩

theorem loadPrelude (h : m.Mimics n) (delivery : Delivery) :
    Transition.Mimics (m.loadPrelude delivery) (n.loadPrelude delivery) := by
  unfold Machine.loadPrelude
  generalize preludeSource = source
  rw [h.store]
  cases m.store.module? preludeName with
  | some root => exact h.deliver root delivery
  | none =>
    cases compileModule preludeName source m.store.nextSlot with
    | ok r => exact .running ((h.updateStore _).suspend delivery preludeName r.1)
    | error f => exact h.raise

theorem load (h : m.Mimics n) (file : String) (delivery : Delivery) :
    Transition.Mimics (m.load host file delivery) (n.load host file delivery) := by
  unfold Machine.load
  rw [h.store]
  cases m.store.module? file with
  | some root => exact h.deliver root delivery
  | none =>
    simp only
    split
    · exact h.loadPrelude delivery
    · cases host.read (joinPath host.appRoot file) with
      | error e => exact h.raise
      | ok source =>
        simp only
        cases compileModule file source m.store.nextSlot with
        | error f => exact h.raise
        | ok r =>
          have hs := (h.updateStore fun s => { s with nextSlot := r.2 }).suspend delivery file r.1
          simp only
          split
          · exact hs.loadPrelude .whole
          · exact .running hs

/-- The end of a task has nothing to do with its frames. -/
theorem finish (h : m.Mimics n) (frames : Frames) :
    Transition.Mimics m.finish (n.withFrames frames).finish := by
  have hs : (n.withFrames frames).store = m.store := h.store
  have ho : (n.withFrames frames).operands = m.operands := h.task.operands
  have hm : (n.withFrames frames).task.module = m.task.module := h.task.module
  have hr : (n.withFrames frames).task.root = m.task.root := h.task.root
  have hw : List.Forall₂ Suspended.Mimics m.waiting (n.withFrames frames).waiting := h.waiting
  rw [Machine.finish, Machine.finish, hs, ho, hm, hr]
  generalize m.waiting = ws, (n.withFrames frames).waiting = vs at hw
  cases hw with
  | nil => exact .finished
  | @cons w v ws vs hw hs =>
    have hm : Machine.Mimics
        { store := m.store.remember m.task.module m.task.root, task := w.task, waiting := ws }
        { store := m.store.remember m.task.module m.task.root, task := v.task, waiting := vs } :=
      ⟨rfl, hw.task, hs⟩
    simp only
    rw [hw.delivery]
    exact hm.deliver m.task.root w.delivery

/-- What an instruction comes to is done in the same way. -/
theorem act (h : m.Mimics n) (hl : host.callLimit = none) {a : Action} (ha : a ≠ .restart) :
    Transition.Mimics (m.act host line k a) (n.act host line k a) := by
  cases a with
  | proceed σ os is => exact .running h.resume
  | enter c os =>
    unfold Machine.act
    rw [h.store]
    exact h.resume.enter hl c
  | restart => exact absurd rfl ha
  | load file delivery =>
    have ho : n.operands = m.operands := h.task.operands
    unfold Machine.act
    rw [h.store, ho]
    exact h.resume.load file delivery
  | fail σ os f => exact h.resume.raise

end Machine.Mimics

theorem stepCalling_of_nil (h : m.frame.rest = []) : m.stepCalling host = m.step host := by
  unfold Machine.stepCalling
  rw [h]

theorem stepCalling_of_ne {op : Op} (h : m.frame.rest = .mk line op :: k)
    (hop : ∀ argc, op ≠ .tailCall argc) : m.stepCalling host = m.step host := by
  unfold Machine.stepCalling
  rw [h]
  cases op with
  | tailCall argc => exact absurd rfl (hop argc)
  | _ => rfl

/-- A function that calls itself with all its arguments begins anew in front of its frame. -/
theorem stepCalling_tailCall {argc : Nat} (h : m.frame.rest = .mk line (.tailCall argc) :: k)
    (ha : argc = m.frame.closure.arity) (hl : host.callLimit = none) :
    m.stepCalling host =
      .running ((m.resume m.store m.operands line k).pushFrame m.frame.closure) := by
  have he : m.stepCalling host =
      ((m.resume m.store m.operands line k).push (.function m.frame.closure)).call host argc := by
    unfold Machine.stepCalling
    rw [h]
  have hc : ((m.resume m.store m.operands line k).push (.function m.frame.closure)).call host argc =
      if argc = m.frame.closure.arity then
        (m.resume m.store m.operands line k).enter host m.frame.closure
      else if argc < m.frame.closure.arity then
        ((m.resume m.store m.operands line k).push (.function m.frame.closure)).hold
          (.function m.frame.closure) argc m.operands
      else
        ((m.resume m.store m.operands line k).push (.function m.frame.closure)).raise
          (.tooManyArguments (Value.function m.frame.closure).display) := rfl
  rw [he, hc, if_pos ha, Machine.enter, hl]

/-- Idle code is run to its end, and nothing but the place in it changes. -/
theorem Idle.goes {c : Code} {is : List Instr} (host : Host) (line : Nat) (hi : Idle c is)
    (hc : m.frame.closure.code = c) :
    ∃ line', ReflTransGen (Machine.Goes (Machine.stepCalling host)) (m.resume σ os line is)
      (m.resume σ os line' []) := by
  induction hi generalizing line with
  | done => exact ⟨line, .refl⟩
  | @nothing l k _ ih =>
    obtain ⟨line', hr⟩ := ih l
    exact ⟨line', .head (show Machine.Goes _ _ (m.resume σ os l k) from rfl) hr⟩
  | @jump l label k target ht _ ih =>
    obtain ⟨line', hr⟩ := ih l
    refine ⟨line', .head (b := m.resume σ os l target) ?_ hr⟩
    show (m.resume σ os l k).jump label = .running (m.resume σ os l target)
    rw [Machine.jump, Machine.resume_closure, hc, ht]
    rfl

/-- A function that ends returns through the idle frames below it, up to the last of them. -/
theorem Stretched.goes {fs gs : List Frame} (host : Host) (hs : Stretched fs gs)
    (hc : n.task.frames.callers = gs) (hr : n.frame.rest = []) :
    ∃ frames : Frames, ReflTransGen (Machine.Goes (Machine.stepCalling host)) n (n.withFrames frames) ∧
      frames.current.rest = [] ∧
      (fs = [] ∧ frames.callers = [] ∨
        ∃ f fs' g gs', fs = f :: fs' ∧ frames.callers = g :: gs' ∧ f.Like g ∧ Stretched fs' gs') := by
  induction hs generalizing n with
  | nil => exact ⟨n.task.frames, .refl, hr, .inl ⟨rfl, hc⟩⟩
  | @frame f g fs gs hf hs _ =>
    exact ⟨n.task.frames, .refl, hr, .inr ⟨f, fs, g, gs, rfl, hc, hf, hs⟩⟩
  | @idle g fs gs hi _ ih =>
    have ht : n.task.frames.toList = n.frame :: g :: gs := congrArg (n.frame :: ·) hc
    obtain ⟨frames, hp, hfs⟩ := Frames.pop?_cons ht
    have hg : (n.withFrames frames).frame = g := (List.cons.inj hfs).1
    have hgs : (n.withFrames frames).task.frames.callers = gs := (List.cons.inj hfs).2
    have hpop : Machine.Goes (Machine.stepCalling host) n (n.withFrames frames) := by
      rw [Machine.Goes, stepCalling_of_nil hr]
      exact Machine.step_pop hr hp
    have hi' : Idle (n.withFrames frames).frame.closure.code (n.withFrames frames).frame.rest := by
      rw [hg]
      exact hi
    obtain ⟨line', hrun⟩ : ∃ line', ReflTransGen (Machine.Goes (Machine.stepCalling host))
        (n.withFrames frames) ((n.withFrames frames).resume n.store n.operands line' []) :=
      hi'.goes host (n.withFrames frames).frame.line rfl
    obtain ⟨frames', hend, hrest⟩ :=
      ih (n := (n.withFrames frames).resume n.store n.operands line' []) hgs rfl
    exact ⟨frames', .head hpop (hrun.trans hend), hrest⟩

/-- Where one machine takes a step, the other comes to a step that leads to the same. -/
theorem Machine.Mimics.step (h : m.Mimics n) (hl : host.callLimit = none)
    (hm : m.frame.RestartsLast) :
    ∃ n', ReflTransGen (Goes (stepCalling host)) n n' ∧
      Transition.Mimics (m.step host) (n'.stepCalling host) := by
  have hrest : n.frame.rest = m.frame.rest := h.task.current.rest
  cases hr : m.frame.rest with
  | nil =>
    obtain ⟨frames, hgo, hend, hcs⟩ := h.task.callers.goes host rfl (hrest.trans hr)
    refine ⟨n.withFrames frames, hgo, ?_⟩
    have hend : (n.withFrames frames).frame.rest = [] := hend
    rw [stepCalling_of_nil hend]
    rcases hcs with ⟨hm₀, hn₀⟩ | ⟨f, fs, g, gs, hf, hg, hfg, hs⟩
    · rw [step_nil hr hm₀, step_nil hend hn₀]
      exact h.finish frames
    · obtain ⟨back, hp, hback⟩ := Frames.pop?_cons (f := m.frame) (congrArg (m.frame :: ·) hf)
      have hg : frames.toList = frames.current :: g :: gs := congrArg (frames.current :: ·) hg
      obtain ⟨back', hp', hback'⟩ := Frames.pop?_cons hg
      obtain ⟨rfl, rfl⟩ := List.cons.inj hback
      obtain ⟨rfl, rfl⟩ := List.cons.inj hback'
      rw [step_pop hr hp, step_pop hend hp']
      exact .running
        ⟨h.store, ⟨h.task.module, h.task.root, h.task.operands, hfg, hs⟩, h.waiting⟩
  | cons i k =>
    obtain ⟨line, op⟩ := i
    have hn : n.frame.rest = .mk line op :: k := hrest.trans hr
    refine ⟨n, .refl, ?_⟩
    by_cases hop : ∃ argc, op = .tailCall argc
    · obtain ⟨argc, rfl⟩ := hop
      obtain ⟨ha, hi⟩ := hm line argc k hr
      have hc : n.frame.closure = m.frame.closure := h.task.current.closure
      have hs : n.store.scopes.size = m.store.scopes.size := by rw [h.store]
      have hstep : m.step host =
          .running (m.resume m.store m.operands line k).restarted := by
        have hact : Op.action m.setting line k (.tailCall argc) = .restart := if_pos ha.symm
        rw [step_eq_act hr, hact]
        rfl
      rw [hstep, stepCalling_tailCall hn (ha.trans (by rw [hc])) hl, hc]
      refine .running ⟨?_, ⟨h.task.module, h.task.root, h.task.operands, ⟨rfl, hs, rfl⟩, ?_⟩,
        h.waiting⟩
      · exact congrArg (fun σ : Store => (σ.newScope (some m.frame.closure.scope)).2) h.store
      · refine .idle ?_ h.task.callers
        show Idle n.frame.closure.code k
        rw [hc]
        exact hi
    · have hop : ∀ argc, op ≠ .tailCall argc := not_exists.mp hop
      rw [stepCalling_of_ne hn hop, step_eq_act hr, step_eq_act hn, h.setting_eq]
      refine h.act hl fun hr => ?_
      have hs : (op.action m.setting line k).Stays m.setting op.saved? := Op.action_stays hop
      rw [hr] at hs
      exact hs

/-- A machine comes to the end that the other comes to, or takes a step of which the other takes some. -/
theorem Machine.Mimics.ends_or_step {o : Outcome} (h : m.Mimics n) (hl : host.callLimit = none)
    (hm : m.frame.RestartsLast) (he : n.Ends (stepCalling host) o) :
    m.Ends (Machine.step host) o ∨ ∃ m' n', m.step host = .running m' ∧ m'.Mimics n' ∧
      TransGen (Goes (stepCalling host)) n n' := by
  obtain ⟨n₁, hgo, ht⟩ := h.step hl hm
  have he₁ : n₁.Ends (stepCalling host) o := (Ends.of_goes hgo).mp he
  generalize hs : m.step host = t, hu : n₁.stepCalling host = u at ht
  cases ht with
  | running hmn => exact .inr ⟨_, _, rfl, hmn, .tail' hgo hu⟩
  | finished =>
    cases he₁ with
    | finished h₁ =>
      rw [hu] at h₁
      cases h₁
      exact .inl (.finished hs)
    | failed h₁ | goes h₁ _ =>
      rw [hu] at h₁
      cases h₁
  | raised hstore hkind =>
    cases he₁ with
    | failed h₁ =>
      rw [hu] at h₁
      cases h₁
      rw [hstore, hkind]
      exact .inl (.failed hs)
    | finished h₁ | goes h₁ _ =>
      rw [hu] at h₁
      cases h₁

/-- One step of the first machine may be many of the second, so the induction is about all machines on the
way of the second. -/
theorem Machine.Mimics.ends_of_calling {n₁ : Machine} {o : Outcome}
    (he : n₁.Ends (stepCalling host) o) (hgo : ReflTransGen (Goes (stepCalling host)) n₁ n)
    (h : m.Mimics n) (hl : host.callLimit = none)
    (hm : ∀ m', m.Reaches host m' → m'.frame.RestartsLast) : m.Ends (Machine.step host) o := by
  have hn : n.Ends (stepCalling host) o := (Ends.of_goes hgo).mp he
  induction he generalizing m n with
  | finished hs | failed hs =>
    rcases h.ends_or_step hl (hm m (.refl m)) hn with hend | ⟨m', n', hstep, hmn, hmore⟩
    · exact hend
    · obtain ⟨b, hb, _⟩ := TransGen.head'_iff.mp (TransGen.trans_right hgo hmore)
      have hb : _ = Transition.running b := hb
      rw [hs] at hb
      cases hb
  | @goes n₁ n₂ o hs _ ih =>
    rcases h.ends_or_step hl (hm m (.refl m)) hn with hend | ⟨m', n', hstep, hmn, hmore⟩
    · exact hend
    · obtain ⟨b, hb, hrest⟩ := TransGen.head'_iff.mp (TransGen.trans_right hgo hmore)
      have hb : _ = Transition.running b := hb
      rw [hs] at hb
      cases hb
      exact .goes hstep
        (ih hrest hmn (fun m₁ h₁ => hm m₁ (.head hstep h₁)) ((Ends.of_goes hmore.to_reflTransGen).mp hn))

/-- A machine ends as one does that restarts where it calls. -/
theorem Machine.Mimics.ends {o : Outcome} (h : m.Mimics n) (hl : host.callLimit = none)
    (hm : ∀ m', m.Reaches host m' → m'.frame.RestartsLast) :
    m.Ends (Machine.step host) o ↔ n.Ends (Machine.stepCalling host) o := by
  refine ⟨fun he => ?_, fun he => ends_of_calling he .refl h hl hm⟩
  induction he generalizing n with
  | finished hs =>
    obtain ⟨n', hgo, ht⟩ := h.step hl (hm _ (.refl _))
    rw [hs] at ht
    generalize hu : n'.stepCalling host = u at ht
    cases ht
    exact (Ends.of_goes hgo).mpr (.finished hu)
  | failed hs =>
    obtain ⟨n', hgo, ht⟩ := h.step hl (hm _ (.refl _))
    rw [hs] at ht
    generalize hu : n'.stepCalling host = u at ht
    cases ht with
    | raised hstore hkind =>
      rw [← hstore, ← hkind]
      exact (Ends.of_goes hgo).mpr (.failed hu)
  | goes hs _ ih =>
    obtain ⟨n', hgo, ht⟩ := h.step hl (hm _ (.refl _))
    rw [hs] at ht
    generalize hu : n'.stepCalling host = u at ht
    cases ht with
    | running hmn =>
      have he := ih hmn fun m₁ h₁ => hm m₁ (.head hs h₁)
      exact (Ends.of_goes hgo).mpr (.goes hu he)

end

end MatchLang
