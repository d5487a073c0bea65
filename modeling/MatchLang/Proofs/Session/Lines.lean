import MatchLang.Proofs.Session.Frozen
import MatchLang.Proofs.Session.Scopes
import MatchLang.Proofs.Store.Beyond

/-! The lines of a session. They all save to the scope of their workspace, but each has slots of its own, since no
number is given out twice; so what has been saved by a line that has ended is not written to any more. -/

namespace MatchLang

/-- A function that is made on the way from one transition to another. -/
inductive Transition.Makes (t u : Transition) : Closure → Prop where
  | mk {m line code arity k} : t.Leads (.running m) → Transition.Leads (.running m) u →
    m.frame.rest = .mk line (.loadFunction code arity) :: k →
    Makes t u (m.frame.closure.inner m.store.nextIdentity m.frame.scope line code arity)

namespace Moment

/-- What a store was like in which nothing was running, and still is. No frame in one of its scopes saves to one of
its slots. -/
structure Retains (σ : Store) (a : Moment) : Prop where
  size : σ.scopes.size ≤ a.store.scopes.size
  nextSlot : σ.nextSlot ≤ a.store.nextSlot
  slots : ∀ t n, t < σ.scopes.size → n < σ.nextSlot → a.store.slot? t n = σ.slot? t n
  parents : ∀ t, t < σ.scopes.size → a.store.parent? t = σ.parent? t
  frames : ∀ f ∈ a.now.stack, f.scope < σ.scopes.size → ∀ n, f.closure.code.Saves n → σ.nextSlot ≤ n

end Moment

section

variable {host : Host} {m : Machine} {t : Transition} {σ : Store} {n : Nat}

theorem Machine.Adds.above (h : m.Adds t) (hn : n ≤ m.store.scopes.size) (hm : ∀ f ∈ m.stack, n ≤ f.scope) :
    ∀ f ∈ t.stack, n ≤ f.scope := by
  intro f hf
  rcases h.stack f hf with hf | hl
  · exact hm f hf
  · exact Nat.le_trans hn hl.begun.new

theorem Machine.equip_adds {withPrelude : Bool} : m.Adds (m.equip withPrelude) := by
  unfold Machine.equip
  split
  · have hl : m.Loaded bareHost preludeName .whole (m.loadPrelude .whole) := loadPrelude_loaded
    exact hl.adds
  · exact ⟨.refl _, fun _ h => h, fun _ hf => .inl hf⟩

theorem beginCode_begins {withPrelude : Bool} {module : String} {code : Code} :
    σ.After 0 none (fun _ => False) (beginCode σ withPrelude module code).store ∧
      ∀ f ∈ (beginCode σ withPrelude module code).stack, σ.scopes.size ≤ f.scope := by
  let m : Machine :=
    { store := (σ.newTask module code).2, task := (σ.newTask module code).1, waiting := [] }
  have hadds : m.Adds (m.equip withPrelude) := Machine.equip_adds
  have hroot : σ.After 0 none (fun _ => False) σ.newSeededRoot.2 := .of_scopes rfl (Nat.le_refl _)
  have hm : σ.After 0 none (fun _ => False) m.store := hroot.trans (.newScope nofun)
  exact ⟨hm.trans hadds.after, hadds.above hm.size (List.forall_mem_singleton.mpr (Nat.le_refl _))⟩

theorem idleMachine_begins :
    σ.After 0 none (fun _ => False) (idleMachine σ).store ∧ ∀ f ∈ (idleMachine σ).stack, σ.scopes.size ≤ f.scope := by
  have hroot : σ.After 0 none (fun _ => False) (σ.newRoot (.empty true)).2 := .of_scopes rfl (Nat.le_refl _)
  exact ⟨hroot.trans (.newScope nofun), List.forall_mem_singleton.mpr (Nat.le_refl _)⟩

end

namespace Moment

variable {allowed : Host → Prop} {texts : Prop} {a b : Moment} {σ : Store}

/-- What is not a step of a run saves nothing. What it begins runs in a scope of its own, or is a line, whose slots
have not been given out before. -/
theorem Next.begins_or_steps (hn : Next allowed texts a b) :
    (∃ m host, a.now = .running m ∧ b.now = m.step host) ∨
      a.store.After 0 none (fun _ => False) b.store ∧
        ∀ f ∈ b.now.stack, f ∈ a.now.stack ∨ a.store.scopes.size ≤ f.scope ∨
          ∀ n, f.closure.code.Saves n → a.store.nextSlot ≤ n := by
  cases hn with
  | @steps m ws host _ => exact .inl ⟨m, host, rfl, rfl⟩
  | @hears t ws console =>
    right
    cases t with
    | running m => exact ⟨.of_scopes rfl (Nat.le_refl _), fun f hf => .inl hf⟩
    | finished σ v => exact ⟨.of_scopes rfl (Nat.le_refl _), nofun⟩
    | raised m f => exact ⟨.of_scopes rfl (Nat.le_refl _), nofun⟩
  | @begins t ws p u hp =>
    right
    cases hp with
    | @module code next publishRoot withPrelude module hc =>
      have hnext : t.store.After 0 none (fun _ => False) { t.store with nextSlot := next } :=
        .of_scopes rfl (compile_between hc).1
      obtain ⟨hafter, hstack⟩ : Store.After 0 none (fun _ => False) { t.store with nextSlot := next } _ ∧ _ :=
        beginCode_begins
      exact ⟨hnext.trans hafter, fun f hf => .inr (.inl (hstack f hf))⟩
    | @line code next w publishRoot hc hw =>
      obtain ⟨hle, hslots⟩ := compile_between hc
      refine ⟨.of_scopes rfl hle, List.forall_mem_singleton.mpr (.inr (.inr fun n hs => ?_))⟩
      obtain ⟨slot, hb, rfl⟩ := hslots.saves hs
      exact hb.1
  | opens withPrelude module =>
    obtain ⟨hafter, hstack⟩ := beginCode_begins
    exact .inr ⟨hafter, fun f hf => .inr (.inl (hstack f hf))⟩
  | rescopes _ => exact .inr ⟨.newScope nofun, nofun⟩
  | @loads t ws host file _ =>
    obtain ⟨hafter, hstack⟩ : t.store.After 0 none (fun _ => False) _ ∧ _ := idleMachine_begins
    have hl : (idleMachine t.store).Loaded host file .whole _ := Machine.load_loaded
    exact .inr ⟨hafter.trans hl.after, fun f hf => .inr (.inl (hl.adds.above hafter.size hstack f hf))⟩
  | @takes t ws file source code next withPrelude _ hc =>
    obtain ⟨hafter, hstack⟩ : t.store.After 0 none (fun _ => False) _ ∧ _ := idleMachine_begins
    have hawait : (idleMachine t.store).Adds (.running ((idleMachine t.store).await .whole file code next)) :=
      Machine.await_adds hc
    have hequip : ((idleMachine t.store).await .whole file code next).Adds
        (((idleMachine t.store).await .whole file code next).equip withPrelude) := Machine.equip_adds
    have hboth := hafter.trans hawait.after
    exact .inr ⟨hboth.trans hequip.after, fun f hf =>
      .inr (.inl (hequip.above hboth.size (hawait.above hafter.size hstack) f hf))⟩

theorem Retains.refl {ws : List Workspace} {u : Transition} (hu : u.stack = []) : Retains u.store ⟨u, ws⟩ where
  size := Nat.le_refl _
  nextSlot := Nat.le_refl _
  slots _ _ _ _ := rfl
  parents _ _ := rfl
  frames f hf := by
    have hf : f ∈ u.stack := hf
    rw [hu] at hf
    cases hf

theorem Retains.after {scope : Nat} {saved : Option Nat} {around : Nat → Prop} (hs : Retains σ a)
    (h : a.store.After scope saved around b.store)
    (hsaved : scope < σ.scopes.size → ∀ n, saved = some n → σ.nextSlot ≤ n)
    (hframes : ∀ f ∈ b.now.stack, f.scope < σ.scopes.size → ∀ n, f.closure.code.Saves n → σ.nextSlot ≤ n) :
    Retains σ b where
  size := Nat.le_trans hs.size h.size
  nextSlot := Nat.le_trans hs.nextSlot h.nextSlot
  slots i n hi hn := by
    refine (h.slots i n fun he hsome => ?_).trans (hs.slots i n hi hn)
    exact absurd hn (Nat.not_lt.mpr (hsaved (he ▸ hi) n hsome))
  parents i hi := (h.parents i (Nat.lt_of_lt_of_le hi hs.size)).trans (hs.parents i hi)
  frames := hframes

/-- Nothing that comes next writes to what is retained. -/
theorem Retains.next (hs : Retains σ a) (ha : a.now.Settled) (hn : Next allowed texts a b) : Retains σ b := by
  rcases hn.begins_or_steps with ⟨m, host, hm, hb⟩ | ⟨hafter, hstack⟩
  · obtain ⟨t, ws⟩ := a
    obtain ⟨u, vs⟩ := b
    have hm : t = .running m := hm
    have hb : u = m.step host := hb
    subst hm hb
    have hself : m.store.Hosts m.frame := (Machine.Settled.closed ha).frames m.frame List.mem_cons_self
    refine hs.after (b := ⟨m.step host, vs⟩) m.step_after (fun hlt n hsaved => ?_) fun f hf hlt n hsaves => ?_
    · exact hs.frames m.frame List.mem_cons_self hlt n (hself.inCode.saves hsaved)
    · have hy : m.Yields (m.step host).store f := Machine.step_stack hf
      rcases hy.base with ⟨g, hg, hc, hscope⟩ | hb
      · exact hs.frames g hg (hscope ▸ hlt) n (hc ▸ hsaves)
      · exact absurd hlt (Nat.not_lt.mpr (Nat.le_trans hs.size hb.new))
  · refine hs.after hafter (fun _ _ => nofun) fun f hf hlt n hsaves => ?_
    rcases hstack f hf with hg | hb | hnew
    · exact hs.frames f hg hlt n hsaves
    · exact absurd hlt (Nat.not_lt.mpr (Nat.le_trans hs.size hb))
    · exact Nat.le_trans hs.nextSlot (hnew n hsaves)

theorem Retains.later (hs : Retains σ a) (ha : Occurs allowed texts a) (hl : Later allowed texts a b) : Retains σ b := by
  induction hl with
  | refl => exact hs
  | tail hl hn ih => exact ih.next (ha.later hl).settled hn

/-- What is found from a scope that is retained is what was found. -/
theorem Retains.lookup {scope n : Nat} (hs : Retains σ a) (hσ : σ.Closed) (ht : scope < σ.scopes.size)
    (hn : n < σ.nextSlot) : a.store.lookup scope n = σ.lookup scope n := by
  have hfrom : ∀ k i, i < σ.scopes.size →
      Store.lookupFrom a.store.scopes k i n = Store.lookupFrom σ.scopes k i n := by
    intro k
    induction k with
    | zero => exact fun _ _ => rfl
    | succ k ih =>
      intro i hi
      have hslot := hs.slots i n hi hn
      have hparent := hs.parents i hi
      obtain ⟨s, hsome⟩ : ∃ s, σ.scopes[i]? = some s := ⟨_, Array.getElem?_eq_getElem hi⟩
      obtain ⟨s', hsome'⟩ : ∃ s, a.store.scopes[i]? = some s :=
        ⟨_, Array.getElem?_eq_getElem (Nat.lt_of_lt_of_le hi hs.size)⟩
      rw [Store.slot?, Store.slot?, hsome, hsome', Option.bind_some, Option.bind_some] at hslot
      rw [Store.parent?, Store.parent?, hsome, hsome', Option.bind_some, Option.bind_some] at hparent
      rw [Store.lookupFrom, Store.lookupFrom, hsome, hsome']
      simp only [hslot, hparent]
      cases s.get? n with
      | some v => rfl
      | none =>
        cases hp : s.parent with
        | none => rfl
        | some p =>
          have hlt : p < i := hσ.parents i p (by rw [Store.parent?, hsome, Option.bind_some, hp])
          exact ih p (Nat.lt_trans hlt hi)
  exact hfrom (scope + 1) scope ht

/-- No scope and no slot is given back. -/
theorem Later.grows (hl : Later allowed texts a b) :
    a.store.scopes.size ≤ b.store.scopes.size ∧ a.store.nextSlot ≤ b.store.nextSlot := by
  induction hl with
  | refl => exact ⟨Nat.le_refl _, Nat.le_refl _⟩
  | @tail b d _ hn ih =>
    suffices h : b.store.scopes.size ≤ d.store.scopes.size ∧ b.store.nextSlot ≤ d.store.nextSlot from
      ⟨Nat.le_trans ih.1 h.1, Nat.le_trans ih.2 h.2⟩
    rcases hn.begins_or_steps with ⟨m, host, hm, hd⟩ | ⟨hafter, -⟩
    · unfold store
      rw [hm, hd]
      exact ⟨m.step_after.size, m.step_after.nextSlot⟩
    · exact ⟨hafter.size, hafter.nextSlot⟩

theorem Later.leads {t u : Transition} (hu : t.Leads u) (ws : List Workspace) :
    Later (fun _ => True) texts ⟨t, ws⟩ ⟨u, ws⟩ := by
  induction hu with
  | refl => exact .refl
  | step host _ ih => exact ih.tail (.steps trivial)
  | hears console _ ih => exact ih.tail (.hears console)

/-- What a program that begins in a session leads to is a moment of some session. -/
theorem Occurs.of_begins {σ : Store} {ws : List Workspace} {p : Program} {t u : Transition} (hs : Session σ ws)
    (hp : p.Begins σ ws t) (hu : t.Leads u) : ∃ vs, Occurs (fun _ => True) True ⟨u, vs⟩ := by
  obtain ⟨⟨t₀, vs⟩, ha, rfl, hw⟩ := hs.occurs
  exact ⟨vs, (ha.later (.single (.begins (hp.mono hw)))).later (.leads hu vs)⟩

/-- What a function that was made before a line ended finds at a later moment. -/
structure Remembers (u : Transition) (c : Closure) (b : Moment) : Prop where
  /-- Its scope and those around it hold what they held then in the slots that had been given out, -/
  holds : ∀ n, n < u.store.nextSlot → b.store.lookup c.scope n = u.store.lookup c.scope n
  /-- and that is what a call of it reads under a name that is resolved, unless it is a name of the call itself. -/
  reads : ∀ m host line slot k, b.now = .running m → m.frame.closure = c →
    m.frame.rest = .mk line (.loadLocal slot) :: k → ¬ c.code.Saves slot.id →
    m.step host = match u.store.lookup c.scope slot.id with
      | some v => .running (m.resume m.store (v :: m.operands) line k)
      | none => .raised (m.resume m.store m.operands line k) (.unassigned slot.name)
  /-- A name that is not resolved is looked up among the names that its module has by now, -/
  asks : ∀ m host line path k, b.now = .running m → m.frame.closure = c →
    m.frame.rest = .mk line (.loadName path) :: k →
    m.step host = match (b.store.root c.home).findValue path with
      | .ok v => .running (m.resume m.store (v :: m.operands) line k)
      | .error f => .raised (m.resume m.store m.operands line k) f
  /-- where each line that binds it puts another value. -/
  rebinds : ∀ m host line name v os k, b.now = .running m → m.task.root = c.home →
    m.frame.rest = .mk line (.publish name []) :: k → m.operands = v :: os →
    ∃ m', m.step host = .running m' ∧ (m'.store.root c.home).findValue [name] = .ok v

end Moment

section

open Moment

variable {p : Program} {publishRoot : Bool} {t u : Transition} {ws : List Workspace} {w : Workspace} {code : Code}
  {next : Nat} {c : Closure} {b : Moment} {texts : Prop}

/-- Where a frame does not have a slot itself, it is looked for from where its function was made. -/
theorem Machine.Settled.lookup_captured {m : Machine} (hm : m.Settled) {n : Nat}
    (hn : ¬ m.frame.closure.code.Saves n) :
    m.store.lookup m.frame.scope n = m.store.lookup m.frame.closure.scope n := by
  have hhosts : Activity.Hosts m.store.scopes (Base.of m.frame) := hm.apart.hosts _ List.mem_cons_self
  rcases hhosts with he | ⟨_, s, hs, hp⟩
  · exact congrArg (m.store.lookup · n) he
  · have hparent : m.store.parent? m.frame.scope = some m.frame.closure.scope :=
      Option.bind_eq_some_iff.mpr ⟨s, hs, hp⟩
    rcases hm.owns m.frame List.mem_cons_self with he | hown
    · rw [he]
    · refine Store.lookup_outer hm.closed.store.parents ?_ hparent
      cases hv : m.store.slot? m.frame.scope n with
      | none => rfl
      | some v => exact absurd (hown n v hv) hn

theorem Moment.Retains.remembers (hs : Retains u.store b) (hu : u.store.Closed) (hc : u.store.Admits c)
    (hb : Occurs (fun _ => True) texts b) : b.Remembers u c where
  holds n hn := hs.lookup hu hc.scope hn
  reads m host line slot k hm hclosure hr hsaves := by
    obtain ⟨now, ws⟩ := b
    have hm : now = .running m := hm
    subst hm hclosure
    have hset : m.Settled := hb.settled
    have hin : m.frame.InCode := (hset.closed.frames m.frame List.mem_cons_self).inCode
    have hslot : slot.id < u.store.nextSlot :=
      Code.everySlot_iff.mp hc.slots (.mk line (.loadLocal slot)) (hin.subset (hr ▸ List.mem_cons_self))
    have hlookup : m.store.lookup m.frame.scope slot.id = u.store.lookup m.frame.closure.scope slot.id :=
      (hset.lookup_captured hsaves).trans (hs.lookup hu hc.scope hslot)
    have hsetting : m.setting.store.lookup m.setting.scope slot.id = _ := hlookup
    rw [step_eq_act hr, Op.action, hsetting]
    cases u.store.lookup m.frame.closure.scope slot.id <;> rfl
  asks m host line path k hm hclosure hr := by
    obtain ⟨now, ws⟩ := b
    have hm : now = .running m := hm
    subst hm hclosure
    have hhome : m.setting.home = m.store.root m.frame.closure.home := rfl
    rw [step_eq_act hr, Op.action, hhome]
    show _ = match (m.store.root m.frame.closure.home).findValue path with
      | .ok v => _
      | .error f => _
    cases (m.store.root m.frame.closure.home).findValue path <;> rfl
  rebinds m host line name v os k hm hroot hr hos := by
    obtain ⟨now, ws⟩ := b
    have hm : now = .running m := hm
    subst hm
    have hlt : m.task.root < m.store.roots.size := hb.apart.runningIn m.task.owner List.mem_cons_self
    have hsetting : m.setting.operands = v :: os := hos
    refine ⟨m.resume (m.store.setRoot m.task.root ((m.store.root m.task.root).setValue name v)) os line k, ?_, ?_⟩
    · rw [step_eq_act hr, Op.action, Setting.pop, hsetting]
      rfl
    · rw [← hroot, Machine.resume_store, Store.root_setRoot, if_pos ⟨rfl, hlt⟩]
      refine Namespace.findValue_eq_ok.mpr ⟨name, rfl, ?_⟩
      have hvalue := @Namespace.valueAt?_setValue (m.store.root m.task.root) [] [] name name v rfl
      exact hvalue.trans (if_pos ⟨rfl, rfl⟩)

/-- A line has slots of its own. Once it has ended, in a value or in a fault, the functions that were made meanwhile
find under its names what they found then, whatever lines come later; only names that it has left open are those
of later lines. -/
theorem lines_keep_what_they_have_bound (ha : Occurs (fun _ => True) True ⟨t, ws⟩) (hw : w ∈ ws)
    (hc : p.compile publishRoot t.store.nextSlot = .ok (code, next))
    (hu : (Transition.running (w.begin { t.store with nextSlot := next } code)).Leads u)
    (hend : ∀ m, u ≠ .running m) :
    code.EverySlot (·.Between t.store.nextSlot next) ∧ next ≤ u.store.nextSlot ∧
      ∀ c, (Transition.running (w.begin { t.store with nextSlot := next } code)).Makes u c →
        ∀ b, Later (fun _ => True) True ⟨u, ws⟩ b → b.Remembers u c := by
  have hbegin : Occurs (fun _ => True) True
      ⟨.running (w.begin { t.store with nextSlot := next } code), ws⟩ :=
    ha.later (.single (.begins (.line publishRoot hc hw)))
  have hlater : Later (fun _ => True) True ⟨.running (w.begin { t.store with nextSlot := next } code), ws⟩ ⟨u, ws⟩ :=
    .leads hu ws
  have hended : Occurs (fun _ => True) True ⟨u, ws⟩ := hbegin.later hlater
  have hstack : u.stack = [] := by
    cases u with
    | running m => exact absurd rfl (hend m)
    | finished σ v => rfl
    | raised m f => rfl
  refine ⟨(compile_between hc).2, (Later.grows hlater).2, fun c hmakes b hl => ?_⟩
  obtain ⟨hm, hmu, hr⟩ := hmakes
  rename_i m l body arity k
  have hmade : m.store.Admits (m.frame.closure.inner m.store.nextIdentity m.frame.scope l body arity) :=
    Machine.Closed.inner (Machine.Settled.closed (hbegin.later (.leads hm ws)).settled) hr
  have hrest : Later (fun _ => True) True ⟨.running m, ws⟩ ⟨u, ws⟩ := .leads hmu ws
  have hadmits : u.store.Admits _ := hmade.mono hrest.grows.1 hrest.grows.2
  exact ((Retains.refl hstack).later hended hl).remembers hended.settled.store hadmits (hended.later hl)

/-- The line `let x = "a" let f = { y -> x }`. -/
def captureLine : Program :=
  { imports := []
    root := .mk ⟨0, [], 1⟩ true
      [.binding (.name 1 "x" 1) (.result (.literal (.text "a") 1)) false,
        .binding (.name 2 "f" 1) (.result (.function [.name 3 "y" 1] (.result (.name ⟨4, ["x"], 1⟩)) 1)) false]
    trailing := none }

/-- The line `let x = "b"`. -/
def rebindLine : Program :=
  { imports := []
    root := .mk ⟨0, [], 1⟩ true [.binding (.name 1 "x" 1) (.result (.literal (.text "b") 1)) false]
    trailing := none }

/-- The line `(f "c")`. -/
def callLine : Program :=
  { imports := []
    root := .mk ⟨0, [], 1⟩ true []
    trailing := some { callee := .name ⟨1, ["f"], 1⟩, args := [.literal (.text "c") 1], line := 1 } }

def captureBody : Code :=
  .mk [.mk 1 (.saveLocal ⟨2, "y", 1⟩), .mk 1 (.loadLocal ⟨0, "x", 1⟩)] []

def captureCode : Code :=
  .mk [.mk 1 (.loadText "a"), .mk 1 .duplicate, .mk 1 (.publish "x" []), .mk 1 (.saveLocal ⟨0, "x", 1⟩),
    .mk 1 (.loadFunction captureBody 1), .mk 1 .duplicate, .mk 1 (.publish "f" []),
    .mk 1 (.saveLocal ⟨1, "f", 1⟩)] []

def rebindCode : Code :=
  .mk [.mk 1 (.loadText "b"), .mk 1 .duplicate, .mk 1 (.publish "x" []), .mk 1 (.saveLocal ⟨3, "x", 1⟩)] []

def callCode : Code :=
  .mk [.mk 1 (.loadText "c"), .mk 1 (.loadName ["f"]), .mk 1 (.call 1)] []

def lineSpace : Workspace :=
  .next (.initial .deaf) "repl"

/-- The machine after some steps, if it goes on for as long. -/
def Machine.later (m : Machine) (steps : Nat) : Machine :=
  (m.walk bareHost steps).getD m

def captureMachine : Machine :=
  lineSpace.begin { ((Store.initial .deaf).newTask "repl" .empty).2 with nextSlot := 3 } captureCode

def rebindMachine : Machine :=
  lineSpace.begin { (captureMachine.later 8).store with nextSlot := 4 } rebindCode

def callMachine : Machine :=
  lineSpace.begin { (rebindMachine.later 4).store with nextSlot := 4 } callCode

/-- When `x` has another value in the session, `f` still has the one that it was made with. -/
theorem f_keeps_its_x : ∃ (c : Closure) (m : Machine),
    Transition.Makes (.running captureMachine) (.finished (captureMachine.later 8).store none) c ∧
      Later (fun _ => True) True ⟨.finished (captureMachine.later 8).store none, [lineSpace]⟩
        ⟨.running m, [lineSpace]⟩ ∧
      m.frame.closure = c ∧ (m.store.root c.home).findValue ["x"] = .ok (.text "b") ∧
      m.step bareHost = .running (m.resume m.store [.text "a"] 1 []) := by
  let σ : Store := ((Store.initial .deaf).newTask "repl" .empty).2
  have hopened : Occurs (fun _ => True) True ⟨.finished σ none, [lineSpace]⟩ :=
    ⟨.deaf, .head (.opens false "repl") (.single (@Next.steps (fun _ => True) True _ _ bareHost trivial))⟩
  have hfirst : captureMachine.walk bareHost 4 = some (captureMachine.later 4) := rfl
  have hwalk : captureMachine.walk bareHost 8 = some (captureMachine.later 8) := rfl
  have hrest : (captureMachine.later 4).walk bareHost 4 = some (captureMachine.later 8) := rfl
  have hu : Transition.Leads (.running captureMachine) (.finished (captureMachine.later 8).store none) :=
    .step bareHost (Transition.Leads.refl.reaches ⟨8, hwalk⟩)
  have hmakes : Transition.Makes (.running captureMachine) (.finished (captureMachine.later 8).store none) _ :=
    .mk (m := captureMachine.later 4) (Transition.Leads.refl.reaches ⟨4, hfirst⟩)
      (.step bareHost (Transition.Leads.refl.reaches ⟨4, hrest⟩)) rfl
  have hcompile₂ : rebindLine.compile true (captureMachine.later 8).store.nextSlot = .ok (rebindCode, 4) := rfl
  have hwalk₂ : rebindMachine.walk bareHost 4 = some (rebindMachine.later 4) := rfl
  have hu₂ : Transition.Leads (.running rebindMachine) (.finished (rebindMachine.later 4).store none) :=
    .step bareHost (Transition.Leads.refl.reaches ⟨4, hwalk₂⟩)
  have hrebind : Later (fun _ => True) True ⟨.finished (captureMachine.later 8).store none, [lineSpace]⟩
      ⟨.finished (rebindMachine.later 4).store none, [lineSpace]⟩ :=
    .head (.begins (.line true hcompile₂ List.mem_cons_self)) (Moment.Later.leads hu₂ [lineSpace])
  have hcompile₃ : callLine.compile true (rebindMachine.later 4).store.nextSlot = .ok (callCode, 4) := rfl
  have hwalk₃ : callMachine.walk bareHost 4 = some (callMachine.later 4) := rfl
  have hcall : Later (fun _ => True) True ⟨.finished (rebindMachine.later 4).store none, [lineSpace]⟩
      ⟨.running (callMachine.later 4), [lineSpace]⟩ :=
    .head (.begins (.line true hcompile₃ List.mem_cons_self)) (Moment.Later.walk trivial hwalk₃ [lineSpace])
  have hcompile : captureLine.compile true σ.nextSlot = .ok (captureCode, 3) := rfl
  have hkept := (lines_keep_what_they_have_bound hopened List.mem_cons_self hcompile hu nofun).2.2 _ hmakes _
    (hrebind.trans hcall)
  have hsaves : ¬ captureBody.Saves 0 := by
    rintro ⟨i, hi, hs⟩
    rcases List.mem_cons.mp hi with rfl | hi
    · cases hs
    · rw [List.mem_singleton.mp hi] at hs
      cases hs
  refine ⟨_, _, hmakes, hrebind.trans hcall, rfl, rfl, ?_⟩
  exact hkept.reads _ bareHost 1 ⟨0, "x", 1⟩ [] rfl rfl rfl hsaves

end

end MatchLang
