import Mathlib.Logic.Relation
import MatchLang.Proofs.Machine.Inversion
import MatchLang.Proofs.Session.Visibility

/-! The moments of a session, those in the middle of a run included. A run goes on step by step, and may be
given up for another; the stores of a session are those of its moments. -/

namespace MatchLang

/-- A machine that begins with the prelude, or without it. -/
def Machine.equip (m : Machine) (withPrelude : Bool) : Transition :=
  if withPrelude then m.loadPrelude .whole else .running m

def Transition.hear (console : Console) : Transition → Transition
  | .running m => .running (m.updateStore fun s => { s with console })
  | .finished σ v => .finished { σ with console } v
  | .raised m f => .raised (m.updateStore fun s => { s with console }) f

/-- What is going on in a session, and the workspaces that have been opened. -/
structure Moment where
  now : Transition
  spaces : List Workspace

namespace Moment

def store (a : Moment) : Store :=
  a.now.store

def start (console : Console) : Moment :=
  { now := .finished (.initial console) none, spaces := [] }

/-- What can come next, with the hosts that are allowed: a step of the run, a message, or a run that takes
the place of the one before, whether that has ended or not. Texts may be allowed in place of files. -/
inductive Next (allowed : Host → Prop) (texts : Prop) : Moment → Moment → Prop where
  | steps {m ws host} : allowed host → Next allowed texts ⟨.running m, ws⟩ ⟨m.step host, ws⟩
  | hears {t ws} (console : Console) : Next allowed texts ⟨t, ws⟩ ⟨t.hear console, ws⟩
  | begins {t ws p u} : Program.Begins p t.store ws u → Next allowed texts ⟨t, ws⟩ ⟨u, ws⟩
  | opens {t ws} (withPrelude : Bool) (module : String) :
    Next allowed texts ⟨t, ws⟩
      ⟨beginCode t.store withPrelude module .empty, .next t.store module :: ws⟩
  | rescopes {t ws w} : w ∈ ws →
    Next allowed texts ⟨t, ws⟩ ⟨.finished (w.withNewScope t.store).2 none,
      (w.withNewScope t.store).1 :: ws⟩
  | loads {t ws host} (file : String) : allowed host →
    Next allowed texts ⟨t, ws⟩ ⟨(idleMachine t.store).load host file .whole, ws⟩
  | takes {t ws file source code next} (withPrelude : Bool) : texts →
    compileModule file source t.store.nextSlot = .ok (code, next) →
    Next allowed texts ⟨t, ws⟩
      ⟨((idleMachine t.store).await .whole file code next).equip withPrelude, ws⟩

def Later (allowed : Host → Prop) (texts : Prop) : Moment → Moment → Prop :=
  Relation.ReflTransGen (Next allowed texts)

/-- What can come next in a session of texts. -/
inductive Turns : Moment → Moment → Prop where
  | steps {m ws} (host : Host) : Turns ⟨.running m, ws⟩ ⟨m.step host, ws⟩
  | hears {t ws} (console : Console) : Turns ⟨t, ws⟩ ⟨t.hear console, ws⟩
  | reads {t ws source p u} : Program.read source = .ok p → p.Begins t.store ws u → Turns ⟨t, ws⟩ ⟨u, ws⟩
  | opens {t ws} (withPrelude : Bool) (module : String) :
    Turns ⟨t, ws⟩ ⟨beginCode t.store withPrelude module .empty, .next t.store module :: ws⟩
  | rescopes {t ws w} : w ∈ ws →
    Turns ⟨t, ws⟩ ⟨.finished (w.withNewScope t.store).2 none, (w.withNewScope t.store).1 :: ws⟩
  | loads {t ws} (host : Host) (file : String) : Turns ⟨t, ws⟩ ⟨(idleMachine t.store).load host file .whole, ws⟩
  | takes {t ws file source code next} (withPrelude : Bool) :
    compileModule file source t.store.nextSlot = .ok (code, next) →
    Turns ⟨t, ws⟩ ⟨((idleMachine t.store).await .whole file code next).equip withPrelude, ws⟩

/-- A moment that comes about in some session. -/
def Occurs (allowed : Host → Prop) (texts : Prop) (a : Moment) : Prop :=
  ∃ console, Later allowed texts (start console) a

structure Ok (a : Moment) : Prop where
  now : ∃ κ h, a.now.Ok κ h a.store
  spaces : ∀ w ∈ a.spaces, w.In a.store

end Moment

section

variable {κ : Registry} {h : Nat} {σ : Store} {t : Transition} {m : Machine} {w : Workspace}
  {host : Host} {fuel : Nat} {ws : List Workspace} {file : String}

theorem Transition.Ok.sound (ht : t.Ok κ h σ) : ∃ κ', t.store.Sound κ' := by
  cases t with
  | running m =>
    obtain ⟨κ', _, hm, _⟩ := ht
    exact ⟨κ', hm.store⟩
  | finished τ v => exact ⟨κ, ht.1⟩
  | raised m f => exact ⟨κ, ht.1⟩

theorem Transition.Ok.from_self (ht : t.Ok κ h σ) : t.Ok κ h t.store := by
  cases t with
  | running m =>
    obtain ⟨κ', hκ, hm, _⟩ := ht
    exact ⟨κ', hκ, hm, .refl _⟩
  | finished τ v => exact ⟨ht.1, .refl _, ht.2.2⟩
  | raised m f => exact ⟨ht.1, .refl _, ht.2.2⟩

theorem Transition.Ok.hear (console : Console) (ht : t.Ok κ h σ) : (t.hear console).Ok κ h σ := by
  have hg : ∀ τ : Store, τ.Grows { τ with console } := fun τ => .of_eq rfl rfl
  have hs : ∀ {κ : Registry} {τ : Store}, τ.Sound κ → Store.Sound κ { τ with console } :=
    fun hτ => hτ.congr rfl rfl (Nat.le_refl _)
  cases t with
  | running m =>
    obtain ⟨κ', hκ, hm, hgm⟩ := ht
    exact ⟨κ', hκ, hm.updateStore (hs hm.store) (hg _), hgm.trans (hg _)⟩
  | finished τ v => exact ⟨hs ht.1, ht.2.1.trans (hg _), ht.2.2⟩
  | raised m f => exact ⟨hs ht.1, ht.2.1.trans (hg _), ht.2.2⟩

theorem Machine.Ok.equip (hm : m.Ok κ h) (withPrelude : Bool) :
    (m.equip withPrelude).Ok κ h m.store := by
  unfold Machine.equip
  split
  · exact hm.loadPrelude
  · exact hm.running (.refl _)

theorem Workspace.next_in {module : String} {code : Code} :
    (Workspace.next σ module).In (σ.newTask module code).2 := by
  constructor
  · show σ.roots.size < (σ.roots.push _).size
    rw [Array.size_push]
    exact Nat.lt_succ_self _
  · show σ.scopes.size < (σ.scopes.push _).size
    rw [Array.size_push]
    exact Nat.lt_succ_self _

end

namespace Moment

variable {allowed : Host → Prop} {texts : Prop} {a b : Moment}

theorem start_ok (console : Console) : (start console).Ok where
  now := ⟨builtinRegistry, 0, Store.initial_sound console, .refl _, by simp⟩
  spaces := nofun

/-- What comes next is well-formed, and nothing is lost. -/
theorem Next.ok (hn : Next allowed texts a b) (ha : a.Ok) : b.Ok ∧ a.store.Grows b.store := by
  obtain ⟨⟨κ, h, hok⟩, hws⟩ := ha
  have hdone : ∀ {b : Moment} {κ' : Registry} {h' : Nat}, b.now.Ok κ' h' a.store →
      (∀ w ∈ b.spaces, w ∈ a.spaces ∨ w.In b.store) → b.Ok ∧ a.store.Grows b.store := by
    intro b κ' h' hb hsp
    have hg : a.store.Grows b.store := hb.grows
    refine ⟨⟨⟨κ', h', hb.from_self⟩, fun w hw => ?_⟩, hg⟩
    rcases hsp w hw with hw | hw
    · exact (hws w hw).mono hg
    · exact hw
  have hsame : ∀ {t : Transition} {κ' : Registry} {h' : Nat}, t.Ok κ' h' a.store →
      Moment.Ok ⟨t, a.spaces⟩ ∧ a.store.Grows t.store :=
    fun ht => hdone (b := ⟨_, a.spaces⟩) ht fun w hw => .inl hw
  obtain ⟨κ', hσ⟩ := hok.sound
  cases hn with
  | @steps m ws host _ =>
    obtain ⟨κ₁, _, hm, _⟩ := hok
    exact hsame (hm.step host)
  | hears console => exact hsame (hok.hear console)
  | begins hp => exact hsame (hp.ok hσ hws)
  | @opens t ws withPrelude module =>
    have hb := (beginCode_ok hσ (balanced_empty) : (beginCode t.store withPrelude module .empty).Ok
      κ' 0 (t.store.newTask module .empty).2)
    refine hdone (hb.of_grows (.newTask module .empty)) fun w hw => ?_
    rcases List.mem_cons.mp hw with rfl | hw
    · exact .inr (Workspace.next_in.mono hb.grows)
    · exact .inl hw
  | @rescopes t ws w hw =>
    have ht : Transition.Ok κ' 0 t.store (.finished (w.withNewScope t.store).2 none) :=
      ⟨hσ.newScope, .newScope, by simp⟩
    refine hdone ht fun v hv => ?_
    rcases List.mem_cons.mp hv with rfl | hv
    · exact .inr ⟨(hws w hw).root, Nat.lt_of_lt_of_eq (Nat.lt_succ_self _) Store.size_newScope.symm⟩
    · exact .inl hv
  | loads file _ => exact hsame ((idleMachine_ok hσ).load.of_grows .idleMachine)
  | @takes t ws file source code next withPrelude _ hc =>
    have hm : ((idleMachine t.store).await .whole file code next).Ok κ' 0 :=
      (idleMachine_ok hσ).await hc
    exact hsame ((hm.equip withPrelude).of_grows (.trans .idleMachine .await))

theorem Later.ok (hl : Later allowed texts a b) (ha : a.Ok) : b.Ok ∧ a.store.Grows b.store := by
  induction hl with
  | refl => exact ⟨ha, .refl _⟩
  | tail _ hn ih =>
    obtain ⟨hb, hg⟩ := hn.ok ih.1
    exact ⟨hb, ih.2.trans hg⟩

theorem Occurs.ok (ha : Occurs allowed texts a) : a.Ok := by
  obtain ⟨console, hl⟩ := ha
  exact (hl.ok (start_ok console)).1

theorem Occurs.later (ha : Occurs allowed texts a) (hl : Later allowed texts a b) :
    Occurs allowed texts b := by
  obtain ⟨console, h⟩ := ha
  exact ⟨console, h.trans hl⟩

theorem Turns.next (h : Turns a b) : Next (fun _ => True) True a b := by
  cases h with
  | steps host => exact .steps trivial
  | hears console => exact .hears console
  | reads _ hp => exact .begins hp
  | opens withPrelude module => exact .opens withPrelude module
  | rescopes hw => exact .rescopes hw
  | loads host file => exact .loads file trivial
  | takes withPrelude hc => exact .takes withPrelude trivial hc

end Moment

section

open Moment Relation

variable {allowed : Host → Prop} {texts : Prop} {host : Host} {fuel : Nat} {σ : Store}
  {ws : List Workspace} {t : Transition} {m : Machine} {w : Workspace} {file : String}

theorem Moment.Later.walk {m' : Machine} {n : Nat} (hh : allowed host)
    (hw : m.walk host n = some m') (ws : List Workspace) :
    Later allowed texts ⟨.running m, ws⟩ ⟨.running m', ws⟩ := by
  induction n generalizing m with
  | zero =>
    cases hw
    exact .refl
  | succ n ih =>
    rw [Machine.walk] at hw
    cases hs : m.step host with
    | running m₁ =>
      rw [hs] at hw
      exact .head (hs ▸ .steps hh) (ih hw)
    | finished τ v =>
      rw [hs] at hw
      cases hw
    | raised m₁ f =>
      rw [hs] at hw
      cases hw

/-- A run that is followed goes on step by step. -/
theorem Transition.follow_steps {R : Moment → Moment → Prop} (t : Transition) (ws : List Workspace) (fuel : Nat)
    (hR : ∀ m, R ⟨.running m, ws⟩ ⟨m.step host, ws⟩) :
    ∃ u, ReflTransGen R ⟨t, ws⟩ ⟨u, ws⟩ ∧ u.store = (t.follow host fuel).store := by
  have hrun : ∀ (fuel : Nat) (m : Machine), ∃ u, ReflTransGen R ⟨.running m, ws⟩ ⟨u, ws⟩ ∧
      u.store = (m.run host fuel).store := by
    intro fuel
    induction fuel with
    | zero => exact fun m => ⟨.running m, .refl, rfl⟩
    | succ fuel ih =>
      intro m
      rw [Machine.run]
      cases hs : m.step host with
      | running m' =>
        obtain ⟨u, hl, hu⟩ := ih m'
        exact ⟨u, .head (hs ▸ hR m) hl, hu⟩
      | finished τ v => exact ⟨_, .single (hR m), by rw [hs]; rfl⟩
      | raised m' f => exact ⟨_, .single (hR m), by rw [hs]; rfl⟩
  cases t with
  | running m => exact hrun fuel m
  | finished τ v => exact ⟨_, .refl, rfl⟩
  | raised m f => exact ⟨_, .refl, rfl⟩

theorem Transition.follow_later (allowed : Host → Prop) (texts : Prop) (host : Host)
    (hh : allowed host) (t : Transition) (ws : List Workspace) (fuel : Nat) :
    ∃ u, Later allowed texts ⟨t, ws⟩ ⟨u, ws⟩ ∧ u.store = (t.follow host fuel).store :=
  follow_steps t ws fuel fun _ => .steps hh

theorem settle_turns (host : Host) (t : Transition) (ws : List Workspace) (fuel : Nat) :
    ∃ u, ReflTransGen Turns ⟨t, ws⟩ ⟨u, ws⟩ ∧ u.store = (settle (t.follow host fuel)).2 := by
  obtain ⟨u, hl, hu⟩ := Transition.follow_steps (R := Turns) t ws fuel fun _ => .steps host
  cases he : t.follow host fuel with
  | finished τ v => exact ⟨u, hl, by rw [hu, he]; rfl⟩
  | cut m => exact ⟨u, hl, by rw [hu, he]; rfl⟩
  | failed τ f =>
    have hτ : u.store = τ := by rw [hu, he]; rfl
    refine ⟨u.hear (τ.console.complain f.report), hl.tail (.hears _), ?_⟩
    subst hτ
    cases u <;> rfl

theorem openWorkspace_follow (host : Host) (fuel : Nat) (σ : Store) (withPrelude : Bool)
    (module : String) :
    (openWorkspace host fuel σ withPrelude module).2 =
        ((beginCode σ withPrelude module .empty).follow host fuel).store ∧
      ∀ w ∈ (openWorkspace host fuel σ withPrelude module).1.toOption, w = .next σ module := by
  unfold openWorkspace
  simp only
  cases (beginCode σ withPrelude module .empty).follow host fuel with
  | finished τ v => exact ⟨rfl, fun w hw => (Option.some.inj hw).symm⟩
  | failed τ f => exact ⟨rfl, nofun⟩
  | cut m => exact ⟨rfl, nofun⟩

/-- Every store of a session is that of a moment that texts lead to. -/
theorem Session.turns (hs : Session σ ws) :
    ∃ console a, ReflTransGen Turns (start console) a ∧ a.store = σ ∧ ∀ w ∈ ws, w ∈ a.spaces := by
  induction hs with
  | begins console => exact ⟨console, start console, .refl, rfl, nofun⟩
  | hears console _ ih =>
    obtain ⟨first, ⟨t, vs⟩, ha, rfl, hw⟩ := ih
    refine ⟨first, ⟨t.hear console, vs⟩, ha.tail (.hears console), ?_, hw⟩
    cases t <;> rfl
  | runs host fuel module source _ ih =>
    obtain ⟨first, ⟨t, vs⟩, ha, rfl, hw⟩ := ih
    unfold runSource beginSource
    cases hc : compileText source false (Moment.store ⟨t, vs⟩).nextSlot with
    | error e => exact ⟨first, _, ha, rfl, hw⟩
    | ok r =>
      obtain ⟨code, next⟩ := r
      obtain ⟨p, hr, hp⟩ := compileText_eq_ok hc
      obtain ⟨u, hl, hu⟩ := settle_turns host
        (beginCode { t.store with nextSlot := next } host.withPrelude module code) vs fuel
      exact ⟨first, ⟨u, vs⟩, (ha.tail (.reads hr (.module false host.withPrelude module hp))).trans hl, hu, hw⟩
  | opens host fuel withPrelude module _ ih =>
    obtain ⟨first, ⟨t, vs⟩, ha, rfl, hw⟩ := ih
    obtain ⟨u, hl, hu⟩ := Transition.follow_steps (R := Turns) (beginCode t.store withPrelude module .empty)
      (.next t.store module :: vs) fuel fun _ => .steps host
    obtain ⟨hstore, hnext⟩ := openWorkspace_follow host fuel t.store withPrelude module
    refine ⟨first, _, (ha.tail (.opens withPrelude module)).trans hl, hu.trans hstore.symm, fun w hm => ?_⟩
    rcases List.mem_append.mp hm with hm | hm
    · exact hnext w (Option.mem_toList.mp hm) ▸ List.mem_cons_self
    · exact List.mem_cons_of_mem _ (hw w hm)
  | @rescopes σ ws w _ hm ih =>
    obtain ⟨first, ⟨t, vs⟩, ha, rfl, hw⟩ := ih
    exact ⟨first, _, ha.tail (.rescopes (hw w hm)), rfl, fun v hv =>
      (List.mem_cons.mp hv).elim (· ▸ List.mem_cons_self)
        fun hv => List.mem_cons_of_mem _ (hw v hv)⟩
  | @continues σ ws w host fuel line _ hm ih =>
    obtain ⟨first, ⟨t, vs⟩, ha, rfl, hw⟩ := ih
    unfold Workspace.runLine Workspace.beginLine
    cases hc : compileText line true (Moment.store ⟨t, vs⟩).nextSlot with
    | error e => exact ⟨first, _, ha, rfl, hw⟩
    | ok r =>
      obtain ⟨code, next⟩ := r
      obtain ⟨p, hr, hp⟩ := compileText_eq_ok hc
      obtain ⟨u, hl, hu⟩ := settle_turns host
        (.running (w.begin { t.store with nextSlot := next } code)) vs fuel
      exact ⟨first, ⟨u, vs⟩, (ha.tail (.reads hr (.line true hp (hw w hm)))).trans hl, hu, hw⟩
  | loads host fuel file _ ih =>
    obtain ⟨first, ⟨t, vs⟩, ha, rfl, hw⟩ := ih
    obtain ⟨u, hl, hu⟩ := Transition.follow_steps (R := Turns) ((idleMachine t.store).load host file .whole) vs fuel
      fun _ => .steps host
    exact ⟨first, ⟨u, vs⟩, (ha.tail (.loads host file)).trans hl, hu.trans settleModule_store.symm, hw⟩
  | takes host fuel file source _ ih =>
    obtain ⟨first, ⟨t, vs⟩, ha, rfl, hw⟩ := ih
    unfold loadText
    cases hc : compileModule file source (Moment.store ⟨t, vs⟩).nextSlot with
    | error f => exact ⟨first, _, ha, rfl, hw⟩
    | ok r =>
      obtain ⟨code, next⟩ := r
      obtain ⟨u, hl, hu⟩ := Transition.follow_steps (R := Turns)
        (((idleMachine t.store).await .whole file code next).equip host.withPrelude) vs fuel fun _ => .steps host
      exact ⟨first, ⟨u, vs⟩, (ha.tail (.takes host.withPrelude hc)).trans hl, hu.trans settleModule_store.symm, hw⟩

/-- Every store of a session is that of a moment. -/
theorem Session.occurs (hs : Session σ ws) :
    ∃ a, Occurs (fun _ => True) True a ∧ a.store = σ ∧ ∀ w ∈ ws, w ∈ a.spaces := by
  obtain ⟨console, a, hl, hstore, hws⟩ := hs.turns
  exact ⟨a, ⟨console, hl.lift id fun _ _ => Turns.next⟩, hstore, hws⟩

end

end MatchLang
