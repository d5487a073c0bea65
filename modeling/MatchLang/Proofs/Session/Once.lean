import MatchLang.Proofs.Machine.Fetching
import MatchLang.Proofs.Session.Frozen

/-! Modules are run once. In a session whose modules all come from the files of one host, and whose imports are
without circles, a module that has been loaded stays, and a load that fails leaves nothing behind. -/

namespace MatchLang

/-- That modules are run once, as it shows at one moment. -/
structure Moment.LoadsOnce (host : Host) (a : Moment) : Prop where
  /-- All tasks but the last load modules, no two the same one. -/
  distinct : (a.now.tasks.dropLast.map (·.module)).Nodup
  /-- None of these modules is there yet. -/
  uncached : ∀ t ∈ a.now.tasks.dropLast, a.store.module? t.module = none
  /-- A module that is there is not loaded again. Who asks for it gets the root that it has. -/
  stays : ∀ file root b, a.store.module? file = some root → Later (· = host) False a b →
    b.store.module? file = some root ∧ b.store.root root = a.store.root root ∧
      (∀ t ∈ b.now.tasks.dropLast, t.module ≠ file) ∧
      (∀ fuel, (loadModule host (fuel + 1) b.store file).1 = .ok (some root)) ∧
      ∀ m delivery, b.now = .running m → m.load host file delivery = m.deliver root delivery
  /-- A module that has been loaded is there. -/
  loads : ∀ file fuel root, (loadModule host fuel a.store file).1 = .ok (some root) →
    ∃ t, Later (· = host) False a ⟨t, a.spaces⟩ ∧ t.store = (loadModule host fuel a.store file).2 ∧
      t.store.module? file = some root
  /-- A load that ends has either loaded the module or failed. -/
  ends : ∀ file fuel, (loadModule host fuel a.store file).1 = .ok none →
    ∃ m, ((idleMachine a.store).load host file .whole).follow host fuel = .cut m
  /-- A module is not there after a load that has failed, -/
  fails : ∀ file fuel fault, (loadModule host fuel a.store file).1 = .error fault →
    (loadModule host fuel a.store file).2.module? file = none
  /-- be it in the middle of other loads, -/
  unwinds : ∀ m fault, a.now = .raised m fault →
    ∀ t ∈ m.tasks.dropLast, a.store.module? t.module = none
  /-- or because its text cannot be run. -/
  refuses : ∀ m file delivery m' fault, a.now = .running m → m.store.module? file = none →
    m.load host file delivery = .raised m' fault → m'.store.module? file = none

section

variable {host : Host} {m : Machine} {t : Transition} {file : String} {root : Nat} {σ : Store}
  {ms : List (String × Nat)} {ts : List Task} {delivery : Delivery}

theorem Nest.distinct (ha : host.Acyclic) (hn : Nest host ms ts) :
    (ts.dropLast.map (·.module)).Nodup := by
  induction ts with
  | nil => exact .nil
  | cons t ts ih =>
    cases ts with
    | nil => exact .nil
    | cons u ts =>
      refine List.nodup_cons.mpr ⟨fun hmem => ?_, ih hn.tail⟩
      obtain ⟨v, hv, he⟩ := List.mem_map.mp hmem
      have he : v.module = t.module := he
      have hpath : Relation.TransGen host.Needs v.module t.module := hn.needed v hv
      exact ha.needs t.module (he ▸ hpath)

theorem Machine.nested_of_nil (hw : m.waiting = []) : m.Nested host := by
  unfold Nested tasks
  rw [hw]
  trivial

theorem Machine.Loaded.nested (hl : m.Loaded host file delivery t) (hw : m.waiting = []) :
    t.Nested host :=
  (nested_of_nil hw).loaded hl fun hne => absurd hw hne

theorem beginCode_nested (host : Host) (σ : Store) (withPrelude : Bool) (module : String)
    (code : Code) :
    (beginCode σ withPrelude module code).Nested host ∧
      (beginCode σ withPrelude module code).store.modules = σ.modules := by
  let m : Machine :=
    { store := (σ.newTask module code).2, task := (σ.newTask module code).1, waiting := [] }
  have hm : (m.equip withPrelude).Nested host ∧ (m.equip withPrelude).store.modules = m.store.modules := by
    unfold Machine.equip
    split
    · have hl : m.Loaded host preludeName .whole (m.loadPrelude .whole) := Machine.loadPrelude_loaded
      exact ⟨hl.nested rfl, hl.modules⟩
    · exact ⟨trivial, rfl⟩
  exact hm

theorem Transition.Nested.hear {console : Console} (ht : t.Nested host) : (t.hear console).Nested host := by
  cases t with
  | running m => exact ht
  | finished τ v => trivial
  | raised m f => exact ht

theorem Transition.Nested.uncached (ht : t.Nested host) :
    ∀ u ∈ t.tasks.dropLast, t.store.module? u.module = none := by
  cases t with
  | running m => exact Machine.Nested.uncached ht
  | finished τ v => exact nofun
  | raised m f => exact nofun

theorem Transition.Nested.distinct (ha : host.Acyclic) (ht : t.Nested host) :
    (t.tasks.dropLast.map (·.module)).Nodup := by
  cases t with
  | running m => exact Nest.distinct ha ht
  | finished τ v => exact .nil
  | raised m f => exact .nil

theorem Machine.load_cached (hf : m.store.module? file = some root) :
    m.load host file delivery = m.deliver root delivery := by
  unfold load
  rw [hf]

theorem loadModule_cached (hf : σ.module? file = some root) (fuel : Nat) :
    (loadModule host (fuel + 1) σ file).1 = .ok (some root) := by
  have hidle : (idleMachine σ).store.module? file = some root := hf
  let m : Machine := (idleMachine σ).received root .whole
  have hload : (idleMachine σ).load host file .whole = .running m := by
    rw [Machine.load_cached hidle, Machine.deliver_eq]
    rfl
  have hm : m.store.module? file = some root := hf
  have hstep : m.step host = .finished m.store none := rfl
  unfold loadModule Transition.follow
  rw [hload]
  show (settleModule file (m.run host (fuel + 1))).1 = _
  rw [Machine.run, hstep]
  exact congrArg Except.ok hm

end

namespace Moment

variable {host : Host} {a b : Moment} {file : String} {root : Nat}

theorem Next.nested (ha : host.Acyclic) (hn : Next (· = host) False a b) (hok : a.Ok)
    (ht : a.now.Nested host) :
    b.now.Nested host ∧
      ∀ file root, a.store.module? file = some root → b.store.module? file = some root := by
  have hsame : ∀ {σ τ : Store}, τ.modules = σ.modules →
      ∀ file root, σ.module? file = some root → τ.module? file = some root := by
    intro σ τ he file root hf
    show Table.get? τ.modules file = some root
    rw [he]
    exact hf
  -- All but a step begins a run of its own, with one task or what a load puts before it.
  cases hn with
  | @steps m ws host' hh =>
    cases hh
    obtain ⟨_, _, κ, _, hm, _⟩ := hok.now
    exact ⟨Machine.Nested.step ha hm ht, fun file root hf => Machine.Nested.step_module? ht hf⟩
  | @hears t ws console =>
    refine ⟨ht.hear, hsame ?_⟩
    cases t <;> rfl
  | begins hp =>
    cases hp with
    | @module code next publishRoot withPrelude module _ =>
      obtain ⟨hn, hm⟩ := beginCode_nested host _ withPrelude module code
      exact ⟨hn, hsame hm⟩
    | line publishRoot _ _ => exact ⟨trivial, hsame rfl⟩
  | opens withPrelude module =>
    obtain ⟨hn, hm⟩ := beginCode_nested host _ withPrelude module .empty
    exact ⟨hn, hsame hm⟩
  | rescopes _ => exact ⟨trivial, hsame rfl⟩
  | @loads t ws host' file hh =>
    cases hh
    have hl : (idleMachine t.store).Loaded host file .whole _ := Machine.load_loaded
    exact ⟨hl.nested rfl, hsame hl.modules⟩
  | takes _ hno _ => exact hno.elim

theorem Later.nested (ha : host.Acyclic) (hl : Later (· = host) False a b) (hok : a.Ok)
    (ht : a.now.Nested host) :
    b.now.Nested host ∧
      ∀ file root, a.store.module? file = some root → b.store.module? file = some root := by
  induction hl with
  | refl => exact ⟨ht, fun _ _ hf => hf⟩
  | tail hl hn ih =>
    obtain ⟨hb, hkeep⟩ := ih
    obtain ⟨hc, hnext⟩ := hn.nested ha (Later.ok hl hok).1 hb
    exact ⟨hc, fun file root hf => hnext file root (hkeep file root hf)⟩

theorem Occurs.nested (ha : host.Acyclic) (ho : Occurs (· = host) False a) : a.now.Nested host := by
  obtain ⟨console, hl⟩ := ho
  exact (hl.nested ha (start_ok console) trivial).1

theorem Occurs.module_later (ha : host.Acyclic) (ho : Occurs (· = host) False a)
    (hl : Later (· = host) False a b) (hf : a.store.module? file = some root) :
    b.store.module? file = some root :=
  (hl.nested ha ho.ok (ho.nested ha)).2 file root hf

theorem Occurs.fetched (ha : host.Acyclic) (ho : Occurs (· = host) False a) (file : String)
    (fuel : Nat) :
    (((idleMachine a.store).load host file .whole).follow host fuel).Fetched file := by
  obtain ⟨_, _, hnow⟩ := ho.ok.now
  obtain ⟨κ, hσ⟩ := hnow.sound
  have hok : ((idleMachine a.store).load host file .whole).Ok κ 0 (idleMachine a.store).store :=
    (idleMachine_ok hσ).load
  have hl : (idleMachine a.store).Loaded host file .whole _ := Machine.load_loaded
  have hf : Transition.Fetching file _ := Machine.fetching_of_loaded rfl ⟨rfl, rfl⟩ hl
  exact hf.follow ha hok (hl.nested rfl) fuel

theorem Occurs.loadsOnce (ha : host.Acyclic) (ho : Occurs (· = host) False a) : a.LoadsOnce host where
  distinct := (ho.nested ha).distinct ha
  uncached := (ho.nested ha).uncached
  stays file root b hf hl := by
    have hb : b.store.module? file = some root := ho.module_later ha hl hf
    refine ⟨hb, ho.root_eq hl hf, fun t ht he => ?_, loadModule_cached hb, fun m delivery hm => ?_⟩
    · have hnone : b.store.module? t.module = none := ((ho.later hl).nested ha).uncached t ht
      rw [he, hb] at hnone
      cases hnone
    · have hstore : b.store = m.store := congrArg Transition.store hm
      exact Machine.load_cached (hstore ▸ hb)
  loads file fuel root hr := by
    obtain ⟨u, hl, hu⟩ := Transition.follow_later (· = host) False host rfl
      ((idleMachine a.store).load host file .whole) a.spaces fuel
    have hstore : u.store = (loadModule host fuel a.store file).2 :=
      hu.trans settleModule_store.symm
    refine ⟨u, .head (.loads file rfl) hl, hstore, ?_⟩
    rw [hstore]
    exact settleModule_module? hr
  ends file fuel hr := by
    have hf := ho.fetched ha file fuel
    unfold loadModule at hr
    generalize ((idleMachine a.store).load host file .whole).follow host fuel = e at hr hf
    cases e with
    | finished σ v => exact absurd (Except.ok.inj hr) hf
    | failed σ f => cases hr
    | cut m => exact ⟨m, rfl⟩
  fails file fuel fault hr := by
    have hf := ho.fetched ha file fuel
    unfold loadModule at hr ⊢
    generalize ((idleMachine a.store).load host file .whole).follow host fuel = e at hr hf
    cases e with
    | finished σ v => cases hr
    | failed σ f => exact hf
    | cut m => cases hr
  unwinds m fault hm := by
    have hn := ho.nested ha
    have hstore : a.store = m.store := congrArg Transition.store hm
    rw [hm] at hn
    rw [hstore]
    exact hn
  refuses m file delivery m' fault _ hu hr := by
    have hl : m.Loaded host file delivery (m.load host file delivery) := Machine.load_loaded
    have hmodules := hl.modules
    rw [hr] at hmodules
    have hmodules : m'.store.modules = m.store.modules := hmodules
    rw [Store.module?, hmodules]
    exact hu

end Moment

end MatchLang
