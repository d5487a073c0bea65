import MatchLang.Proofs.Machine.Loading
import MatchLang.Proofs.Prelude.Standing
import MatchLang.Proofs.Session.Frozen
import MatchLang.Proofs.Session.Retired

/-! The prelude in a session. When it is loaded its body runs to the end, definition by definition, and from then on it
stands: its root is frozen, and the scope of its body is nobody's. -/

namespace MatchLang

section

variable {host : Host} {m : Machine} {n : Nat} {ds : List Definition}

/-- The body makes the next definition, publishes it and keeps it, or has come to its end. -/
theorem Machine.Defining.step (host : Host) (hm : m.Defining n ds) :
    (m.frame.rest = [] ∧ ∀ d ∈ ds, m.store.Binds m.task.root m.frame.scope d) ∨
      m.frame.rest ≠ [] ∧ ∃ τ os line is, m.step host = .running (m.resume τ os line is) ∧
        (m.resume τ os line is).Defining n ds := by
  obtain ⟨done, todo, hds, hdone, hstage⟩ := hm.progress
  generalize hr : m.frame.rest = is at hstage
  generalize ho : m.operands = os at hstage
  cases hstage with
  | next todo os =>
    cases todo with
    | nil =>
      rw [List.append_nil] at hds
      exact .inl ⟨rfl, hds ▸ hdone⟩
    | cons d todo =>
      have hclosure : m.frame.closure.inner m.store.nextIdentity m.frame.scope d.slot.line d.code d.arity =
          d.closure m.task.root m.frame.scope m.store.nextIdentity := by
        rw [Closure.inner, hm.home, hm.made]
        rfl
      have hs : m.step host = .running (m.resume m.store.newIdentity.2
          (.function (m.frame.closure.inner m.store.nextIdentity m.frame.scope d.slot.line d.code d.arity) ::
            m.operands) d.slot.line (d.instrs.drop 1 ++ todo.flatMap Definition.instrs)) := step_cons hr
      rw [hclosure] at hs
      exact .inr ⟨List.cons_ne_nil _ _, _, _, _, _, hs, hm.resume rfl rfl hm.names hds hdone (.made d todo _ _)⟩
  | made d todo id os =>
    have hs : m.step host = .running (m.resume m.store (.function (d.closure m.task.root m.frame.scope id) ::
        .function (d.closure m.task.root m.frame.scope id) :: os) d.slot.line
          (d.instrs.drop 2 ++ todo.flatMap Definition.instrs)) := by
      rw [step_cons hr, ho]
      rfl
    exact .inr ⟨List.cons_ne_nil _ _, _, _, _, _, hs, hm.resume rfl rfl hm.names hds hdone (.copied d todo id os)⟩
  | copied d todo id os =>
    obtain ⟨hne, hspare⟩ : (∀ e ∈ done, e.slot.name ≠ d.slot.name ∧ e.slot.id ≠ d.slot.id) ∧
        d.slot.name ∉ ["::", "Empty"] :=
      ⟨(hds ▸ hm.defines).ne_of_append, hm.defines.spares d (hds ▸ List.mem_append_right done List.mem_cons_self)⟩
    let fn : Value := .function (d.closure m.task.root m.frame.scope id)
    let ns := (m.store.root m.task.root).setValue d.slot.name fn
    have hs : m.step host = .running (m.resume (m.store.setRoot m.task.root ns) (fn :: os) d.slot.line
        (d.instrs.drop 3 ++ todo.flatMap Definition.instrs)) := by
      rw [step_cons hr, ho]
      exact perform_publish_ok rfl
    have hroot : (m.store.setRoot m.task.root ns).root m.task.root = ns := by
      rw [Store.root_setRoot, if_pos ⟨rfl, hm.root⟩]
    have hvalue : ∀ x, ns.valueAt? [] x =
        if x = d.slot.name then some fn else (m.store.root m.task.root).valueAt? [] x := fun x =>
      Table.get?_set _ _ _ _
    refine .inr ⟨List.cons_ne_nil _ _, _, _, _, _, hs, hm.resume Store.size_setRoot rfl ?_ hds (fun e he => ?_)
      (.published d todo id os ?_)⟩
    · rw [hroot]
      exact hm.names.setValue hspare
    · refine (hdone e he).congr rfl ?_
      rw [hroot, hvalue, if_neg (hne e he).1]
    · rw [hroot, hvalue, if_pos rfl]
  | published d todo id os hvalue =>
    have hne : ∀ e ∈ done, e.slot.name ≠ d.slot.name ∧ e.slot.id ≠ d.slot.id :=
      (hds ▸ hm.defines).ne_of_append
    let fn : Value := .function (d.closure m.task.root m.frame.scope id)
    have hs : m.step host = .running (m.resume (m.store.save m.frame.scope d.slot.id fn) os d.slot.line
        (todo.flatMap Definition.instrs)) := by
      rw [step_cons hr, ho]
      rfl
    have hdone' : ∀ e ∈ done ++ [d], (m.store.save m.frame.scope d.slot.id fn).Binds m.task.root m.frame.scope e := by
      refine List.forall_mem_append.mpr ⟨fun e he => (hdone e he).congr ?_ rfl,
        List.forall_mem_singleton.mpr ⟨id, ?_, hvalue⟩⟩
      · rw [Store.slot?_save, if_neg fun h => (hne e he).2 h.2.1]
      · rw [Store.slot?_save, if_pos ⟨rfl, rfl, hm.scope⟩]
    rw [List.append_cons] at hds
    exact .inr ⟨List.cons_ne_nil _ _, _, _, _, _, hs,
      hm.resume rfl Store.size_save hm.names hds hdone' (.next todo os)⟩

end

/-- The scope of the running frame is nobody else's. -/
structure Machine.Alone (spaces : List Workspace) (m : Machine) : Prop where
  places : ∀ b ∈ m.places.tail, b.scope ≠ m.frame.scope
  spaces : ∀ w ∈ spaces, w.scope ≠ m.frame.scope

/-- No task but the first has the name of the prelude, unless it runs the prelude and nothing waits for it to go
on. -/
structure Machine.Preparing (spaces : List Workspace) (m : Machine) : Prop where
  waiting : ∀ w ∈ m.waiting.dropLast, w.task.module ≠ preludeName
  running : m.waiting ≠ [] → m.task.module = preludeName → ∃ n ds, m.Defining n ds ∧ m.Alone spaces

/-- All scopes that are in use have been made. -/
structure Machine.Known (spaces : List Workspace) (m : Machine) : Prop where
  places : ∀ b ∈ m.places, b.scope < m.store.scopes.size
  spaces : ∀ w ∈ spaces, w.scope < m.store.scopes.size

section

variable {κ : Registry} {host : Host} {m m' : Machine} {n next h : Nat} {t : Transition} {spaces : List Workspace}
  {file : String} {delivery : Delivery} {code : Code} {σ : Store}

theorem TasksOk.places_lt {t : Task} {ws : List Suspended} (ht : TasksOk κ σ h t ws) :
    ∀ b ∈ t.places ++ ws.flatMap (·.task.places), b.scope < σ.scopes.size := by
  have htask : ∀ {t : Task} {h : Nat}, t.Ok κ σ h → ∀ b ∈ t.places, b.scope < σ.scopes.size := by
    rintro t h ⟨code, ps, b, above, own, hu⟩ b' hb'
    obtain ⟨f, hf, rfl⟩ := List.mem_map.mp hb'
    have hframes := hu.frames
    rw [List.append_nil] at hframes
    exact hu.scopes f (hframes ▸ hf)
  induction ws generalizing t with
  | nil =>
    rw [List.flatMap_nil, List.append_nil]
    exact htask ht
  | cons w ws ih =>
    obtain ⟨⟨_, ht⟩, hws⟩ := ht
    exact List.forall_mem_append.mpr ⟨htask ht, ih hws⟩

theorem Machine.Known.await (hk : m.Known spaces) : (m.await delivery file code next).Known spaces := by
  have hsize : (m.await delivery file code next).store.scopes.size = m.store.scopes.size + 1 := Array.size_push _
  refine ⟨List.forall_mem_cons.mpr ⟨?_, fun b hb => ?_⟩, fun w hw => ?_⟩
  · rw [hsize]
    exact Nat.lt_succ_self _
  · rw [hsize]
    exact Nat.lt_succ_of_lt (hk.places b hb)
  · rw [hsize]
    exact Nat.lt_succ_of_lt (hk.spaces w hw)

/-- The prelude is begun. -/
theorem Machine.Known.defining {ds : List Definition} (hk : m.Known spaces) (hd : Prelude.Defines n ds) :
    (m.await delivery preludeName (.mk (ds.flatMap Definition.instrs) []) next).Defining n ds ∧
      (m.await delivery preludeName (.mk (ds.flatMap Definition.instrs) []) next).Alone spaces := by
  have hroots : (m.store.roots.push (builtins.seed (.empty true))).size = m.store.roots.size + 1 := Array.size_push _
  have hscopes : (m.store.scopes.push { parent := none, slots := [] }).size = m.store.scopes.size + 1 :=
    Array.size_push _
  have hroot : (m.store.newRoot (builtins.seed (.empty true))).2.root m.store.roots.size =
      builtins.seed (.empty true) := by
    rw [Store.root_newRoot, if_pos rfl]
  refine ⟨⟨rfl, rfl, rfl, rfl, ?_, ?_, hd, ?_, [], ds, rfl, fun d hd => absurd hd List.not_mem_nil, .next ds []⟩,
    fun b hb => Nat.ne_of_lt (hk.places b hb), fun w hw => Nat.ne_of_lt (hk.spaces w hw)⟩
  · exact Nat.lt_of_lt_of_eq (Nat.lt_succ_self _) hroots.symm
  · exact Nat.lt_of_lt_of_eq (Nat.lt_succ_self _) hscopes.symm
  · exact hroot ▸ seed_hasLists

theorem Machine.deliver_tasks {source : Nat} (h : m.deliver source delivery = .running m') :
    m'.task = m.task ∧ m'.waiting = m.waiting := by
  rw [deliver_eq] at h
  generalize (delivery.merge _ _).2 = fault at h
  cases fault with
  | none =>
    cases h
    exact ⟨rfl, rfl⟩
  | some f => cases h

theorem Machine.await_waiting (hw : ∀ w ∈ m.waiting.dropLast, w.task.module ≠ preludeName)
    (hm : m.waiting ≠ [] → m.task.module ≠ preludeName) :
    ∀ w ∈ (m.await delivery file code next).waiting.dropLast, w.task.module ≠ preludeName := by
  show ∀ w ∈ ({ task := m.task, delivery } :: m.waiting : List Suspended).dropLast, w.task.module ≠ preludeName
  cases hws : m.waiting with
  | nil => exact fun w hw => absurd hw List.not_mem_nil
  | cons w ws =>
    rw [hws] at hw hm
    exact List.forall_mem_cons.mpr ⟨hm (List.cons_ne_nil w ws), hw⟩

theorem Host.Supplies.prelude {source : String} (h : host.Supplies preludeName source) : source = preludeSource := by
  unfold Host.Supplies at h
  rwa [if_pos rfl] at h

/-- What is loaded, the prelude among it, comes in front of a task that is not the prelude. -/
theorem Machine.Loaded.preparing (hl : m.Loaded host file delivery t) (hk : m.Known spaces)
    (hw : ∀ w ∈ m.waiting.dropLast, w.task.module ≠ preludeName)
    (hm : m.waiting ≠ [] → m.task.module ≠ preludeName) : ∀ m', t = .running m' → m'.Preparing spaces := by
  induction hl with
  | @cached m file delivery root _ =>
    intro m' ht
    obtain ⟨htask, hwait⟩ := deliver_tasks ht
    exact ⟨hwait ▸ hw, fun hne hname => absurd (htask ▸ hname) (hm (hwait ▸ hne))⟩
  | faults _ =>
    intro m' ht
    cases ht
  | @begins m file delivery source code next _ hs hc =>
    intro m' ht
    cases ht
    refine ⟨await_waiting hw hm, fun _ hname => ?_⟩
    obtain rfl : file = preludeName := hname
    obtain rfl := hs.prelude
    obtain ⟨ds, next', hcompile, hds⟩ := prelude_compiles m.store.nextSlot
    rw [hcompile] at hc
    cases hc
    exact ⟨_, ds, hk.defining hds⟩
  | equips _ hne _ _ _ _ ih => exact ih hk.await (await_waiting hw hm) fun _ => hne

theorem Machine.Preparing.of_waiting {w : Suspended} {ws : List Suspended} {n : Machine}
    (hp : m.Preparing spaces) (hw : m.waiting = w :: ws) (htask : n.task = w.task) (hn : n.waiting = ws) :
    n.Preparing spaces := by
  have hwaiting := hp.waiting
  rw [hw] at hwaiting
  cases ws with
  | nil => exact ⟨by rw [hn]; exact fun w hw => absurd hw List.not_mem_nil, fun hne => absurd hn hne⟩
  | cons v vs =>
    obtain ⟨hfirst, hrest⟩ := List.forall_mem_cons.mp hwaiting
    exact ⟨by rw [hn]; exact hrest, fun _ hname => absurd (htask ▸ hname) hfirst⟩

/-- In each step the prelude is begun, runs on, or comes to its end. -/
theorem Machine.Preparing.step (hp : m.Preparing spaces) (hk : m.Known spaces) (hs : m.step host = .running m') :
    m'.Preparing spaces := by
  by_cases hdef : m.waiting ≠ [] ∧ m.task.module = preludeName
  · obtain ⟨n, ds, hd, halone⟩ := hp.running hdef.1 hdef.2
    rcases hd.step host with ⟨hr, -⟩ | ⟨-, τ, os, line, is, hs', hd'⟩
    · rw [step_nil hr hd.callers] at hs
      cases hw : m.waiting with
      | nil => exact absurd hw hdef.1
      | cons w ws =>
        rw [finish_cons hw] at hs
        obtain ⟨htask, hwait⟩ := deliver_tasks hs
        exact hp.of_waiting hw htask hwait
    · rw [hs'] at hs
      cases hs
      exact ⟨hp.waiting, fun _ _ => ⟨n, ds, hd', halone.places, halone.spaces⟩⟩
  · have hother : m.waiting ≠ [] → m.task.module ≠ preludeName := fun hw hm => hdef ⟨hw, hm⟩
    have hsame : ∀ {n : Machine}, n.waiting = m.waiting → n.task.module = m.task.module → n.Preparing spaces :=
      fun hw hm => ⟨hw ▸ hp.waiting, fun hne hname => absurd (hm ▸ hname) (hother (hw ▸ hne))⟩
    have hst := m.stepped host
    rw [hs] at hst
    generalize ht : Transition.running m' = t at hst
    cases hst with
    | goes _ _ _ | enters _ _ _ | restarts | returns _ _ =>
      cases ht
      exact hsame rfl rfl
    | @loads line op k file delivery _ _ =>
      have hl : (m.resume m.store m.operands line k).Loaded host file delivery _ := load_loaded
      exact hl.preparing ⟨hk.places, hk.spaces⟩ hp.waiting hother m' ht.symm
    | faults _ _ => cases ht
    | ends _ _ =>
      cases hw : m.waiting with
      | nil =>
        rw [finish, hw] at ht
        cases ht
      | cons w ws =>
        rw [finish_cons hw] at ht
        obtain ⟨htask, hwait⟩ := deliver_tasks ht.symm
        exact hp.of_waiting hw htask hwait

/-- A step that does not bring the body of the prelude to its end leaves the prelude as it was found. -/
theorem Machine.step_module? (hm : m.waiting ≠ [] → m.frame.rest = [] → m.task.module ≠ preludeName) :
    (m.step host).store.module? preludeName = m.store.module? preludeName := by
  have hsame : ∀ {σ : Store}, σ.modules = m.store.modules → σ.module? preludeName = m.store.module? preludeName :=
    fun he => congrArg (Table.get? · preludeName) he
  have hst := m.stepped host
  generalize m.step host = t at hst
  cases hst with
  | goes _ hw _ => exact hsame hw.1
  | enters _ _ _ | restarts | returns _ _ => rfl
  | @loads line op k file delivery _ _ =>
    have hl : (m.resume m.store m.operands line k).Loaded host file delivery _ := Machine.load_loaded
    exact hsame hl.modules
  | faults hmodules _ => exact hsame hmodules
  | ends hr _ =>
    cases hw : m.waiting with
    | nil =>
      unfold Machine.finish
      rw [hw]
      rfl
    | cons w ws =>
      have hne := hm (hw ▸ List.cons_ne_nil w ws) hr
      rw [Machine.finish_cons hw]
      have hmod : ((m.settled w ws).deliver m.task.root w.delivery).store.module? preludeName =
          (m.settled w ws).store.module? preludeName := congrArg (Table.get? · preludeName) Machine.deliver_modules
      rw [hmod, Machine.settled_module?, if_neg fun he => hne he.symm]

/-- A machine that begins with the prelude, or without it. -/
theorem Machine.equip_preparing {withPrelude : Bool} (hk : m.Known spaces)
    (hw : ∀ w ∈ m.waiting.dropLast, w.task.module ≠ preludeName)
    (hm : m.waiting ≠ [] → m.task.module ≠ preludeName) :
    ∀ m', m.equip withPrelude = .running m' → m'.Preparing spaces := by
  unfold equip
  split
  · have hl : m.Loaded bareHost preludeName .whole (m.loadPrelude .whole) := loadPrelude_loaded
    exact hl.preparing hk hw hm
  · intro m' he
    cases he
    exact ⟨hw, fun hne hname => absurd hname (hm hne)⟩

theorem Machine.equip_modules {withPrelude : Bool} : (m.equip withPrelude).store.modules = m.store.modules := by
  unfold equip
  split
  · have hl : m.Loaded bareHost preludeName .whole (m.loadPrelude .whole) := loadPrelude_loaded
    exact hl.modules
  · rfl

theorem Machine.Known.newTask {module : String} (hs : ∀ w ∈ spaces, w.scope ≤ σ.scopes.size) :
    Machine.Known spaces ⟨(σ.newTask module code).2, (σ.newTask module code).1, []⟩ := by
  have hsize : (σ.newTask module code).2.scopes.size = σ.scopes.size + 1 := Array.size_push _
  refine ⟨List.forall_mem_singleton.mpr ?_, fun w hw => ?_⟩
  · show σ.scopes.size < (σ.newTask module code).2.scopes.size
    rw [hsize]
    exact Nat.lt_succ_self _
  · show w.scope < (σ.newTask module code).2.scopes.size
    rw [hsize]
    exact Nat.lt_succ_of_le (hs w hw)

theorem beginCode_modules {module : String} {withPrelude : Bool} :
    (beginCode σ withPrelude module code).store.modules = σ.modules := by
  let m : Machine := ⟨(σ.newTask module code).2, (σ.newTask module code).1, []⟩
  have hmodules : (m.equip withPrelude).store.modules = m.store.modules := Machine.equip_modules
  exact hmodules

/-- The first task of a run may have any name. -/
theorem beginCode_preparing {module : String} {withPrelude : Bool} (hs : ∀ w ∈ spaces, w.scope ≤ σ.scopes.size) :
    ∀ m, beginCode σ withPrelude module code = .running m → m.Preparing spaces :=
  Machine.equip_preparing (.newTask hs) nofun fun hne => absurd rfl hne

theorem idleMachine_known (hs : ∀ w ∈ spaces, w.scope < σ.scopes.size) : (idleMachine σ).Known spaces := by
  have hsize : (idleMachine σ).store.scopes.size = σ.scopes.size + 1 := Array.size_push _
  refine ⟨List.forall_mem_singleton.mpr ?_, fun w hw => ?_⟩
  · show σ.scopes.size < (idleMachine σ).store.scopes.size
    rw [hsize]
    exact Nat.lt_succ_self _
  · rw [hsize]
    exact Nat.lt_succ_of_lt (hs w hw)

/-- A message changes nothing that the prelude has to do with. -/
theorem Machine.Preparing.hear {console : Console} (hp : m.Preparing spaces) :
    (m.updateStore fun s => { s with console }).Preparing spaces := by
  refine ⟨hp.waiting, fun hne hname => ?_⟩
  obtain ⟨n, ds, hd, halone⟩ := hp.running hne hname
  refine ⟨n, ds, ⟨hd.module, hd.callers, hd.home, hd.made, hd.root, hd.scope, hd.defines, hd.names, ?_⟩,
    halone.places, halone.spaces⟩
  obtain ⟨done, todo, hds, hdone, hstage⟩ := hd.progress
  refine ⟨done, todo, hds, fun d hd => (hdone d hd).congr rfl rfl, ?_⟩
  have hkept : ∀ {os : List Value} {is : List Instr},
      Definition.Stage m.store m.task.root m.frame.scope todo os is →
        Definition.Stage { m.store with console } m.task.root m.frame.scope todo os is := by
    intro os is h
    cases h with
    | next todo os => exact .next todo os
    | made d todo id os => exact .made d todo id os
    | copied d todo id os => exact .copied d todo id os
    | published d todo id os hv => exact .published d todo id os hv
  exact hkept hstage

end

theorem compileModule_of_read {file source : String} {p : Program} {n : Nat} {r : Code × Nat}
    (hp : Program.read source = .ok p) (hc : p.compile false n = .ok r) : compileModule file source n = .ok r := by
  unfold compileModule
  rw [hp]
  simp only [hc]

theorem Machine.loadPrelude_eq {m : Machine} {delivery : Delivery} {prelude : Code} {next : Nat}
    (hm : m.store.module? preludeName = none)
    (hc : compileModule preludeName preludeSource m.store.nextSlot = .ok (prelude, next)) :
    m.loadPrelude delivery = .running (m.await delivery preludeName prelude next) := by
  revert hc
  unfold loadPrelude
  generalize preludeSource = source
  intro hc
  cases hm' : m.store.module? preludeName with
  | some root =>
    rw [hm] at hm'
    cases hm'
  | none =>
    cases hc' : compileModule preludeName source m.store.nextSlot with
    | error f =>
      rw [hc] at hc'
      cases hc'
    | ok r =>
      rw [hc] at hc'
      cases hc'
      rfl

/-- What a program with the prelude begins with. -/
theorem beginCode_prelude {σ : Store} {module : String} {code prelude : Code} {next : Nat}
    (hm : σ.module? preludeName = none)
    (hc : compileModule preludeName preludeSource σ.nextSlot = .ok (prelude, next)) :
    beginCode σ true module code = .running
      (Machine.await ⟨(σ.newTask module code).2, (σ.newTask module code).1, []⟩ .whole preludeName prelude next) := by
  simp only [beginCode, if_true]
  exact Machine.loadPrelude_eq hm hc

namespace Moment

open Activity Relation

/-- The functions of the prelude stand in the scope of its body, in which nobody runs any more, and under their names
in the root. -/
def HasPrelude (a : Moment) (r : Nat) : Prop :=
  ∃ n s sc ds, Prelude.Defines n ds ∧ (a.store.root r).HasLists ∧ (∀ d ∈ ds, a.store.Binds r s d) ∧ a.Retired s sc

/-- What can come next if no text takes the place of the prelude. -/
inductive Spares : Moment → Moment → Prop where
  | next {a b} : Next (fun _ => True) False a b → Spares a b
  | takes {t ws file source code next} (withPrelude : Bool) : file ≠ preludeName →
    compileModule file source t.store.nextSlot = .ok (code, next) →
    Spares ⟨t, ws⟩ ⟨((idleMachine t.store).await .whole file code next).equip withPrelude, ws⟩

/-- A moment of a session in which no text takes the place of the prelude. -/
def SparesPrelude (a : Moment) : Prop :=
  ∃ console, ReflTransGen Spares (start console) a

/-- If the prelude is there it has been run to its end, and if it is running it will be. -/
structure Guarded (a : Moment) : Prop where
  loaded : ∀ r, a.store.module? preludeName = some r → a.HasPrelude r
  running : ∀ m, a.now = .running m → m.Preparing a.spaces

variable {a b : Moment} {m : Machine} {r s : Nat} {host : Host} {ds : List Definition} {n : Nat}
  {spaces : List Workspace} {allowed : Host → Prop} {texts : Prop} {sc : Scope}

theorem Next.mono {allowed' : Host → Prop} {texts' : Prop} (hn : Next allowed texts a b)
    (ha : ∀ h, allowed h → allowed' h) (ht : texts → texts') : Next allowed' texts' a b := by
  cases hn with
  | steps hh => exact .steps (ha _ hh)
  | hears console => exact .hears console
  | begins hp => exact .begins hp
  | opens withPrelude module => exact .opens withPrelude module
  | rescopes hw => exact .rescopes hw
  | loads file hh => exact .loads file (ha _ hh)
  | takes withPrelude htexts hc => exact .takes withPrelude (ht htexts) hc

theorem Spares.toNext (h : Spares a b) : Next (fun _ => True) True a b := by
  cases h with
  | next hn => exact hn.mono (fun _ h => h) fun _ => trivial
  | takes withPrelude _ hc => exact .takes withPrelude trivial hc

theorem SparesPrelude.occurs (h : a.SparesPrelude) : Occurs (fun _ => True) True a := by
  obtain ⟨console, h⟩ := h
  exact ⟨console, h.lift id fun _ _ => Spares.toNext⟩

theorem Retired.slot? (ha : a.Retired s sc) (hb : b.Retired s sc) (i : Nat) :
    b.store.slot? s i = a.store.slot? s i := by
  have hsa := ha.left.scope
  have hsb := hb.left.scope
  rw [Transition.activity_scopes] at hsa hsb
  rw [Store.slot?, Store.slot?]
  show b.now.store.scopes[s]?.bind _ = a.now.store.scopes[s]?.bind _
  rw [hsa, hsb]

/-- The prelude stays as it is. -/
theorem HasPrelude.next {file : String} (h : a.HasPrelude r) (ho : Occurs allowed texts a)
    (hf : a.store.module? file = some r) (hn : Next allowed texts a b) : b.HasPrelude r := by
  obtain ⟨n, s, sc, ds, hds, hlists, hbinds, hret⟩ := h
  have hroot : b.store.root r = a.store.root r := ho.root_eq (.single hn) hf
  have hretb := hret.next hn
  refine ⟨n, s, sc, ds, hds, hroot ▸ hlists, fun d hd => (hbinds d hd).congr ?_ (by rw [hroot]), hretb⟩
  exact hret.slot? hretb d.slot.id

/-- When the body of the prelude has come to its end, the prelude is remembered as it stands. -/
theorem HasPrelude.of_end {w : Suspended} {ws : List Suspended} (ho : Occurs allowed texts ⟨.running m, spaces⟩)
    (hd : m.Defining n ds) (halone : m.Alone spaces) (hr : m.frame.rest = [])
    (hds : ∀ d ∈ ds, m.store.Binds m.task.root m.frame.scope d) (hw : m.waiting = w :: ws) :
    HasPrelude ⟨m.step host, spaces⟩ m.task.root := by
  have hstep : m.step host = (m.settled w ws).deliver m.task.root w.delivery := by
    rw [Machine.step_nil hr hd.callers, Machine.finish_cons hw]
  have hne : m.task.root ≠ w.task.root := by
    have hrun := ho.apart.running
    have howners : (Moment.holding ⟨.running m, spaces⟩).running =
        m.task.owner :: w.task.owner :: ws.map (·.task.owner) := by
      show m.task.owner :: m.waiting.map (·.task.owner) = _
      rw [hw]
      rfl
    rw [howners] at hrun
    exact fun he => (List.nodup_cons.mp hrun).1 (List.mem_cons.mpr (.inl he))
  have hstore : (m.step host).store = ((m.settled w ws).received m.task.root w.delivery).store := by
    rw [hstep, Machine.deliver_eq, Machine.orRaise_store]
  have hroot : Store.root (store ⟨m.step host, spaces⟩) m.task.root = m.store.root m.task.root := by
    show (m.step host).store.root m.task.root = _
    rw [hstore, Machine.received_root hne]
    rfl
  have hslot : ∀ i, Store.slot? (store ⟨m.step host, spaces⟩) m.frame.scope i = m.store.slot? m.frame.scope i := by
    intro i
    show (m.step host).store.slot? m.frame.scope i = _
    rw [hstore]
    rfl
  have hplaces : m.places.tail = (m.settled w ws).places := by
    rw [Machine.places_eq, hd.callers, hw]
    rfl
  obtain ⟨sc, hsc⟩ : ∃ sc, m.store.scopes[m.frame.scope]? = some sc :=
    ⟨_, Array.getElem?_eq_getElem hd.scope⟩
  have hleft : Left m.frame.scope sc (m.settled w ws).activity := by
    refine ⟨hsc, ?_⟩
    show ∀ b ∈ (m.settled w ws).places, b.scope ≠ m.frame.scope
    rw [← hplaces]
    exact halone.places
  refine ⟨n, m.frame.scope, sc, ds, hd.defines, hroot ▸ hd.names,
    fun d hd => (hds d hd).congr (hslot _) (by rw [hroot]), ?_, halone.spaces⟩
  show Left m.frame.scope sc (m.step host).activity
  rw [hstep]
  exact hleft.moves Machine.deliver_activity

theorem Guarded.step (hg : Guarded ⟨.running m, spaces⟩) (ho : Occurs allowed texts ⟨.running m, spaces⟩)
    (hh : allowed host) : Guarded ⟨m.step host, spaces⟩ := by
  have hnext : Next allowed texts ⟨.running m, spaces⟩ ⟨m.step host, spaces⟩ := .steps hh
  obtain ⟨⟨_, _, _, _, hok, _⟩, hws⟩ := ho.ok
  have hprep := hg.running m rfl
  refine ⟨fun r hr => ?_, fun m' hm' => hprep.step ⟨hok.tasks.places_lt, fun w hw => (hws w hw).scope⟩ hm'⟩
  by_cases hend : m.waiting ≠ [] ∧ m.frame.rest = [] ∧ m.task.module = preludeName
  · obtain ⟨hw, hrest, hname⟩ := hend
    obtain ⟨n, ds, hd, halone⟩ := hprep.running hw hname
    obtain ⟨w, ws, hw⟩ := List.exists_cons_of_ne_nil hw
    have hds : ∀ d ∈ ds, m.store.Binds m.task.root m.frame.scope d :=
      (hd.step host).elim (·.2) fun h => absurd hrest h.1
    have hmod : (m.step host).store.module? preludeName = some m.task.root := by
      rw [Machine.step_nil hrest hd.callers, Machine.finish_cons hw]
      have hkeep : ((m.settled w ws).deliver m.task.root w.delivery).store.module? preludeName =
          (m.settled w ws).store.module? preludeName :=
        congrArg (Table.get? · preludeName) Machine.deliver_modules
      rw [hkeep, Machine.settled_module?, if_pos hname.symm]
    obtain rfl : m.task.root = r := Option.some.inj (hmod.symm.trans hr)
    exact .of_end ho hd halone hrest hds hw
  · have hmod : (m.step host).store.module? preludeName = m.store.module? preludeName :=
      Machine.step_module? fun hw hrest hname => hend ⟨hw, hrest, hname⟩
    have hr : m.store.module? preludeName = some r := hmod ▸ hr
    exact (hg.loaded r hr).next ho hr hnext

theorem Guarded.next (hg : a.Guarded) (ho : Occurs (fun _ => True) True a) (hs : Spares a b) : b.Guarded := by
  have hnext := hs.toNext
  have hok := ho.ok
  -- a run that takes the place of another leaves the modules as they are
  have hother : b.store.modules = a.store.modules → (∀ m, b.now = .running m → m.Preparing b.spaces) →
      b.Guarded := by
    intro hmod hrun
    refine ⟨fun r hr => ?_, hrun⟩
    have hr : a.store.module? preludeName = some r := (congrArg (Table.get? · preludeName) hmod).symm.trans hr
    exact (hg.loaded r hr).next ho hr hnext
  have hspaces : ∀ w ∈ a.spaces, w.scope < a.store.scopes.size := fun w hw => (hok.spaces w hw).scope
  cases hs with
  | @takes t ws file source code next withPrelude hfile hc =>
    have hk : (idleMachine t.store).Known ws := idleMachine_known hspaces
    exact hother Machine.equip_modules
      (Machine.equip_preparing hk.await (Machine.await_waiting nofun fun hne => absurd rfl hne) fun _ => hfile)
  | next hn =>
    cases hn with
    | steps hh => exact hg.step ho hh
    | @hears t ws console =>
      refine hother (by cases t <;> rfl) fun m' hm' => ?_
      cases t with
      | running m =>
        cases hm'
        exact (hg.running m rfl).hear
      | finished σ v => cases hm'
      | raised m f => cases hm'
    | @begins t ws p u hp =>
      cases hp with
      | @module code next publishRoot withPrelude module _ =>
        have hscopes : ∀ w ∈ ws, w.scope ≤ ({ t.store with nextSlot := next } : Store).scopes.size :=
          fun w hw => Nat.le_of_lt (hspaces w hw)
        exact hother beginCode_modules (beginCode_preparing hscopes)
      | line _ _ _ =>
        refine hother rfl fun m' hm' => ?_
        cases hm'
        exact ⟨nofun, fun hne => absurd rfl hne⟩
    | @opens t ws withPrelude module =>
      have hscopes : ∀ w ∈ Workspace.next t.store module :: ws, w.scope ≤ t.store.scopes.size :=
        List.forall_mem_cons.mpr ⟨Nat.le_refl _, fun w hw => Nat.le_of_lt (hspaces w hw)⟩
      exact hother beginCode_modules (beginCode_preparing hscopes)
    | rescopes hw => exact hother rfl nofun
    | @loads t ws host file hh =>
      have hl : (idleMachine t.store).Loaded host file .whole _ := Machine.load_loaded
      exact hother hl.modules (hl.preparing (idleMachine_known hspaces) nofun fun hne => absurd rfl hne)
    | takes _ hfalse _ => exact hfalse.elim

/-- In a session in which no text takes the place of the prelude, the prelude is run to its end before it is used. -/
theorem SparesPrelude.guarded (h : a.SparesPrelude) : a.Guarded := by
  obtain ⟨console, h⟩ := h
  induction h with
  | refl => exact ⟨nofun, nofun⟩
  | tail h hs ih => exact ih.next (SparesPrelude.occurs ⟨console, h⟩) hs

end Moment

end MatchLang
