import MatchLang.Proofs.Grammar.Numbering
import MatchLang.Proofs.Lowering.Compiled
import MatchLang.Proofs.Renaming.Lowering
import MatchLang.Proofs.Session.Restarts
import MatchLang.Proofs.Simulation.Programs

/-! Modules. A module runs in a task of its own, with a new root and a new scope, while the importer waits; then what was
asked for is handed over. A fault in it is a fault of the importer. -/

namespace MatchLang

theorem ProgramCode.slots_le {l : Links} {publishRoot : Bool} {p : Program} {c : Code} {i j : Nat}
    (h : ProgramCode l publishRoot p c i j) : i ≤ j := by
  obtain ⟨m, r, r', -, hds, htrail⟩ := h
  refine Nat.le_trans (DeclsCode.slots_le p.root.decls hds) ?_
  revert htrail
  cases p.trailing with
  | none => exact fun h => Nat.le_of_eq h.1.symm
  | some call => exact ExprCode.slots_le call.toExpr

/-- A text is a module or not, whatever slots have been given out before. -/
theorem readModule_eq {file source : String} {n : Nat} :
    (∀ f, compileModule file source n = .error f → readModule file source = .error f) ∧
      ∀ p r, Program.read source = .ok p → p.compile false n = .ok r → readModule file source = .ok p := by
  unfold compileModule readModule
  cases hp : Program.read source with
  | error e => exact ⟨fun f h => by cases h; rfl, fun _ _ h => nomatch h⟩
  | ok p =>
    have hsame := fun e => Program.compile_eq_error (Program.read_ids_nodup hp) (n := n) (e := e)
    cases hc : p.compile false n with
    | error e =>
      refine ⟨fun f h => ?_, fun q r h hq => ?_⟩
      · simp only [hc] at h
        cases h
        simp only [(hsame e).mp hc]
      · cases h
        exact nomatch hc.symm.trans hq
    | ok r =>
      refine ⟨fun f h => ?_, fun q r' h hq => ?_⟩
      · simp only [hc] at h
        exact nomatch h
      cases h
      cases hc' : p.compile false 0 with
      | error e => exact nomatch ((hsame e).mpr hc').symm.trans hc
      | ok _ => simp only [hc']

namespace Twin

variable {t : Twin} {s items next : Nat} {uses own : Nat → Prop}

/-- A module is begun: it has a root, a scope and slots. -/
def beginModule (t : Twin) (items next : Nat) (own : Nat → Prop) : Twin :=
  (t.newModule.pushScope none fun _ => False).allot items next fun u n => u = t.store.scopes.size ∧ own n

theorem beginModule_onto (hi : t.store.nextSlot ≤ items) (hn : items ≤ next) :
    t.Onto s uses (t.beginModule items next own) :=
  (newModule_onto.trans pushScope_onto).trans (allot_onto hi hn)

theorem beginModule_ready (ht : t.Sound) (hi : t.store.nextSlot ≤ items) (hn : items ≤ next) :
    (t.beginModule items next own).Ready t.store.scopes.size own [] [] t.store.nextSlot items items next := by
  refine allot_ready (t := t.newModule.pushScope none fun _ => False) ?_ ?_ hi hn
  · exact pushScope_sound (newModule_sound ht) nofun (fun _ h => h.elim) fun _ _ _ h => h.elim
  · show t.store.scopes.size < (t.store.scopes.push _).size
    simp

end Twin

namespace Machine

/-- The running task gets what it asks for from a module, which is there already or is begun. -/
def fetch (m : Machine) (delivery : Delivery) (file : String) (text : Except Fault String)
    (equip : Machine → Transition) : Transition :=
  match m.store.module? file with
  | some root => m.deliver root delivery
  | none =>
    match text with
    | .error f => m.raise f
    | .ok source =>
      match compileModule file source m.store.nextSlot with
      | .error f => m.raise f
      | .ok (code, next) => equip (m.await delivery file code next)

variable {host : Host} {sugar : Sugar} {level : Nat} {m : Machine} {a : Activation} {t : Twin} {uses : Nat → Prop}
  {os : List Value} {k : List Instr} {line source next : Nat} {r : Rules} {bring : Importer} {delivery : Delivery}
  {file : String} {code : Code} {σ : Store}

section

variable {text : Except Fault String} {content : String} {equip : Machine → Transition} {root : Nat} {f : Fault}

theorem fetch_cached (h : m.store.module? file = some root) : m.fetch delivery file text equip = m.deliver root delivery := by
  unfold fetch
  rw [h]

theorem fetch_unread (h : m.store.module? file = none) : m.fetch delivery file (.error f) equip = m.raise f := by
  unfold fetch
  rw [h]

theorem fetch_refused (h : m.store.module? file = none) (hc : compileModule file content m.store.nextSlot = .error f) :
    m.fetch delivery file (.ok content) equip = m.raise f := by
  unfold fetch
  rw [h]
  simp only [hc]

theorem fetch_begun (h : m.store.module? file = none)
    (hc : compileModule file content m.store.nextSlot = .ok (code, next)) :
    m.fetch delivery file (.ok content) equip = equip (m.await delivery file code next) := by
  unfold fetch
  rw [h]
  simp only [hc]

end

theorem loadPrelude_eq_load : m.loadPrelude delivery = m.load host preludeName delivery := by
  unfold load
  split
  · rename_i h
    rw [loadPrelude, h]
  · rw [if_pos rfl]

theorem load_prelude : m.load host preludeName delivery = m.fetch delivery preludeName (.ok preludeSource) .running := by
  rw [← loadPrelude_eq_load, loadPrelude]
  cases hm : m.store.module? preludeName with
  | some root => rw [fetch_cached hm]
  | none =>
    cases hc : compileModule preludeName preludeSource m.store.nextSlot with
    | error f => simp only [fetch_refused hm hc]
    | ok r => simp only [fetch_begun hm hc, await]

theorem load_file (hf : file ≠ preludeName) :
    m.load host file delivery =
      m.fetch delivery file ((host.read (joinPath host.appRoot file)).mapError (.moduleRead file)) fun m =>
        if host.withPrelude then m.load host preludeName .whole else .running m := by
  rw [load]
  cases hm : m.store.module? file with
  | some root => rw [fetch_cached hm]
  | none =>
    simp only [if_neg hf]
    cases host.read (joinPath host.appRoot file) with
    | error e => exact (fetch_unread hm).symm
    | ok content =>
      simp only [Except.mapError]
      cases hc : compileModule file content m.store.nextSlot with
      | error f => rw [fetch_refused hm hc]
      | ok r =>
        rw [fetch_begun hm hc]
        simp only [← @loadPrelude_eq_load host, await]

/-- What is handed over, or why it is not. -/
theorem tracks_deliver (ha : m.Acts a) (hr : m.task.root = m.frame.closure.home) (ht : t.Sound) :
    ((m.resume t.store os line k).deliver source delivery).Tracks host level m t uses (Twin.Leaves os) k
      (a.receive line source delivery t.world) := by
  obtain ⟨hmerged, hfault⟩ := Namespace.Stands.merge (ht.root source) (ha.home_stands ht) delivery
  have ht' := Twin.setRoot_sound (r := a.self.home) ht hmerged
  have hx : a.receive line source delivery t.world =
      a.raiseFound line (delivery.merge (t.world.root source) (t.world.root a.self.home)).2
        (t.world.setRoot a.self.home (delivery.merge (t.world.root source) (t.world.root a.self.home)).1) := rfl
  rw [deliver_eq, hx, ← hfault]
  have ho : t.Onto m.frame.scope uses (t.setRoot a.self.home
      (delivery.merge (t.store.root source) (t.store.root m.frame.closure.home)).1
      (delivery.merge (t.world.root source) (t.world.root a.self.home)).1) := Twin.setRoot_onto
  have hreceived : (m.resume t.store os line k).received source delivery = m.resume
      (t.store.setRoot a.self.home (delivery.merge (t.store.root source) (t.store.root m.frame.closure.home)).1) os line k := by
    rw [← ha.home, ← hr]
    rfl
  rw [hreceived, resume_store, resume_root, hr]
  cases (delivery.merge (t.store.root source) (t.store.root m.frame.closure.home)).2 with
  | none => exact .running ⟨_, os, line, rfl, ht', ho, rfl, .refl _⟩
  | some f => exact .raised ht' rfl (failure_resume ha)

/-- A fault in a module is one of the importer. -/
theorem failureOf_await (ha : m.Acts a) {f : Fault} {trace : List TraceEntry} :
    ((m.resume σ os line k).await delivery file code next).failureOf f trace =
      m.failureOf (.moduleRun file ({ fault := f, trace : Failure }).report) [a.entry line] := by
  rw [← @failure_resume m a ha σ os line k]
  show unwind _ (.moduleRun file ({ fault := f, trace := trace ++ [] } : Failure).report) m.waiting = _
  rw [List.append_nil]
  rfl

/-- At its end a module hands over what the importer asked for. -/
theorem step_hand_over {os' : List Value} {line' : Nat} {τ : Store} :
    (((m.resume σ os line k).await delivery file code next).resume τ os' line' []).step host =
      (m.resume (τ.remember file σ.roots.size) os line k).deliver σ.roots.size delivery :=
  rfl

/-- A module is followed if its body is. -/
theorem tracks_module (ha : m.Acts a) (hr : m.task.root = m.frame.closure.home) (ht : t.Sound) {tr : Transition}
    {items : Nat} {run : Activation → Eval Unit} (code : Code) (own : Nat → Prop) (hi : t.store.nextSlot ≤ items)
    (hn : items ≤ next)
    (h : tr.Tracks host level ((m.resume t.store os line k).await delivery file code next) (t.beginModule items next own)
      (fun _ => True) (fun _ _ _ => True) [] (run (moduleActivation file t.store.roots.size) (t.beginModule items next own).world)) :
    tr.Tracks host level m t Twin.Unused (Twin.Leaves os) k (a.runModule line file delivery run t.world) := by
  have hrun : a.runModule line file delivery run t.world =
      a.moduleRan line file t.store.roots.size delivery
        (run (moduleActivation file t.store.roots.size) (t.beginModule items next own).world) := by
    rw [ht.size]
    rfl
  rw [hrun]
  have ho : t.Onto m.frame.scope Twin.Unused (t.beginModule items next own) := Twin.beginModule_onto hi hn
  generalize run (moduleActivation file t.store.roots.size) (t.beginModule items next own).world = res at h ⊢
  cases h with
  | raised ht' hs hf => exact .raised ht' hs (hf.trans (failureOf_await ha))
  | @running m₁ res h =>
    refine .running ?_
    match res, h with
    | (.ok (), ω), ⟨t', os', line', hw, ht', ho', _, hreach⟩ =>
      subst hw
      have ho₂ : t.Onto m.frame.scope Twin.Unused (t'.remember file t.store.roots.size) :=
        (ho.trans_or ho' (.inl (Nat.le_refl _))).trans Twin.remember_onto
      have hkept : (t'.remember file t.store.roots.size).Sound := Twin.remember_sound ht'
      exact Tracks.of_reaches hreach (((tracks_deliver ha hr hkept).of_step step_hand_over).weaken.onto ho₂)
    | (.error (.fault f trace), ω), ⟨t', m', f', hw, ht', hs, hraise, hf⟩ =>
      exact ⟨t', m', f', hw, ht', hs, hraise, hf.trans (failureOf_await ha)⟩
    | (.error (.restart args), ω), ⟨_, _, _, _, _, _, hb, _⟩ => cases hb
    | (.error .cut, ω), h => exact h

/-- What modules begin with is followed. -/
def Equips (host : Host) (sugar : Sugar) (level : Nat) (equip : Machine → Transition) (x : Activation → Eval Unit) :
    Prop :=
  ∀ (m : Machine) (a : Activation) (t : Twin) (k : List Instr), m.Acts a → m.task.root = m.frame.closure.home →
    t.Sound → (equip (m.resume t.store [] 0 k)).Trusted host sugar →
    (equip (m.resume t.store [] 0 k)).Tracks host level m t Twin.Unused (Twin.Leaves []) k (x a t.world)

section

variable {text : Except Fault String} {x : Activation → Eval Unit} {ω : World} {root : Nat}

theorem bringText_cached (h : ω.module? file = some root) :
    a.bringText r bring line file delivery text x ω = a.receive line root delivery ω := by
  refine (Eval.bind_ok (x := Eval.look _) rfl).trans ?_
  rw [h]

theorem bringText_begun (h : ω.module? file = none) :
    a.bringText r bring line file delivery text x ω =
      (a.orRaise line text >>= fun content => a.orRaise line (readModule file content) >>= fun p =>
        a.runModule line file delivery fun inner =>
          x inner >>= fun _ => p.evaluate r bring false inner >>= fun _ => pure ()) ω := by
  refine (Eval.bind_ok (x := Eval.look _) rfl).trans ?_
  rw [h]

end

theorem acts_await :
    ((m.resume t.store os line k).await delivery file code next).Acts (moduleActivation file t.store.roots.size) where
  text := rfl
  home := rfl
  module := rfl
  line := rfl
  arity := rfl
  depth := rfl

/-- A module that is read is followed. -/
theorem tracks_fetch (hf : r.Fit host sugar level) (hb : Brings host sugar level bring) (ha : m.Acts a)
    (hr : m.task.root = m.frame.closure.home) (ht : t.Sound) {equip : Machine → Transition} {x : Activation → Eval Unit}
    (he : Equips host sugar level equip x) {text : Except Fault String}
    (htrust : ((m.resume t.store os line k).fetch delivery file text equip).Trusted host sugar) :
    ((m.resume t.store os line k).fetch delivery file text equip).Tracks host level m t Twin.Unused (Twin.Leaves os) k
      (a.bringText r bring line file delivery text x t.world) := by
  have hmodule : t.world.module? file = t.store.module? file := by
    rw [Store.module?, ht.modules, World.module?]
  cases hm : t.store.module? file with
  | some root =>
    rw [fetch_cached (m := m.resume t.store os line k) hm, bringText_cached (hmodule.trans hm)]
    exact tracks_deliver ha hr ht
  | none =>
    rw [bringText_begun (hmodule.trans hm)]
    cases text with
    | error f =>
      rw [fetch_unread (m := m.resume t.store os line k) hm, Eval.bind_error (x := a.orRaise line (.error f)) rfl]
      exact .raised ht rfl (failure_resume ha)
    | ok content =>
      rw [Eval.bind_ok (x := a.orRaise line (.ok content)) rfl]
      cases hc : compileModule file content t.store.nextSlot with
      | error f =>
        have hread : readModule file content = .error f := readModule_eq.1 f hc
        rw [fetch_refused (m := m.resume t.store os line k) hm hc, hread,
          Eval.bind_error (x := a.orRaise line (.error f)) rfl]
        exact .raised ht rfl (failure_resume ha)
      | ok result =>
        obtain ⟨code, next⟩ := result
        obtain ⟨p, hp, hcode⟩ := compileModule_eq_ok hc
        have hread : readModule file content = .ok p := readModule_eq.2 p _ hp hcode
        rw [fetch_begun (m := m.resume t.store os line k) hm hc] at htrust ⊢
        rw [hread, Eval.bind_ok (x := a.orRaise line (.ok p)) rfl]
        obtain ⟨own, hl⟩ := Program.link_resolves p t.store.nextSlot (Program.read_ids_nodup hp)
        have hbody := compile_eq_ok hcode
        have hi := (link_between p t.store.nextSlot).1
        have hn := hbody.slots_le
        have hready : (t.beginModule _ next own).Ready _ own [] [] _ _ _ next :=
          Twin.beginModule_ready ht hi hn
        have hacts : ((m.resume t.store os line k).await delivery file code next).Acts
            (moduleActivation file t.store.roots.size) := acts_await
        refine tracks_module ha hr ht code own hi hn ?_
        refine Transition.Tracks.seq (he _ _ _ code.instrs hacts rfl hready.sound htrust) htrust (fun _ => False.elim)
          fun t' _ os' ht' ho hos => ?_
        cases hos
        refine (follows_program hf hb hacts rfl (hready.keep ht' ho) hl hbody).seq (fun _ _ => trivial)
          fun t₂ _ os₂ ht₂ _ _ => ?_
        exact .pure ht₂ trivial

/-- The prelude has nothing to begin with. -/
theorem equips_running : Equips host sugar level .running fun _ => pure () :=
  fun _ _ t _ _ _ ht _ => .running ⟨t, [], 0, rfl, ht, .refl _ _ _, rfl, .refl _⟩

theorem tracks_prelude (hf : r.Fit host sugar level) (hb : Brings host sugar level bring) (ha : m.Acts a)
    (hr : m.task.root = m.frame.closure.home) (ht : t.Sound)
    (htrust : ((m.resume t.store os line k).load host preludeName delivery).Trusted host sugar) :
    ((m.resume t.store os line k).load host preludeName delivery).Tracks host level m t Twin.Unused (Twin.Leaves os) k
      (a.bringPrelude r bring line delivery t.world) := by
  rw [load_prelude] at htrust ⊢
  exact tracks_fetch hf hb ha hr ht equips_running htrust

/-- Other modules begin with the prelude, where there is one. -/
theorem equips_prelude (hf : r.Fit host sugar level) (hb : Brings host sugar level bring) (withPrelude : Bool) :
    Equips host sugar level (fun m => if withPrelude then m.load host preludeName .whole else .running m)
      (Activation.equip r bring withPrelude) := by
  intro m a t k ha hr ht htrust
  unfold Activation.equip
  cases withPrelude with
  | false => exact equips_running m a t k ha hr ht htrust
  | true =>
    simp only [if_true] at htrust ⊢
    exact tracks_prelude hf hb ha hr ht htrust

theorem brings_module (hf : r.Fit host sugar level) (hb : Brings host sugar level bring) :
    Brings host sugar (level + 1) (bringModule r bring host) := by
  intro m a t os k line file delivery ha hr ht htrust
  unfold bringModule
  by_cases hfile : file = preludeName
  · subst hfile
    rw [if_pos rfl]
    exact tracks_prelude hf hb ha hr ht htrust
  · rw [if_neg hfile]
    rw [load_file hfile] at htrust ⊢
    exact tracks_fetch hf hb ha hr ht (equips_prelude hf hb host.withPrelude) htrust

theorem rules_fit (host : Host) (sugar : Sugar) (n : Nat) : (host.rules sugar n).Fit host sugar n where
  same := rfl
  limit := rfl
  enters := enterFits_runLambda n

theorem brings_importer (host : Host) (sugar : Sugar) (n : Nat) : Brings host sugar n (host.importer sugar n) := by
  induction n with
  | zero => exact fun _ _ _ _ _ => rfl
  | succ n ih => exact brings_module (rules_fit host sugar n) ih

end Machine

/-! Results of programs. A run that begins with a program in an empty task comes to the result of the evaluation, when it
is given enough steps; and as long as the evaluation has no result, the run has none within as many steps as the
evaluation has fuel. -/

/-- The results of a run and of an evaluation are the same, and so is what they leave. -/
structure Twin.Concludes (t : Twin) (s : Nat) (uses : Nat → Prop) (r : Except RunError (Option Value) × Store)
    (r' : Except RunError (Option Value) × World) (t' : Twin) : Prop where
  store : t'.store = r.2
  world : t'.world = r'.2
  sound : t'.Sound
  onto : ∀ v, r.1 = .ok v → t.Onto s uses t'
  result : match r.1, r'.1 with
    | .ok v, .ok w => Both t'.Alike v w
    | .error e, .error e' => e = e'
    | _, _ => False

/-- A run has no result while an evaluation has none, and else the result of the evaluation, given enough steps. -/
inductive Transition.Settles (host : Host) (level : Nat) (t : Twin) (s : Nat) (uses : Nat → Prop) (tr : Transition)
    (x : Except Halt (Option Value) × World) : Prop where
  | cut : (World.settle x).1 = .error .unfinished → (settle (tr.follow host level)).1 = .error .unfinished →
    Settles host level t s uses tr x
  | ends (t' : Twin) (n₀ : Nat) : (World.settle x).1 ≠ .error .unfinished →
    (∀ n, n₀ ≤ n → t.Concludes s uses (settle (tr.follow host n)) (World.settle x) t') →
    Settles host level t s uses tr x

section

variable {host : Host} {sugar : Sugar} {level : Nat} {m : Machine} {t t' : Twin} {uses : Nat → Prop} {os : List Value}
  {line n : Nat} {f : Fault} {trace : List TraceEntry} {tr : Transition} {w : Option Value} {σ : Store}

/-- A program ends where nothing is left to run and nobody waits. -/
theorem Machine.step_finish (hw : m.waiting = []) (hf : m.task.frames.callers = []) :
    (m.resume σ os line []).step host = .finished σ os.head? := by
  have hframes : (m.resume σ os line []).task.frames.toList = [(m.resume σ os line []).frame] :=
    congrArg ((m.resume σ os line []).frame :: ·) hf
  have hpop := Frames.pop?_single hframes
  rw [step, resume_rest]
  simp only [hpop]
  rw [finish, resume_waiting, hw]
  rfl

theorem Machine.failureOf_empty (hw : m.waiting = []) (hf : m.task.frames.callers = []) :
    m.failureOf f trace = { fault := f, trace } := by
  rw [failureOf, hw, hf, List.map_nil, List.append_nil]

theorem Twin.Yields.head? (h : Twin.Yields [] t w os) : Both t.Alike os.head? w := by
  cases w with
  | none =>
    cases h
    exact .inl ⟨rfl, rfl⟩
  | some w =>
    obtain ⟨v, rfl, hv⟩ := h
    exact .inr ⟨v, w, rfl, rfl, hv⟩

theorem concludes_failed {s : Nat} {e : Failure} (ht' : t'.Sound) (hσ : σ = t'.store) (hf : e = { fault := f, trace }) :
    t.Concludes s uses (settle (.failed σ e)) (World.settle (.error (.fault f trace), t'.world))
      (t'.setConsole (t'.store.console.complain (Failure.report { fault := f, trace }))) := by
  subst hf hσ
  exact
    { store := rfl
      world := by
        rw [Twin.setConsole, ht'.console]
        rfl
      sound := Twin.setConsole_sound ht'
      onto := nofun
      result := rfl }

/-- Where a task is alone, what it comes to is the result. -/
theorem Transition.Tracks.settles (hw : m.waiting = []) (hf : m.task.frames.callers = [])
    {x : Except Halt (Option Value) × World} (h : tr.Tracks host level m t uses (Twin.Yields []) [] x) :
    tr.Settles host level t m.frame.scope uses x := by
  cases h with
  | raised ht' hs he =>
    exact .ends _ 0 nofun fun n _ => concludes_failed ht' hs (he.trans (Machine.failureOf_empty hw hf))
  | @running m₁ x h =>
    match x, h with
    | (.ok w, ω), ⟨t', os, line, hω, ht', ho, hy, j, hj⟩ =>
      subst hω
      refine .ends t' (j + 1) nofun fun n hn => ?_
      have hend : m₁.run host n = .finished t'.store os.head? :=
        Machine.run_eq_finished.mpr ⟨j, hn, _, hj, Machine.step_finish hw hf⟩
      rw [follow, hend]
      exact ⟨rfl, rfl, ht', fun _ _ => ho, hy.head?⟩
    | (.error (.fault f trace), ω), ⟨t', m', f', hω, ht', hs, ⟨m₂, ⟨j, hj⟩, hstep⟩, he⟩ =>
      subst hω
      refine .ends (t'.setConsole (t'.store.console.complain (Failure.report { fault := f, trace }))) (j + 1) nofun
        fun n hn => ?_
      have hend : m₁.run host n = .failed m'.store (m'.failure f') :=
        Machine.run_eq_failed.mpr ⟨j, hn, _, _, _, hj, hstep, rfl, rfl⟩
      rw [follow, hend]
      exact concludes_failed ht' hs (he.trans (Machine.failureOf_empty hw hf))
    | (.error (.restart args), ω), ⟨_, _, _, _, _, _, hb, _⟩ => cases hb
    | (.error .cut, ω), ⟨m', hwalk⟩ =>
      refine .cut rfl ?_
      rw [follow, Machine.run_eq_cut.mpr hwalk]
      rfl

/-- The body of a module that nobody waits for. -/
def Store.moduleMachine (σ : Store) (module : String) (code : Code) : Machine :=
  { store := (σ.newTask module code).2, task := (σ.newTask module code).1, waiting := [] }

theorem beginCode_eq {σ : Store} {withPrelude : Bool} {module : String} {code : Code} :
    beginCode σ withPrelude module code =
      if withPrelude then (σ.moduleMachine module code).load host preludeName .whole
      else .running (σ.moduleMachine module code) := by
  rw [← Machine.loadPrelude_eq_load]
  rfl

/-- The body of a module begins with the prelude, where there is one. -/
theorem tracks_beginCode {r : Rules} {bring : Importer} {withPrelude : Bool} {module : String} {code : Code}
    {next items : Nat} {own : Nat → Prop} {k : List Instr} {α : Type} {x : Activation → Eval α} {post : Twin → α → List Value → Prop}
    (hf : r.Fit host sugar level) (hb : Brings host sugar level bring) (ht : t.Sound) (hi : t.store.nextSlot ≤ items) (hn : items ≤ next)
    (htrust : (beginCode { t.store with nextSlot := next } withPrelude module code).Trusted host sugar)
    (hx : ∀ (m : Machine) (a : Activation) (t' : Twin), m.Acts a → m.task.root = m.frame.closure.home →
      m.frame.closure.code = code → m.frame.scope = t.store.scopes.size →
      t'.Ready t.store.scopes.size own [] [] t.store.nextSlot items items next →
      m.Follows host sugar level none t' (fun _ => True) [] code.instrs (x a) post k) :
    (beginCode { t.store with nextSlot := next } withPrelude module code).Tracks host level
      ({ t.store with nextSlot := next }.moduleMachine module code) (t.beginModule items next own) (fun _ => True) post k
      ((Activation.equip r bring withPrelude (moduleActivation module t.store.roots.size) >>= fun _ =>
        x (moduleActivation module t.store.roots.size)) (t.beginModule items next own).world) := by
  rw [@beginCode_eq host] at htrust ⊢
  have hready : (t.beginModule items next own).Ready _ own [] [] _ items items next := Twin.beginModule_ready ht hi hn
  let m : Machine := ({ t.store with nextSlot := next }.moduleMachine module code)
  have hacts : m.Acts (moduleActivation module t.store.roots.size) := ⟨rfl, rfl, rfl, rfl, rfl, rfl⟩
  refine Transition.Tracks.seq (Machine.equips_prelude hf hb withPrelude m _ (t.beginModule items next own) code.instrs hacts rfl hready.sound htrust)
    htrust (fun _ => False.elim) fun t' _ os' ht' ho hos => ?_
  cases hos
  exact hx m _ t' hacts rfl rfl rfl (hready.keep ht' ho)

end

end MatchLang
