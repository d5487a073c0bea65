import MatchLang.Proofs.Machine.Inversion
import MatchLang.Proofs.Store.Like

/-! Two machines that are the same but for the numbers in their values take the same steps. The numbers that a
step gives out on the two sides stand for one another from then on. -/

namespace MatchLang

structure Frame.Alike (ρ : Numbering) (w : Slack) (f g : Frame) : Prop where
  closure : f.closure.Like ρ w.admits g.closure
  scope : f.scope = g.scope
  line : f.line = g.line
  rest : f.rest = g.rest
  passes : w.passes f.rest

structure Task.Like (ρ : Numbering) (w : Slack) (t u : Task) : Prop where
  module : t.module = u.module
  root : t.root = u.root
  operands : AllLike ρ w.admits t.operands u.operands
  frames : List.Forall₂ (Frame.Alike ρ w) t.frames.toList u.frames.toList

structure Suspended.Like (ρ : Numbering) (w : Slack) (s s' : Suspended) : Prop where
  task : s.task.Like ρ w s'.task
  delivery : s.delivery = s'.delivery

structure Machine.Like (ρ : Numbering) (w : Slack) (m m' : Machine) : Prop where
  store : m.store.Like ρ w m'.store
  task : m.task.Like ρ w m'.task
  waiting : List.Forall₂ (Suspended.Like ρ w) m.waiting m'.waiting

inductive Transition.Like (ρ : Numbering) (w : Slack) : Transition → Transition → Prop where
  | running {m m'} : m.Like ρ w m' → Like ρ w (.running m) (.running m')
  | finished {σ τ v v'} : σ.Like ρ w τ → Both (Value.Like ρ w.admits) v v' →
    Like ρ w (.finished σ v) (.finished τ v')
  | raised {m m'} (f : Fault) : m.Like ρ w m' → Like ρ w (.raised m f) (.raised m' f)

/-- The same end of a run but for the numbers. -/
inductive Ending.Like (ρ : Numbering) (w : Slack) : Ending → Ending → Prop where
  | finished {σ τ v v'} : σ.Like ρ w τ → Both (Value.Like ρ w.admits) v v' →
    Like ρ w (.finished σ v) (.finished τ v')
  | failed {σ τ} (e : Failure) : σ.Like ρ w τ → Like ρ w (.failed σ e) (.failed τ e)
  | cut {m m'} : m.Like ρ w m' → Like ρ w (.cut m) (.cut m')

structure Setting.Like (ρ : Numbering) (w : Slack) (s s' : Setting) : Prop where
  store : s.store.Like ρ w s'.store
  operands : AllLike ρ w.admits s.operands s'.operands
  closure : s.closure.Like ρ w.admits s'.closure
  scope : s.scope = s'.scope
  root : s.root = s'.root

/-- More numbers stand for one another. -/
def Numbering.Le (ρ ρ' : Numbering) : Prop :=
  ∀ i j, ρ i j → ρ' i j

/-- The same action. Where it gives out numbers, more of them stand for one another. -/
inductive Action.Like (ρ : Numbering) (w : Slack) : Action → Action → Prop where
  | proceed {ρ' σ τ os os' is} : ρ.Le ρ' → σ.Like ρ' w τ → AllLike ρ' w.admits os os' → w.passes is →
    Like ρ w (.proceed σ os is) (.proceed τ os' is)
  | enter {c d os os'} : c.Like ρ w.admits d → AllLike ρ w.admits os os' →
    Like ρ w (.enter c os) (.enter d os')
  | restart : Like ρ w .restart .restart
  | load (file : String) (delivery : Delivery) : Like ρ w (.load file delivery) (.load file delivery)
  | fail {ρ' σ τ os os'} (f : Fault) : ρ.Le ρ' → σ.Like ρ' w τ → AllLike ρ' w.admits os os' →
    Like ρ w (.fail σ os f) (.fail τ os' f)

theorem Numbering.Le.refl (ρ : Numbering) : ρ.Le ρ :=
  fun _ _ h => h

theorem Numbering.Le.trans {ρ ρ' ρ'' : Numbering} (h : ρ.Le ρ') (h' : ρ'.Le ρ'') : ρ.Le ρ'' :=
  fun i j hij => h' i j (h i j hij)

theorem Numbering.Le.extend (ρ : Numbering) (n n' k : Nat) : ρ.Le (ρ.extend n n' k) :=
  fun _ _ => Numbering.le_extend

section

variable {ρ ρ' : Numbering} {w : Slack} {s s' : Setting} {line : Nat} {k : List Instr}

theorem Closure.Like.mono {A : Code → Prop} {c d : Closure} (hρ : ρ.Le ρ') (h : c.Like ρ A d) :
    c.Like ρ' A d :=
  ⟨hρ _ _ h.id, h.same, h.admitted⟩

theorem Closure.Like.home_eq {A : Code → Prop} {c d : Closure} (h : c.Like ρ A d) : c.home = d.home := by
  rw [← h.same]

theorem Closure.Like.code_eq {A : Code → Prop} {c d : Closure} (h : c.Like ρ A d) : c.code = d.code := by
  rw [← h.same]

theorem Closure.Like.scope_eq {A : Code → Prop} {c d : Closure} (h : c.Like ρ A d) :
    c.scope = d.scope := by
  rw [← h.same]

theorem Closure.Like.arity_eq {A : Code → Prop} {c d : Closure} (h : c.Like ρ A d) :
    c.arity = d.arity := by
  rw [← h.same]

theorem Closure.Like.line_eq {A : Code → Prop} {c d : Closure} (h : c.Like ρ A d) : c.line = d.line := by
  rw [← h.same]

theorem Closure.Like.text_eq {A : Code → Prop} {c d : Closure} (h : c.Like ρ A d) : c.text = d.text := by
  rw [← h.same]
  rfl

/-- The function that is made with the next number on either side. -/
theorem Closure.Like.inner {A : Code → Prop} {c d : Closure} {n n' scope line arity : Nat} {code : Code}
    (h : c.Like ρ A d) (ha : A code) :
    (c.inner n scope line code arity).Like (ρ.extend n n' 1) A (d.inner n' scope line code arity) := by
  refine ⟨ρ.extend_next n n', ?_, ha⟩
  rw [← h.same]
  rfl

theorem Slack.passes_code {w : Slack} {code : Code} (h : w.admits code) : w.passes code.instrs :=
  w.passes_drop code 0 h

theorem Slack.passes_from {w : Slack} {code : Code} {label : Nat} {is : List Instr} (h : w.admits code)
    (hl : code.from? label = some is) : w.passes is := by
  obtain ⟨n, _, rfl⟩ := Option.map_eq_some_iff.mp hl
  exact w.passes_drop code n h

namespace Setting.Like

theorem home (h : s.Like ρ w s') : s.home.Like ρ w.admits s'.home := by
  rw [Setting.home, Setting.home, h.closure.home_eq]
  exact h.store.root _

theorem proceed {os os' : List Value} (h : s.Like ρ w s') (ho : AllLike ρ w.admits os os')
    (hk : w.passes k) : (Action.proceed s.store os k).Like ρ w (.proceed s'.store os' k) :=
  .proceed (.refl ρ) h.store ho hk

theorem withOperands {os os' : List Value} (h : s.Like ρ w s') (ho : AllLike ρ w.admits os os') :
    Setting.Like ρ w { s with operands := os } { s' with operands := os' } :=
  ⟨h.store, ho, h.closure, h.scope, h.root⟩

theorem refuse (h : s.Like ρ w s') (f : Fault) : (s.refuse f).Like ρ w (s'.refuse f) :=
  .fail f (.refl ρ) h.store h.operands

theorem jump (h : s.Like ρ w s') (label : Nat) : (s.jump label).Like ρ w (s'.jump label) := by
  rw [Setting.jump, Setting.jump, ← h.closure.code_eq]
  cases hl : s.closure.code.from? label with
  | none => exact h.refuse _
  | some is => exact h.proceed h.operands (Slack.passes_from h.closure.admitted hl)

theorem pop {next next' : Value → List Value → Action} (h : s.Like ρ w s')
    (hn : ∀ v v' os os', v.Like ρ w.admits v' → AllLike ρ w.admits os os' →
      (next v os).Like ρ w (next' v' os')) : (s.pop next).Like ρ w (s'.pop next') := by
  have ho := h.operands
  unfold Setting.pop
  cases hos : s.operands with
  | nil =>
    rw [hos] at ho
    rw [List.forall₂_nil_left_iff.mp ho]
    exact h.refuse _
  | cons v os =>
    rw [hos] at ho
    obtain ⟨v', os', hv, hrest, hos'⟩ := List.forall₂_cons_left_iff.mp ho
    rw [hos']
    exact hn v v' os os' hv hrest

theorem test {shape : Shape} {next next' : List Value → Bool → Action} (h : s.Like ρ w s')
    (hn : ∀ os os' fits, AllLike ρ w.admits os os' → (next os fits).Like ρ w (next' os' fits)) :
    (s.test shape next).Like ρ w (s'.test shape next') := by
  refine h.pop fun v v' os os' hv ho => ?_
  rw [Shape.accepts_eq h.store.fits h.home.findType shape hv]
  cases shape.accepts s'.home.findType v' with
  | ok fits => exact hn os os' fits ho
  | error f => exact h.refuse f

theorem declare {σ τ : Store} {os os' : List Value} {r r' : Except Fault Namespace}
    (h : s.Like ρ w s') (hρ : ρ.Le ρ') (hσ : σ.Like ρ' w τ) (ho : AllLike ρ' w.admits os os')
    (hk : w.passes k) (hr : Concord (Namespace.Like ρ' w.admits) r r') :
    (s.declare σ os k r).Like ρ w (s'.declare τ os' k r') := by
  cases hr with
  | ok hn =>
    rw [Setting.declare, Setting.declare, h.root]
    exact .proceed hρ (hσ.setRoot hn) ho hk
  | error f => exact .fail f hρ hσ ho

theorem apply {callee callee' : Value} {os os' : List Value} (h : s.Like ρ w s')
    (hc : callee.Like ρ w.admits callee') (ho : AllLike ρ w.admits os os') (hk : w.passes k) :
    (s.apply callee os k).Like ρ w (s'.apply callee' os' k) := by
  unfold Setting.apply
  generalize hx : applyFull callee os = x
  generalize hy : applyFull callee' os' = y
  have ha : x.Like ρ w.admits y := hx ▸ hy ▸ applyFull_like hc ho
  cases ha with
  | enter hc ho => exact .enter hc ho
  | build hc hpos hl hf hr => exact h.proceed (.cons (.record hc hpos hl hf) hr) hk
  | fault f => exact h.refuse f
  | @compute args args' rest rest' f hargs hr =>
    have hrun := Native.run_agree (f := f) h.store.fits hargs s.store.console
    rw [← h.store.console]
    obtain ⟨⟨v, c⟩, ⟨v', c'⟩, h₁, h₂, hv, hcc⟩ | ⟨e, h₁, h₂⟩ := hrun.split
    · simp only [h₁, h₂]
      cases hcc
      exact .proceed (.refl ρ) (h.store.withConsole c) (.cons hv hr) hk
    · simp only [h₁, h₂]
      exact h.refuse e

/-- With as many arguments as it wants, fewer or more of them. -/
theorem call (h : s.Like ρ w s') (hk : w.passes k) (argc : Nat) :
    (s.call argc k).Like ρ w (s'.call argc k) := by
  refine h.pop fun callee callee' os os' hc ho => ?_
  simp only [← hc.arity?_eq, ← hc.display_eq]
  cases hn : callee.arity? with
  | none => exact h.refuse _
  | some n =>
    by_cases heq : argc = n
    · simp only [if_pos heq]
      exact h.apply hc ho hk
    · simp only [if_neg heq]
      by_cases hlt : argc < n
      · simp only [if_pos hlt, Setting.hold]
        obtain ⟨h₁, h₂⟩ | ⟨args, rest, args', rest', h₁, h₂, ha, hr⟩ := AllLike.take argc ho
        · simp only [h₁, h₂]
          exact h.refuse _
        · have hle := Numbering.Le.extend ρ s.store.nextIdentity s'.store.nextIdentity 1
          have hl : args.length < n := (takeOperands_eq_some h₁).2 ▸ hlt
          have hp := Value.Like.partialCall (ρ.extend_next _ _) (hc.mono hle _) (ha.mono hle _) hn hl
          simp only [h₁, h₂]
          exact .proceed hle (h.store.extend 1) (.cons hp (hr.mono hle _)) hk
      · simp only [if_neg hlt]
        exact h.refuse _

end Setting.Like

theorem Op.action_like {op : Op} (h : s.Like ρ w s') (hop : op.Keeps w.hidden w.admits)
    (hk : w.passes k) : (op.action s line k).Like ρ w (op.action s' line k) := by
  cases op with
  | nothing => exact h.proceed h.operands hk
  | loadNumber x => exact h.proceed (.cons (.number x) h.operands) hk
  | loadText t => exact h.proceed (.cons (.text t) h.operands) hk
  | loadFunction code arity =>
    have hle := Numbering.Le.extend ρ s.store.nextIdentity s'.store.nextIdentity 1
    simp only [Op.action, ← h.scope]
    exact .proceed hle (h.store.extend 1) (.cons (.function (h.closure.inner hop)) (h.operands.mono hle _)) hk
  | fail message => exact h.refuse _
  | pop => exact h.pop fun v v' os os' _ ho => h.proceed ho hk
  | duplicate => exact h.pop fun v v' os os' hv ho => h.proceed (.cons hv (.cons hv ho)) hk
  | decompose path parts =>
    simp only [Op.action]
    obtain ⟨t, t', h₁, h₂, ht⟩ | ⟨f, h₁, h₂⟩ := (h.home.findType path).split
    · simp only [h₁, h₂]
      have hd : Concord (AllLike ρ w.admits) (MatchLang.decompose t parts s.operands)
          (MatchLang.decompose t' parts s'.operands) := decompose_agree h.store.fits ht h.operands
      obtain ⟨os, os', h₃, h₄, ho⟩ | ⟨f, h₃, h₄⟩ := hd.split
      · simp only [h₃, h₄]
        exact h.proceed ho hk
      · simp only [h₃, h₄]
        exact h.refuse f
    · simp only [h₁, h₂]
      exact h.refuse f
  | jump label => exact h.jump label
  | require shape =>
    refine h.test fun os os' fits ho => ?_
    cases fits with
    | true => exact h.proceed ho hk
    | false => exact .fail _ (.refl ρ) h.store ho
  | jumpIf shape label =>
    refine h.test fun os os' fits ho => ?_
    cases fits with
    | true => exact (h.withOperands ho).jump label
    | false => exact h.proceed ho hk
  | loadLocal slot =>
    have hn : ¬ w.hidden slot.id := hop
    simp only [Op.action, ← h.scope]
    obtain ⟨h₁, h₂⟩ | ⟨v, v', h₁, h₂, hv⟩ := h.store.lookup hn s.scope
    · simp only [h₁, h₂]
      exact h.refuse _
    · simp only [h₁, h₂]
      exact h.proceed (.cons hv h.operands) hk
  | loadName path =>
    simp only [Op.action]
    obtain ⟨v, v', h₁, h₂, hv⟩ | ⟨f, h₁, h₂⟩ := (h.home.findValue path).split
    · simp only [h₁, h₂]
      exact h.proceed (.cons hv h.operands) hk
    · simp only [h₁, h₂]
      exact h.refuse f
  | saveLocal slot =>
    have hn : ¬ w.hidden slot.id := hop
    refine h.pop fun v v' os os' hv ho => ?_
    rw [← h.scope]
    exact .proceed (.refl ρ) (h.store.save hn hv) ho hk
  | publish name path =>
    refine h.pop fun v v' os os' hv ho => h.declare (.refl ρ) h.store ho hk ?_
    rw [← h.root]
    exact publishIn_agree (h.store.root s.root) path name hv
  | call argc => exact h.call hk argc
  | tailCall argc =>
    simp only [Op.action, ← h.closure.arity_eq]
    split
    · exact .restart
    · exact h.refuse _
  | makeNamespace path isPublic =>
    refine h.declare (.refl ρ) h.store h.operands hk ?_
    rw [← h.root]
    exact (h.store.root s.root).make path isPublic
  | makeType name path cases =>
    have hle := Numbering.Le.extend ρ s.store.nextIdentity s'.store.nextIdentity cases.length
    refine h.declare hle (h.store.extend cases.length) (h.operands.mono hle _) hk ?_
    rw [← h.root]
    exact defineIn_agree ((h.store.root s.root).mono hle) path name (numberCases_like ρ _ _ cases)
  | importAll file => exact .load file .whole
  | importEntry file path => exact .load file (.entry path)

end

section

variable {ρ ρ' : Numbering} {w : Slack} {host : Host} {m m' : Machine} {f g : Frame} {t u : Task}
  {line : Nat} {k : List Instr} {c d : Closure} {delivery : Delivery} {file : String}

theorem Frame.Alike.mono (hρ : ρ.Le ρ') (h : f.Alike ρ w g) : f.Alike ρ' w g :=
  ⟨h.closure.mono hρ, h.scope, h.line, h.rest, h.passes⟩

theorem Frame.Alike.moved (h : f.Alike ρ w g) (hk : w.passes k) : (f.moved line k).Alike ρ w (g.moved line k) :=
  ⟨h.closure, h.scope, rfl, rfl, hk⟩

theorem Frame.Alike.again (h : f.Alike ρ w g) {scope scope' : Nat} (hs : scope = scope') :
    (f.again scope line).Alike ρ w (g.again scope' line) :=
  ⟨h.closure, hs, rfl, congrArg Code.instrs h.closure.code_eq, Slack.passes_code h.closure.admitted⟩

theorem Closure.Like.entered (h : c.Like ρ w.admits d) {scope scope' : Nat} (hs : scope = scope') :
    (c.entered scope).Alike ρ w (d.entered scope') :=
  ⟨h, hs, h.line_eq, congrArg Code.instrs h.code_eq, Slack.passes_code h.admitted⟩

theorem Frame.Alike.entry_eq (h : f.Alike ρ w g) : f.entry = g.entry := by
  rw [Frame.entry, Frame.entry, h.closure.text_eq, h.line]

theorem Task.Like.mono (hρ : ρ.Le ρ') (h : t.Like ρ w u) : t.Like ρ' w u :=
  ⟨h.module, h.root, h.operands.mono hρ _, h.frames.imp fun _ _ => Frame.Alike.mono hρ⟩

theorem Frame.Alike.entries_eq {fs gs : List Frame} (h : List.Forall₂ (Frame.Alike ρ w) fs gs) :
    fs.map Frame.entry = gs.map Frame.entry := by
  induction h with
  | nil => rfl
  | cons hf _ ih => rw [List.map_cons, List.map_cons, hf.entry_eq, ih]

theorem Task.Like.trace_eq (h : t.Like ρ w u) : t.trace = u.trace :=
  Frame.Alike.entries_eq h.frames

theorem Task.Like.depth_eq (h : t.Like ρ w u) : t.frames.depth = u.frames.depth := by
  rw [Frames.depth_eq_length, Frames.depth_eq_length, h.frames.length_eq]

theorem Suspended.Like.mono {s s' : Suspended} (hρ : ρ.Le ρ') (h : s.Like ρ w s') : s.Like ρ' w s' :=
  ⟨h.task.mono hρ, h.delivery⟩

/-- What is reported depends on the activations and on who waits for the module, and on nothing else. -/
theorem Machine.failure_congr {n : Machine} (ht : m.task.trace = n.task.trace)
    (hm : m.task.module = n.task.module) (hw : m.waiting = n.waiting) (f : Fault) :
    m.failure f = n.failure f := by
  unfold Machine.failure
  rw [hw]
  cases n.waiting with
  | nil => rw [unwind, unwind, ht]
  | cons s ws => rw [unwind, unwind, ht, hm]

/-- A fault is reported the same way. -/
theorem Machine.Like.failure_eq (h : m.Like ρ w m') (f : Fault) : m.failure f = m'.failure f := by
  have hunwind : ∀ {ws ws' : List Suspended}, List.Forall₂ (Suspended.Like ρ w) ws ws' →
      ∀ {t u : Task} {f : Fault}, t.Like ρ w u → unwind t f ws = unwind u f ws' := by
    intro ws ws' hws
    induction hws with
    | nil =>
      intro t u f ht
      rw [unwind, unwind, ht.trace_eq]
    | cons hs _ ih =>
      intro t u f ht
      rw [unwind, unwind, ht.trace_eq, ht.module]
      exact ih hs.task
  exact hunwind h.waiting h.task

theorem bodyTask_like {n n' scope root : Nat} {code : Code} (hf : ρ.Fits n n') (hcode : w.admits code)
    (module : String) :
    (bodyTask module code scope root).Like ρ w (bodyTask module code scope root) :=
  ⟨rfl, rfl, .nil, .cons ⟨⟨hf.builtin 0 (by decide), rfl, hcode⟩, rfl, rfl, rfl,
    Slack.passes_code hcode⟩ .nil⟩

theorem Store.Like.newTask {σ τ : Store} {code : Code} (h : σ.Like ρ w τ) (hcode : w.admits code)
    (module : String) : (σ.newTask module code).1.Like ρ w (τ.newTask module code).1 ∧
      (σ.newTask module code).2.Like ρ w (τ.newTask module code).2 := by
  have hbody : (bodyTask module code σ.scopes.size σ.roots.size).Like ρ w
      (bodyTask module code τ.scopes.size τ.roots.size) := by
    rw [h.scopes, h.roots]
    exact bodyTask_like h.fits hcode module
  exact ⟨hbody, h.newSeededRoot.newScope none⟩

namespace Machine.Like

theorem frame (h : m.Like ρ w m') : m.frame.Alike ρ w m'.frame :=
  (List.forall₂_cons.mp h.task.frames).1

theorem setting (h : m.Like ρ w m') : m.setting.Like ρ w m'.setting :=
  ⟨h.store, h.task.operands, h.frame.closure, h.frame.scope, h.task.root⟩

theorem resume {σ τ : Store} {os os' : List Value} (h : m.Like ρ w m') (hρ : ρ.Le ρ')
    (hσ : σ.Like ρ' w τ) (ho : AllLike ρ' w.admits os os') (hk : w.passes k) :
    (m.resume σ os line k).Like ρ' w (m'.resume τ os' line k) := by
  obtain ⟨hf, hfs⟩ := List.forall₂_cons.mp h.task.frames
  exact ⟨hσ, ⟨h.task.module, h.task.root, ho,
    .cons ((hf.mono hρ).moved hk) (hfs.imp fun _ _ => Frame.Alike.mono hρ)⟩,
    h.waiting.imp fun _ _ => Suspended.Like.mono hρ⟩

theorem updateStore {change change' : Store → Store} (h : m.Like ρ w m')
    (hσ : (change m.store).Like ρ w (change' m'.store)) :
    (m.updateStore change).Like ρ w (m'.updateStore change') :=
  ⟨hσ, h.task, h.waiting⟩

theorem pushFrame (h : m.Like ρ w m') (hc : c.Like ρ w.admits d) :
    (m.pushFrame c).Like ρ w (m'.pushFrame d) := by
  have hσ : (m.store.newScope (some c.scope)).2.Like ρ w (m'.store.newScope (some d.scope)).2 := by
    rw [hc.scope_eq]
    exact h.store.newScope _
  exact ⟨hσ, ⟨h.task.module, h.task.root, h.task.operands,
    .cons (hc.entered h.store.scopes) h.task.frames⟩, h.waiting⟩

theorem enter (host : Host) (h : m.Like ρ w m') (hc : c.Like ρ w.admits d) :
    (m.enter host c).Like ρ w (m'.enter host d) := by
  unfold Machine.enter
  cases host.callLimit with
  | none => exact .running (h.pushFrame hc)
  | some limit =>
    simp only [h.task.depth_eq]
    split
    · exact .raised _ h
    · exact .running (h.pushFrame hc)

theorem restarted (h : m.Like ρ w m') : m.restarted.Like ρ w m'.restarted := by
  obtain ⟨hf, hfs⟩ := List.forall₂_cons.mp h.task.frames
  have hσ : (m.store.newScope (some m.frame.closure.scope)).2.Like ρ w
      (m'.store.newScope (some m'.frame.closure.scope)).2 := by
    rw [h.frame.closure.scope_eq]
    exact h.store.newScope _
  exact ⟨hσ, ⟨h.task.module, h.task.root, h.task.operands,
    .cons ⟨hf.closure, h.store.scopes, hf.line, congrArg Code.instrs hf.closure.code_eq,
      Slack.passes_code hf.closure.admitted⟩ hfs⟩, h.waiting⟩

theorem deliver (h : m.Like ρ w m') (source : Nat) (delivery : Delivery) :
    (m.deliver source delivery).Like ρ w (m'.deliver source delivery) := by
  cases delivery with
  | whole =>
    simp only [Machine.deliver, ← h.task.root]
    exact .running (h.updateStore (h.store.updateRoot ((h.store.root source).overlay (h.store.root _))))
  | entry path =>
    simp only [Machine.deliver, ← h.task.root]
    obtain ⟨hn, hfault⟩ := (h.store.root source).importFrom (h.store.root m.task.root) [] path
    have hm : (m.updateStore (·.setRoot m.task.root
          ((m.store.root source).importEntry (m.store.root m.task.root) path).1)).Like ρ w
        (m'.updateStore (·.setRoot m.task.root
          ((m'.store.root source).importEntry (m'.store.root m.task.root) path).1)) :=
      h.updateStore (h.store.setRoot hn)
    have hfault : ((m.store.root source).importEntry (m.store.root m.task.root) path).2 =
        ((m'.store.root source).importEntry (m'.store.root m.task.root) path).2 := hfault
    rw [← hfault]
    cases ((m.store.root source).importEntry (m.store.root m.task.root) path).2 with
    | none => exact .running hm
    | some f => exact .raised f hm

theorem suspend {code : Code} (h : m.Like ρ w m') (hcode : w.admits code) (delivery : Delivery)
    (file : String) : (m.suspend delivery file code).Like ρ w (m'.suspend delivery file code) := by
  obtain ⟨htask, hσ⟩ := h.store.newTask hcode file
  exact ⟨hσ, htask, .cons ⟨h.task, rfl⟩ h.waiting⟩

theorem await {code : Code} (h : m.Like ρ w m') (hcode : w.admits code) (next : Nat) :
    (m.await delivery file code next).Like ρ w (m'.await delivery file code next) :=
  (h.updateStore (h.store.withNextSlot next)).suspend hcode delivery file

theorem loadPrelude (h : m.Like ρ w m') (hall : ∀ code, w.admits code) (delivery : Delivery) :
    (m.loadPrelude delivery).Like ρ w (m'.loadPrelude delivery) := by
  unfold Machine.loadPrelude
  generalize preludeSource = source
  rw [← h.store.module?_eq, ← h.store.nextSlot]
  cases m.store.module? preludeName with
  | some root => exact h.deliver root delivery
  | none =>
    cases compileModule preludeName source m.store.nextSlot with
    | error f => exact .raised f h
    | ok r => exact .running (h.await (hall r.1) r.2)

theorem load (host : Host) (h : m.Like ρ w m') (hall : ∀ code, w.admits code) (file : String)
    (delivery : Delivery) : (m.load host file delivery).Like ρ w (m'.load host file delivery) := by
  unfold Machine.load
  rw [← h.store.module?_eq, ← h.store.nextSlot]
  cases m.store.module? file with
  | some root => exact h.deliver root delivery
  | none =>
    by_cases hp : file = preludeName
    · simp only [if_pos hp]
      exact h.loadPrelude hall delivery
    · simp only [if_neg hp]
      cases host.read (joinPath host.appRoot file) with
      | error e => exact .raised _ h
      | ok source =>
        simp only
        cases compileModule file source m.store.nextSlot with
        | error f => exact .raised f h
        | ok r =>
          simp only
          split
          · exact (h.await (hall r.1) r.2).loadPrelude hall .whole
          · exact .running (h.await (hall r.1) r.2)

theorem finish (h : m.Like ρ w m') : m.finish.Like ρ w m'.finish := by
  have hws := h.waiting
  unfold Machine.finish
  cases hm : m.waiting with
  | nil =>
    rw [hm] at hws
    rw [List.forall₂_nil_left_iff.mp hws]
    refine .finished h.store ?_
    have ho := h.task.operands
    unfold Machine.operands
    cases hos : m.task.operands with
    | nil =>
      rw [hos] at ho
      rw [List.forall₂_nil_left_iff.mp ho]
      exact .inl ⟨rfl, rfl⟩
    | cons v os =>
      rw [hos] at ho
      obtain ⟨v', os', hv, _, hos'⟩ := List.forall₂_cons_left_iff.mp ho
      rw [hos']
      exact .inr ⟨v, v', rfl, rfl, hv⟩
  | cons s rest =>
    rw [hm] at hws
    obtain ⟨s', rest', hs, hrest, hm'⟩ := List.forall₂_cons_left_iff.mp hws
    simp only [hm', ← h.task.module, ← h.task.root, ← hs.delivery]
    have hnext : Machine.Like ρ w
        { store := m.store.remember m.task.module m.task.root, task := s.task, waiting := rest }
        { store := m'.store.remember m.task.module m.task.root, task := s'.task, waiting := rest' } :=
      ⟨h.store.remember _ _, hs.task, hrest⟩
    exact hnext.deliver _ _

theorem act {a a' : Action} (h : m.Like ρ w m') (hall : ∀ code, w.admits code) (ha : a.Like ρ w a')
    (hk : w.passes k) :
    ∃ ρ', ρ.Le ρ' ∧ (m.act host line k a).Like ρ' w (m'.act host line k a') := by
  have hstay : ∀ {os os' : List Value}, AllLike ρ w.admits os os' →
      (m.resume m.store os line k).Like ρ w (m'.resume m'.store os' line k) :=
    fun ho => h.resume (.refl ρ) h.store ho hk
  cases ha with
  | proceed hρ hσ ho hi => exact ⟨_, hρ, .running (h.resume hρ hσ ho hi)⟩
  | enter hc ho => exact ⟨ρ, .refl ρ, (hstay ho).enter host hc⟩
  | restart => exact ⟨ρ, .refl ρ, .running (hstay h.task.operands).restarted⟩
  | load file delivery => exact ⟨ρ, .refl ρ, (hstay h.task.operands).load host hall file delivery⟩
  | fail f hρ hσ ho => exact ⟨_, hρ, .raised f (h.resume hρ hσ ho hk)⟩

/-- Machines that are alike take the same step, if whatever they load is admitted. -/
theorem step (host : Host) (hall : ∀ code, w.admits code) (h : m.Like ρ w m') :
    ∃ ρ', ρ.Le ρ' ∧ (m.step host).Like ρ' w (m'.step host) := by
  have hrest := h.frame.rest
  cases hr : m.frame.rest with
  | cons i k =>
    obtain ⟨line, op⟩ := i
    obtain ⟨hop, hk⟩ := w.passes_cons line op k (hr ▸ h.frame.passes)
    rw [step_eq_act hr, step_eq_act (hrest ▸ hr)]
    exact h.act hall (Op.action_like h.setting hop hk) hk
  | nil =>
    have hr' : m'.frame.rest = [] := hrest ▸ hr
    obtain ⟨-, hfs⟩ := List.forall₂_cons.mp h.task.frames
    cases hc : m.task.frames.callers with
    | nil =>
      rw [hc] at hfs
      rw [Machine.step_nil hr hc, Machine.step_nil hr' (List.forall₂_nil_left_iff.mp hfs)]
      exact ⟨ρ, .refl ρ, h.finish⟩
    | cons g gs =>
      rw [hc] at hfs
      obtain ⟨g', gs', hg, hgs, hc'⟩ := List.forall₂_cons_left_iff.mp hfs
      have hl : m.task.frames.toList = _ :: _ :: _ := congrArg (m.frame :: ·) hc
      have hl' : m'.task.frames.toList = _ :: _ :: _ := congrArg (m'.frame :: ·) hc'
      obtain ⟨fs, hp, ht⟩ := Frames.pop?_cons hl
      obtain ⟨fs', hp', ht'⟩ := Frames.pop?_cons hl'
      rw [step_pop hr hp, step_pop hr' hp']
      have hframes : List.Forall₂ (Frame.Alike ρ w) fs.toList fs'.toList := by
        rw [ht, ht']
        exact .cons hg hgs
      exact ⟨ρ, .refl ρ, .running ⟨h.store, ⟨h.task.module, h.task.root, h.task.operands, hframes⟩,
        h.waiting⟩⟩

end Machine.Like

/-- Runs of machines that are alike end alike, after as many steps. -/
theorem Machine.Like.run (host : Host) (fuel : Nat) (hall : ∀ code, w.admits code)
    (h : m.Like ρ w m') : ∃ ρ', ρ.Le ρ' ∧ (m.run host fuel).Like ρ' w (m'.run host fuel) := by
  induction fuel generalizing ρ m m' with
  | zero => exact ⟨ρ, .refl ρ, .cut h⟩
  | succ fuel ih =>
    obtain ⟨ρ₁, h₁, hs⟩ := h.step host hall
    rw [Machine.run, Machine.run]
    revert hs
    generalize m.step host = t
    generalize m'.step host = t'
    intro hs
    cases hs with
    | running hm =>
      obtain ⟨ρ₂, h₂, he⟩ := ih hm
      exact ⟨ρ₂, h₁.trans h₂, he⟩
    | finished hσ hv => exact ⟨ρ₁, h₁, .finished hσ hv⟩
    | raised f hm =>
      refine ⟨ρ₁, h₁, ?_⟩
      simp only [hm.failure_eq f]
      exact .failed _ hm.store

end

end MatchLang
