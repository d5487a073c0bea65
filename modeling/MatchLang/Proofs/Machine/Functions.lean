import MatchLang.Proofs.Machine.Stack
import MatchLang.Proofs.Store.Every

/-! The functions that a run can get hold of. There are none but those it had and those that its instructions make;
so the scope that a function was made in is always there, and so are those around it. -/

namespace MatchLang

/-- What an instruction comes to, with functions of a property only. -/
def Action.Every (P : Closure → Prop) : Action → Prop
  | .proceed σ os _ => σ.Every P ∧ EveryValue P os
  | .enter c os => P c ∧ EveryValue P os
  | .restart => True
  | .load _ _ => True
  | .fail σ _ _ => σ.Every P

namespace Setting

variable {P : Closure → Prop} {s : Setting} {k : List Instr}

theorem jump_every {label : Nat} (hσ : s.store.Every P) (ho : EveryValue P s.operands) : (s.jump label).Every P := by
  unfold jump
  cases s.closure.code.from? label with
  | some is => exact ⟨hσ, ho⟩
  | none => exact hσ

theorem pop_every {next : Value → List Value → Action} (hσ : s.store.Every P) (ho : EveryValue P s.operands)
    (h : ∀ v os, v.Every P → EveryValue P os → (next v os).Every P) : (s.pop next).Every P := by
  unfold pop
  cases hos : s.operands with
  | nil => exact hσ
  | cons v os =>
    rw [hos] at ho
    exact h v os ho.1 ho.2

theorem test_every {shape : Shape} {next : List Value → Bool → Action} (hσ : s.store.Every P)
    (ho : EveryValue P s.operands) (h : ∀ os fits, EveryValue P os → (next os fits).Every P) :
    (s.test shape next).Every P := by
  refine pop_every hσ ho fun v os _ hos => ?_
  cases shape.accepts s.home.findType v with
  | ok fits => exact h os fits hos
  | error f => exact hσ

theorem declare_every {σ : Store} {os : List Value} {r : Except Fault Namespace} (hσ : σ.Every P)
    (ho : EveryValue P os) (h : ∀ ns, r = .ok ns → ns.Every P ∧ ns.Tidy) : (s.declare σ os k r).Every P := by
  cases r with
  | ok ns =>
    obtain ⟨hn, ht⟩ := h ns rfl
    exact ⟨hσ.setRoot hn ht, ho⟩
  | error f => exact hσ

theorem apply_every {callee : Value} {os : List Value} (hσ : s.store.Every P) (hc : callee.Every P)
    (ho : EveryValue P os) : (s.apply callee os k).Every P := by
  unfold apply
  have ha : (applyFull callee os).Every P := applyFull_every hc ho
  cases happly : applyFull callee os with
  | enter c os =>
    rw [happly] at ha
    exact ha
  | build c fields rest =>
    rw [happly] at ha
    exact ⟨hσ, ha⟩
  | compute f args rest =>
    rw [happly] at ha
    simp only
    cases hr : f.run args s.store.console with
    | ok r => exact ⟨hσ.congr rfl rfl, Native.run_every hr, ha⟩
    | error fault => exact hσ
  | fault f => exact hσ

theorem call_every {argc : Nat} (hσ : s.store.Every P) (ho : EveryValue P s.operands) : (s.call argc k).Every P := by
  refine pop_every hσ ho fun callee os hc hos => ?_
  cases callee.arity? with
  | none => exact hσ
  | some arity =>
    simp only
    split
    · exact apply_every hσ hc hos
    · split
      · unfold hold
        cases ht : takeOperands argc os with
        | some r =>
          obtain ⟨hargs, hrest⟩ := hos.take ht
          exact ⟨hσ.congr rfl rfl, ⟨hc, hargs⟩, hrest⟩
        | none => exact hσ
      · exact hσ

end Setting

/-- An instruction brings one new function at most. -/
theorem Op.action_every {P : Closure → Prop} {op : Op} {s : Setting} {line : Nat} {k : List Instr}
    (hσ : s.store.Every P) (ho : EveryValue P s.operands)
    (hf : ∀ code arity, op = .loadFunction code arity →
      P (s.closure.inner s.store.nextIdentity s.scope line code arity)) : (op.action s line k).Every P := by
  cases op with
  | nothing => exact ⟨hσ, ho⟩
  | loadNumber _ | loadText _ => exact ⟨hσ, trivial, ho⟩
  | loadFunction code arity => exact ⟨hσ.congr rfl rfl, hf code arity rfl, ho⟩
  | fail message => exact hσ
  | pop => exact Setting.pop_every hσ ho fun v os _ hos => ⟨hσ, hos⟩
  | duplicate => exact Setting.pop_every hσ ho fun v os hv hos => ⟨hσ, hv, hv, hos⟩
  | decompose path parts =>
    simp only [Op.action]
    cases s.home.findType path with
    | error f => exact hσ
    | ok t =>
      simp only
      cases hd : MatchLang.decompose t parts s.operands with
      | ok os => exact ⟨hσ, decompose_every ho hd⟩
      | error f => exact hσ
  | jump label => exact Setting.jump_every hσ ho
  | require shape =>
    refine Setting.test_every hσ ho fun os fits hos => ?_
    cases fits with
    | true => exact ⟨hσ, hos⟩
    | false => exact hσ
  | jumpIf shape label =>
    refine Setting.test_every hσ ho fun os fits hos => ?_
    cases fits with
    | true => exact Setting.jump_every (s := { s with operands := os }) hσ hos
    | false => exact ⟨hσ, hos⟩
  | loadLocal slot =>
    simp only [Op.action]
    cases hl : s.store.lookup s.scope slot.id with
    | some v => exact ⟨hσ, hσ.lookup hl, ho⟩
    | none => exact hσ
  | loadName path =>
    simp only [Op.action]
    cases hv : s.home.findValue path with
    | ok v => exact ⟨hσ, (hσ.names _).findValue hv, ho⟩
    | error f => exact hσ
  | saveLocal slot => exact Setting.pop_every hσ ho fun v os hv hos => ⟨hσ.save hv, hos⟩
  | publish name path =>
    exact Setting.pop_every hσ ho fun v os hv hos => Setting.declare_every hσ hos fun ns hp =>
      ⟨(hσ.names _).publishIn hv hp, (hσ.tidy _).declares (publishIn_declares hp)⟩
  | call argc => exact Setting.call_every hσ ho
  | tailCall argc =>
    simp only [Op.action]
    split
    · trivial
    · exact hσ
  | makeNamespace path isPublic =>
    exact Setting.declare_every hσ ho fun ns hm => ⟨(hσ.names _).make hm, (hσ.tidy _).declares (.space hm)⟩
  | makeType name path cases =>
    exact Setting.declare_every (hσ.congr rfl rfl) ho fun ns hd =>
      ⟨(hσ.names _).defineIn hd, (hσ.tidy _).declares (defineIn_declares hd)⟩
  | importAll file | importEntry file path => trivial

/-- Every function that a machine can get hold of has a property. -/
structure Machine.Every (P : Closure → Prop) (m : Machine) : Prop where
  store : m.store.Every P
  operands : EveryValue P m.operands
  waiting : ∀ w ∈ m.waiting, EveryValue P w.task.operands

def Transition.Every (P : Closure → Prop) : Transition → Prop
  | .running m => m.Every P
  | .finished σ _ => σ.Every P
  | .raised m _ => m.store.Every P

namespace Machine

variable {P Q : Closure → Prop} {host : Host} {m : Machine} {t : Transition} {file : String} {delivery : Delivery}

theorem Every.mono (h : m.Every P) (hp : ∀ c, P c → Q c) : m.Every Q :=
  ⟨h.store.mono hp, everyValue_mono hp _ h.operands, fun w hw => everyValue_mono hp _ (h.waiting w hw)⟩

theorem Every.deliver {source : Nat} (h : m.Every P) : (m.deliver source delivery).Every P := by
  have hr : (m.received source delivery).Every P :=
    ⟨h.store.setRoot ((h.store.names source).merge (h.store.names _) (h.store.tidy source)) (h.store.tidy _).merge,
      h.operands, h.waiting⟩
  rw [deliver_eq]
  generalize (delivery.merge _ _).2 = fault
  cases fault with
  | none => exact hr
  | some f => exact hr.store

theorem Every.await {code : Code} {next : Nat} (h : m.Every P) : (m.await delivery file code next).Every P where
  store := (h.store.congr (τ := { m.store with nextSlot := next }) rfl rfl).newTask file code
  operands := trivial
  waiting := List.forall_mem_cons.mpr ⟨h.operands, h.waiting⟩

theorem Every.loaded (h : m.Every P) (hl : m.Loaded host file delivery t) : t.Every P := by
  induction hl with
  | cached _ => exact h.deliver
  | faults _ => exact h.store
  | begins _ _ _ => exact h.await
  | equips _ _ _ _ _ _ ih => exact ih h.await

theorem Every.resume {σ : Store} {os : List Value} {line : Nat} {k : List Instr} (h : m.Every P) (hσ : σ.Every P)
    (ho : EveryValue P os) : (m.resume σ os line k).Every P :=
  ⟨hσ, ho, h.waiting⟩

/-- A step brings one new function at most. -/
theorem Every.step (h : m.Every P) (hf : ∀ line code arity k, m.frame.rest = .mk line (.loadFunction code arity) :: k →
    P (m.frame.closure.inner m.store.nextIdentity m.frame.scope line code arity)) : (m.step host).Every P := by
  cases hr : m.frame.rest with
  | nil =>
    cases hc : m.task.frames.callers with
    | cons g gs =>
      obtain ⟨frames, hp, -⟩ := Frames.pop?_cons (f := m.frame) (congrArg (m.frame :: ·) hc)
      rw [step_pop hr hp]
      exact ⟨h.store, h.operands, h.waiting⟩
    | nil =>
      rw [step_nil hr hc]
      unfold finish
      cases hw : m.waiting with
      | nil => exact h.store
      | cons w ws =>
        have hwaiting := hw ▸ h.waiting
        obtain ⟨hop, hws⟩ := List.forall_mem_cons.mp hwaiting
        exact Every.deliver ⟨h.store.congr rfl rfl, hop, hws⟩
  | cons i k =>
    obtain ⟨line, op⟩ := i
    have ha : (op.action m.setting line k).Every P :=
      Op.action_every h.store h.operands fun code arity hop => hf line code arity k (hop ▸ hr)
    rw [step_eq_act hr]
    cases hact : op.action m.setting line k with
    | proceed σ os is =>
      rw [hact] at ha
      exact h.resume ha.1 ha.2
    | enter c os =>
      rw [hact] at ha
      show ((m.resume m.store os line k).enter host c).Every P
      unfold enter
      split
      · split
        · exact h.store
        · exact ⟨h.store.newScope, ha.2, h.waiting⟩
      · exact ⟨h.store.newScope, ha.2, h.waiting⟩
    | restart => exact ⟨h.store.newScope, h.operands, h.waiting⟩
    | load file delivery =>
      have hm : (m.resume m.store m.operands line k).Every P := h.resume h.store h.operands
      have hl : (m.resume m.store m.operands line k).Loaded host file delivery _ := load_loaded
      exact hm.loaded hl
    | fail σ os f =>
      rw [hact] at ha
      exact ha

end Machine

/-- A transition that saves nothing and begins nothing but modules. -/
structure Machine.Adds (m : Machine) (t : Transition) : Prop where
  after : m.store.After 0 none (fun _ => False) t.store
  every : ∀ P, m.Every P → t.Every P
  stack : ∀ f ∈ t.stack, f ∈ m.stack ∨ f.Loads m.store t.store

theorem Machine.Loaded.adds {host : Host} {m : Machine} {t : Transition} {file : String} {delivery : Delivery}
    (hl : m.Loaded host file delivery t) : m.Adds t :=
  ⟨hl.after, fun _ h => h.loaded hl, fun _ hf => hl.stack hf⟩

theorem Machine.await_adds {m : Machine} {file source : String} {delivery : Delivery} {code : Code} {next : Nat}
    (hc : compileModule file source m.store.nextSlot = .ok (code, next)) :
    m.Adds (.running (m.await delivery file code next)) :=
  ⟨await_after (compileModule_between hc).1, fun _ h => h.await, fun _ hf => stack_await hc hf⟩

theorem Machine.hear_adds {m : Machine} (console : Console) :
    m.Adds (.running (m.updateStore fun s => { s with console })) :=
  ⟨.of_scopes rfl (Nat.le_refl _), fun _ h => ⟨h.store.congr rfl rfl, h.operands, h.waiting⟩, fun _ hf => .inl hf⟩

/-- A scope lies in an older one, and no function is about but those that were made. -/
structure Store.Closed (σ : Store) : Prop where
  parents : ∀ t p, σ.parent? t = some p → p < t
  functions : σ.Every σ.Admits

/-- A frame of a function that was made, at an instruction of it. -/
structure Store.Hosts (σ : Store) (f : Frame) : Prop where
  closure : σ.Admits f.closure
  scope : f.scope < σ.scopes.size
  inCode : f.InCode

/-- No function is about but those that were made, in the scopes that are there. -/
structure Machine.Closed (m : Machine) : Prop where
  store : m.store.Closed
  functions : m.Every m.store.Admits
  frames : ∀ f ∈ m.stack, m.store.Hosts f

def Transition.Closed : Transition → Prop
  | .running m => m.Closed
  | .finished σ _ => σ.Closed
  | .raised m _ => m.store.Closed

section

variable {scope : Nat} {saved : Option Nat} {around : Nat → Prop} {σ τ : Store} {m : Machine} {host : Host}
  {t : Transition}

theorem Store.After.descends (h : σ.After scope saved around τ) (hσ : ∀ t p, σ.parent? t = some p → p < t)
    (ha : ∀ p, around p → p < σ.scopes.size) : ∀ t p, τ.parent? t = some p → p < t := by
  intro t p hp
  by_cases ht : t < σ.scopes.size
  · rw [h.parents t ht] at hp
    exact hσ t p hp
  · have hle : σ.scopes.size ≤ t := Nat.le_of_not_lt ht
    exact Nat.lt_of_lt_of_le (ha p (h.fresh t p hle hp)) hle

theorem Store.Hosts.after {f : Frame} (hf : σ.Hosts f) (h : σ.After scope saved around τ) : τ.Hosts f :=
  ⟨h.admits hf.closure, Nat.lt_of_lt_of_le hf.scope h.size, hf.inCode⟩

theorem Transition.closed_of (hp : ∀ s p, t.store.parent? s = some p → p < s)
    (he : t.Every t.store.Admits) (hf : ∀ f ∈ t.stack, t.store.Hosts f) : t.Closed := by
  cases t with
  | running m => exact ⟨⟨hp, he.store⟩, he, hf⟩
  | finished σ v => exact ⟨hp, he⟩
  | raised m f => exact ⟨hp, he⟩

theorem Transition.Closed.store (h : t.Closed) : t.store.Closed := by
  cases t with
  | running m => exact Machine.Closed.store h
  | finished σ v => exact h
  | raised m f => exact h

namespace Machine.Closed

theorem adds (h : m.Closed) (ha : m.Adds t) : t.Closed := by
  refine Transition.closed_of (ha.after.descends h.store.parents fun _ => False.elim)
    (ha.every _ (h.functions.mono fun _ hc => ha.after.admits hc)) fun f hf => ?_
  rcases ha.stack f hf with hf | hl
  · exact (h.frames f hf).after ha.after
  · exact ⟨hl.admits, hl.begun.there, hl.begun.inCode⟩

/-- A function that is made lies in the running scope, and its code in that of the running function. -/
theorem inner {line arity : Nat} {code : Code} {k : List Instr} (h : m.Closed)
    (hr : m.frame.rest = .mk line (.loadFunction code arity) :: k) :
    m.store.Admits (m.frame.closure.inner m.store.nextIdentity m.frame.scope line code arity) := by
  obtain ⟨hclosure, hscope, hin⟩ := h.frames m.frame List.mem_cons_self
  refine ⟨hscope, ?_⟩
  have hmem : .mk line (.loadFunction code arity) ∈ m.frame.closure.code.instrs :=
    hin.subset (hr ▸ List.mem_cons_self)
  exact Code.everySlot_iff.mp hclosure.slots _ hmem

/-- What the next instruction begins is a function that was made. -/
theorem begins {c : Closure} (h : m.Closed) (hc : m.Invokes c) : m.store.Admits c := by
  cases hc with
  | restarts _ he => exact he ▸ (h.frames m.frame List.mem_cons_self).closure
  | @enters line op k os hr ha =>
    have hop : (op.action m.setting line k).Every m.store.Admits :=
      Op.action_every h.functions.store h.functions.operands fun code arity hf => h.inner (hf ▸ hr)
    rw [ha] at hop
    exact hop.1

theorem step (h : m.Closed) : (m.step host).Closed := by
  have hafter : m.store.After m.frame.scope m.frame.saved? m.Around (m.step host).store := step_after
  have hmono : ∀ c, m.store.Admits c → (m.step host).store.Admits c := fun c hc => hafter.admits hc
  have hevery : (m.step host).Every (m.step host).store.Admits :=
    (h.functions.mono hmono).step fun line code arity k hr => hmono _ (h.inner hr)
  refine Transition.closed_of (hafter.descends h.store.parents ?_) hevery fun f hf => ?_
  · rintro p ⟨c, hc, rfl⟩
    exact (h.begins hc).scope
  · have hy : m.Yields (m.step host).store f := step_stack hf
    have hin : f.InCode := hy.inCode fun g hg => (h.frames g hg).inCode
    cases hy with
    | stays hg => exact (h.frames f hg).after hafter
    | goes _ _ he =>
      have hm : (m.step host).store.Hosts m.frame := (h.frames m.frame List.mem_cons_self).after hafter
      subst he
      exact ⟨hm.closure, hm.scope, hin⟩
    | begins hb hc => exact ⟨hmono _ (h.begins hc), hb.there, hin⟩
    | loads hl => exact ⟨hl.admits, hl.begun.there, hin⟩

end Machine.Closed

end

end MatchLang
