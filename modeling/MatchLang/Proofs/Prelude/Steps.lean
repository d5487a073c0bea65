import MatchLang.Proofs.Prelude.Enacting

/-! The instructions of the prelude, one by one. To show that a call goes on as a script says, its instructions are
gone through from the first to the last; what an instruction does to the scopes is said by what there is in the
scope of the running function. -/

namespace MatchLang

/-- A scope that was not there before, right inside another, with these values in its slots and no others. -/
structure Store.Opened (σ : Store) (scope parent : Nat) (env : List (Nat × Value)) (τ : Store) : Prop where
  beyond : σ.Beyond τ
  fresh : σ.scopes.size ≤ scope
  old : scope < τ.scopes.size
  parent : τ.parent? scope = some parent
  slots : ∀ n, τ.slot? scope n = env.lookup n

namespace Store.Opened

variable {σ τ υ : Store} {scope p n : Nat} {env : List (Nat × Value)} {v : Value}

theorem new : σ.Opened σ.scopes.size p [] (σ.newScope (some p)).2 where
  beyond := .newScope
  fresh := Nat.le_refl _
  old := by
    rw [size_newScope]
    exact Nat.lt_succ_self _
  parent := parent?_newScope_self
  slots n := by
    rw [slot?_newScope, slot?_size (Nat.le_refl _)]
    rfl

theorem later (h : σ.Opened scope p env τ) (hτ : τ.Beyond υ) : σ.Opened scope p env υ where
  beyond := h.beyond.trans hτ
  fresh := h.fresh
  old := Nat.lt_of_lt_of_le h.old hτ.size
  parent := (hτ.parents scope h.old).trans h.parent
  slots n := (hτ.slots scope n h.old).trans (h.slots n)

theorem save (h : σ.Opened scope p env τ) : σ.Opened scope p ((n, v) :: env) (τ.save scope n v) where
  beyond := h.beyond.save h.fresh
  fresh := h.fresh
  old := by
    rw [size_save]
    exact h.old
  parent := parent?_save.trans h.parent
  slots i := by
    rw [slot?_save, List.lookup_cons, h.slots]
    by_cases hi : i = n
    · rw [if_pos ⟨rfl, hi, h.old⟩, beq_iff_eq.mpr hi]
    · rw [if_neg fun he => hi he.2.1, beq_eq_false_iff_ne.mpr hi]

theorem lookup (h : σ.Opened scope p env τ) (hv : env.lookup n = some v) : τ.lookup scope n = some v :=
  lookup_of_slot? ((h.slots n).trans hv)

theorem lookup_outer (h : σ.Opened scope p env τ) (hn : env.lookup n = none) (hp : p < scope)
    (hv : τ.lookup p n = some v) : τ.lookup scope n = some v :=
  lookup_parent ((h.slots n).trans hn) h.parent hp hv

end Store.Opened

/-- The machine with a frame in front that runs a function in a scope. -/
def Machine.calling (b : Machine) (line : Nat) (k : List Instr) (f : Closure) (scope : Nat) : Machine :=
  b.withFrames ((b.task.frames.update fun g => { g with line, rest := k }).push (f.entered scope))

/-- There is room for some more frames in front. -/
structure Machine.HasRoom (c : CallSite) (i : Nat) (b : Machine) : Prop where
  above : c.machine.task.frames.depth ≤ b.task.frames.depth
  room : b.task.frames.depth + i ≤ c.machine.task.frames.depth + Prelude.room
  waiting : b.waiting = c.machine.waiting

/-- The calls may nest deep enough for the prelude. -/
def CallSite.Roomy (host : Host) (c : CallSite) : Prop :=
  ∀ limit, host.callLimit = some limit → c.machine.task.frames.depth + Prelude.room ≤ limit

/-- From these instructions on the call goes on as the script says, whatever line was reached before. -/
def Script.Runs (host : Host) (c : CallSite) (r : Nat) (s : Script) (b : Machine) (σ : Store)
    (os : List Value) (is : List Instr) : Prop :=
  ∀ line, s.Leads host c r (b.resume σ os line is)

/-- The value is there in some run. -/
def Value.Occurs (v : Value) : Prop :=
  ∃ κ, v.Ok κ ∧ ∀ c, builtinRegistry.Has c → κ.Has c

section

variable {host : Host} {c : CallSite} {r i j n line scope p : Nat} {s : Script} {b b' : Machine} {σ τ : Store}
  {os args : List Value} {is is' : List Instr} {v : Value} {f : Closure} {slot : Slot} {op : Op}
  {env : List (Nat × Value)} {next : Value → Script}

namespace Store.Minds

theorem refl (σ : Store) : σ.Minds n σ :=
  ⟨rfl, rfl, rfl, fun _ _ _ => rfl⟩

theorem save (hs : n ≤ scope) : σ.Minds n (σ.save scope i v) where
  console := rfl
  roots := rfl
  modules := rfl
  slots t i ht := by
    rw [slot?_save, if_neg fun he => ?_]
    exact absurd ht (Nat.not_lt.mpr (he.1 ▸ hs))

theorem newScope {parent : Option Nat} : σ.Minds n (σ.newScope parent).2 :=
  ⟨rfl, rfl, rfl, fun _ _ _ => slot?_newScope⟩

end Store.Minds

theorem Machine.Serves.resume (h : b.Serves c r) : (b.resume σ os line is).Serves c r :=
  ⟨h.above, h.room, h.waiting, h.home, h.scope⟩

theorem Machine.HasRoom.mono (h : b.HasRoom c i) (hj : j ≤ i) : b.HasRoom c j :=
  ⟨h.above, Nat.le_trans (Nat.add_le_add_left hj _) h.room, h.waiting⟩

theorem Machine.HasRoom.calling (h : b.HasRoom c (i + 1)) : (b.calling line is f scope).HasRoom c i where
  above := Nat.le_succ_of_le h.above
  room := by
    have hr := h.room
    show b.task.frames.depth + 1 + i ≤ _
    omega
  waiting := h.waiting

theorem Machine.HasRoom.serves (h : b.HasRoom c (i + 1)) (hf : f.home = r)
    (hs : c.machine.store.scopes.size ≤ scope) : (b.calling line is f scope).Serves c r where
  above := Nat.lt_succ_of_le h.above
  room := Nat.le_trans (Nat.le_add_right _ i) h.calling.room
  waiting := h.waiting
  home := hf
  scope := hs

namespace Script.Runs

/-- An instruction that is no call goes on in the same frame, or in one that takes its place. -/
theorem goes (hb : b.Serves c r) (hop : ∀ argc, op ≠ .call argc)
    (hstep : ∃ line', (b.resume σ os line is).perform host op = .running (b'.resume τ args line' is'))
    (hτ : σ.Minds c.machine.store.scopes.size τ) (h : s.Runs host c r b' τ args is') :
    s.Runs host c r b σ os (.mk line op :: is) := by
  intro line₀
  obtain ⟨line', hstep⟩ := hstep
  have hs : (b.resume σ os line₀ (.mk line op :: is)).step host = .running (b'.resume τ args line' is') := by
    rw [Machine.step_resume, hstep]
  refine .of_works hb.resume ⟨hs, hτ, fun l argc k hr => ?_⟩ (h line')
  exact absurd (congrArg Instr.op (List.cons.inj hr).1) (hop argc)

theorem nothing (hb : b.Serves c r) (h : s.Runs host c r b σ os is) :
    s.Runs host c r b σ os (.mk line .nothing :: is) :=
  goes hb (fun _ he => by cases he) ⟨line, rfl⟩ (.refl σ) h

theorem pop (hb : b.Serves c r) (h : s.Runs host c r b σ os is) :
    s.Runs host c r b σ (v :: os) (.mk line .pop :: is) :=
  goes hb (fun _ he => by cases he) ⟨line, rfl⟩ (.refl σ) h

theorem duplicate (hb : b.Serves c r) (h : s.Runs host c r b σ (v :: v :: os) is) :
    s.Runs host c r b σ (v :: os) (.mk line .duplicate :: is) :=
  goes hb (fun _ he => by cases he) ⟨line, rfl⟩ (.refl σ) h

theorem jump {label : Nat} (hb : b.Serves c r) (hl : b.frame.closure.code.from? label = some is')
    (h : s.Runs host c r b σ os is') : s.Runs host c r b σ os (.mk line (.jump label) :: is) := by
  refine goes hb (fun _ he => by cases he) ⟨line, ?_⟩ (.refl σ) h
  show (b.resume σ os line is).jump label = _
  unfold Machine.jump
  rw [Machine.resume_closure, hl]
  rfl

/-- A test that the value passes. -/
theorem jumpIf_yes {label : Nat} {shape : Shape} (hb : b.Serves c r)
    (ha : shape.accepts (σ.root r).findType v = .ok true) (hl : b.frame.closure.code.from? label = some is')
    (h : s.Runs host c r b σ os is') : s.Runs host c r b σ (v :: os) (.mk line (.jumpIf shape label) :: is) := by
  refine goes hb (fun _ he => by cases he) ⟨line, ?_⟩ (.refl σ) h
  have ha : shape.accepts (σ.root b.frame.closure.home).findType v = .ok true := hb.home ▸ ha
  rw [perform_jumpIf_ok ha, if_pos rfl]
  unfold Machine.jump
  rw [Machine.resume_closure, hl]
  rfl

theorem jumpIf_no {label : Nat} {shape : Shape} (hb : b.Serves c r)
    (ha : shape.accepts (σ.root r).findType v = .ok false) (h : s.Runs host c r b σ os is) :
    s.Runs host c r b σ (v :: os) (.mk line (.jumpIf shape label) :: is) := by
  refine goes hb (fun _ he => by cases he) ⟨line, ?_⟩ (.refl σ) h
  have ha : shape.accepts (σ.root b.frame.closure.home).findType v = .ok false := hb.home ▸ ha
  exact perform_jumpIf_ok ha

theorem decompose {path : List String} {parts : List Value} (hb : b.Serves c r)
    (ht : takeApart (σ.root r).findType path n v = .ok parts)
    (h : s.Runs host c r b σ (parts ++ os) is) :
    s.Runs host c r b σ (v :: os) (.mk line (.decompose path n) :: is) :=
  goes hb (fun _ he => by cases he) ⟨line, perform_decompose_ok (hb.home ▸ ht)⟩ (.refl σ) h

theorem loadName {path : List String} (hb : b.Serves c r) (hv : (σ.root r).findValue path = .ok v)
    (h : s.Runs host c r b σ (v :: os) is) : s.Runs host c r b σ os (.mk line (.loadName path) :: is) :=
  goes hb (fun _ he => by cases he) ⟨line, perform_loadName_ok (hb.home ▸ hv)⟩ (.refl σ) h

theorem loadLocal (hb : b.Serves c r) (hv : σ.lookup b.frame.scope slot.id = some v)
    (h : s.Runs host c r b σ (v :: os) is) : s.Runs host c r b σ os (.mk line (.loadLocal slot) :: is) :=
  goes hb (fun _ he => by cases he) ⟨line, perform_loadLocal_some hv⟩ (.refl σ) h

theorem saveLocal (hb : b.Serves c r) (ho : τ.Opened b.frame.scope p env σ)
    (h : ∀ σ', τ.Opened b.frame.scope p ((slot.id, v) :: env) σ' → s.Runs host c r b σ' os is) :
    s.Runs host c r b σ (v :: os) (.mk line (.saveLocal slot) :: is) :=
  goes hb (fun _ he => by cases he) ⟨line, rfl⟩ (.save hb.scope) (h _ ho.save)

theorem loadFunction {code : Code} {arity : Nat} (hb : b.Serves c r) (ho : τ.Opened b.frame.scope p env σ)
    (h : ∀ σ' id, τ.Opened b.frame.scope p env σ' →
      s.Runs host c r b σ' (.function (b.frame.closure.inner id b.frame.scope line code arity) :: os) is) :
    s.Runs host c r b σ os (.mk line (.loadFunction code arity) :: is) :=
  goes hb (fun _ he => by cases he) ⟨line, rfl⟩ ⟨rfl, rfl, rfl, fun _ _ _ => rfl⟩
    (h _ _ (ho.later (Store.Beyond.newIdentity (.refl σ))))

/-- `::` puts a value in front of a list. -/
theorem cons {vs : List Value} (hb : b.Serves c r)
    (h : s.Runs host c r b σ (builtins.list (v :: vs) :: os) is) :
    s.Runs host c r b σ (.constructor builtins.cons :: v :: builtins.list vs :: os)
      (.mk line (.call 2) :: is) := by
  intro line₀
  refine .of_works hb.resume ⟨rfl, .refl σ, ?_⟩ (h line)
  intro l argc k _
  exact .inl rfl

/-- An application that is in the script. -/
theorem apply {callee : Value} (args : List Value) (hb : b.Serves c r)
    (h : ∀ v τ, σ.Beyond τ → v.Occurs → (next v).Runs host c r b τ (v :: os) is) :
    (Script.apply callee args next).Runs host c r b σ (callee :: (args ++ os))
      (.mk line (.call args.length) :: is) := by
  intro line₀
  let d : CallSite :=
    { machine := b.resume σ (callee :: (args ++ os)) line₀ (.mk line (.call args.length) :: is)
      rest := os, line, after := is }
  exact .of_applies (d := d) hb.resume ⟨rfl, rfl⟩ fun v τ hτ hv => h v τ hτ hv line

end Script.Runs

theorem Machine.enter_eq (hl : ∀ limit, host.callLimit = some limit → b.task.frames.depth < limit) :
    b.enter host f = .running (b.pushFrame f) := by
  unfold enter
  cases hlimit : host.callLimit with
  | none => rfl
  | some limit => exact if_neg (Nat.not_le.mpr (hl limit hlimit))

/-- A function that is called with all its arguments is entered, if there is room for it. -/
theorem Machine.step_calling (hn : args.length = f.arity) (hr : b.HasRoom c (i + 1)) (hl : c.Roomy host)
    {line₀ : Nat} :
    (b.resume σ (.function f :: (args ++ os)) line₀ (.mk line (.call args.length) :: is)).step host =
      .running ((b.calling line is f σ.scopes.size).resume (σ.newScope (some f.scope)).2 (args ++ os) f.line
        f.code.instrs) := by
  have hcall : (b.resume σ (.function f :: (args ++ os)) line is).perform host (.call args.length) =
      (b.resume σ (args ++ os) line is).enter host f := by
    show (b.resume σ (.function f :: (args ++ os)) line is).call host args.length = _
    unfold call
    simp only [resume_operands, Value.arity?, hn, if_true]
    rfl
  rw [step_resume, hcall, enter_eq]
  · rfl
  · intro limit hlimit
    have hdepth := hr.room
    have hlimit := hl limit hlimit
    show b.task.frames.depth < limit
    omega

namespace Script.Runs

/-- A call of a function of the same module. -/
theorem call (args : List Value) (hb : b.Serves c r) (hn : args.length = f.arity) (hr : b.HasRoom c (i + 1)) (hl : c.Roomy host)
    (hf : f.home = r)
    (h : s.Runs host c r (b.calling line is f σ.scopes.size) (σ.newScope (some f.scope)).2 (args ++ os)
      f.code.instrs) :
    s.Runs host c r b σ (.function f :: (args ++ os)) (.mk line (.call args.length) :: is) := by
  intro line₀
  refine .of_works hb.resume ⟨Machine.step_calling hn hr hl, .newScope, ?_⟩ (h _)
  intro l argc k _
  exact .inr ⟨f, rfl, hf⟩

/-- The return from a function. -/
theorem leave (hf : (b.calling line is f scope).Serves c r)
    (h : s.Runs host c r b σ os is) : s.Runs host c r (b.calling line is f scope) σ os [] := by
  intro line₀
  refine .of_works hf.resume ⟨rfl, .refl σ, ?_⟩ (h line)
  intro l argc k hr
  cases hr

/-- A function begins again in its frame. -/
theorem tailCall (hr : b.HasRoom c (i + 1)) (hf : f.home = r) (hs : c.machine.store.scopes.size ≤ scope)
    (h : s.Runs host c r (b.calling line is f σ.scopes.size) (σ.newScope (some f.scope)).2 os f.code.instrs) :
    s.Runs host c r (b.calling line is f scope) σ os (.mk n (.tailCall f.arity) :: is') := by
  refine goes (hr.serves hf hs) (fun _ he => by cases he) ⟨n, ?_⟩ .newScope h
  show Machine.tailCall _ _ = _
  unfold Machine.tailCall
  exact if_pos rfl

/-- The return from the function that was called at first. -/
theorem returns (hf : (c.machine.calling c.line c.after f scope).Serves c r) :
    (Script.answer v).Runs host c r (c.machine.calling c.line c.after f scope) σ (v :: c.rest) [] :=
  fun _ => .of_answers hf.resume rfl

end Script.Runs

end

end MatchLang
