import MatchLang.Proofs.Machine.Alongside
import MatchLang.Proofs.Session.Moments

/-! Functions carry their home module. Wherever a function is called, it finds the names, the types and the
scopes of the module that it was made in; the module that calls it has no say in what it does, and is
left as it is. -/

namespace MatchLang

/-- A call is over, before which calls had nested so deep: no more frames than that are left, or a fault
has come up. -/
def Transition.Over (level : Nat) : Transition → Prop
  | .running m => m.nesting ≤ level
  | .finished _ _ => False
  | .raised _ _ => True

/-- How the call ends that a machine is in, the first time that it is over. -/
inductive Machine.EndsAt (host : Host) (level : Nat) : Machine → Transition → Prop where
  | ends {m} : (m.step host).Over level → EndsAt host level m (m.step host)
  | goes {m m' t} : m.step host = .running m' → level < m'.nesting → EndsAt host level m' t →
    EndsAt host level m t

/-- What the call that a machine is about to make comes to. -/
def Machine.Concludes (host : Host) (m : Machine) (t : Transition) : Prop :=
  m.EndsAt host m.nesting t

/-- At this place a callee is called with some arguments. -/
structure CallSite.Calls (c : CallSite) (callee : Value) (args : List Value) : Prop where
  rest : c.machine.frame.rest = .mk c.line (.call args.length) :: c.after
  operands : c.machine.operands = callee :: (args ++ c.rest)

/-- What a call comes to before the one instructions and before the others. -/
inductive Action.Replies (k k' : List Instr) : Action → Action → Prop where
  | proceed (σ os) : Replies k k' (.proceed σ os k) (.proceed σ os k')
  | enter (c os) : Replies k k' (.enter c os) (.enter c os)
  | fail (σ os f) : Replies k k' (.fail σ os f) (.fail σ os f)

/-- What a call of well-formed operands comes to, if there are no others. -/
inductive Action.Called (κ : Registry) (k : List Instr) : Action → Prop where
  | answers (σ v) : Called κ k (.proceed σ [v] k)
  | enters {c os} : c.Balanced → os.length = c.arity → SoundAll κ Closure.Balanced os →
    Called κ k (.enter c os)
  | raises {f} (σ os) : ¬ f.Internal → Called κ k (.fail σ os f)

section

variable {κ : Registry} {K : Reach} {host : Host} {c d : CallSite} {m n : Machine} {s : Setting}
  {argc h : Nat} {k k' : List Instr} {callee : Value} {args : List Value} {t u : Transition}

namespace Setting

theorem apply_replies {os : List Value} :
    Action.Replies k k' (s.apply callee os k) (s.apply callee os k') := by
  unfold apply
  cases applyFull callee os with
  | enter c os => exact .enter c os
  | build c fields rest => exact .proceed _ _
  | fault f => exact .fail _ _ _
  | compute f args rest =>
    simp only
    cases f.run args s.store.console with
    | ok r => exact .proceed _ _
    | error fault => exact .fail _ _ _

theorem call_replies : Action.Replies k k' (s.call argc k) (s.call argc k') := by
  unfold call pop
  cases s.operands with
  | nil => exact .fail _ _ _
  | cons callee os =>
    simp only
    cases callee.arity? with
    | none => exact .fail _ _ _
    | some arity =>
      simp only
      split
      · exact apply_replies
      · split
        · unfold hold
          cases takeOperands argc os with
          | none => exact .fail _ _ _
          | some r => exact .proceed _ _
        · exact .fail _ _ _

theorem apply_called (hc : callee.Ok κ) (hn : callee.arity? = some args.length)
    (ha : SoundAll κ Closure.Balanced args) : Action.Called κ k (s.apply callee args k) := by
  have happ : Applied κ [] (applyFull callee (args ++ [])) := applyFull_applied hc hn ha
  rw [List.append_nil] at happ
  unfold apply
  generalize applyFull callee args = a at happ
  cases happ with
  | enter c cargs hb hl hs =>
    rw [List.append_nil]
    exact .enters hb hl hs
  | build c fields _ => exact .answers _ _
  | compute f fargs hl =>
    simp only
    cases hr : f.run fargs s.store.console with
    | ok r => exact .answers _ _
    | error fault => exact .raises _ _ (Native.run_fault hl hr)

theorem call_called (hc : callee.Ok κ) (ha : SoundAll κ Closure.Balanced args) :
    Action.Called κ k ((s.withOperands (callee :: args)).call args.length k) := by
  have hos : (s.withOperands (callee :: args)).operands = callee :: args := rfl
  unfold call pop
  rw [hos]
  simp only
  cases hn : callee.arity? with
  | none => exact .raises _ _ id
  | some arity =>
    simp only
    split
    · rename_i he
      exact apply_called hc (he ▸ hn) ha
    · split
      · have ht : takeOperands args.length args = some (args, []) := by
          have happ := takeOperands_append args []
          rwa [List.append_nil] at happ
        unfold hold
        rw [ht]
        exact .answers _ _
      · exact .raises _ _ id

end Setting

theorem Action.Called.not_underflow {a : Action} (h : a.Called κ k) :
    ∀ σ os, a ≠ .fail σ os .stackUnderflow := by
  cases h with
  | raises σ os hf =>
    intro τ os' he
    cases he
    exact hf trivial
  | _ => nofun

theorem Action.Replies.not_underflow {a b : Action} (h : Action.Replies k k' a b)
    (ha : ∀ σ os, a ≠ .fail σ os .stackUnderflow) : ∀ σ os, b ≠ .fail σ os .stackUnderflow := by
  cases h with
  | fail =>
    intro σ os he
    cases he
    exact ha _ _ rfl
  | _ => nofun

theorem Alongside.nesting_lt (ha : Alongside κ K c d m n) : d.machine.nesting < n.nesting := by
  obtain ⟨above, hm, hn, _⟩ := ha.frames
  have hpos := List.length_pos_of_ne_nil (ha.above_ne_nil hm)
  rw [d.nesting hn ha.waiting]
  omega

theorem CallSite.Calls.call_local (hc : c.Calls callee args) :
    Action.LocalTo c.rest
      ((c.machine.setting.withOperands (callee :: args)).call args.length c.after)
      (c.machine.setting.call args.length c.after) := by
  have hset : c.machine.setting.withOperands (callee :: args ++ c.rest) = c.machine.setting :=
    congrArg c.machine.setting.withOperands hc.operands.symm
  have hlocal : Action.LocalTo c.rest
      ((c.machine.setting.withOperands (callee :: args)).call args.length c.after)
      ((c.machine.setting.withOperands (callee :: args ++ c.rest)).call args.length c.after) :=
    Setting.call_local
  rwa [hset] at hlocal

/-- A call is one of the operands that it takes, on what is left. -/
theorem CallSite.Calls.step_eq (hc : c.Calls callee args)
    (hno : ∀ σ os, (c.machine.setting.withOperands (callee :: args)).call args.length c.after ≠
      .fail σ os .stackUnderflow) :
    c.machine.step host = c.machine.act host c.line c.after
      (((c.machine.setting.withOperands (callee :: args)).call args.length c.after).over c.rest) := by
  rw [← hc.call_local.eq_over hno]
  exact step_eq_act hc.rest

theorem CallSite.Calls.begins (hm : c.machine.Ok κ h) (hc : c.Calls callee args)
    (hd : d.Calls callee args)
    (hdepth : d.machine.task.frames.depth = c.machine.task.frames.depth)
    (hσ : c.machine.store.Shares K d.machine.store) (hcallee : callee.Every K.Has)
    (hargs : EveryValue K.Has args) :
    Paced κ K c d (c.machine.step host) (d.machine.step host) := by
  obtain ⟨_, ht, -⟩ := hm.tasks.running
  obtain ⟨callee', args', rest', ho, hl, hck, hak⟩ := ht.call_operands hc.rest
  obtain ⟨_, _, _, _, _, hu⟩ := ht
  obtain ⟨rfl, happ⟩ := List.cons.inj (hc.operands.symm.trans ho)
  obtain ⟨rfl, -⟩ := List.append_inj happ hl.symm
  have hmeets : (c.machine.setting.withOperands (callee :: args)).Meets K
      (d.machine.setting.withOperands (callee :: args)) := ⟨hσ, rfl, hcallee, hargs⟩
  have halike : Action.Alike K _ _
      ((c.machine.setting.withOperands (callee :: args)).call args.length c.after)
      ((d.machine.setting.withOperands (callee :: args)).call args.length c.after) := hmeets.call
  have hcalled : Action.Called κ c.after
      ((c.machine.setting.withOperands (callee :: args)).call args.length c.after) :=
    Setting.call_called hck hak
  have hreplies : Action.Replies c.after d.after
      ((d.machine.setting.withOperands (callee :: args)).call args.length c.after)
      ((d.machine.setting.withOperands (callee :: args)).call args.length d.after) :=
    Setting.call_replies
  have hno : ∀ σ os, (d.machine.setting.withOperands (callee :: args)).call args.length c.after ≠
      .fail σ os .stackUnderflow := fun σ os h => by
    obtain ⟨σ', h'⟩ := halike.fault h
    exact hcalled.not_underflow σ' os h'
  rw [hc.step_eq hcalled.not_underflow, hd.step_eq (hreplies.not_underflow hno)]
  -- What the call comes to at the one place, at the other with the instructions of the one, and there.
  generalize (c.machine.setting.withOperands (callee :: args)).call args.length c.after = x
    at halike hcalled ⊢
  generalize (d.machine.setting.withOperands (callee :: args)).call args.length c.after = y
    at halike hreplies
  generalize (d.machine.setting.withOperands (callee :: args)).call args.length d.after = z
    at hreplies ⊢
  cases hcalled with
  | answers σ v =>
    cases halike with
    | proceed hτ hsp hsp' hv =>
      cases hreplies
      exact .ends (.answers hτ hsp hsp' hv.1)
  | @enters cl os hb hl hs =>
    cases halike with
    | enter hcl hos =>
      cases hreplies
      have hsize : d.machine.store.scopes.size = c.machine.store.scopes.size := hσ.size
      have hdframes : ((d.machine.resume d.machine.store (os ++ d.rest) d.line d.after).pushFrame
          cl).task.frames.toList = [cl.entered c.machine.store.scopes.size] ++ d.frames := by
        rw [← hsize]
        rfl
      have hk : ∀ f ∈ [cl.entered c.machine.store.scopes.size], K.Has f.closure ∧ K.scopes f.scope :=
        List.forall_mem_singleton.mpr ⟨hcl, hσ.fresh _ (Nat.le_refl _)⟩
      refine .enter (m := c.machine.resume c.machine.store (os ++ c.rest) c.line c.after)
        (n := d.machine.resume d.machine.store (os ++ d.rest) d.line d.after) hdepth
        (fun f => .fails hσ (.refl _) (.refl _)) fun _ => .goes rfl rfl ?_
      exact ⟨.enters hm.store hu.root hb hl hs, ⟨_, rfl, hdframes, hk⟩, ⟨os, rfl, rfl, hos⟩,
        hσ.newScope hcl.1, .newScope hσ.fresh, .newScope fun s hs => hσ.fresh s (hsize ▸ hs), rfl, rfl,
        rfl⟩
  | raises σ os hf =>
    cases halike with
    | fail hτ hsp hsp' =>
      cases hreplies
      exact .ends (.fails hτ hsp hsp')

theorem Ended.over (he : Ended K c d t u) :
    t.Over c.machine.nesting ∧ u.Over d.machine.nesting := by
  cases he with
  | answers => exact ⟨Nat.le_refl _, Nat.le_refl _⟩
  | fails => exact ⟨trivial, trivial⟩

theorem Machine.EndsAt.along {R : Machine → Machine → Prop} {E : Transition → Transition → Prop}
    {l l' : Nat} (hR : ∀ m n, R m n →
      (E (m.step host) (n.step host) ∧ (m.step host).Over l ∧ (n.step host).Over l') ∨
        ∃ m' n', m.step host = .running m' ∧ n.step host = .running n' ∧ l < m'.nesting ∧
          l' < n'.nesting ∧ R m' n')
    (h : R m n) (ht : m.EndsAt host l t) : ∃ u, n.EndsAt host l' u ∧ E t u := by
  -- On the way of the first machine, which the second goes step by step.
  induction ht generalizing n with
  | @ends m hover =>
    rcases hR m n h with ⟨he, -, hn⟩ | ⟨m', n', hm, -, hlt, -⟩
    · exact ⟨_, .ends hn, he⟩
    · rw [hm] at hover
      exact absurd hlt (Nat.not_lt.mpr hover)
  | @goes m m' t hs hlt _ ih =>
    rcases hR m n h with ⟨-, hm, -⟩ | ⟨m'', n', hm, hn, -, hlt', hnext⟩
    · rw [hs] at hm
      exact absurd hlt (Nat.not_lt.mpr hm)
    · rw [hs] at hm
      cases hm
      obtain ⟨u, hu, he⟩ := ih hnext
      exact ⟨u, .goes hn hlt' hu, he⟩

theorem Paced.goes_on (hdepth : d.machine.task.frames.depth = c.machine.task.frames.depth)
    (hp : Paced κ K c d t u) :
    (Ended K c d t u ∧ t.Over c.machine.nesting ∧ u.Over d.machine.nesting) ∨
      ∃ m n, t = .running m ∧ u = .running n ∧ c.machine.nesting < m.nesting ∧
        d.machine.nesting < n.nesting ∧ Paced κ K c d (m.step host) (n.step host) := by
  cases hp with
  | ends he => exact .inl ⟨he, he.over⟩
  | goes hm hn ha =>
    exact .inr ⟨_, _, hm, hn, ha.inside.nesting_lt, ha.nesting_lt, ha.step host hdepth⟩

end

open Moment

/-- A callee comes to the same wherever it is called: with the same value, the same output or the same
fault, and the same in the scopes that it reaches. The module that calls it may be any, with any root,
operands and callers; neither what it has declared nor its name has an effect on the call, and the
call leaves all roots and modules and the scopes out of its reach as they are. -/
theorem functions_carry_their_home {allowed : Host → Prop} {texts : Prop} {a : Moment} {host : Host}
    {K : Reach} {c d : CallSite} {callee : Value} {args : List Value} (ha : Occurs allowed texts a)
    (hm : a.now = .running c.machine) (hc : c.Calls callee args) (hd : d.Calls callee args)
    (hdepth : d.machine.task.frames.depth = c.machine.task.frames.depth)
    (hσ : c.machine.store.Shares K d.machine.store) (hcallee : callee.Every K.Has)
    (hargs : EveryValue K.Has args) :
    (∀ t, c.machine.Concludes host t → ∃ u, d.machine.Concludes host u ∧ Ended K c d t u) ∧
      ∀ u, d.machine.Concludes host u → ∃ t, c.machine.Concludes host t ∧ Ended K c d t u := by
  obtain ⟨_, _, hok⟩ := ha.ok.now
  rw [hm] at hok
  obtain ⟨_, _, hok, _⟩ := hok
  have hp : Paced _ K c d (c.machine.step host) (d.machine.step host) :=
    hc.begins hok hd hdepth hσ hcallee hargs
  constructor
  · intro t ht
    exact ht.along (R := fun m n => Paced _ K c d (m.step host) (n.step host))
      (fun _ _ h => h.goes_on hdepth) hp
  · intro u hu
    refine hu.along (R := fun n m => Paced _ K c d (m.step host) (n.step host))
      (E := fun u t => Ended K c d t u) (fun n m h => ?_) hp
    rcases h.goes_on hdepth with ⟨he, hm, hn⟩ | ⟨m', n', hm, hn, hlt, hlt', hnext⟩
    · exact .inl ⟨he, hn, hm⟩
    · exact .inr ⟨n', m', hn, hm, hlt', hlt, hnext⟩

/-- The machine whose call answers within some steps, after it has. -/
def Machine.answer? (host : Host) (level : Nat) : Nat → Machine → Option Machine
  | 0, _ => none
  | n + 1, m =>
    match m.step host with
    | .running m' => if m'.nesting ≤ level then some m' else answer? host level n m'
    | _ => none

theorem Machine.answer?_sound {host : Host} {level n : Nat} {m m' : Machine}
    (h : m.answer? host level n = some m') : m.EndsAt host level (.running m') := by
  induction n generalizing m with
  | zero => cases h
  | succ n ih =>
    rw [answer?] at h
    cases hs : m.step host with
    | running m₁ =>
      rw [hs] at h
      simp only at h
      split at h
      · rename_i hle
        cases h
        rw [← hs]
        exact .ends (hs ▸ hle)
      · rename_i hlt
        exact .goes hs (Nat.lt_of_not_le hlt) (ih h)
    | finished σ v =>
      rw [hs] at h
      cases h
    | raised m₁ f =>
      rw [hs] at h
      cases h

/-- A machine that is about to call something with one argument. -/
def Machine.callsOne (m : Machine) : Bool :=
  match m.frame.rest, m.operands with
  | .mk _ (.call 1) :: _, _ :: _ :: _ => true
  | _, _ => false

theorem Machine.callsOne_sound {m : Machine} (h : m.callsOne = true) :
    ∃ c callee arg, c.machine = m ∧ CallSite.Calls c callee [arg] := by
  unfold callsOne at h
  split at h
  · rename_i line k callee arg rest hr ho
    exact ⟨{ machine := m, rest, line, after := k }, callee, arg, rfl, hr, ho⟩
  · cases h

/-- A file with a function that makes a value of a type of its own. -/
def twiceHost : Host where
  appRoot := ""
  withPrelude := false
  callLimit := some 10
  read file :=
    if file = "twice" then
      .ok "public type Pair = Pair x y\npublic let twice = \x7b x -> (Pair x x) \x7d"
    else .error .missing

/-- A program that imports it, when it is about to call the function. -/
def twiceCaller : Option Machine :=
  (compileText "import \"twice\"\n(twice 1)" false 0).toOption.bind fun (code, next) =>
    match beginCode { Store.initial .deaf with nextSlot := next } false "main" code with
    | .running m => m.walk twiceHost 9
    | _ => none

/-- In another interpreter, with another root, the function answers with the same. -/
theorem twice_carries_its_home :
    ∃ a c d callee args, Occurs (fun _ => True) True a ∧ a.now = .running c.machine ∧
      c.Calls callee args ∧ d.Calls callee args ∧
      d.machine.task.module ≠ c.machine.task.module ∧ d.machine.task.root ≠ c.machine.task.root ∧
      ∃ m u, c.machine.Concludes twiceHost (.running m) ∧ d.machine.Concludes twiceHost u ∧
        Ended .all c d (.running m) u := by
  have hcheck : twiceCaller.any (fun m => m.callsOne && m.task.module == "main" &&
      m.task.root == 0 && (m.answer? twiceHost m.nesting 20).isSome) = true := by decide +kernel
  obtain ⟨m, hm⟩ : ∃ m, twiceCaller = some m := by
    cases hc : twiceCaller with
    | none =>
      rw [hc] at hcheck
      cases hcheck
    | some m => exact ⟨m, rfl⟩
  simp only [hm, Option.any_some, Bool.and_eq_true, beq_iff_eq] at hcheck
  obtain ⟨⟨⟨hcalls, hmod⟩, hroot⟩, hanswer⟩ := hcheck
  obtain ⟨⟨code, next⟩, hc, hwalk⟩ := Option.bind_eq_some_iff.mp hm
  have hok : compileText "import \"twice\"\n(twice 1)" false 0 = .ok (code, next) := by
    generalize compileText "import \"twice\"\n(twice 1)" false 0 = r at hc
    cases r with
    | ok r => exact congrArg Except.ok (Option.some.inj hc)
    | error e => cases hc
  obtain ⟨p, -, hp⟩ := compileText_eq_ok hok
  obtain ⟨c, callee, arg, rfl, hcall⟩ := Machine.callsOne_sound hcalls
  obtain ⟨m', hm'⟩ := Option.isSome_iff_exists.mp hanswer
  let d : CallSite :=
    { c with
      machine := { c.machine with task := { c.machine.task with module := "other", root := 1 } } }
  have hocc : Occurs (fun _ => True) True ⟨.running c.machine, []⟩ := by
    refine ⟨.deaf, .head (.begins (.module false false "main" hp)) ?_⟩
    exact Later.walk trivial hwalk []
  have hends : c.machine.Concludes twiceHost (.running m') := Machine.answer?_sound hm'
  obtain ⟨u, hu, he⟩ := (functions_carry_their_home (d := d) hocc rfl hcall ⟨hcall.rest, hcall.operands⟩
    rfl (.all _) (Value.every_of_forall (fun _ => ⟨trivial, trivial⟩) _)
    (everyValue_of_forall (fun _ => ⟨trivial, trivial⟩) _)).1 _ hends
  refine ⟨_, c, d, callee, [arg], hocc, rfl, hcall, ⟨hcall.rest, hcall.operands⟩, ?_, ?_, m', u,
    hends, hu, he⟩
  · rw [hmod]
    exact show "other" ≠ "main" by decide
  · rw [hroot]
    exact Nat.one_ne_zero

end MatchLang
