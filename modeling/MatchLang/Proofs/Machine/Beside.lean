import MatchLang.Proofs.Machine.Alongside
import MatchLang.Proofs.Machine.Like
import MatchLang.Proofs.Session.HomeModule

/-! One call made by one function that goes on in two ways. Inside the call the two runs are the same but for the
numbers, and for slots that the code passes by; so they come to the same answer or to the same failure, or go on
without an end. -/

namespace MatchLang

/-- The same activation, at two places of it. -/
structure CallSite.Twin (c d : CallSite) : Prop where
  line : d.line = c.line
  closure : d.machine.frame.closure = c.machine.frame.closure
  callers : d.machine.task.frames.callers = c.machine.task.frames.callers
  module : d.machine.task.module = c.machine.task.module
  root : d.machine.task.root = c.machine.task.root
  waiting : d.machine.waiting = c.machine.waiting

/-- The two machines are inside the call, and alike but for what the call stands on. -/
structure Beside (κ : Registry) (ρ : Numbering) (w : Slack) (c d : CallSite) (m n : Machine) : Prop where
  inside : c.machine.Inside κ c.rest c.line c.after m
  roots : m.store.roots = c.machine.store.roots
  scopes : c.machine.store.scopes.size ≤ m.store.scopes.size
  frames : ∃ above above', m.task.frames.toList = above ++ c.frames ∧
    n.task.frames.toList = above' ++ d.frames ∧ List.Forall₂ (Frame.Alike ρ w) above above'
  operands : ∃ own own', m.operands = own ++ c.rest ∧ n.operands = own' ++ d.rest ∧
    AllLike ρ w.admits own own'
  store : m.store.Like ρ w n.store
  module : n.task.module = d.machine.task.module
  root : n.task.root = d.machine.task.root
  waiting : n.waiting = d.machine.waiting

/-- What a step comes to on both sides. -/
inductive Concurs (κ : Registry) (ρ : Numbering) (w : Slack) (c d : CallSite) :
    Transition → Transition → Prop where
  | answers {ρ' σ τ v v'} : ρ.Le ρ' → σ.Like ρ' w τ → v.Like ρ' w.admits v' → v.Ok κ → σ.Sound κ →
    σ.roots = c.machine.store.roots → c.machine.store.scopes.size ≤ σ.scopes.size →
    Concurs κ ρ w c d (.running (c.answered σ v)) (.running (d.answered τ v'))
  | fails {ρ' m n f} : m.store.Like ρ' w n.store → m.failure f = n.failure f →
    Concurs κ ρ w c d (.raised m f) (.raised n f)
  | goes {ρ' m n} : ρ.Le ρ' → Beside κ ρ' w c d m n → Concurs κ ρ w c d (.running m) (.running n)

/-- The call has been answered on both sides. -/
def Answered (κ : Registry) (ρ : Numbering) (w : Slack) (c d : CallSite) (m n : Machine) : Prop :=
  ∃ ρ' σ τ v v', ρ.Le ρ' ∧ σ.Like ρ' w τ ∧ v.Like ρ' w.admits v' ∧ v.Ok κ ∧ σ.Sound κ ∧
    σ.roots = c.machine.store.roots ∧ c.machine.store.scopes.size ≤ σ.scopes.size ∧
    m = c.answered σ v ∧ n = d.answered τ v'

def Machine.Endless (host : Host) (m : Machine) : Prop :=
  ∀ k, ∃ m', m.walk host k = some m'

/-- Two runs come to places that belong together, or to the same failure, or neither comes to an end. -/
inductive Together (host : Host) (w : Slack) (goal : Machine → Machine → Prop) (m n : Machine) : Prop where
  | comes {m' n'} : m.Reaches host m' → n.Reaches host n' → goal m' n' → Together host w goal m n
  | fails {m' n' f ρ} : m.Raises host m' f → n.Raises host n' f → m'.store.Like ρ w n'.store →
    m'.failure f = n'.failure f → Together host w goal m n
  | endless : m.Endless host → n.Endless host → Together host w goal m n

section

variable {host : Host} {w : Slack} {goal goal' : Machine → Machine → Prop} {m m' n n' : Machine} {f : Fault}

theorem Machine.Reaches.raises (hr : m.Reaches host m') (h : m'.Raises host n f) : m.Raises host n f := by
  obtain ⟨m₁, hr', hs⟩ := h
  exact ⟨m₁, hr.trans hr', hs⟩

theorem Machine.Reaches.endless (hr : m.Reaches host m') (h : m'.Endless host) : m.Endless host := by
  obtain ⟨i, hi⟩ := hr
  intro k
  by_cases hk : k ≤ i
  · obtain ⟨m₁, h₁, _⟩ := walk_le hi hk
    exact ⟨m₁, h₁⟩
  · obtain ⟨m₁, h₁⟩ := h (k - i)
    have hki : i + (k - i) = k := by omega
    exact ⟨m₁, hki ▸ walk_trans hi h₁⟩

theorem Together.head (hm : m.Reaches host m') (hn : n.Reaches host n') (h : Together host w goal m' n') :
    Together host w goal m n := by
  cases h with
  | comes hm' hn' hg => exact .comes (hm.trans hm') (hn.trans hn') hg
  | fails hm' hn' hσ hf => exact .fails (hm.raises hm') (hn.raises hn') hσ hf
  | endless hm' hn' => exact .endless (hm.endless hm') (hn.endless hn')

theorem Together.bind (h : Together host w goal m n)
    (hg : ∀ m' n', goal m' n' → Together host w goal' m' n') : Together host w goal' m n := by
  cases h with
  | comes hm hn hmn => exact (hg _ _ hmn).head hm hn
  | fails hm hn hσ hf => exact .fails hm hn hσ hf
  | endless hm hn => exact .endless hm hn

theorem Together.imp {w' : Slack} (h : Together host w goal m n)
    (hσ : ∀ ρ σ τ, Store.Like ρ w σ τ → ∃ ρ', Store.Like ρ' w' σ τ)
    (hg : ∀ m' n', goal m' n' → goal' m' n') : Together host w' goal' m n := by
  cases h with
  | comes hm hn hmn => exact .comes hm hn (hg _ _ hmn)
  | fails hm hn hlike hf =>
    obtain ⟨ρ', hlike'⟩ := hσ _ _ _ hlike
    exact .fails hm hn hlike' hf
  | endless hm hn => exact .endless hm hn

end

section

variable {κ : Registry} {ρ ρ' : Numbering} {w : Slack} {host : Host} {c d : CallSite}
  {m n m' n' m₁ m₂ : Machine} {line : Nat} {k : List Instr} {rest own own' : List Value}
  {above above' fs fs' : List Frame} {f g : Frame} {op : Op}

namespace Machine.Inside

/-- A step of a call leaves the roots as they are, and no scope is lost. -/
theorem keeps (hi : m.Inside κ rest line k m₁) (hs : m₁.step host = .running m₂) :
    m₂.store.roots = m₁.store.roots ∧ m₁.store.scopes.size ≤ m₂.store.scopes.size := by
  obtain ⟨code, b, hu⟩ := hi.frames
  rcases hu.advance host hi.store (Nat.zero_le _) with ⟨hr, hc, _⟩ | ha
  · have hr : m₁.frame.rest = [] := hr
    have hl : m₁.task.frames.toList = _ :: _ :: _ := congrArg (m₁.frame :: ·) hc
    obtain ⟨frames, hp, -⟩ := Frames.pop?_cons hl
    rw [step_pop hr hp] at hs
    cases hs
    exact ⟨rfl, Nat.le_refl _⟩
  · rw [hs] at ha
    generalize ht : Transition.running m₂ = t at ha
    cases ha with
    | running _ _ hsteps hq _ _ _ _ =>
      cases ht
      obtain ⟨_, _, honto, _⟩ := hsteps
      exact ⟨(hq rfl).2.2, honto.scopes⟩
    | loads hp _ _ _ _ => exact absurd hp List.not_mem_nil
    | raises _ _ _ => cases ht

theorem sound (hi : m.Inside κ rest line k m₁) (ho : m₁.operands = own ++ rest) :
    SoundAll κ Closure.Balanced own := by
  obtain ⟨_, _, _, own', hu⟩ := hi.frames
  have he : own' ++ rest = own ++ rest := hu.operands.symm.trans ho
  exact List.append_cancel_right he ▸ hu.sound

end Machine.Inside

namespace CallSite.Twin

theorem depth_eq (ht : c.Twin d) : d.frames.length = c.frames.length := by
  rw [CallSite.frames, CallSite.frames, List.length_cons, List.length_cons, ht.callers]

theorem failure_eq (ht : c.Twin d) (hm : m.task.frames.toList = above ++ c.frames)
    (hn : n.task.frames.toList = above' ++ d.frames) (ha : List.Forall₂ (Frame.Alike ρ w) above above')
    (hmod : m.task.module = c.machine.task.module) (hmod' : n.task.module = d.machine.task.module)
    (hw : m.waiting = c.machine.waiting) (hw' : n.waiting = d.machine.waiting) (f : Fault) :
    m.failure f = n.failure f := by
  have hbase : c.frames.map Frame.entry = d.frames.map Frame.entry := by
    simp only [CallSite.frames, List.map_cons, Frame.entry, ht.callers, ht.closure, ht.line]
  have htrace : m.task.trace = n.task.trace := by
    rw [Task.trace, Task.trace, hm, hn, List.map_append, List.map_append,
      Frame.Alike.entries_eq ha, hbase]
  exact Machine.failure_congr htrace (by rw [hmod, hmod', ht.module]) (by rw [hw, hw', ht.waiting]) f

end CallSite.Twin

theorem Action.Like.not_underflow {a b : Action} (h : a.Like ρ w b)
    (ha : ∀ σ os, a ≠ .fail σ os .stackUnderflow) : ∀ σ os, b ≠ .fail σ os .stackUnderflow := by
  cases h with
  | fail f _ _ _ =>
    intro σ os he
    cases he
    exact ha _ _ rfl
  | _ => nofun

theorem Concurs.enter {cl cl' : Closure} (hd : n.task.frames.depth = m.task.frames.depth)
    (hf : ∀ f, Concurs κ ρ w c d (.raised m f) (.raised n f))
    (hp : m.enter host cl = .running (m.pushFrame cl) →
      Concurs κ ρ w c d (.running (m.pushFrame cl)) (.running (n.pushFrame cl'))) :
    Concurs κ ρ w c d (m.enter host cl) (n.enter host cl') := by
  revert hp
  unfold Machine.enter
  rw [hd]
  cases host.callLimit with
  | none => exact fun hp => hp rfl
  | some limit =>
    simp only
    split
    · exact fun _ => hf _
    · exact fun hp => hp rfl

namespace Beside

theorem above_ne_nil (hb : Beside κ ρ w c d m n) (hf : m.task.frames.toList = above ++ c.frames) :
    above ≠ [] := by
  rintro rfl
  have hn := c.nesting hf hb.inside.waiting
  have hlt := hb.inside.nesting_lt
  simp only [List.length_nil, Nat.zero_add] at hn
  omega

theorem depth_eq (hb : Beside κ ρ w c d m n) (ht : c.Twin d) :
    n.task.frames.depth = m.task.frames.depth := by
  obtain ⟨above, above', hm, hn, ha⟩ := hb.frames
  rw [Frames.depth_eq_length, Frames.depth_eq_length, hm, hn, List.length_append, List.length_append,
    ht.depth_eq, ha.length_eq]

theorem goes (hb : Beside κ ρ w c d m n) (hρ : ρ.Le ρ') (hs : m.step host = .running m')
    (hne : above ≠ []) (hm : m'.task.frames.toList = above ++ c.frames)
    (hn : n'.task.frames.toList = above' ++ d.frames)
    (ha : List.Forall₂ (Frame.Alike ρ' w) above above') (hmo : m'.operands = own ++ c.rest)
    (hno : n'.operands = own' ++ d.rest) (ho : AllLike ρ' w.admits own own')
    (hσ : m'.store.Like ρ' w n'.store) (hw : m'.waiting = m.waiting) (ht : n'.task.module = n.task.module)
    (hr : n'.task.root = n.task.root) (hw' : n'.waiting = n.waiting) :
    Concurs κ ρ w c d (.running m') (.running n') := by
  have hlt : c.machine.nesting < m'.nesting := by
    have hpos := List.length_pos_of_ne_nil hne
    rw [c.nesting hm (hw.trans hb.inside.waiting)]
    omega
  obtain ⟨hroots, hscopes⟩ := hb.inside.keeps hs
  exact .goes hρ ⟨hb.inside.next hs hlt, hroots.trans hb.roots, Nat.le_trans hb.scopes hscopes,
    ⟨above, above', hm, hn, ha⟩, ⟨own, own', hmo, hno, ho⟩, hσ, ht.trans hb.module, hr.trans hb.root,
    hw'.trans hb.waiting⟩

theorem step_return (hb : Beside κ ρ w c d m n) (hm : m.task.frames.toList = f :: fs ++ c.frames)
    (hn : n.task.frames.toList = g :: fs' ++ d.frames) (hfg : f.Alike ρ w g)
    (ha : List.Forall₂ (Frame.Alike ρ w) fs fs') (hr : f.rest = []) :
    Concurs κ ρ w c d (m.step host) (n.step host) := by
  obtain ⟨own, own', hmo, hno, ho⟩ := hb.operands
  obtain ⟨fm, hsm, hfm⟩ := Machine.step_done host hm hr (CallSite.frames_ne_nil fs c)
  obtain ⟨fn, hsn, hfn⟩ := Machine.step_done host hn (hfg.rest ▸ hr) (CallSite.frames_ne_nil fs' d)
  rw [hsn]
  cases ha with
  | nil =>
    -- The last frame of the call is left: on both sides one operand more than before is there.
    have hle : (m.withFrames fm).nesting ≤ c.machine.nesting := by
      have hn : (m.withFrames fm).nesting = ([] : List Frame).length + c.machine.nesting :=
        CallSite.nesting hfm hb.inside.waiting
      exact Nat.le_of_eq (hn.trans (Nat.zero_add _))
    obtain ⟨v, hv⟩ := hb.inside.last hsm hle
    have hos : own ++ c.rest = [v] ++ c.rest := hmo.symm.trans (congrArg Machine.operands hv)
    obtain rfl : own = [v] := List.append_cancel_right hos
    obtain ⟨v', _, hvv, ⟨⟩, rfl⟩ := List.forall₂_cons_left_iff.mp ho
    have hback : n.withFrames fn = d.answered n.store v' :=
      CallSite.eq_answered hfn hno hb.module hb.root hb.waiting
    rw [hsm, hv, hback]
    exact .answers (.refl ρ) hb.store hvv (hb.inside.sound hmo).1 hb.inside.store hb.roots hb.scopes
  | cons hg hgs =>
    rw [hsm]
    exact hb.goes (.refl ρ) hsm (List.cons_ne_nil _ _) hfm hfn (.cons hg hgs) hmo hno ho hb.store rfl rfl
      rfl rfl

/-- An instruction comes to the same on both sides, whatever the call stands on. -/
theorem action_like (host : Host) (hb : Beside κ ρ w c d m n) (ht : c.Twin d)
    (hm : m.task.frames.toList = f :: fs ++ c.frames) (hn : n.task.frames.toList = g :: fs' ++ d.frames)
    (hfg : f.Alike ρ w g) (hr : f.rest = .mk line op :: k) :
    ∃ a b : Action, a.Like ρ w b ∧ (∀ file delivery, a ≠ .load file delivery) ∧ w.passes k ∧
      m.step host = m.act host line k (a.over c.rest) ∧ n.step host = n.act host line k (b.over d.rest) := by
  obtain ⟨own, own', hmo, hno, ho⟩ := hb.operands
  have hmf : m.frame = f := (List.cons.inj hm).1
  have hnf : n.frame = g := (List.cons.inj hn).1
  have hmr : m.frame.rest = .mk line op :: k := hmf ▸ hr
  have hnr : n.frame.rest = .mk line op :: k := hnf ▸ hfg.rest ▸ hr
  have hroot : m.task.root = n.task.root := by rw [hb.inside.root, hb.root, ht.root]
  have hs : (m.setting.withOperands own).Like ρ w (n.setting.withOperands own') := by
    have hfr : m.frame.Alike ρ w n.frame := by
      rw [hmf, hnf]
      exact hfg
    exact ⟨hb.store, ho, hfr.closure, hfr.scope, hroot⟩
  obtain ⟨hop, hk⟩ := w.passes_cons line op k (hr ▸ hfg.passes)
  have hlike : (op.action (m.setting.withOperands own) line k).Like ρ w
      (op.action (n.setting.withOperands own') line k) := Op.action_like hs hop hk
  have hno_fail : ∀ σ os, op.action (m.setting.withOperands own) line k ≠
      .fail σ os .stackUnderflow := fun σ os => hb.inside.no_underflow hmo hmr
  have hma := (Machine.action_local hmo).eq_over hno_fail
  have hna := (Machine.action_local hno).eq_over (hlike.not_underflow hno_fail)
  refine ⟨_, _, hlike, fun file delivery hload => ?_, hk, by rw [step_eq_act hmr, hma],
    by rw [step_eq_act hnr, hna]⟩
  have hroot := hb.inside.leaves_root hmr
  have himport : op.import? = none := by cases op <;> first | rfl | cases hroot
  have hw : (op.action (m.setting.withOperands own) line k).Writes (m.setting.withOperands own) k :=
    Op.action_writes himport
  rw [hload] at hw
  exact hw.elim

theorem step_op (hb : Beside κ ρ w c d m n) (ht : c.Twin d)
    (hm : m.task.frames.toList = f :: fs ++ c.frames) (hn : n.task.frames.toList = g :: fs' ++ d.frames)
    (hfg : f.Alike ρ w g) (ha : List.Forall₂ (Frame.Alike ρ w) fs fs') (hr : f.rest = .mk line op :: k) :
    Concurs κ ρ w c d (m.step host) (n.step host) := by
  obtain ⟨a, b, hlike, hload, hk, hsm, hsn⟩ := hb.action_like host ht hm hn hfg hr
  have hcons : ∀ {ρ'}, ρ.Le ρ' → ∀ {is}, w.passes is →
      List.Forall₂ (Frame.Alike ρ' w) (f.moved line is :: fs) (g.moved line is :: fs') :=
    fun hρ _ his => .cons ((hfg.mono hρ).moved his) (ha.imp fun _ _ => Frame.Alike.mono hρ)
  -- A fault is reported in the same way, whatever the operands are.
  have hfault : ∀ (σ τ : Store) (os os' : List Value) (fault : Fault),
      (m.resume σ os line k).failure fault = (n.resume τ os' line k).failure fault := fun σ τ os os' =>
    ht.failure_eq (m := m.resume σ os line k) (n := n.resume τ os' line k) (Machine.toList_resume hm)
      (Machine.toList_resume hn) (hcons (.refl ρ) hk) hb.inside.module hb.module hb.inside.waiting hb.waiting
  rw [hsm, hsn]
  cases hlike with
  | load file delivery => exact absurd rfl (hload file delivery)
  | proceed hρ hσ hos his =>
    exact hb.goes hρ hsm (List.cons_ne_nil _ fs) (Machine.toList_resume hm) (Machine.toList_resume hn)
      (hcons hρ his) rfl rfl hos hσ rfl rfl rfl rfl
  | fail fault hρ hσ hos => exact .fails hσ (hfault _ _ _ _ fault)
  | restart =>
    obtain ⟨own, own', hmo, hno, ho⟩ := hb.operands
    have hscope : m.frame.closure.scope = n.frame.closure.scope := by
      have hmf : m.frame = f := (List.cons.inj hm).1
      have hnf : n.frame = g := (List.cons.inj hn).1
      rw [hmf, hnf, hfg.closure.scope_eq]
    have hσ : (m.store.newScope (some m.frame.closure.scope)).2.Like ρ w
        (n.store.newScope (some n.frame.closure.scope)).2 := hscope ▸ hb.store.newScope _
    exact hb.goes (.refl ρ) hsm (List.cons_ne_nil _ fs) (Machine.toList_restarted hm)
      (Machine.toList_restarted hn) (.cons (hfg.again hb.store.scopes) ha) hmo hno ho hσ rfl rfl rfl rfl
  | @enter cl cl' os os' hcl hos =>
    have hσ : (m.store.newScope (some cl.scope)).2.Like ρ w (n.store.newScope (some cl'.scope)).2 :=
      hcl.scope_eq ▸ hb.store.newScope _
    have hdepth : (n.resume n.store (os' ++ d.rest) line k).task.frames.depth =
        (m.resume m.store (os ++ c.rest) line k).task.frames.depth := hb.depth_eq ht
    refine .enter hdepth (fun fault => .fails hb.store (hfault _ _ _ _ fault)) fun he => ?_
    exact hb.goes (.refl ρ) (hsm.trans he) (List.cons_ne_nil _ _) (Machine.toList_pushFrame hm)
      (Machine.toList_pushFrame hn) (.cons (hcl.entered hb.store.scopes) (hcons (.refl ρ) hk)) rfl rfl hos hσ
      rfl rfl rfl rfl

theorem step (host : Host) (hb : Beside κ ρ w c d m n) (ht : c.Twin d) :
    Concurs κ ρ w c d (m.step host) (n.step host) := by
  obtain ⟨above, above', hm, hn, ha⟩ := hb.frames
  cases ha with
  | nil => exact absurd rfl (hb.above_ne_nil hm)
  | @cons f g fs fs' hfg ha =>
    cases hr : f.rest with
    | nil => exact hb.step_return hm hn hfg ha hr
    | cons i k =>
      obtain ⟨line, op⟩ := i
      exact hb.step_op ht hm hn hfg ha hr

end Beside

/-- A call that answers at once leaves a well-formed value. -/
theorem CallSite.Calls.answered {callee v : Value} {args : List Value} {σ : Store}
    (hc : c.Calls callee args) (hsound : c.machine.store.Sound κ) (hck : callee.Ok κ)
    (hak : SoundAll κ Closure.Balanced args) (hs : c.machine.step host = .running (c.answered σ v)) :
    σ.Sound κ ∧ σ.roots = c.machine.store.roots ∧ σ.scopes = c.machine.store.scopes ∧ v.Ok κ := by
  have hcalled : Called κ c.machine c.machine.store c.rest c.line c.after (c.machine.step host) := by
    rw [step_cons hc.rest, hc.operands]
    exact call_called hsound hck hak
  rw [hs] at hcalled
  generalize ht : Transition.running (c.answered σ v) = t at hcalled
  cases hcalled with
  | answers hτ hscopes hroots hv =>
    have hm := Transition.running.inj ht
    have hstore := congrArg Machine.store hm
    have hops := congrArg Machine.operands hm
    cases hstore
    cases hops
    exact ⟨hτ, hroots, hscopes, hv⟩
  | enters _ _ _ =>
    have hdepth := congrArg (·.task.frames.depth) (Transition.running.inj ht)
    exact absurd hdepth (Nat.ne_of_lt (Nat.lt_succ_self _))
  | raises _ => cases ht

/-- A call of like values on both sides. -/
theorem CallSite.Calls.concurs {callee callee' : Value} {args args' : List Value} (host : Host)
    (hc : c.Calls callee args) (hd : d.Calls callee' args') (ht : c.Twin d)
    (hscope : c.machine.frame.scope = d.machine.frame.scope)
    (hcl : c.machine.frame.closure.Like ρ w.admits c.machine.frame.closure) (hafter : w.passes c.after)
    (hσ : c.machine.store.Like ρ w d.machine.store) (hsound : c.machine.store.Sound κ)
    (hroot : c.machine.task.root < c.machine.store.roots.size) (hcallee : callee.Like ρ w.admits callee')
    (hargs : AllLike ρ w.admits args args') (hck : callee.Ok κ) (hak : SoundAll κ Closure.Balanced args) :
    Concurs κ ρ w c d (c.machine.step host) (d.machine.step host) := by
  have hlen : args'.length = args.length := hargs.length_eq.symm
  have hs : (c.machine.setting.withOperands (callee :: args)).Like ρ w
      (d.machine.setting.withOperands (callee' :: args')) := by
    refine ⟨hσ, .cons hcallee hargs, ?_, hscope, ht.root.symm⟩
    show c.machine.frame.closure.Like ρ w.admits d.machine.frame.closure
    rw [ht.closure]
    exact hcl
  have hlike := hs.call hafter args.length
  have hcalled : Action.Called κ c.after
      ((c.machine.setting.withOperands (callee :: args)).call args.length c.after) :=
    Setting.call_called hck hak
  have hreplies : Action.Replies c.after d.after
      ((d.machine.setting.withOperands (callee' :: args')).call args.length c.after)
      ((d.machine.setting.withOperands (callee' :: args')).call args'.length d.after) :=
    hlen ▸ Setting.call_replies
  have hcm : c.machine.step host = c.machine.act host c.line c.after
      (((c.machine.setting.withOperands (callee :: args)).call args.length c.after).over c.rest) :=
    hc.step_eq hcalled.not_underflow
  rw [hcm, hd.step_eq (hreplies.not_underflow (hlike.not_underflow hcalled.not_underflow))]
  -- What the call comes to on the one side, on the other with the instructions of the one, and there.
  generalize (c.machine.setting.withOperands (callee :: args)).call args.length c.after = x
    at hlike hcalled hcm ⊢
  generalize (d.machine.setting.withOperands (callee' :: args')).call args.length c.after = y
    at hlike hreplies
  generalize (d.machine.setting.withOperands (callee' :: args')).call args'.length d.after = z
    at hreplies ⊢
  have hfault : ∀ (σ τ : Store) (os os' : List Value) (f : Fault),
      (c.machine.resume σ os c.line c.after).failure f =
        (d.machine.resume τ os' d.line d.after).failure f := by
    intro σ τ os os' f
    have hno : List.Forall₂ (Frame.Alike ρ w) [] [] := .nil
    have hcf : (c.machine.resume σ os c.line c.after).task.frames.toList = [] ++ c.frames := rfl
    have hdf : (d.machine.resume τ os' d.line d.after).task.frames.toList = [] ++ d.frames := rfl
    exact ht.failure_eq hcf hdf hno rfl rfl rfl rfl f
  cases hcalled with
  | answers σ v =>
    cases hlike with
    | proceed hρ hστ hos _ =>
      cases hreplies
      obtain ⟨v', _, hv, ⟨⟩, rfl⟩ := List.forall₂_cons_left_iff.mp hos
      obtain ⟨hσ', hroots, hscopes, hok⟩ := hc.answered hsound hck hak hcm
      exact .answers hρ hστ hv hok hσ' hroots (Nat.le_of_eq (congrArg Array.size hscopes).symm)
  | @enters cl os hb hl hs =>
    cases hlike with
    | @enter _ cl' _ os' hcl' hos =>
      cases hreplies
      have hτ : (c.machine.store.newScope (some cl.scope)).2.Like ρ w
          (d.machine.store.newScope (some cl'.scope)).2 := hcl'.scope_eq ▸ hσ.newScope _
      have hdepth : d.machine.task.frames.depth = c.machine.task.frames.depth := by
        rw [← d.length_frames, ← c.length_frames, ht.depth_eq]
      have hgrow : c.machine.store.scopes.size ≤
          (c.machine.store.newScope (some cl.scope)).2.scopes.size := by
        rw [Store.size_newScope]
        exact Nat.le_succ _
      refine .enter (m := c.machine.resume c.machine.store (os ++ c.rest) c.line c.after)
        (n := d.machine.resume d.machine.store (os' ++ d.rest) d.line d.after) hdepth
        (fun f => .fails hσ (hfault _ _ _ _ f)) fun _ => .goes (.refl ρ) ?_
      exact ⟨.enters hsound hroot hb hl hs, rfl, hgrow,
        ⟨_, _, rfl, rfl, .cons (hcl'.entered hσ.scopes) .nil⟩, ⟨os, os', rfl, rfl, hos⟩, hτ, rfl, rfl, rfl⟩
  | raises =>
    cases hlike with
    | fail f _ hστ _ =>
      cases hreplies
      exact .fails hστ (hfault _ _ _ _ _)

/-- From the first step of the call on the two runs stay together. -/
theorem Concurs.together (ht : c.Twin d) (h : Concurs κ ρ w c d (m.step host) (n.step host)) :
    Together host w (Answered κ ρ w c d) m n := by
  have hlong : ∀ k ρ₁ m n, ρ.Le ρ₁ → Concurs κ ρ₁ w c d (m.step host) (n.step host) →
      Together host w (Answered κ ρ w c d) m n ∨
        (∃ m', m.walk host k = some m') ∧ ∃ n', n.walk host k = some n' := by
    intro k
    induction k with
    | zero => exact fun _ m n _ _ => .inr ⟨⟨m, rfl⟩, n, rfl⟩
    | succ k ih =>
      intro ρ₁ m n hρ h
      generalize hm : m.step host = t at h
      generalize hn : n.step host = u at h
      cases h with
      | answers hρ' hσ hv hok hs hroots hscopes =>
        exact .inl (.comes (.of_step hm) (.of_step hn)
          ⟨_, _, _, _, _, hρ.trans hρ', hσ, hv, hok, hs, hroots, hscopes, rfl, rfl⟩)
      | fails hσ hf => exact .inl (.fails ⟨m, .refl m, hm⟩ ⟨n, .refl n, hn⟩ hσ hf)
      | goes hρ' hb =>
        rcases ih _ _ _ (hρ.trans hρ') (hb.step host ht) with hto | ⟨⟨m₁, h₁⟩, n₁, h₂⟩
        · exact .inl (hto.head (.of_step hm) (.of_step hn))
        · exact .inr ⟨⟨m₁, Machine.walk_of_step hm h₁⟩, n₁, Machine.walk_of_step hn h₂⟩
  by_cases hto : Together host w (Answered κ ρ w c d) m n
  · exact hto
  · have hwalk := fun k => (hlong k ρ m n (.refl ρ) h).resolve_left hto
    exact .endless (fun k => (hwalk k).1) fun k => (hwalk k).2

end

end MatchLang
