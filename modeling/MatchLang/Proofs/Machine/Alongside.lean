import MatchLang.Proofs.Machine.Returning
import MatchLang.Proofs.Machine.Sharing

/-! One call made at two places. A function sees neither the frames nor the operands that its call stands on, and
declares nothing; so as long as the two stores share what it can reach, and calls have nested as deep, it
takes the same steps to the same end. -/

namespace MatchLang

/-- A machine that is about to make a call, and where it goes on when the call has answered. -/
structure CallSite where
  machine : Machine
  rest : List Value
  line : Nat
  after : List Instr

namespace CallSite

/-- The frames that the call returns to. -/
def frames (c : CallSite) : List Frame :=
  { c.machine.frame with line := c.line, rest := c.after } :: c.machine.task.frames.callers

/-- The call has come to its end with a value. -/
def answered (c : CallSite) (σ : Store) (v : Value) : Machine :=
  c.machine.resume σ (v :: c.rest) c.line c.after

theorem length_frames (c : CallSite) : c.frames.length = c.machine.task.frames.depth :=
  c.machine.task.frames.depth_eq.symm

end CallSite

/-- The two machines are inside the call at the one place and at the other: the frames and the operands of the
call are the same, and the stores share what it can reach. -/
structure Alongside (κ : Registry) (K : Reach) (c d : CallSite) (m n : Machine) : Prop where
  inside : c.machine.Inside κ c.rest c.line c.after m
  frames : ∃ above, m.task.frames.toList = above ++ c.frames ∧
    n.task.frames.toList = above ++ d.frames ∧ ∀ f ∈ above, K.Has f.closure ∧ K.scopes f.scope
  operands : ∃ own, m.operands = own ++ c.rest ∧ n.operands = own ++ d.rest ∧ EveryValue K.Has own
  shares : m.store.Shares K n.store
  spares : c.machine.store.Spares K m.store
  spares' : d.machine.store.Spares K n.store
  module : n.task.module = d.machine.task.module
  root : n.task.root = d.machine.task.root
  waiting : n.waiting = d.machine.waiting

/-- The call is over at the two places: with the same value or the same fault. -/
inductive Ended (K : Reach) (c d : CallSite) : Transition → Transition → Prop where
  | answers {σ τ v} : σ.Shares K τ → c.machine.store.Spares K σ → d.machine.store.Spares K τ →
    v.Every K.Has → Ended K c d (.running (c.answered σ v)) (.running (d.answered τ v))
  | fails {m n f} : m.store.Shares K n.store → c.machine.store.Spares K m.store →
    d.machine.store.Spares K n.store → Ended K c d (.raised m f) (.raised n f)

/-- What a step comes to at the two places: the call is over at both, or at neither. -/
inductive Paced (κ : Registry) (K : Reach) (c d : CallSite) (t u : Transition) : Prop where
  | ends : Ended K c d t u → Paced κ K c d t u
  | goes {m n} : t = .running m → u = .running n → Alongside κ K c d m n → Paced κ K c d t u

section

variable {κ : Registry} {K : Reach} {host : Host} {c d : CallSite} {m n m' n' : Machine}
  {s : Stretch} {b : Base} {i h line argc : Nat} {f : Frame} {fs above : List Frame}
  {op : Op} {k : List Instr} {σ : Store}

theorem CallSite.nesting (hf : m.task.frames.toList = above ++ c.frames)
    (hw : m.waiting = c.machine.waiting) : m.nesting = above.length + c.machine.nesting := by
  have hl : m.task.frames.depth = above.length + c.machine.task.frames.depth := by
    rw [Frames.depth_eq_length, hf, List.length_append, c.length_frames]
  rw [Machine.nesting, Machine.nesting, hw, hl]
  omega

namespace Machine.Inside

variable {rest own : List Value} {m₁ m₂ : Machine}

theorem goes_on (hi : m.Inside κ rest line k m₁) (hs : m₁.step host = .running m₂) :
    m.Inside κ rest line k m₂ ∨ ∃ v, m₂ = m.resume m₁.store (v :: rest) line k := by
  rcases hi.step host with ⟨v, hv⟩ | ⟨m₃, h₃, hi₃⟩ | ⟨m₃, f, hf⟩
  · exact .inr ⟨v, Transition.running.inj (hs.symm.trans hv)⟩
  · exact .inl (Transition.running.inj (hs.symm.trans h₃) ▸ hi₃)
  · rw [hs] at hf
    cases hf

theorem next (hi : m.Inside κ rest line k m₁) (hs : m₁.step host = .running m₂)
    (hn : m.nesting < m₂.nesting) : m.Inside κ rest line k m₂ := by
  rcases hi.goes_on hs with hi₂ | ⟨v, rfl⟩
  · exact hi₂
  · exact absurd hn (Nat.lt_irrefl _)

theorem last (hi : m.Inside κ rest line k m₁) (hs : m₁.step host = .running m₂)
    (hn : m₂.nesting ≤ m.nesting) : ∃ v, m₂ = m.resume m₁.store (v :: rest) line k := by
  rcases hi.goes_on hs with hi₂ | hv
  · exact absurd hi₂.nesting_lt (Nat.not_lt.mpr hn)
  · exact hv

theorem no_underflow (hi : m.Inside κ rest line k m₁) (ho : m₁.operands = own ++ rest) {l : Nat}
    {is : List Instr} (hr : m₁.frame.rest = .mk l op :: is) {os : List Value} :
    op.action (m₁.setting.withOperands own) l is ≠ .fail σ os .stackUnderflow := by
  intro ha
  obtain ⟨code, b, above, own', hu⟩ := hi.frames
  obtain rfl : own' = own := by
    have he : own' ++ rest = own ++ rest := hu.operands.symm.trans ho
    exact List.append_cancel_right he
  -- Without the operands below the call the machine is still well-formed, so it underflows nowhere.
  let top : Machine := m₁.withOperands own'
  have hup : top.task.Upper κ top.store (.body code) [] b 0
      ({ m.frame with line, rest := k } :: m.task.frames.callers) [] :=
    ⟨above, own', hu.frames, (List.append_nil _).symm, hu.sound, hu.balanced, hu.scopes, hu.root,
      hu.knows⟩
  have hstep : top.step bareHost = .raised (top.resume σ os l is) .stackUnderflow := by
    rw [step_eq_act (m := top) hr]
    exact congrArg (top.act bareHost l is) ha
  have hadvance := Task.Upper.advance (m := top) bareHost hi.store hup (Nat.zero_le _)
  rcases hadvance with ⟨hend, _⟩ | hadv
  · rw [show top.frame.rest = _ from hr] at hend
    cases hend
  · rw [hstep] at hadv
    generalize ht : Transition.raised (top.resume σ os l is) Fault.stackUnderflow = t at hadv
    cases hadv with
    | running _ _ _ _ _ _ _ _ => cases ht
    | loads hp _ _ _ _ => exact absurd hp List.not_mem_nil
    | raises _ _ hf =>
      cases ht
      exact hf trivial

theorem leaves_root (hi : m.Inside κ rest line k m₁) {l : Nat} {is : List Instr}
    (hr : m₁.frame.rest = .mk l op :: is) : op.touchesRoot = false := by
  obtain ⟨code, b, above, own, hu⟩ := hi.frames
  cases above with
  | nil => exact hu.balanced.elim
  | cons f fs =>
    have hf : m₁.frame = f := (List.cons.inj hu.frames).1
    obtain ⟨s', ps', h', hs, hps, -, hin⟩ := hu.balanced.head rfl
    obtain rfl : ps' = [] := List.subset_nil.mp hps
    have hb := hin.rest
    rw [← hf, hr] at hb
    exact hb.leaves_root hs

end Machine.Inside

theorem Machine.action_local {below own : List Value} {line : Nat} {k : List Instr} {op : Op}
    (ho : m.operands = own ++ below) :
    Action.LocalTo below (op.action (m.setting.withOperands own) line k)
      (op.action m.setting line k) := by
  have hset : m.setting.withOperands (own ++ below) = m.setting :=
    congrArg m.setting.withOperands ho.symm
  have hlocal : Action.LocalTo below (op.action (m.setting.withOperands own) line k)
      (op.action (m.setting.withOperands (own ++ below)) line k) := op.action_local
  rwa [hset] at hlocal

theorem CallSite.eq_answered {v : Value} (hf : n.task.frames.toList = d.frames)
    (ho : n.operands = v :: d.rest) (hm : n.task.module = d.machine.task.module)
    (hr : n.task.root = d.machine.task.root) (hw : n.waiting = d.machine.waiting) :
    n = d.answered n.store v := by
  have hfs : n.task.frames = d.machine.task.frames.update fun f =>
      { f with line := d.line, rest := d.after } := Frames.eq_of_toList hf
  obtain ⟨σ, ⟨module, root, os, fs⟩, ws⟩ := n
  obtain rfl : module = d.machine.task.module := hm
  obtain rfl : root = d.machine.task.root := hr
  obtain rfl : os = v :: d.rest := ho
  obtain rfl : ws = d.machine.waiting := hw
  obtain rfl : fs = _ := hfs
  rfl

theorem Machine.step_done (host : Host) (hf : m.task.frames.toList = f :: fs) (hr : f.rest = []) (hne : fs ≠ []) :
    ∃ frames, m.step host = .running (m.withFrames frames) ∧ frames.toList = fs := by
  obtain ⟨g, gs, rfl⟩ := List.exists_cons_of_ne_nil hne
  obtain ⟨frames, hp, hfs⟩ := Frames.pop?_cons hf
  have hrest : m.frame.rest = [] := (congrArg Frame.rest (List.cons.inj hf).1).trans hr
  exact ⟨frames, step_pop hrest hp, hfs⟩

theorem CallSite.frames_ne_nil (fs : List Frame) (c : CallSite) : fs ++ c.frames ≠ [] :=
  List.append_ne_nil_of_right_ne_nil fs (List.cons_ne_nil _ _)

theorem Paced.enter {cl : Closure} (hd : n.task.frames.depth = m.task.frames.depth)
    (hf : ∀ f, Ended K c d (.raised m f) (.raised n f))
    (hp : m.enter host cl = .running (m.pushFrame cl) →
      Paced κ K c d (.running (m.pushFrame cl)) (.running (n.pushFrame cl))) :
    Paced κ K c d (m.enter host cl) (n.enter host cl) := by
  revert hp
  unfold Machine.enter
  rw [hd]
  cases host.callLimit with
  | none => exact fun hp => hp rfl
  | some limit =>
    simp only
    split
    · exact fun _ => .ends (hf _)
    · exact fun hp => hp rfl

namespace Alongside

theorem above_ne_nil (ha : Alongside κ K c d m n) (hf : m.task.frames.toList = above ++ c.frames) :
    above ≠ [] := by
  rintro rfl
  have hn := c.nesting hf ha.inside.waiting
  have hlt := ha.inside.nesting_lt
  simp only [List.length_nil, Nat.zero_add] at hn
  omega

theorem depth_eq (ha : Alongside κ K c d m n)
    (hd : d.machine.task.frames.depth = c.machine.task.frames.depth) :
    n.task.frames.depth = m.task.frames.depth := by
  obtain ⟨above, hm, hn, _⟩ := ha.frames
  rw [Frames.depth_eq_length, Frames.depth_eq_length, hm, hn, List.length_append, List.length_append,
    c.length_frames, d.length_frames, hd]

theorem goes {above : List Frame} {own : List Value} (ha : Alongside κ K c d m n)
    (hs : m.step host = .running m') (hne : above ≠ [])
    (hm : m'.task.frames.toList = above ++ c.frames)
    (hn : n'.task.frames.toList = above ++ d.frames)
    (hk : ∀ f ∈ above, K.Has f.closure ∧ K.scopes f.scope)
    (hmo : m'.operands = own ++ c.rest) (hno : n'.operands = own ++ d.rest)
    (ho : EveryValue K.Has own) (hσ : m'.store.Shares K n'.store)
    (hsp : m.store.Spares K m'.store) (hsp' : n.store.Spares K n'.store)
    (hw : m'.waiting = m.waiting) (ht : n'.task.module = n.task.module)
    (hr : n'.task.root = n.task.root) (hw' : n'.waiting = n.waiting) :
    Paced κ K c d (.running m') (.running n') := by
  have hlt : c.machine.nesting < m'.nesting := by
    have hpos := List.length_pos_of_ne_nil hne
    rw [c.nesting hm (hw.trans ha.inside.waiting)]
    omega
  exact .goes rfl rfl ⟨ha.inside.next hs hlt, ⟨above, hm, hn, hk⟩, ⟨own, hmo, hno, ho⟩, hσ,
    ha.spares.trans hsp, ha.spares'.trans hsp', ht.trans ha.module, hr.trans ha.root,
    hw'.trans ha.waiting⟩

theorem step_return (ha : Alongside κ K c d m n) (hm : m.task.frames.toList = f :: fs ++ c.frames)
    (hn : n.task.frames.toList = f :: fs ++ d.frames)
    (hk : ∀ g ∈ f :: fs, K.Has g.closure ∧ K.scopes g.scope) (hr : f.rest = []) :
    Paced κ K c d (m.step host) (n.step host) := by
  obtain ⟨own, hmo, hno, ho⟩ := ha.operands
  obtain ⟨fm, hsm, hfm⟩ := Machine.step_done host hm hr (CallSite.frames_ne_nil fs c)
  obtain ⟨fn, hsn, hfn⟩ := Machine.step_done host hn hr (CallSite.frames_ne_nil fs d)
  rw [hsn]
  cases fs with
  | nil =>
    -- The last frame of the call is left: at both places one operand more than before is there.
    have hle : (m.withFrames fm).nesting ≤ c.machine.nesting := by
      have hn : (m.withFrames fm).nesting = ([] : List Frame).length + c.machine.nesting :=
        CallSite.nesting hfm ha.inside.waiting
      exact Nat.le_of_eq (hn.trans (Nat.zero_add _))
    obtain ⟨v, hv⟩ := ha.inside.last hsm hle
    have hos : own ++ c.rest = [v] ++ c.rest := hmo.symm.trans (congrArg Machine.operands hv)
    obtain rfl : own = [v] := List.append_cancel_right hos
    have hback : n.withFrames fn = d.answered n.store v :=
      CallSite.eq_answered hfn hno ha.module ha.root ha.waiting
    rw [hsm, hv, hback]
    exact .ends (.answers ha.shares ha.spares ha.spares' ho.1)
  | cons g gs =>
    rw [hsm]
    exact ha.goes hsm (List.cons_ne_nil g gs) hfm hfn
      (fun g' hg => hk g' (List.mem_cons_of_mem _ hg)) hmo hno ho ha.shares (.refl _) (.refl _) rfl
      rfl rfl rfl

/-- An instruction comes to the same at the two places, whatever the call stands on. -/
theorem action_alike (host : Host) (ha : Alongside κ K c d m n) (hm : m.task.frames.toList = f :: fs ++ c.frames)
    (hn : n.task.frames.toList = f :: fs ++ d.frames) (hk : K.Has f.closure ∧ K.scopes f.scope)
    (hr : f.rest = .mk line op :: k) :
    ∃ a b, Action.Alike K m.setting n.setting a b ∧
      m.step host = m.act host line k (a.over c.rest) ∧
      n.step host = n.act host line k (b.over d.rest) := by
  obtain ⟨own, hmo, hno, ho⟩ := ha.operands
  have hmf : m.frame = f := (List.cons.inj hm).1
  have hnf : n.frame = f := (List.cons.inj hn).1
  have hmr : m.frame.rest = .mk line op :: k := hmf ▸ hr
  have hnr : n.frame.rest = .mk line op :: k := hnf ▸ hr
  -- Over the operands of the call alone both functions go on in the same setting.
  have hs : (m.setting.withOperands own).Shares K (n.setting.withOperands own) := by
    refine ⟨⟨ha.shares, rfl, ho⟩, ?_, ?_, ?_, ?_⟩
    · exact congrArg Frame.closure (hnf.trans hmf.symm)
    · exact congrArg Frame.scope (hnf.trans hmf.symm)
    · show K.Has m.frame.closure
      rw [hmf]
      exact hk.1
    · show K.scopes m.frame.scope
      rw [hmf]
      exact hk.2
  have halike : Action.Alike K _ _ (op.action (m.setting.withOperands own) line k)
      (op.action (n.setting.withOperands own) line k) :=
    Op.action_alike hs (ha.inside.leaves_root hmr)
  have hno_fail : ∀ σ os, op.action (m.setting.withOperands own) line k ≠
      .fail σ os .stackUnderflow := fun σ os => ha.inside.no_underflow hmo hmr
  have hma := (Machine.action_local hmo).eq_over hno_fail
  have hna := (Machine.action_local hno).eq_over fun σ os h => by
    obtain ⟨σ', h'⟩ := halike.fault h
    exact hno_fail σ' os h'
  exact ⟨_, _, halike.stores rfl rfl, by rw [step_eq_act hmr, hma], by rw [step_eq_act hnr, hna]⟩

theorem step_op (ha : Alongside κ K c d m n)
    (hd : d.machine.task.frames.depth = c.machine.task.frames.depth)
    (hm : m.task.frames.toList = f :: fs ++ c.frames)
    (hn : n.task.frames.toList = f :: fs ++ d.frames)
    (hk : ∀ g ∈ f :: fs, K.Has g.closure ∧ K.scopes g.scope) (hr : f.rest = .mk line op :: k) :
    Paced κ K c d (m.step host) (n.step host) := by
  obtain ⟨hkf, hks⟩ := List.forall_mem_cons.mp hk
  obtain ⟨a, b, halike, hsm, hsn⟩ := ha.action_alike host hm hn hkf hr
  have hnew : K.scopes m.store.scopes.size := ha.shares.fresh _ (Nat.le_refl _)
  have hsize : n.store.scopes.size = m.store.scopes.size := ha.shares.size
  have hfresh : ∀ s, n.store.scopes.size ≤ s → K.scopes s :=
    fun s hs => ha.shares.fresh s (hsize ▸ hs)
  rw [hsm, hsn]
  cases halike with
  | @proceed σ τ os is hσ hsp hsp' hos =>
    exact ha.goes hsm (List.cons_ne_nil _ fs) (Machine.toList_resume hm) (Machine.toList_resume hn)
      (List.forall_mem_cons.mpr ⟨hkf, hks⟩) rfl rfl hos hσ hsp hsp' rfl rfl rfl rfl
  | fail hσ hsp hsp' => exact .ends (.fails hσ (ha.spares.trans hsp) (ha.spares'.trans hsp'))
  | restart =>
    obtain ⟨own, hmo, hno, ho⟩ := ha.operands
    have hmf : m.frame = f := (List.cons.inj hm).1
    have hnf : n.frame = f := (List.cons.inj hn).1
    have hna : (n.resume n.store n.operands line k).restarted.task.frames.toList =
        f.again m.store.scopes.size line :: fs ++ d.frames := hsize ▸ Machine.toList_restarted hn
    have hshares : (m.resume m.store m.operands line k).restarted.store.Shares K
        (n.resume n.store n.operands line k).restarted.store := by
      show (m.store.newScope (some m.frame.closure.scope)).2.Shares K
        (n.store.newScope (some n.frame.closure.scope)).2
      rw [hmf, hnf]
      exact ha.shares.newScope hkf.1.1
    exact ha.goes hsm (List.cons_ne_nil _ fs) (Machine.toList_restarted hm) hna
      (List.forall_mem_cons.mpr ⟨⟨hkf.1, hnew⟩, hks⟩) hmo hno ho hshares
      (.newScope ha.shares.fresh) (.newScope hfresh) rfl rfl rfl rfl
  | @enter cl os hcl hos =>
    have hna : ((n.resume n.store (os ++ d.rest) line k).pushFrame cl).task.frames.toList =
        cl.entered m.store.scopes.size :: f.moved line k :: fs ++ d.frames :=
      hsize ▸ Machine.toList_pushFrame hn
    have hkall : ∀ g ∈ cl.entered m.store.scopes.size :: f.moved line k :: fs,
        K.Has g.closure ∧ K.scopes g.scope :=
      List.forall_mem_cons.mpr ⟨⟨hcl, hnew⟩, List.forall_mem_cons.mpr ⟨hkf, hks⟩⟩
    refine .enter (m := m.resume m.store (os ++ c.rest) line k)
      (n := n.resume n.store (os ++ d.rest) line k) (ha.depth_eq hd)
      (fun f => .fails ha.shares ha.spares ha.spares') fun he => ?_
    exact ha.goes (hsm.trans he) (List.cons_ne_nil _ _) (Machine.toList_pushFrame hm) hna hkall rfl rfl hos
      (ha.shares.newScope hcl.1) (.newScope ha.shares.fresh) (.newScope hfresh) rfl rfl rfl rfl

theorem step (host : Host) (hd : d.machine.task.frames.depth = c.machine.task.frames.depth)
    (ha : Alongside κ K c d m n) : Paced κ K c d (m.step host) (n.step host) := by
  obtain ⟨above, hm, hn, hk⟩ := ha.frames
  cases above with
  | nil => exact absurd rfl (ha.above_ne_nil hm)
  | cons f fs =>
    cases hr : f.rest with
    | nil => exact ha.step_return hm hn hk hr
    | cons i k =>
      obtain ⟨line, op⟩ := i
      exact ha.step_op hd hm hn hk hr

end Alongside

end

end MatchLang
