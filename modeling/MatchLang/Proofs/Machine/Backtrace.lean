import MatchLang.Proofs.Machine.Waiting

/-! What a report lists of a run. The frames of the running task are the body of its module and one for each call that
has begun and has not come to its end; the line of a frame that waits is that of the call it waits for. A function that
begins again in its own frame makes no call. -/

namespace MatchLang

/-- A call that begins in a step of a run: the function, and the line of the instruction. -/
structure Call where
  step : Nat
  callee : Closure
  line : Nat

/-- The machine `m` of a run makes the call. -/
structure Call.Begins (host : Host) (first : Machine) (c : Call) (m : Machine) : Prop where
  reached : first.walk host c.step = some m
  enters : ∃ argc k os, m.frame.rest = .mk c.line (.call argc) :: k ∧
    Op.action m.setting c.line k (.call argc) = .enter c.callee os

/-- After some steps of a run the call has begun and has not come to its end. -/
def Call.Open (host : Host) (first : Machine) (steps : Nat) (c : Call) : Prop :=
  ∃ m, c.Begins host first m ∧ c.step < steps ∧
    ∀ i m', c.step < i → i ≤ steps → first.walk host i = some m' → ¬ m.Returns host m'

/-- The entries for some calls in the body of a module, the latest first, of which the last line reached is given. -/
def traceOf (module : String) : Nat → List Call → List TraceEntry
  | line, [] => [⟨moduleText module, line⟩]
  | line, c :: cs => ⟨c.callee.text, line⟩ :: traceOf module c.line cs

/-- Since the call that the machine `m` makes there have always been more frames than before. -/
structure Call.Held (host : Host) (first : Machine) (steps : Nat) (c : Call) (m : Machine) : Prop where
  begins : c.Begins host first m
  before : c.step < steps
  above : ∀ i m', c.step < i → i ≤ steps → first.walk host i = some m' → m.nesting < m'.nesting

/-- The frames of a task over the number of those of the tasks that wait: one for each of some calls, and that of the
body of the module. -/
inductive Stacked (host : Host) (first : Machine) (module : String) (below : Nat) : List Frame → List Call → Prop where
  | body {f} : f.closure.text = moduleText module → Stacked host first module below [f] []
  | call {f g fs c cs m} : f.closure = c.callee → g.line = c.line → c.Begins host first m →
    m.nesting = below + (g :: fs).length → (∀ d ∈ cs, d.step < c.step) →
    Stacked host first module below (g :: fs) cs → Stacked host first module below (f :: g :: fs) (c :: cs)

/-- The frames of the tasks that wait. -/
def Machine.outer (m : Machine) : Nat :=
  (m.waiting.map (·.task.frames.depth)).sum

/-- The running task has a frame for each call that is held. -/
structure Machine.Traced (host : Host) (m first : Machine) (steps : Nat) (calls : List Call) : Prop where
  stacked : Stacked host first m.task.module m.outer m.task.frames.toList calls
  held : ∀ c, c ∈ calls ↔ ∃ m₁, c.Held host first steps m₁

section

variable {κ : Registry} {host : Host} {first m m' m₁ m₂ : Machine} {t : Transition} {fault : Fault} {h n below : Nat}
  {outermost file module : String} {delivery : Delivery} {c : Call} {calls : List Call} {f g : Frame} {fs : List Frame}

theorem Machine.nesting_eq : m.nesting = m.outer + m.task.frames.toList.length := by
  rw [nesting, outer, Frames.depth_eq_length, Nat.add_comm]

namespace Call

theorem Begins.unique (h : c.Begins host first m₁) (h' : c.Begins host first m₂) : m₁ = m₂ :=
  Option.some.inj (h.reached.symm.trans h'.reached)

theorem Begins.at_call (h : c.Begins host first m₁) (hn : first.walk host n = some m) (he : c.step = n) :
    ∃ argc k, m.frame.rest = .mk c.line (.call argc) :: k := by
  obtain rfl : m = m₁ := Option.some.inj (hn.symm.trans (he ▸ h.reached))
  obtain ⟨argc, k, _, hr, _⟩ := h.enters
  exact ⟨argc, k, hr⟩

/-- A step makes one call at most. -/
theorem Begins.eq {d : Call} (h : c.Begins host first m) (h' : d.Begins host first m₁) (hs : c.step = d.step) :
    c = d := by
  obtain rfl : m = m₁ := Option.some.inj (h.reached.symm.trans (hs ▸ h'.reached))
  obtain ⟨argc, k, os, hr, ha⟩ := h.enters
  obtain ⟨argc', k', os', hr', ha'⟩ := h'.enters
  obtain ⟨step, callee, line⟩ := c
  obtain ⟨step', callee', line'⟩ := d
  rw [hr] at hr'
  cases hr'
  rw [ha] at ha'
  cases ha'
  cases hs
  rfl

theorem Held.nesting_lt (hc : c.Held host first n m₁) (hn : first.walk host n = some m) : m₁.nesting < m.nesting :=
  hc.above n m hc.before (Nat.le_refl n) hn

/-- A call has not come to its end as long as there are more frames than before. -/
theorem open_iff : c.Open host first n ↔ ∃ m, c.Held host first n m := by
  constructor
  · rintro ⟨m, hb, hn, hopen⟩
    refine ⟨m, hb, hn, fun i => ?_⟩
    -- The first time that no more frames are left would be the end of the call.
    induction i using Nat.strong_induction_on with
    | _ i ih =>
      intro m' hlt hle hw
      by_contra hnest
      have hfrom : ∀ j, first.walk host (c.step + j) = m.walk host j := by
        intro j
        rw [Machine.walk_add, hb.reached, Option.bind_some]
      obtain ⟨j, rfl⟩ : ∃ j, i = c.step + (j + 1) := ⟨i - c.step - 1, by omega⟩
      refine hopen _ m' hlt hle hw ⟨j, hfrom (j + 1) ▸ hw, Nat.le_of_not_lt hnest, fun l m₁ hl hj h₁ => ?_⟩
      exact ih (c.step + l) (by omega) m₁ (by omega) (by omega) ((hfrom l).trans h₁)
  · rintro ⟨m, hb, hn, habove⟩
    refine ⟨m, hb, hn, fun i m' hlt hle hw hret => ?_⟩
    obtain ⟨_, _, hnest, _⟩ := hret
    exact absurd (habove i m' hlt hle hw) (Nat.not_lt.mpr hnest)

/-- A call is held after a step if it was before or begins in it, and its frame is there. -/
theorem held_succ (hw : first.walk host (n + 1) = some m') :
    c.Held host first (n + 1) m ↔
      c.Begins host first m ∧ m.nesting < m'.nesting ∧ (c.step = n ∨ c.Held host first n m) := by
  constructor
  · intro hc
    refine ⟨hc.begins, hc.above (n + 1) m' hc.before (Nat.le_refl _) hw, ?_⟩
    rcases Nat.eq_or_lt_of_le (Nat.le_of_lt_succ hc.before) with he | hlt
    · exact .inl he
    · exact .inr ⟨hc.begins, hlt, fun i m₁ hi hle => hc.above i m₁ hi (Nat.le_succ_of_le hle)⟩
  · rintro ⟨hb, hnest, hstep⟩
    have hle : c.step ≤ n := hstep.elim Nat.le_of_eq fun hc => Nat.le_of_lt hc.before
    refine ⟨hb, Nat.lt_succ_of_le hle, fun i m₁ hi hle h₁ => ?_⟩
    rcases Nat.eq_or_lt_of_le hle with rfl | hlt
    · obtain rfl : m' = m₁ := Option.some.inj (hw.symm.trans h₁)
      exact hnest
    · rcases hstep with he | hc
      · omega
      · exact hc.above i m₁ hi (Nat.le_of_lt_succ hlt) h₁

end Call

namespace Stacked

/-- The running frame may be at another place of its function. -/
theorem head (hs : Stacked host first module below (f :: fs) calls) (hc : g.closure = f.closure) :
    Stacked host first module below (g :: fs) calls := by
  cases hs with
  | body hb => exact .body (hc ▸ hb)
  | call hf hl hb hn hd hs => exact .call (hc.trans hf) hl hb hn hd hs

theorem calls_nil (hs : Stacked host first module below [f] calls) :
    calls = [] ∧ f.closure.text = moduleText module := by
  cases hs with
  | body hb => exact ⟨rfl, hb⟩

/-- A call was made when there were fewer frames. -/
theorem nesting_lt (hs : Stacked host first module below fs calls) (hc : c ∈ calls)
    (hb : c.Begins host first m) : m.nesting < below + fs.length := by
  induction hs with
  | body _ => cases hc
  | @call f g fs d cs m₁ _ _ hd hn _ _ ih =>
    rcases List.mem_cons.mp hc with rfl | hc
    · rw [hb.unique hd, hn]
      exact Nat.lt_succ_self _
    · exact Nat.lt_succ_of_lt (ih hc)

theorem latest_first (hs : Stacked host first module below fs calls) : calls.Pairwise (·.step > ·.step) := by
  induction hs with
  | body _ => exact .nil
  | call _ _ _ _ hd _ ih => exact .cons hd ih

/-- Each frame is listed with its function and its line. -/
theorem entries (hs : Stacked host first module below (f :: fs) calls) :
    (f :: fs).map Frame.entry = traceOf module f.line calls := by
  generalize hfs : f :: fs = l at hs
  induction hs generalizing f fs with
  | body hb =>
    cases hfs
    rw [traceOf, ← hb]
    rfl
  | call hf hl _ _ _ _ ih =>
    cases hfs
    rw [List.map_cons, ih rfl, traceOf, ← hf, ← hl]
    rfl

end Stacked

/-- A task that has begun no call is listed as the body of its module. -/
theorem Task.InBody.trace {t : Task} (ht : t.InBody) : t.trace = traceOf t.module t.frames.current.line [] := by
  rw [Task.trace, Frames.toList, ht.callers, traceOf, ← ht.body]
  rfl

theorem Task.InBody.stacked {t : Task} (ht : t.InBody) :
    Stacked host first t.module below t.frames.toList [] := by
  rw [Frames.toList, ht.callers]
  exact .body ht.body

namespace Machine

theorem Loaded.inBody (hl : m.Loaded host file delivery t) (hb : m.task.InBody) :
    ∀ m', t = .running m' → m'.task.InBody := by
  induction hl with
  | cached _ =>
    intro m' ht
    rw [(deliver_tasks ht).1]
    exact hb
  | faults _ => exact nofun
  | begins _ _ _ =>
    rintro m' ht
    cases ht
    exact bodyTask_inBody
  | equips _ _ _ _ _ _ ih => exact ih bodyTask_inBody

theorem Posted.next_inBody {w : Suspended} {ws : List Suspended} (hp : m.Posted outermost) (hw : m.waiting = w :: ws) :
    w.task.InBody := by
  cases hp with
  | imports hwaits =>
    rw [hw] at hwaits
    exact hwaits.1.toInBody
  | equips hws _ _ hb _ =>
    rw [hw] at hws
    cases hws
    exact hb

namespace Traced

/-- A task that is in the body of its module has begun no calls. -/
theorem of_inBody (ht : m.task.InBody) (hno : ∀ (c : Call) m₁, ¬ c.Held host first n m₁) : m.Traced host first n [] :=
  ⟨ht.stacked, fun c => ⟨nofun, fun ⟨m₁, hc⟩ => absurd hc (hno c m₁)⟩⟩

theorem calls_nil (ht : m.Traced host first n calls) (hc : m.task.frames.callers = []) :
    calls = [] ∧ m.frame.closure.text = moduleText m.task.module := by
  have hs := ht.stacked
  rw [Frames.toList, hc] at hs
  exact hs.calls_nil

/-- A step in the body of a module that makes no call leaves none. -/
theorem not_held (ht : m.Traced host first n calls) (hc : m.task.frames.callers = []) (hn : first.walk host n = some m)
    (hw : first.walk host (n + 1) = some m') (hno : ∀ line argc k, m.frame.rest ≠ .mk line (.call argc) :: k) :
    ∀ (c : Call) m₁, ¬ c.Held host first (n + 1) m₁ := by
  intro c m₁ hheld
  obtain ⟨hb, -, he | hheld⟩ := (Call.held_succ hw).mp hheld
  · obtain ⟨argc, k, hr⟩ := hb.at_call hn he
    exact hno c.line argc k hr
  · have hmem : c ∈ calls := (ht.held c).mpr ⟨m₁, hheld⟩
    rw [(ht.calls_nil hc).1] at hmem
    cases hmem

/-- The running frame goes on. -/
theorem stays (ht : m.Traced host first n calls) (hn : first.walk host n = some m)
    (hw : first.walk host (n + 1) = some m') (hm : m'.task.module = m.task.module) (hwait : m'.waiting = m.waiting)
    (hf : m'.task.frames.toList = f :: m.task.frames.callers) (hc : f.closure = m.frame.closure) :
    m'.Traced host first (n + 1) calls := by
  have houter : m'.outer = m.outer := by rw [outer, hwait, ← outer]
  have hnest : m'.nesting = m.nesting := by
    rw [nesting_eq, nesting_eq, houter, hf]
    rfl
  refine ⟨?_, fun c => ⟨fun hmem => ?_, ?_⟩⟩
  · rw [hm, houter, hf]
    exact ht.stacked.head hc
  · obtain ⟨m₁, hheld⟩ := (ht.held c).mp hmem
    exact ⟨m₁, (Call.held_succ hw).mpr ⟨hheld.begins, hnest ▸ hheld.nesting_lt hn, .inr hheld⟩⟩
  · rintro ⟨m₁, hheld⟩
    obtain ⟨hb, hlt, he | hheld⟩ := (Call.held_succ hw).mp hheld
    · obtain rfl : m = m₁ := Option.some.inj (hn.symm.trans (he ▸ hb.reached))
      exact absurd hlt (hnest ▸ Nat.lt_irrefl _)
    · exact (ht.held c).mpr ⟨m₁, hheld⟩

/-- A call begins, and has a frame of its own. -/
theorem enters {line argc : Nat} {k : List Instr} {callee : Closure} {os : List Value}
    (ht : m.Traced host first n calls) (hn : first.walk host n = some m)
    (hr : m.frame.rest = .mk line (.call argc) :: k) (ha : Op.action m.setting line k (.call argc) = .enter callee os)
    (hw : first.walk host (n + 1) = some ((m.resume m.store os line k).pushFrame callee)) :
    ((m.resume m.store os line k).pushFrame callee).Traced host first (n + 1) (⟨n, callee, line⟩ :: calls) := by
  have hbegins : Call.Begins host first ⟨n, callee, line⟩ m := ⟨hn, argc, k, os, hr, ha⟩
  have hnest : ((m.resume m.store os line k).pushFrame callee).nesting = m.nesting + 1 := by
    rw [nesting_eq, nesting_eq]
    rfl
  refine ⟨.call rfl rfl hbegins nesting_eq (fun d hd => ?_) (ht.stacked.head rfl), fun c => ⟨fun hmem => ?_, ?_⟩⟩
  · obtain ⟨m₁, hheld⟩ := (ht.held d).mp hd
    exact hheld.before
  · rcases List.mem_cons.mp hmem with rfl | hmem
    · exact ⟨m, (Call.held_succ hw).mpr ⟨hbegins, hnest ▸ Nat.lt_succ_self _, .inl rfl⟩⟩
    · obtain ⟨m₁, hheld⟩ := (ht.held c).mp hmem
      exact ⟨m₁, (Call.held_succ hw).mpr ⟨hheld.begins, hnest ▸ Nat.lt_succ_of_lt (hheld.nesting_lt hn), .inr hheld⟩⟩
  · rintro ⟨m₁, hheld⟩
    obtain ⟨hb, -, he | hheld⟩ := (Call.held_succ hw).mp hheld
    · exact List.mem_cons.mpr (.inl (hb.eq hbegins he))
    · exact List.mem_cons_of_mem _ ((ht.held c).mpr ⟨m₁, hheld⟩)

/-- The latest call comes to its end, and its frame is gone. -/
theorem returns {frames : Frames} (ht : m.Traced host first n calls) (hn : first.walk host n = some m)
    (hr : m.frame.rest = []) (hp : m.task.frames.pop? = some frames)
    (hw : first.walk host (n + 1) = some (m.withFrames frames)) :
    ∃ calls', (m.withFrames frames).Traced host first (n + 1) calls' := by
  have hfr : frames.toList = m.task.frames.callers := Frames.toList_pop? hp
  have hs := ht.stacked
  rw [Frames.toList, ← hfr, Frames.toList] at hs
  generalize hcalls : calls = l at hs
  cases hs with
  | @call _ _ _ d ds m₂ _ _ hd hlevel _ hs =>
    subst hcalls
    have hnest : (m.withFrames frames).nesting = m.outer + (frames.current :: frames.callers).length := nesting_eq
    refine ⟨ds, hs, fun c => ⟨fun hmem => ?_, ?_⟩⟩
    · obtain ⟨m₁, hheld⟩ := (ht.held c).mp (List.mem_cons_of_mem d hmem)
      have hlt : m₁.nesting < m.outer + (frames.current :: frames.callers).length := hs.nesting_lt hmem hheld.begins
      exact ⟨m₁, (Call.held_succ hw).mpr ⟨hheld.begins, hnest ▸ hlt, .inr hheld⟩⟩
    · rintro ⟨m₁, hheld⟩
      obtain ⟨hb, hlt, he | hheld⟩ := (Call.held_succ hw).mp hheld
      · obtain ⟨_, _, hcall⟩ := hb.at_call hn he
        rw [hr] at hcall
        cases hcall
      · rcases List.mem_cons.mp ((ht.held c).mpr ⟨m₁, hheld⟩) with rfl | hmem
        · rw [hb.unique hd, hlevel, hnest] at hlt
          exact absurd hlt (Nat.lt_irrefl _)
        · exact hmem

theorem step (ht : m.Traced host first n calls) (hn : first.walk host n = some m) (hp : m.Posted outermost)
    (hok : m.Ok κ h) (hs : m.step host = .running m') : ∃ calls', m'.Traced host first (n + 1) calls' := by
  have hw : first.walk host (n + 1) = some m' := walk_trans hn (walk_one.mpr hs)
  have hst := m.stepped host
  rw [hs] at hst
  generalize htr : Transition.running m' = t at hst
  cases hst with
  | goes _ _ _ | restarts _ =>
    cases htr
    exact ⟨calls, ht.stays hn hw rfl rfl rfl rfl⟩
  | @enters line op k c os hr ha _ =>
    cases htr
    have ho : op.Outcome m.setting k (op.action m.setting line k) := op.action_outcome m.setting line k
    rw [ha] at ho
    cases ho with
    | enters he =>
      subst he
      exact ⟨_, ht.enters hn hr ha hw⟩
  | returns hr hpop =>
    cases htr
    exact ht.returns hn hr hpop hw
  | faults _ _ => cases htr
  | @loads line op k file delivery hr hi =>
    obtain ⟨_, htask, -⟩ := hok.tasks.running
    have hc : m.task.frames.callers = [] := htask.callers_nil hr (Op.touchesRoot_import hi)
    have hbody : (m.resume m.store m.operands line k).task.InBody := ⟨hc, (ht.calls_nil hc).2⟩
    have hl : (m.resume m.store m.operands line k).Loaded host file delivery _ := load_loaded
    refine ⟨[], .of_inBody (hl.inBody hbody m' htr.symm) (ht.not_held hc hn hw fun line' argc k' hr' => ?_)⟩
    rw [hr] at hr'
    cases hr'
    cases hi
  | ends hr hc =>
    cases hws : m.waiting with
    | nil =>
      rw [finish, hws] at htr
      cases htr
    | cons w ws =>
      rw [finish_cons hws] at htr
      have htask : m'.task = w.task := (deliver_tasks htr.symm).1
      have hbody : m'.task.InBody := htask ▸ hp.next_inBody hws
      refine ⟨[], .of_inBody hbody (ht.not_held hc hn hw fun _ _ _ hr' => ?_)⟩
      rw [hr] at hr'
      cases hr'

/-- A fault comes up in the last line of the running task that is listed. -/
theorem trace_at {line : Nat} (ht : m.Traced host first n calls) (hf : m.FaultsAt m' line) :
    m'.task.trace = traceOf m'.task.module line calls := by
  cases hf with
  | @instruction op k hr hm hfr _ =>
    have hs : Stacked host first m.task.module m.outer (m.frame.moved line k :: m.task.frames.callers) calls :=
      ht.stacked.head rfl
    rw [Task.trace, hfr, hm]
    exact hs.entries
  | delivery _ hc _ htask himports hl =>
    rw [(ht.calls_nil hc).1, htask, himports.toInBody.trace, hl]

end Traced

end Machine

end

end MatchLang
