import MatchLang.Proofs.Lowering.Numbers
import MatchLang.Proofs.Machine.Inversion
import MatchLang.Proofs.Store.Beyond

/-! The frames of a run, those of the tasks that wait included. A step moves the running frame on in the code of its
function, or begins a frame at the start of one, in a scope of its own. It writes to one slot at most, which the
instruction names, and to that in the running scope. -/

namespace MatchLang

/-- Code that saves to a slot itself, and not only in a function that it makes. -/
def Code.Saves (c : Code) (slot : Nat) : Prop :=
  ∃ i ∈ c.instrs, i.op.saved? = some slot

/-- The slot that a frame saves to next. -/
def Frame.saved? (f : Frame) : Option Nat :=
  f.rest.head?.bind (·.op.saved?)

/-- A frame is at some instruction of its function, or past the last. -/
def Frame.InCode (f : Frame) : Prop :=
  f.rest <:+ f.closure.code.instrs

/-- A frame at the start of its function, in a scope that the store `τ` has and `σ` has not. -/
structure Frame.Begun (σ τ : Store) (f : Frame) : Prop where
  new : σ.scopes.size ≤ f.scope
  there : f.scope < τ.scopes.size
  rest : f.rest = f.closure.code.instrs

/-- The frames below the running one, of the same task and of those that wait. -/
def Machine.below (m : Machine) : List Frame :=
  m.task.frames.callers ++ m.waiting.flatMap (·.task.frames.toList)

/-- All frames, innermost first. -/
def Machine.stack (m : Machine) : List Frame :=
  m.frame :: m.below

/-- The frames that go on. -/
def Transition.stack : Transition → List Frame
  | .running m => m.stack
  | .finished _ _ => []
  | .raised _ _ => []

/-- A function whose scope is there and whose slots have been given out. -/
structure Store.Admits (σ : Store) (c : Closure) : Prop where
  scope : c.scope < σ.scopes.size
  slots : c.code.EverySlot (·.id < σ.nextSlot)

/-- A function that the next instruction may begin: the running one again, or one that it calls. -/
inductive Machine.Invokes (m : Machine) (c : Closure) : Prop where
  | restarts {line argc k} : m.frame.rest = .mk line (.tailCall argc) :: k → c = m.frame.closure → Invokes m c
  | enters {line op k os} : m.frame.rest = .mk line op :: k → op.action m.setting line k = .enter c os → Invokes m c

/-- The code of a module's text. -/
def Code.Loaded (c : Code) : Prop :=
  ∃ file source n next, compileModule file source n = .ok (c, next)

/-- A module that begins on the way from one store to another, in a scope with none around. -/
structure Frame.Loads (σ τ : Store) (f : Frame) : Prop where
  begun : f.Begun σ τ
  admits : τ.Admits f.closure
  outermost : τ.parent? f.scope = none
  text : f.closure.code.Loaded

/-- How a frame comes to be there after a step that leads to the store `σ`. -/
inductive Machine.Yields (m : Machine) (σ : Store) (f : Frame) : Prop where
  | stays : f ∈ m.stack → Yields m σ f
  | goes {i k line is} : m.frame.rest = i :: k → m.setting.Follows k is → f = m.frame.moved line is →
    Yields m σ f
  | begins : f.Begun m.store σ → m.Invokes f.closure → Yields m σ f
  | loads : f.Loads m.store σ → Yields m σ f

/-- A store that comes from another: nothing in the scopes is written but a slot of one scope, if there is one to
save to, and new scopes lie in some only. -/
structure Store.After (scope : Nat) (saved : Option Nat) (around : Nat → Prop) (σ τ : Store) : Prop where
  size : σ.scopes.size ≤ τ.scopes.size
  slots : ∀ t n, (t = scope → saved ≠ some n) → τ.slot? t n = σ.slot? t n
  parents : ∀ t, t < σ.scopes.size → τ.parent? t = σ.parent? t
  fresh : ∀ t p, σ.scopes.size ≤ t → τ.parent? t = some p → around p
  nextSlot : σ.nextSlot ≤ τ.nextSlot

namespace Store

variable {t p : Nat} {σ : Store}

theorem parent?_size (ht : σ.scopes.size ≤ t) : σ.parent? t = none := by
  unfold parent?
  rw [Array.getElem?_eq_none ht]
  rfl

namespace After

variable {scope slot : Nat} {saved : Option Nat} {around : Nat → Prop} {τ υ : Store}

theorem of_scopes (hs : τ.scopes = σ.scopes) (hn : σ.nextSlot ≤ τ.nextSlot) : σ.After scope saved around τ where
  size := Nat.le_of_eq (congrArg Array.size hs).symm
  slots t n _ := by rw [slot?, hs, ← slot?]
  parents t _ := by rw [parent?, hs, ← parent?]
  fresh t p ht hp := by
    rw [parent?_size (hs ▸ ht)] at hp
    cases hp
  nextSlot := hn

theorem refl (σ : Store) : σ.After scope saved around σ :=
  of_scopes rfl (Nat.le_refl _)

theorem trans (h : σ.After scope saved around τ) (h' : τ.After scope saved around υ) :
    σ.After scope saved around υ where
  size := Nat.le_trans h.size h'.size
  slots t n hn := (h'.slots t n hn).trans (h.slots t n hn)
  parents t ht := (h'.parents t (Nat.lt_of_lt_of_le ht h.size)).trans (h.parents t ht)
  fresh t p ht hp := by
    by_cases hlt : t < τ.scopes.size
    · exact h.fresh t p ht ((h'.parents t hlt).symm.trans hp)
    · exact h'.fresh t p (Nat.le_of_not_lt hlt) hp
  nextSlot := Nat.le_trans h.nextSlot h'.nextSlot

theorem newScope {parent : Option Nat} (hp : ∀ p, parent = some p → around p) :
    σ.After scope saved around (σ.newScope parent).2 where
  size := by
    rw [size_newScope]
    exact Nat.le_succ _
  slots _ _ _ := slot?_newScope
  parents _ ht := parent?_newScope ht
  fresh t p ht ht' := by
    rcases Nat.eq_or_lt_of_le ht with rfl | hlt
    · rw [parent?_newScope_self] at ht'
      exact hp p ht'
    · have hle : (σ.newScope parent).2.scopes.size ≤ t := by
        rw [size_newScope]
        exact hlt
      rw [parent?_size hle] at ht'
      cases ht'
  nextSlot := Nat.le_refl _

theorem save {v : Value} (h : saved = some slot) : σ.After scope saved around (σ.save scope slot v) where
  size := Nat.le_of_eq size_save.symm
  slots t n hn := by
    rw [slot?_save, if_neg]
    rintro ⟨ht, rfl, -⟩
    exact hn ht h
  parents _ _ := parent?_save
  fresh t p ht hp := by
    rw [parent?_save, parent?_size ht] at hp
    cases hp
  nextSlot := Nat.le_refl _

/-- What is written nowhere may as well be written to any slot. -/
theorem of_none {other : Nat} (h : σ.After other none around τ) : σ.After scope saved around τ :=
  ⟨h.size, fun t n _ => h.slots t n fun _ => nofun, h.parents, h.fresh, h.nextSlot⟩

end After

end Store

section

variable {host : Host} {m : Machine} {c : Code} {f : Frame} {t : Transition} {file : String} {delivery : Delivery}
  {scope : Nat} {saved : Option Nat} {around : Nat → Prop} {σ τ : Store}

theorem Code.from?_suffix {label : Nat} {is : List Instr} (h : c.from? label = some is) : is <:+ c.instrs := by
  obtain ⟨i, -, rfl⟩ := Option.map_eq_some_iff.mp h
  exact List.drop_suffix i _

theorem Frames.toList_pop? {fs gs : Frames} (h : fs.pop? = some gs) : gs.toList = fs.callers := by
  obtain ⟨current, callers, depth, hd⟩ := fs
  cases callers with
  | nil => cases h
  | cons g callers =>
    cases h
    rfl

theorem compileModule_between {source : String} {n next : Nat} (h : compileModule file source n = .ok (c, next)) :
    n ≤ next ∧ c.EverySlot (·.Between n next) := by
  obtain ⟨p, -, hc⟩ := compileModule_eq_ok h
  exact compile_between hc

theorem Store.Admits.mono {d : Closure} (h : σ.Admits d) (hs : σ.scopes.size ≤ τ.scopes.size)
    (hn : σ.nextSlot ≤ τ.nextSlot) : τ.Admits d :=
  ⟨Nat.lt_of_lt_of_le h.scope hs, Code.EverySlot.mono (fun _ hlt => Nat.lt_of_lt_of_le hlt hn) _ h.slots⟩

theorem Store.After.admits {d : Closure} (h : σ.After scope saved around τ) (hd : σ.Admits d) : τ.Admits d :=
  hd.mono h.size h.nextSlot

theorem Setting.Saves.after {s : Setting} (h : s.Saves saved σ) : s.store.After s.scope saved around σ := by
  obtain ⟨hn, he | ⟨slot, v, hsaved, he⟩⟩ := h
  · exact .of_scopes he (Nat.le_of_eq hn.symm)
  · have hs : s.store.After s.scope saved around (s.store.save s.scope slot v) := .save hsaved
    exact hs.trans (.of_scopes he (Nat.le_of_eq hn.symm))

theorem Frame.Begun.inCode (h : f.Begun σ τ) : f.InCode :=
  ⟨[], h.rest⟩

theorem Frame.InCode.saves (h : f.InCode) {n : Nat} (hn : f.saved? = some n) : f.closure.code.Saves n := by
  obtain ⟨i, hi, hs⟩ := Option.bind_eq_some_iff.mp hn
  exact ⟨i, h.subset (List.mem_of_head? hi), hs⟩

/-- The slots that code saves to are among all of its slots. -/
theorem Code.EverySlot.saves {P : Slot → Prop} (h : c.EverySlot P) {n : Nat} (hn : c.Saves n) :
    ∃ slot, P slot ∧ slot.id = n := by
  obtain ⟨⟨line, op⟩, hi, hs⟩ := hn
  have hop : op.EverySlot P := Code.everySlot_iff.mp h _ hi
  cases op with
  | saveLocal slot => exact ⟨slot, hop, Option.some.inj hs⟩
  | _ => cases hs

namespace Machine

theorem Yields.inCode (hy : m.Yields σ f) (hm : ∀ g ∈ m.stack, g.InCode) : f.InCode := by
  cases hy with
  | stays hf => exact hm f hf
  | @goes i k line is hr hfollows hf =>
    have hin : m.frame.InCode := hm m.frame List.mem_cons_self
    subst hf
    show is <:+ m.frame.closure.code.instrs
    rcases hfollows with rfl | ⟨label, hl⟩
    · rw [Frame.InCode, hr] at hin
      exact (List.suffix_cons i is).trans hin
    · exact Code.from?_suffix hl
  | begins hb _ => exact hb.inCode
  | loads hl => exact hl.begun.inCode

/-- A frame that is not new belongs to a function and a scope that was there. -/
theorem Yields.base (hy : m.Yields σ f) :
    (∃ g ∈ m.stack, g.closure = f.closure ∧ g.scope = f.scope) ∨ f.Begun m.store σ := by
  cases hy with
  | stays hf => exact .inl ⟨f, hf, rfl, rfl⟩
  | goes _ _ hf =>
    subst hf
    exact .inl ⟨m.frame, List.mem_cons_self, rfl, rfl⟩
  | begins hb _ => exact .inr hb
  | loads hl => exact .inr hl.begun

theorem deliver_after {source : Nat} : m.store.After scope saved around (m.deliver source delivery).store := by
  rw [deliver_eq, orRaise_store]
  exact .of_scopes rfl (Nat.le_refl _)

theorem await_after {code : Code} {next : Nat} (h : m.store.nextSlot ≤ next) :
    m.store.After scope saved around (m.await delivery file code next).store :=
  have hs : m.store.After scope saved around { m.store with nextSlot := next } := .of_scopes rfl h
  have hr : Store.After scope saved around { m.store with nextSlot := next }
      (Store.newSeededRoot { m.store with nextSlot := next }).2 := .of_scopes rfl (Nat.le_refl _)
  (hs.trans hr).trans (.newScope nofun)

theorem Loaded.after (hl : m.Loaded host file delivery t) : m.store.After scope saved around t.store := by
  induction hl with
  | cached _ => exact deliver_after
  | faults _ => exact .refl _
  | begins _ _ hc => exact await_after ((compileModule_between hc).1)
  | equips _ _ _ _ hc _ ih => exact (await_after ((compileModule_between hc).1)).trans ih

theorem stack_deliver {source : Nat} (hf : f ∈ (m.deliver source delivery).stack) : f ∈ m.stack := by
  rw [deliver_eq] at hf
  generalize (delivery.merge _ _).2 = fault at hf
  cases fault with
  | none => exact hf
  | some g => cases hf

theorem stack_await {code : Code} {source : String} {next : Nat}
    (hc : compileModule file source m.store.nextSlot = .ok (code, next))
    (hf : f ∈ (m.await delivery file code next).stack) :
    f ∈ m.stack ∨ f.Loads m.store (m.await delivery file code next).store := by
  rcases List.mem_cons.mp hf with rfl | hf
  · have hsize : (m.await delivery file code next).store.scopes.size = m.store.scopes.size + 1 :=
      Array.size_push _
    have hlt : m.store.scopes.size < (m.await delivery file code next).store.scopes.size := by omega
    refine .inr ⟨⟨Nat.le_refl _, hlt, rfl⟩, ⟨hlt, ?_⟩, Store.parent?_newScope_self, _, _, _, _, hc⟩
    exact Code.EverySlot.mono (fun _ hb => hb.2) code (compileModule_between hc).2
  · exact .inl hf

/-- The frames that an import adds are those of modules that begin. -/
theorem Loaded.stack (hl : m.Loaded host file delivery t) (hf : f ∈ t.stack) :
    f ∈ m.stack ∨ f.Loads m.store t.store := by
  induction hl with
  | cached _ => exact .inl (stack_deliver hf)
  | faults _ => cases hf
  | begins _ _ hc => exact stack_await hc hf
  | @equips m file delivery source code next t _ _ _ _ hc hl ih =>
    have hsize : (m.await delivery file code next).store.scopes.size = m.store.scopes.size + 1 :=
      Array.size_push _
    have hafter : Store.After 0 none (fun _ => False) (m.await delivery file code next).store t.store := hl.after
    rcases ih hf with hf | ⟨hb, ha, ho, ht⟩
    · rcases stack_await hc hf with hf | ⟨hb, ha, ho, ht⟩
      · exact .inl hf
      · refine .inr ⟨⟨hb.new, Nat.lt_of_lt_of_le hb.there hafter.size, hb.rest⟩, hafter.admits ha, ?_, ht⟩
        exact (hafter.parents _ hb.there).trans ho
    · have hnew := hb.new
      exact .inr ⟨⟨by omega, hb.there, hb.rest⟩, ha, ho, ht⟩

theorem stack_resume {i : Instr} {k is : List Instr} {os : List Value} {line : Nat}
    (hr : m.frame.rest = i :: k) (hfollows : m.setting.Follows k is)
    (hf : f ∈ (m.resume σ os line is).stack) : m.Yields τ f := by
  rcases List.mem_cons.mp hf with rfl | hf
  · exact .goes hr hfollows rfl
  · exact .stays (List.mem_cons_of_mem _ hf)

theorem step_stack (hf : f ∈ (m.step host).stack) : m.Yields (m.step host).store f := by
  have hpush : ∀ {parent : Option Nat}, m.store.scopes.size < (m.store.newScope parent).2.scopes.size :=
    Nat.lt_of_lt_of_eq (Nat.lt_succ_self _) Store.size_newScope.symm
  have hs := m.stepped host
  generalize m.step host = t at hs hf
  cases hs with
  | goes hr _ hfollows => exact stack_resume hr hfollows hf
  | enters hr ha _ =>
    rcases List.mem_cons.mp hf with rfl | hf
    · exact .begins ⟨Nat.le_refl _, hpush, rfl⟩ (.enters hr ha)
    · rcases List.mem_cons.mp hf with rfl | hf
      · exact .goes hr (.inl rfl) rfl
      · exact .stays (List.mem_cons_of_mem _ hf)
  | restarts hr =>
    rcases List.mem_cons.mp hf with rfl | hf
    · exact .begins ⟨Nat.le_refl _, hpush, rfl⟩ (.restarts hr rfl)
    · exact .stays (List.mem_cons_of_mem _ hf)
  | @loads line op k file delivery hr _ =>
    have hl : (m.resume m.store m.operands line k).Loaded host file delivery _ := load_loaded
    rcases hl.stack hf with hf | hf
    · exact stack_resume hr (.inl rfl) hf
    · exact .loads hf
  | faults _ _ => cases hf
  | @returns frames _ hp =>
    refine .stays (List.mem_cons_of_mem _ ?_)
    have hfr : frames.toList = m.task.frames.callers := Frames.toList_pop? hp
    unfold below
    rw [← hfr]
    exact hf
  | ends _ _ =>
    unfold finish at hf
    cases hw : m.waiting with
    | nil =>
      rw [hw] at hf
      cases hf
    | cons w ws =>
      rw [hw] at hf
      refine .stays (List.mem_cons_of_mem _ (List.mem_append_right _ ?_))
      rw [hw]
      exact stack_deliver hf

/-- A scope that a function which begins lies in. -/
def Around (m : Machine) (p : Nat) : Prop :=
  ∃ c, m.Invokes c ∧ c.scope = p

/-- What an instruction writes, and where. -/
theorem act_after {line : Nat} {op : Op} {k : List Instr} (hr : m.frame.rest = .mk line op :: k) :
    m.store.After m.frame.scope op.saved? m.Around (m.act host line k (op.action m.setting line k)).store := by
  by_cases hop : ∃ argc, op = .tailCall argc
  · obtain ⟨argc, rfl⟩ := hop
    have hagain : m.Around m.frame.closure.scope := ⟨m.frame.closure, .restarts hr rfl, rfl⟩
    by_cases ha : m.setting.closure.arity = argc
    · have hact : Op.action m.setting line k (.tailCall argc) = .restart := if_pos ha
      rw [hact]
      exact .newScope fun p hp => Option.some.inj hp ▸ hagain
    · have hact : Op.action m.setting line k (.tailCall argc) = m.setting.refuse .partialTailCall := if_neg ha
      rw [hact]
      exact .refl _
  · have hstays : (op.action m.setting line k).Stays m.setting op.saved? := Op.action_stays (not_exists.mp hop)
    cases ha : op.action m.setting line k with
    | proceed σ os is =>
      rw [ha] at hstays
      exact hstays.after
    | enter c os =>
      have hpush : m.store.After m.frame.scope op.saved? m.Around (m.store.newScope (some c.scope)).2 :=
        .newScope fun p hp => ⟨c, .enters hr ha, Option.some.inj hp⟩
      show m.store.After _ _ _ ((m.resume m.store os line k).enter host c).store
      unfold enter
      split
      · split
        · exact .refl _
        · exact hpush
      · exact hpush
    | restart =>
      rw [ha] at hstays
      exact hstays.elim
    | load file delivery =>
      have hl : (m.resume m.store m.operands line k).Loaded host file delivery _ := load_loaded
      exact hl.after
    | fail σ os f =>
      rw [ha] at hstays
      exact .of_none hstays.after

theorem step_after : m.store.After m.frame.scope m.frame.saved? m.Around (m.step host).store := by
  cases hr : m.frame.rest with
  | cons i k =>
    obtain ⟨line, op⟩ := i
    rw [step_eq_act hr, Frame.saved?, hr]
    exact act_after hr
  | nil =>
    cases hc : m.task.frames.callers with
    | cons g gs =>
      obtain ⟨frames, hp, -⟩ := Frames.pop?_cons (f := m.frame) (congrArg (m.frame :: ·) hc)
      rw [step_pop hr hp]
      exact .refl _
    | nil =>
      rw [step_nil hr hc]
      unfold finish
      cases m.waiting with
      | nil => exact .refl _
      | cons w ws =>
        let next : Machine :=
          { store := m.store.remember m.task.module m.task.root, task := w.task, waiting := ws }
        have hs : m.store.After m.frame.scope m.frame.saved? m.Around
            (m.store.remember m.task.module m.task.root) := .of_scopes rfl (Nat.le_refl _)
        exact hs.trans (deliver_after (m := next))

end Machine

end

end MatchLang
