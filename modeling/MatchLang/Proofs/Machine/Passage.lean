import Mathlib.Logic.Relation
import MatchLang.Proofs.Machine.Frames
import MatchLang.Proofs.Machine.Walk

/-! Passing the end of a stretch. While an expression is evaluated its activation stays where it is, the
root namespaces stay as they are, and of the slots only those change that the code may save to. A run
that gets further than the stretch has come by its end. -/

namespace MatchLang

/-- What a stretch of an expression leaves of the store: the roots, and the slots of the running scope
that it does not save to. -/
structure Store.Kept (scope : Nat) (saves : Nat → Prop) (σ τ : Store) : Prop where
  scopes : σ.scopes.size ≤ τ.scopes.size
  roots : τ.roots = σ.roots
  slots : ∀ n, ¬ saves n → τ.slot? scope n = σ.slot? scope n

namespace Store.Kept

variable {scope : Nat} {saves saves' : Nat → Prop} {σ τ υ : Store}

theorem refl (σ : Store) : Kept scope saves σ σ :=
  ⟨Nat.le_refl _, rfl, fun _ _ => rfl⟩

theorem trans (h : Kept scope saves σ τ) (h' : Kept scope saves τ υ) : Kept scope saves σ υ :=
  ⟨Nat.le_trans h.scopes h'.scopes, h'.roots.trans h.roots,
    fun n hn => (h'.slots n hn).trans (h.slots n hn)⟩

theorem mono (h : Kept scope saves σ τ) (hs : ∀ n, saves n → saves' n) : Kept scope saves' σ τ :=
  ⟨h.scopes, h.roots, fun n hn => h.slots n fun hs' => hn (hs n hs')⟩

theorem save {slot : Nat} {v : Value} (h : saves slot) : Kept scope saves σ (σ.save scope slot v) where
  scopes := Nat.le_of_eq size_save.symm
  roots := rfl
  slots n hn := by
    rw [slot?_save, if_neg]
    rintro ⟨_, rfl, _⟩
    exact hn h

end Store.Kept

/-- A step of balanced frames whose last has the given scope. -/
theorem Store.Steps.kept {s : Stretch} {b : Base} {n : Nat} {σ τ : Store}
    (h : σ.Steps s b n τ) (hr : τ.roots = σ.roots) (hb : b.scope < n)
    (hn : n ≤ σ.scopes.size) : Store.Kept b.scope s.saves σ τ := by
  obtain ⟨scope, saves, ho, hscope⟩ := h
  refine ⟨ho.scopes, hr, fun i hi => ho.slots b.scope i (Nat.lt_of_lt_of_le hb hn) fun he => ?_⟩
  rcases hscope with hle | ⟨rfl, _⟩
  · omega
  · exact hi

/-- A well-formed machine in the middle of a run. -/
structure Machine.Ready (κ : Registry) (m : Machine) : Prop where
  store : m.store.Sound κ
  scope : m.frame.scope < m.store.scopes.size
  root : m.task.root < m.store.roots.size

/-- Further on in the activation that `m` is in, with other operands at other instructions. -/
structure Machine.Resumed (κ : Registry) (saves : Nat → Prop) (m : Machine) (os : List Value)
    (k : List Instr) (m₁ : Machine) : Prop where
  place : ∃ line, m₁ = m.resume m₁.store os line k
  store : m₁.store.Sound κ
  kept : m.store.Kept m.frame.scope saves m₁.store

namespace Machine.Resumed

variable {κ : Registry} {saves saves' : Nat → Prop} {m m₁ m₂ : Machine} {os os' : List Value}
  {k k' : List Instr}

theorem operands (h : m.Resumed κ saves os k m₁) : m₁.operands = os := by
  obtain ⟨line, hp⟩ := h.place
  rw [hp]
  rfl

theorem rest (h : m.Resumed κ saves os k m₁) : m₁.frame.rest = k := by
  obtain ⟨line, hp⟩ := h.place
  rw [hp]
  rfl

theorem scope (h : m.Resumed κ saves os k m₁) : m₁.frame.scope = m.frame.scope := by
  obtain ⟨line, hp⟩ := h.place
  rw [hp]
  rfl

theorem closure (h : m.Resumed κ saves os k m₁) : m₁.frame.closure = m.frame.closure := by
  obtain ⟨line, hp⟩ := h.place
  rw [hp]
  rfl

theorem callers (h : m.Resumed κ saves os k m₁) :
    m₁.task.frames.callers = m.task.frames.callers := by
  obtain ⟨line, hp⟩ := h.place
  rw [hp]
  rfl

theorem home (h : m.Resumed κ saves os k m₁) : m₁.home = m.home := by
  rw [Machine.home, h.closure, Store.root, h.kept.roots]
  rfl

theorem ready (h : m.Resumed κ saves os k m₁) (hm : m.Ready κ) : m₁.Ready κ := by
  refine ⟨h.store, ?_, ?_⟩
  · rw [h.scope]
    exact Nat.lt_of_lt_of_le hm.scope h.kept.scopes
  · obtain ⟨line, hp⟩ := h.place
    rw [h.kept.roots, hp]
    exact hm.root

theorem trans (h : m.Resumed κ saves os k m₁) (h' : m₁.Resumed κ saves os' k' m₂) :
    m.Resumed κ saves os' k' m₂ := by
  obtain ⟨line, hp⟩ := h.place
  obtain ⟨line', hp'⟩ := h'.place
  refine ⟨⟨line', ?_⟩, h'.store, h.kept.trans (h.scope ▸ h'.kept)⟩
  rw [hp', hp]
  rfl

theorem mono (h : m.Resumed κ saves os k m₁) (hs : ∀ n, saves n → saves' n) :
    m.Resumed κ saves' os k m₁ :=
  ⟨h.place, h.store, h.kept.mono hs⟩

end Machine.Resumed

/-- The machine `m'` is in the activation of `m`, with at most `n` instructions left. -/
structure Machine.Past (n : Nat) (m m' : Machine) : Prop where
  callers : m'.task.frames.callers = m.task.frames.callers
  rest : m'.frame.rest.length ≤ n

section

variable {κ : Registry} {host : Host} {s : Stretch} {m m₁ m' : Machine} {own below : List Value}

theorem Machine.Past.of_resumed {n : Nat} {saves : Nat → Prop} {os : List Value} {k : List Instr}
    (h : m.Past n m') (hr : m.Resumed κ saves os k m₁) : m₁.Past n m' :=
  ⟨h.callers.trans hr.callers.symm, h.rest⟩

theorem Machine.Past.mono {i n : Nat} (h : m.Past i m') (hi : i ≤ n) : m.Past n m' :=
  ⟨h.callers, Nat.le_trans h.rest hi⟩

/-- On the way to `m'` the machine `m` comes to `m₁`, further on in its activation. -/
structure Machine.Via (host : Host) (κ : Registry) (saves : Nat → Prop) (m m' : Machine)
    (os : List Value) (k : List Instr) (m₁ : Machine) : Prop where
  before : m.Reaches host m₁
  after : m₁.Reaches host m'
  resumed : m.Resumed κ saves os k m₁

namespace Machine.Via

variable {saves saves' : Nat → Prop} {m₂ : Machine} {os os' : List Value} {k k' : List Instr}

theorem trans (h : m.Via host κ saves m' os k m₁) (h' : m₁.Via host κ saves m' os' k' m₂) :
    m.Via host κ saves m' os' k' m₂ :=
  ⟨h.before.trans h'.before, h'.after, h.resumed.trans h'.resumed⟩

theorem mono (h : m.Via host κ saves m' os k m₁) (hs : ∀ n, saves n → saves' n) :
    m.Via host κ saves' m' os k m₁ :=
  ⟨h.before, h.after, h.resumed.mono hs⟩

end Machine.Via

/-- Some steps lead from one machine to another, none of which changes a root. -/
def Machine.Quiet (host : Host) : Machine → Machine → Prop :=
  Relation.ReflTransGen fun m m' => m.step host = .running m' ∧ m'.store.roots = m.store.roots

theorem Machine.Quiet.reaches (h : m.Quiet host m₁) : m.Reaches host m₁ := by
  induction h with
  | refl => exact .refl m
  | tail _ hs ih => exact ih.trans (.of_step hs.1)

theorem Machine.Quiet.roots (h : m.Quiet host m₁) : m₁.store.roots = m.store.roots := by
  induction h with
  | refl => rfl
  | tail _ hs ih => exact hs.2.trans ih

/-- A machine that has not got as far as another makes a step towards it. -/
theorem Machine.Reaches.first_step {i : Instr} {k : List Instr} (hw : m.Reaches host m')
    (hr : m.frame.rest = i :: k) (hp : m.Past k.length m') :
    ∃ m₁, m.step host = .running m₁ ∧ m₁.Reaches host m' := by
  obtain ⟨n, hw⟩ := hw
  cases n with
  | zero =>
    cases hw
    have hle := hp.rest
    rw [hr] at hle
    exact absurd hle (Nat.not_succ_le_self _)
  | succ n =>
    cases hs : m.step host with
    | running m₁ =>
      simp only [walk, hs] at hw
      exact ⟨m₁, rfl, n, hw⟩
    | finished τ v => simp [walk, hs] at hw
    | raised m₁ f => simp [walk, hs] at hw

/-- What is above the callers of the last frame is that frame alone. -/
theorem Upper.single {σ : Store} {ps : List (List String)} {b : Base} {n : Nat}
    {callers above : List Frame} {t : Task} (hu : Upper κ σ s ps b n callers below t above own)
    (hc : t.frames.callers = callers) : above = [t.frames.current] := by
  have hf : above ++ callers = [t.frames.current] ++ callers := hc ▸ hu.frames.symm
  exact List.append_cancel_right hf

/-- A machine in the activation of another is the other one, resumed. -/
theorem Machine.eq_resume {os : List Value} {k : List Instr} (hmod : m₁.task.module = m.task.module)
    (hroot : m₁.task.root = m.task.root) (hwait : m₁.waiting = m.waiting) (ho : m₁.operands = os)
    (hc : m₁.task.frames.callers = m.task.frames.callers)
    (hf : Base.of m₁.frame = Base.of m.frame) (hr : m₁.frame.rest = k) :
    m₁ = m.resume m₁.store os m₁.frame.line k := by
  have hframes : m₁.task.frames =
      m.task.frames.update fun f => { f with line := m₁.frame.line, rest := k } := by
    refine Frames.eq_of_toList ?_
    obtain ⟨hcl, hsc⟩ := Base.mk.inj hf
    have hcur : m₁.frame = { m.frame with line := m₁.frame.line, rest := k } := calc
      m₁.frame = ⟨m₁.frame.closure, m₁.frame.scope, m₁.frame.line, m₁.frame.rest⟩ := rfl
      _ = ⟨m.frame.closure, m.frame.scope, m₁.frame.line, k⟩ := by rw [hcl, hsc, hr]
    rw [Frames.toList, hc]
    exact congrArg (· :: m.task.frames.callers) hcur
  obtain ⟨σ₁, ⟨module₁, root₁, os₁, fs₁⟩, ws₁⟩ := m₁
  obtain rfl : module₁ = m.task.module := hmod
  obtain rfl : root₁ = m.task.root := hroot
  obtain rfl : ws₁ = m.waiting := hwait
  obtain rfl : os₁ = os := ho
  exact congrArg (fun fs => (⟨σ₁, ⟨m.task.module, m.task.root, os₁, fs⟩, m.waiting⟩ : Machine))
    hframes

/-- A run that gets to the end of a stretch of an expression, or past it, comes by its end with as many
operands as the stretch should leave, and without a change of any root. -/
theorem Machine.Ready.passes_quietly (hm : m.Ready κ) (hu : s.unit = m.frame.closure.code)
    (hr : s.restarts = false) (hb : Balanced s own.length [] m.frame.rest)
    (ho : m.operands = own ++ below) (hs : SoundAll κ Closure.Balanced own)
    (hw : m.Reaches host m') (hp : m.Past s.rest.length m') :
    ∃ own' m₁, m.Quiet host m₁ ∧ m₁.Reaches host m' ∧
      m.Resumed κ s.saves (own' ++ below) s.rest m₁ ∧ own'.length = s.height ∧
      SoundAll κ Closure.Balanced own' := by
  have hup : m.task.Upper κ m.store s [] (Base.of m.frame) m.store.scopes.size
      m.task.frames.callers below := by
    refine ⟨[m.frame], own, rfl, ho, hs, ⟨⟨hu, ?_, hb⟩, fun _ => rfl⟩, ?_, hm.root, nofun⟩
    · intro h
      rw [hr] at h
      cases h
    · intro f hf
      rw [List.mem_singleton] at hf
      subst hf
      exact hm.scope
  -- the walk goes on from `m₁` with the invariant until the end of the stretch is met
  suffices hwalk : ∀ n m₁, m.Quiet host m₁ → m₁.walk host n = some m' →
      m₁.task.Upper κ m₁.store s [] (Base.of m.frame) m.store.scopes.size
        m.task.frames.callers below → m₁.store.Sound κ →
      m.store.Kept m.frame.scope s.saves m₁.store → m₁.task.module = m.task.module →
      m₁.task.root = m.task.root → m₁.waiting = m.waiting →
      ∃ own' m₂, m.Quiet host m₂ ∧ m₂.Reaches host m' ∧
        m.Resumed κ s.saves (own' ++ below) s.rest m₂ ∧ own'.length = s.height ∧
        SoundAll κ Closure.Balanced own' by
    obtain ⟨n, hn⟩ := hw
    exact hwalk n m .refl hn hup hm.store (.refl _) rfl rfl rfl
  intro n
  induction n with
  | zero =>
    intro m₁ h₁ hn hup hσ hkept hmod hroot hwait
    cases hn
    obtain ⟨above, own', hup⟩ := hup
    have hone := hup.single hp.callers
    subst hone
    have hb' := hup.balanced.1.rest
    obtain ⟨hrest, hl⟩ := hb'.eq_of_length (Nat.le_antisymm hp.rest hb'.length_le)
    have hplace := Machine.eq_resume hmod hroot hwait hup.operands hp.callers (hup.balanced.2 hr)
      hrest
    exact ⟨own', m', h₁, .refl m', ⟨⟨_, hplace⟩, hσ, hkept⟩, hl, hup.sound⟩
  | succ n ih =>
    intro m₁ h₁ hn hup hσ hkept hmod hroot hwait
    rcases hup.advance host hσ hkept.scopes with ⟨hrest, hc, own', ho', hl⟩ | ha
    · obtain ⟨above, own'', hup⟩ := hup
      have hone := hup.single hc
      subst hone
      have howns : own'' ++ below = own' ++ below := hup.operands.symm.trans ho'
      obtain rfl := List.append_cancel_right howns
      have hplace := Machine.eq_resume hmod hroot hwait hup.operands hc (hup.balanced.2 hr) hrest
      exact ⟨own'', m₁, h₁, ⟨n + 1, hn⟩, ⟨⟨_, hplace⟩, hσ, hkept⟩, hl, hup.sound⟩
    · cases hst : m₁.step host with
      | finished τ v => simp [walk, hst] at hn
      | raised m₂ f => simp [walk, hst] at hn
      | running m₂ =>
        simp only [walk, hst] at hn
        rw [hst] at ha
        generalize ht : Transition.running m₂ = t at ha
        cases ha with
        | @running κ' qs m₃ _ hσ' hsteps hq hup' hmod' hroot' hwait' =>
          cases ht
          obtain ⟨rfl, rfl, hroots⟩ := hq rfl
          have hk := hsteps.kept hroots hm.scope hkept.scopes
          exact ih m₂ (h₁.tail ⟨hst, hroots⟩) hn hup' hσ' (hkept.trans hk) (hmod'.trans hmod)
            (hroot'.trans hroot) (hwait'.trans hwait)
        | loads hnil _ _ _ _ => exact absurd hnil List.not_mem_nil
        | raises _ _ _ => cases ht

theorem Machine.Ready.passes (hm : m.Ready κ) (hu : s.unit = m.frame.closure.code)
    (hr : s.restarts = false) (hb : Balanced s own.length [] m.frame.rest)
    (ho : m.operands = own ++ below) (hs : SoundAll κ Closure.Balanced own)
    (hw : m.Reaches host m') (hp : m.Past s.rest.length m') :
    ∃ own' m₁, m.Via host κ s.saves m' (own' ++ below) s.rest m₁ ∧ own'.length = s.height ∧
      SoundAll κ Closure.Balanced own' := by
  obtain ⟨own', m₁, hq, hafter, hres, hl, hs'⟩ := hm.passes_quietly hu hr hb ho hs hw hp
  exact ⟨own', m₁, ⟨hq.reaches, hafter, hres⟩, hl, hs'⟩

end

end MatchLang
