import Mathlib.Algebra.Ring.Nat
import MatchLang.Proofs.Machine.Preservation

/-! Calls that come to an end. A function that has been called runs in front of its caller, whose
operands it does not reach; when its frame is gone, one value stands in place of the callee and the
arguments. -/

namespace MatchLang

/-- The number of frames of all tasks. -/
def Machine.nesting (m : Machine) : Nat :=
  m.task.frames.depth + (m.waiting.map (·.task.frames.depth)).sum

/-- The call that the machine `m` is about to make has come to its end in `m'`: for the first time no
more frames are left than before. -/
def Machine.Returns (host : Host) (m m' : Machine) : Prop :=
  ∃ n, m.walk host (n + 1) = some m' ∧ m'.nesting ≤ m.nesting ∧
    ∀ j m₁, 0 < j → j ≤ n → m.walk host j = some m₁ → m.nesting < m₁.nesting

section

variable {κ : Registry} {host : Host} {σ : Store} {s : Stretch} {ps : List (List String)} {b : Base}
  {n h argc line : Nat} {k : List Instr} {m m₁ : Machine} {rest : List Value} {f : Frame}
  {fs : List Frame}

/-- The running frame is in a stretch that it runs to the end. -/
theorem FramesBalanced.head (hb : FramesBalanced s ps b n (f :: fs) h) (hs : s.rest = []) :
    ∃ s' ps' own, s'.rest = [] ∧ ps' ⊆ ps ∧ own ≤ h ∧ f.Within s' ps' own := by
  cases fs with
  | nil => exact ⟨s, ps, h, hs, List.Subset.refl ps, Nat.le_refl _, hb.1⟩
  | cons g fs =>
    obtain ⟨own, below, rfl, _, hf, _⟩ := hb
    exact ⟨_, [], own, rfl, List.nil_subset ps, Nat.le_add_right _ _, hf⟩

theorem Balanced.call_le (hb : Balanced s h ps (.mk line (.call argc) :: k)) (hs : s.rest = []) :
    argc + 1 ≤ h := by
  cases hb with
  | done hh hr =>
    rw [hs] at hr
    cases hr
  | call hb => omega

/-- Before a call the callee and the arguments are there. -/
theorem Task.Ok.call_operands {t : Task} (ht : t.Ok κ σ h)
    (hr : t.frames.current.rest = .mk line (.call argc) :: k) :
    ∃ callee args rest, t.operands = callee :: (args ++ rest) ∧ args.length = argc ∧
      callee.Ok κ ∧ SoundAll κ Closure.Balanced args := by
  obtain ⟨code, ps, b, above, own, hu⟩ := ht
  cases above with
  | nil => exact hu.balanced.elim
  | cons f fs =>
    have hf : t.frames.current = f := (List.cons.inj hu.frames).1
    obtain ⟨s', ps', i, hs, -, hi, hin⟩ := hu.balanced.head rfl
    have hb := hin.rest
    rw [← hf, hr] at hb
    have hle := hb.call_le hs
    obtain ⟨taken, rest, rfl, hl, -⟩ :=
      split_length (show own.length = (argc + 1) + (own.length - (argc + 1)) by omega)
    obtain ⟨callee, args, rfl⟩ := List.exists_cons_of_length_eq_add_one hl
    obtain ⟨⟨hc, ha⟩, -⟩ := soundAll_append.mp hu.sound
    refine ⟨callee, args, rest, ?_, Nat.succ.inj hl, hc, ha⟩
    rw [hu.operands, List.append_nil]
    rfl

/-- A function that `m` has called is running in `m₁`; `m` will go on at `k` with the operands
`rest`. -/
structure Machine.Inside (κ : Registry) (m : Machine) (rest : List Value) (line : Nat)
    (k : List Instr) (m₁ : Machine) : Prop where
  store : m₁.store.Sound κ
  frames : ∃ code b, m₁.task.Upper κ m₁.store (.body code) [] b 0
    ({ m.frame with line, rest := k } :: m.task.frames.callers) rest
  module : m₁.task.module = m.task.module
  root : m₁.task.root = m.task.root
  waiting : m₁.waiting = m.waiting

namespace Machine.Inside

theorem nesting_lt (hi : Inside κ m rest line k m₁) : m.nesting < m₁.nesting := by
  obtain ⟨code, b, above, own, hu⟩ := hi.frames
  have hl : m₁.task.frames.depth = above.length + (m.task.frames.callers.length + 1) := by
    rw [Frames.depth_eq_length, hu.frames, List.length_append, List.length_cons]
  have ha : 0 < above.length := by
    cases above with
    | nil => exact hu.balanced.elim
    | cons f fs => exact Nat.succ_pos _
  have hm := m.task.frames.depth_eq
  rw [nesting, nesting, hi.waiting]
  omega

/-- A function that has been called returns, stays inside, or meets a fault. -/
theorem step (host : Host) (hi : Inside κ m rest line k m₁) :
    (∃ v, m₁.step host = .running (m.resume m₁.store (v :: rest) line k)) ∨
      (∃ m₂, m₁.step host = .running m₂ ∧ Inside κ m rest line k m₂) ∨
      ∃ m₂ f, m₁.step host = .raised m₂ f := by
  obtain ⟨code, b, hu⟩ := hi.frames
  rcases hu.advance host hi.store (Nat.zero_le _) with ⟨hr, hc, own, ho, hl⟩ | ha
  · left
    obtain ⟨v, rfl⟩ := List.length_eq_one_iff.mp hl
    have hr : m₁.frame.rest = [] := hr
    have hframes : m₁.task.frames.toList =
        m₁.frame :: { m.frame with line, rest := k } :: m.task.frames.callers :=
      congrArg (m₁.frame :: ·) hc
    obtain ⟨frames, hp, hfs⟩ := Frames.pop?_cons hframes
    have hf : frames = m.task.frames.update fun f => { f with line, rest := k } :=
      Frames.eq_of_toList hfs
    have hs : m₁.step host = .running (m₁.withFrames frames) := step_pop hr hp
    refine ⟨v, ?_⟩
    obtain ⟨σ₁, ⟨module₁, root₁, os₁, fs₁⟩, ws₁⟩ := m₁
    obtain rfl : module₁ = m.task.module := hi.module
    obtain rfl : root₁ = m.task.root := hi.root
    obtain rfl : os₁ = v :: rest := ho
    obtain rfl : ws₁ = m.waiting := hi.waiting
    rw [hs, hf]
    rfl
  · right
    generalize m₁.step host = t at ha
    cases ha with
    | @running κ' qs m' _ hs _ hq hup hmod hroot hw =>
      obtain ⟨rfl, rfl, _⟩ := hq rfl
      exact .inl ⟨m', rfl, hs, ⟨code, b, hup⟩, hmod.trans hi.module, hroot.trans hi.root,
        hw.trans hi.waiting⟩
    | loads hp _ _ _ _ => exact absurd hp List.not_mem_nil
    | raises _ _ _ => exact .inr ⟨_, _, rfl⟩

/-- When the frames of the call are gone for the first time, the caller goes on with one value more. -/
theorem returns {m' : Machine} (hi : Inside κ m rest line k m₁)
    (hw : m₁.walk host (n + 1) = some m') (hn : m'.nesting ≤ m.nesting)
    (hlt : ∀ j m₂, 0 < j → j ≤ n → m₁.walk host j = some m₂ → m.nesting < m₂.nesting) :
    ∃ v, m' = m.resume m'.store (v :: rest) line k := by
  induction n generalizing m₁ with
  | zero =>
    have hs := walk_one.mp hw
    rcases hi.step host with ⟨v, hv⟩ | ⟨m₂, hs₂, hi₂⟩ | ⟨m₂, f, hr⟩
    · rw [hs] at hv
      cases hv
      exact ⟨v, rfl⟩
    · rw [hs] at hs₂
      cases hs₂
      have := hi₂.nesting_lt
      omega
    · rw [hs] at hr
      cases hr
  | succ n ih =>
    rcases hi.step host with ⟨v, hv⟩ | ⟨m₂, hs₂, hi₂⟩ | ⟨m₂, f, hr⟩
    · have := hlt 1 _ (Nat.succ_pos _) (Nat.succ_pos _) (walk_one.mpr hv)
      exact absurd this (Nat.lt_irrefl _)
    · refine ih hi₂ ?_ fun j m₃ hj hle h₃ => ?_
      · simpa only [walk, hs₂] using hw
      · exact hlt (j + 1) m₃ (Nat.succ_pos _) (Nat.succ_le_succ hle) (walk_of_step hs₂ h₃)
    · simp [walk, hr] at hw

end Machine.Inside

/-- A function with as many operands as it wants begins inside the call. -/
theorem Machine.Inside.enters {c : Closure} {cargs : List Value} (hσ : m.store.Sound κ)
    (hroot : m.task.root < m.store.roots.size) (hc : c.Balanced) (hl : cargs.length = c.arity)
    (hs : SoundAll κ Closure.Balanced cargs) :
    m.Inside κ rest line k ((m.resume m.store (cargs ++ rest) line k).pushFrame c) := by
  refine ⟨hσ.newScope, ⟨c.code, ⟨c, m.store.scopes.size⟩,
    [{ closure := c, scope := m.store.scopes.size, line := c.line, rest := c.code.instrs }],
    cargs, rfl, rfl, hs, ⟨Frame.within_new hc hl, nofun⟩, ?_, hroot, nofun⟩, rfl, rfl, rfl⟩
  intro f hf
  rw [List.mem_singleton] at hf
  subst hf
  exact Nat.lt_of_lt_of_eq (Nat.lt_succ_self _) Store.size_newScope.symm

/-- A call that comes to its end has taken the callee and as many arguments as it names, and has left
one value; nothing else of the machine but the store has changed. -/
theorem Machine.Ok.returns {m' : Machine} (hm : m.Ok κ h)
    (hr : m.frame.rest = .mk line (.call argc) :: k) (hret : m.Returns host m') :
    ∃ callee args rest v, m.operands = callee :: (args ++ rest) ∧ args.length = argc ∧
      m' = m.resume m'.store (v :: rest) line k := by
  obtain ⟨h', ht, -⟩ := hm.tasks.running
  obtain ⟨callee, args, rest, ho, rfl, hc, ha⟩ := ht.call_operands hr
  obtain ⟨n, hw, hn, hlt⟩ := hret
  have hcall : Called κ m m.store rest line k (m.step host) := by
    rw [step_cons hr, show m.operands = _ from ho]
    exact call_called hm.store hc ha
  refine ⟨callee, args, rest, ?_⟩
  generalize hs : m.step host = t at hcall
  cases hcall with
  | @answers τ v hτ _ _ hv =>
    cases n with
    | zero =>
      rw [walk_one, hs] at hw
      cases hw
      exact ⟨v, ho, rfl, rfl⟩
    | succ n =>
      have := hlt 1 _ (Nat.succ_pos _) (Nat.succ_pos _) (walk_one.mpr hs)
      exact absurd this (Nat.lt_irrefl _)
  | @enters c cargs hcb hl hsa =>
    obtain ⟨_, _, _, _, _, hu⟩ := ht
    have hi : m.Inside κ rest line k
        ((m.resume m.store (cargs ++ rest) line k).pushFrame c) := .enters hm.store hu.root hcb hl hsa
    cases n with
    | zero =>
      rw [walk_one, hs] at hw
      cases hw
      exact absurd (Nat.lt_of_lt_of_le hi.nesting_lt hn) (Nat.lt_irrefl _)
    | succ n =>
      obtain ⟨v, hv⟩ := hi.returns (n := n) (by simpa only [walk, hs] using hw) hn
        fun j m₂ hj hle h₂ =>
          hlt (j + 1) m₂ (Nat.succ_pos _) (Nat.succ_le_succ hle) (walk_of_step hs h₂)
      exact ⟨v, ho, rfl, hv⟩
  | raises _ => simp [walk, hs] at hw

end

end MatchLang
