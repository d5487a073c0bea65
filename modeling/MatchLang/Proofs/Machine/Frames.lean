import MatchLang.Proofs.Machine.Onward

/-! The frames of a task over the operands: each frame has operands of its own in front of those of
its caller, which waits for one value more. A step changes the topmost frames of a part of them and
leaves alone what is below. -/

namespace MatchLang

/-- A frame in a stretch of balanced code, with operands of its own. -/
structure Frame.Within (f : Frame) (s : Stretch) (ps : List (List String)) (h : Nat) : Prop where
  unit : s.unit = f.closure.code
  restart : s.restarts = true → Balanced s f.closure.arity [] f.closure.code.instrs
  rest : Balanced s h ps f.rest

/-- The bottom of some frames: the scope and the function it stays in unless it is restarted. -/
structure Base where
  closure : Closure
  scope : Nat

def Base.of (f : Frame) : Base := ⟨f.closure, f.scope⟩

/-- Frames with their operands, the last one in the stretch `s`. The scopes of the others have numbers
from `n` on. -/
def FramesBalanced (s : Stretch) (ps : List (List String)) (b : Base) (n : Nat) :
    List Frame → Nat → Prop
  | [], _ => False
  | [f], h => f.Within s ps h ∧ (s.restarts = false → Base.of f = b)
  | f :: g :: fs, h =>
    ∃ own below, h = own + below ∧ n ≤ f.scope ∧ f.Within (.body f.closure.code) [] own ∧
      FramesBalanced s ps b n (g :: fs) (below + 1)

/-- The frames of a task in front of `callers` are balanced over its operands in front of `below`. -/
structure Upper (κ : Registry) (σ : Store) (s : Stretch) (ps : List (List String)) (b : Base)
    (n : Nat) (callers : List Frame) (below : List Value) (t : Task) (above : List Frame)
    (own : List Value) : Prop where
  frames : t.frames.toList = above ++ callers
  operands : t.operands = own ++ below
  sound : SoundAll κ Closure.Balanced own
  balanced : FramesBalanced s ps b n above own.length
  scopes : ∀ f ∈ above, f.scope < σ.scopes.size
  root : t.root < σ.roots.size
  knows : σ.Knows t.root ps

def Task.Upper (κ : Registry) (σ : Store) (s : Stretch) (ps : List (List String)) (b : Base)
    (n : Nat) (callers : List Frame) (below : List Value) (t : Task) : Prop :=
  ∃ above own, MatchLang.Upper κ σ s ps b n callers below t above own

/-- How a store may change in a step: the running frame saves to its own slots. -/
def Store.Steps (s : Stretch) (b : Base) (n : Nat) (σ τ : Store) : Prop :=
  ∃ scope saves, σ.Onto scope saves τ ∧
    (n ≤ scope ∨ saves = s.saves ∧ (s.restarts = false → scope = b.scope))

/-- What a step of some balanced frames comes to: they stay balanced, a module is loaded, or a fault of
the program comes up. -/
inductive Advance (κ : Registry) (host : Host) (s : Stretch) (ps : List (List String)) (b : Base)
    (n : Nat) (callers : List Frame) (below : List Value) (m : Machine) : Transition → Prop where
  | running {κ' : Registry} {qs : List (List String)} {m' : Machine} :
    (∀ c, κ.Has c → κ'.Has c) → m'.store.Sound κ' →
    m.store.Steps s b n m'.store → (ps = [] → qs = [] ∧ κ' = κ ∧ m'.store.roots = m.store.roots) →
    m'.task.Upper κ' m'.store s qs b n callers below → m'.task.module = m.task.module →
    m'.task.root = m.task.root → m'.waiting = m.waiting →
    Advance κ host s ps b n callers below m (.running m')
  | loads {m' : Machine} {file : String} {delivery : Delivery} : [] ∈ ps →
    m'.store = m.store → m'.waiting = m.waiting →
    m'.task.Upper κ m'.store s ps b n callers below → m'.task.root = m.task.root →
    Advance κ host s ps b n callers below m (m'.load host file delivery)
  | raises {m' : Machine} {f : Fault} {scope : Nat} {saves : Nat → Prop} : m'.store.Sound κ →
    m.store.Onto scope saves m'.store → ¬ f.Internal →
    Advance κ host s ps b n callers below m (.raised m' f)

/-- The last of the frames is at the end of its stretch. -/
def Machine.AtEnd (m : Machine) (s : Stretch) (callers : List Frame) (below : List Value) : Prop :=
  m.frame.rest = s.rest ∧ m.task.frames.callers = callers ∧
    ∃ own, m.operands = own ++ below ∧ own.length = s.height

/-- A frame that is at another place, perhaps with more namespaces known. -/
theorem Frame.Within.move {f : Frame} {s : Stretch} {ps qs : List (List String)} {h h' line : Nat}
    {is : List Instr} (hf : f.Within s ps h) (hb : Balanced s h' qs is) :
    ({ f with line, rest := is } : Frame).Within s qs h' :=
  ⟨hf.unit, hf.restart, hb⟩

/-- A function that has just been called. -/
theorem Frame.within_new {c : Closure} {scope line h : Nat} (hc : c.Balanced) (hh : h = c.arity) :
    ({ closure := c, scope, line, rest := c.code.instrs } : Frame).Within (.body c.code) [] h :=
  ⟨rfl, fun _ => hc, hh ▸ hc⟩

namespace Frames

theorem eq_of_toList {fs gs : Frames} (h : fs.toList = gs.toList) : fs = gs := by
  obtain ⟨f, cs, d, hd⟩ := fs
  obtain ⟨g, ds, e, he⟩ := gs
  obtain ⟨rfl, rfl⟩ := List.cons.inj h
  subst hd he
  rfl

theorem pop?_cons {fs : Frames} {f g : Frame} {rest : List Frame}
    (h : fs.toList = f :: g :: rest) : ∃ fs', fs.pop? = some fs' ∧ fs'.toList = g :: rest := by
  obtain ⟨current, callers, depth, hd⟩ := fs
  obtain ⟨rfl, rfl⟩ := List.cons.inj h
  exact ⟨_, rfl, rfl⟩

theorem pop?_single {fs : Frames} {f : Frame} (h : fs.toList = [f]) : fs.pop? = none := by
  obtain ⟨current, callers, depth, hd⟩ := fs
  obtain ⟨rfl, rfl⟩ := List.cons.inj h
  rfl

end Frames

theorem split_length {α : Type} {l : List α} {a r : Nat} (h : l.length = a + r) :
    ∃ l₁ l₂, l = l₁ ++ l₂ ∧ l₁.length = a ∧ l₂.length = r := by
  refine ⟨l.take a, l.drop a, (List.take_append_drop a l).symm, ?_, ?_⟩
  · rw [List.length_take]
    omega
  · rw [List.length_drop]
    omega

section

variable {κ : Registry} {host : Host} {s : Stretch} {ps : List (List String)} {b : Base} {n : Nat}
  {callers fs : List Frame} {below own rest : List Value} {m : Machine} {f g : Frame}
  {t : Transition}

/-- The only one of some frames goes on. -/
theorem Onward.advance_one (hw : Onward κ host s ps m m.store below t) (hσ : m.store.Sound κ)
    (hu : Upper κ m.store s ps b n callers below m.task [f] own) (hn : n ≤ m.store.scopes.size) :
    Advance κ host s ps b n callers below m t := by
  have hfr : m.frame = f := (List.cons.inj hu.frames).1
  have hcs : m.task.frames.callers = callers := (List.cons.inj hu.frames).2
  obtain ⟨hin, hbase⟩ := hu.balanced
  have hscope : f.scope < m.store.scopes.size := hu.scopes f List.mem_cons_self
  have hsteps : ∀ τ, m.store.Onto m.frame.scope s.saves τ → m.store.Steps s b n τ := by
    intro τ hτ
    refine ⟨m.frame.scope, s.saves, hτ, .inr ⟨rfl, fun hr => ?_⟩⟩
    rw [hfr, ← hbase hr]
    rfl
  cases hw with
  | @stays κ' τ own' line is qs hκ hτ hs hb ho hq hk =>
    refine .running hκ hτ (hsteps τ ho) hq
      ⟨[{ f with line, rest := is }], own', ?_, rfl, hs, ⟨hin.move hb, hbase⟩, ?_, ?_, hk⟩ rfl rfl rfl
    · rw [← hfr, ← hcs]
      rfl
    · intro f' hf'
      rw [List.mem_singleton] at hf'
      subst hf'
      exact Nat.lt_of_lt_of_le hscope ho.scopes
    · exact Nat.lt_of_lt_of_le hu.root ho.roots
  | @restarts args line k hr hl hs =>
    have hb : Balanced s args.length ps f.closure.code.instrs := by
      rw [hl, hfr]
      exact (hin.restart hr).mono (List.nil_subset _)
    refine .running (fun _ h => h) hσ.newScope (hsteps _ .newScope) (fun h => ⟨h, rfl, rfl⟩)
      ⟨[{ f with scope := m.store.scopes.size, line, rest := f.closure.code.instrs }], args, ?_,
        rfl, hs, ⟨⟨hin.unit, hin.restart, hb⟩, fun h => ?_⟩, ?_, hu.root, hu.knows⟩ rfl rfl rfl
    · rw [← hfr, ← hcs]
      rfl
    · rw [hr] at h
      cases h
    · intro f' hf'
      rw [List.mem_singleton] at hf'
      subst hf'
      exact Nat.lt_of_lt_of_eq (Nat.lt_succ_self _) Store.size_newScope.symm
  | @enters c args own' line k hc hl hsa hso hb =>
    refine .running (fun _ h => h) hσ.newScope (hsteps _ .newScope) (fun h => ⟨h, rfl, rfl⟩)
      ⟨[{ closure := c, scope := m.store.scopes.size, line := c.line, rest := c.code.instrs },
        { f with line, rest := k }], args ++ own', ?_, ?_, soundAll_append.mpr ⟨hsa, hso⟩,
        ⟨args.length, own'.length, List.length_append, hn, Frame.within_new hc hl,
          hin.move hb, hbase⟩, ?_, hu.root, hu.knows⟩ rfl rfl rfl
    · rw [← hfr, ← hcs]
      rfl
    · rw [List.append_assoc]
      rfl
    · intro f' hf'
      have hsz : (m.store.newScope (some c.scope)).2.scopes.size = m.store.scopes.size + 1 :=
        Store.size_newScope
      rcases List.mem_cons.mp hf' with rfl | hf'
      · exact Nat.lt_of_lt_of_eq (Nat.lt_succ_self _) hsz.symm
      · rw [List.mem_singleton] at hf'
        subst hf'
        exact Nat.lt_of_lt_of_eq (Nat.lt_succ_of_lt hscope) hsz.symm
  | @loads own' line k file delivery hp hs hb =>
    refine .loads hp rfl rfl
      ⟨[{ f with line, rest := k }], own', ?_, rfl, hs, ⟨hin.move hb, hbase⟩, ?_, hu.root,
        hu.knows⟩ rfl
    · rw [← hfr, ← hcs]
      rfl
    · intro f' hf'
      rw [List.mem_singleton] at hf'
      subst hf'
      exact hscope
  | raises hs ho hf => exact .raises hs ho hf

/-- The topmost of some frames goes on; the others wait. -/
theorem Onward.advance_top (hw : Onward κ host (.body f.closure.code) [] m m.store (rest ++ below) t)
    (hσ : m.store.Sound κ)
    (hu : Upper κ m.store s ps b n callers below m.task (f :: g :: fs) (own ++ rest))
    (hin : f.Within (.body f.closure.code) [] own.length) (hf : n ≤ f.scope)
    (hg : FramesBalanced s ps b n (g :: fs) (rest.length + 1)) (hn : n ≤ m.store.scopes.size) :
    Advance κ host s ps b n callers below m t := by
  have hfr : m.frame = f := (List.cons.inj hu.frames).1
  have hcs : m.task.frames.callers = (g :: fs) ++ callers := (List.cons.inj hu.frames).2
  obtain ⟨hfs, hgs⟩ := List.forall_mem_cons.mp hu.scopes
  have hrest := (soundAll_append.mp hu.sound).2
  have hgrow : ∀ {τ : Store}, m.store.scopes.size ≤ τ.scopes.size →
      ∀ {f' : Frame}, f'.scope < τ.scopes.size → ∀ d ∈ f' :: g :: fs, d.scope < τ.scopes.size :=
    fun hle _ hlt => List.forall_mem_cons.mpr
      ⟨hlt, fun d hd => Nat.lt_of_lt_of_le (hgs d hd) hle⟩
  have hsz : ∀ parent, (m.store.newScope parent).2.scopes.size = m.store.scopes.size + 1 :=
    fun _ => Store.size_newScope
  have hnew : ∀ parent, m.store.scopes.size < (m.store.newScope parent).2.scopes.size :=
    fun parent => Nat.lt_of_lt_of_eq (Nat.lt_succ_self _) (hsz parent).symm
  cases hw with
  | @stays κ' τ own' line is qs hκ hτ hs hb ho hq hk =>
    obtain ⟨rfl, rfl, hroots⟩ := hq rfl
    refine .running hκ hτ ⟨_, _, ho, .inl (hfr ▸ hf)⟩ (fun h => ⟨h, rfl, hroots⟩)
      ⟨{ f with line, rest := is } :: g :: fs, own' ++ rest, ?_, (List.append_assoc _ _ _).symm,
        soundAll_append.mpr ⟨hs, hrest.mono hκ fun _ h => h⟩,
        ⟨own'.length, rest.length, List.length_append, hf, hin.move hb, hg⟩,
        hgrow ho.scopes (Nat.lt_of_lt_of_le hfs ho.scopes),
        Nat.lt_of_lt_of_le hu.root ho.roots, hu.knows.onto ho⟩ rfl rfl rfl
    rw [← hfr, List.cons_append, ← hcs]
    rfl
  | @restarts args line k hr hl hs =>
    have hb : Balanced (.body f.closure.code) args.length [] f.closure.code.instrs := by
      rw [hl, hfr]
      exact hin.restart rfl
    refine .running (fun _ h => h) hσ.newScope
      ⟨m.frame.scope, fun _ => True, .newScope, .inl (hfr ▸ hf)⟩ (fun h => ⟨h, rfl, rfl⟩)
      ⟨{ f with scope := m.store.scopes.size, line, rest := f.closure.code.instrs } :: g :: fs,
        args ++ rest, ?_, (List.append_assoc _ _ _).symm, soundAll_append.mpr ⟨hs, hrest⟩,
        ⟨args.length, rest.length, List.length_append, hn, ⟨hin.unit, hin.restart, hb⟩, hg⟩,
        hgrow (Nat.le_of_lt (hnew _)) (hnew _), hu.root, hu.knows⟩ rfl rfl rfl
    rw [← hfr, List.cons_append, ← hcs]
    rfl
  | @enters c args own' line k hc hl hsa hso hb =>
    refine .running (fun _ h => h) hσ.newScope
      ⟨m.frame.scope, fun _ => True, .newScope, .inl (hfr ▸ hf)⟩ (fun h => ⟨h, rfl, rfl⟩)
      ⟨{ closure := c, scope := m.store.scopes.size, line := c.line, rest := c.code.instrs } ::
          { f with line, rest := k } :: g :: fs, args ++ (own' ++ rest), ?_, ?_,
        soundAll_append.mpr ⟨hsa, soundAll_append.mpr ⟨hso, hrest⟩⟩,
        ⟨args.length, (own' ++ rest).length, List.length_append, hn, Frame.within_new hc hl,
          own'.length + 1, rest.length, ?_, hf, hin.move hb, hg⟩, ?_, hu.root, hu.knows⟩ rfl rfl rfl
    · rw [← hfr, List.cons_append, List.cons_append, ← hcs]
      rfl
    · simp only [List.append_assoc]
      rfl
    · rw [List.length_append]
      omega
    · have hle := Nat.le_of_lt (hnew (some c.scope))
      exact List.forall_mem_cons.mpr
        ⟨hnew _, hgrow hle (Nat.lt_of_lt_of_le hfs hle)⟩
  | loads hp _ _ => exact absurd hp List.not_mem_nil
  | raises hs ho hf => exact .raises hs ho hf

theorem step_cons {line : Nat} {op : Op} {k : List Instr} (h : m.frame.rest = .mk line op :: k) :
    m.step host = (m.resume m.store m.operands line k).perform host op := by
  unfold Machine.step
  rw [h]
  rfl

/-- A function that has no instructions left returns to the frame below. -/
theorem Machine.step_pop {frames : Frames} (h : m.frame.rest = [])
    (hp : m.task.frames.pop? = some frames) : m.step host = .running (m.withFrames frames) := by
  unfold Machine.step
  rw [h]
  simp only [hp]

/-- Without instructions there is nothing but the end. -/
theorem Balanced.nil_eq {h : Nat} (hb : Balanced s h ps []) : h = s.height ∧ [] = s.rest := by
  cases hb with
  | done hh hr => exact ⟨hh, hr⟩

/-- Balanced frames advance until the last of them is at the end of its stretch. -/
theorem Task.Upper.advance (host : Host) (hσ : m.store.Sound κ)
    (hu : m.task.Upper κ m.store s ps b n callers below) (hn : n ≤ m.store.scopes.size) :
    m.AtEnd s callers below ∨ Advance κ host s ps b n callers below m (m.step host) := by
  obtain ⟨above, own, hu⟩ := hu
  match above with
  | [] => exact hu.balanced.elim
  | [f] =>
    have hfr : m.frame = f := (List.cons.inj hu.frames).1
    have hcs : m.task.frames.callers = callers := (List.cons.inj hu.frames).2
    have hin := hu.balanced.1
    by_cases hd : own.length = s.height ∧ f.rest = s.rest
    · exact .inl ⟨hfr ▸ hd.2, hcs, own, hu.operands, hd.1⟩
    · have hb := hin.rest
      cases hr : f.rest with
      | nil =>
        rw [hr] at hb hd
        exact absurd hb.nil_eq hd
      | cons i k =>
        obtain ⟨line, op⟩ := i
        rw [hr] at hb hd
        rw [step_cons (hfr ▸ hr), show m.operands = own ++ below from hu.operands]
        exact .inr ((hb.onward rfl hd hσ hu.sound (hfr ▸ hin.unit) hu.knows hu.root).advance_one
          hσ hu hn)
  | f :: g :: fs =>
    have hfr : m.frame = f := (List.cons.inj hu.frames).1
    obtain ⟨a, r, hl, hf, hin, hg⟩ := hu.balanced
    obtain ⟨ownf, rest, rfl, rfl, rfl⟩ := split_length hl
    obtain ⟨hsf, hsr⟩ := soundAll_append.mp hu.sound
    refine .inr ?_
    cases hr : f.rest with
    | nil =>
      have hb := hin.rest
      rw [hr] at hb
      have hone : ownf.length = 1 := hb.nil_eq.1
      obtain ⟨frames, hp, hfs⟩ := Frames.pop?_cons hu.frames
      rw [Machine.step_pop (hfr ▸ hr) hp]
      have hlen : (ownf ++ rest).length = rest.length + 1 := by
        rw [List.length_append]
        omega
      exact .running (fun _ h => h) hσ ⟨m.frame.scope, s.saves, .refl _, .inl (hfr ▸ hf)⟩
        (fun h => ⟨h, rfl, rfl⟩)
        ⟨g :: fs, ownf ++ rest, hfs, hu.operands, hu.sound, hlen ▸ hg,
          fun d hd => hu.scopes d (List.mem_cons_of_mem _ hd), hu.root, hu.knows⟩ rfl rfl rfl
    | cons i k =>
      obtain ⟨line, op⟩ := i
      have hb := hin.rest
      rw [hr] at hb
      have ho : m.operands = ownf ++ (rest ++ below) := by
        rw [← List.append_assoc]
        exact hu.operands
      rw [step_cons (hfr ▸ hr), ho]
      exact (hb.onward rfl (fun h => nomatch h.2) hσ hsf (hfr ▸ hin.unit) nofun hu.root).advance_top
        hσ hu hin hf hg hn

end

end MatchLang
