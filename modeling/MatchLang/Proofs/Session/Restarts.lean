import MatchLang.Proofs.Machine.Activations
import MatchLang.Proofs.Machine.Restarting
import MatchLang.Proofs.Session.Safety

/-! Functions that restart themselves. A function that restarts itself does what one does that calls itself,
as long as calls may nest without a limit; but it keeps to its frame, and leaves its scope to the functions
it has made. -/

namespace MatchLang

/-- The machines that a run comes by. -/
def Transition.Visits (host : Host) (t : Transition) (m : Machine) : Prop :=
  ∃ m₀, t = .running m₀ ∧ m₀.Reaches host m

section

variable {κ : Registry} {host : Host} {h line argc : Nat} {k : List Instr} {σ : Store}
  {ws : List Workspace} {p : Program} {t : Transition} {m m' : Machine}

theorem Stretched.refl (fs : List Frame) : Stretched fs fs := by
  induction fs with
  | nil => exact .nil
  | cons f fs ih => exact .frame (.refl f) ih

theorem Task.Mimics.self (t : Task) : t.Mimics t :=
  ⟨rfl, rfl, rfl, .refl _, .refl _⟩

theorem Machine.Mimics.self (m : Machine) : m.Mimics m where
  store := rfl
  task := .self m.task
  waiting := by
    induction m.waiting with
    | nil => exact .nil
    | cons w ws ih => exact .cons ⟨.self w.task, rfl⟩ ih

theorem Balanced.tailCall_idle {s : Stretch} {ps : List (List String)}
    (hb : Balanced s h ps (.mk line (.tailCall argc) :: k)) (hs : s.rest = []) : Idle s.unit k := by
  cases hb with
  | done _ hr =>
    rw [hs] at hr
    cases hr
  | tailCall _ hi _ => exact hi

/-- Compiled code restarts a function only where nothing is left to do. -/
theorem Machine.Ok.idle (hm : m.Ok κ h) (hr : m.frame.rest = .mk line (.tailCall argc) :: k) :
    Idle m.frame.closure.code k := by
  obtain ⟨_, ⟨code, ps, b, above, own, hu⟩, _⟩ := hm.tasks.running
  cases above with
  | nil => exact hu.balanced.elim
  | cons f fs =>
    have hf : m.frame = f := (List.cons.inj hu.frames).1
    obtain ⟨s, qs, i, hs, _, _, hin⟩ := hu.balanced.head rfl
    have hb := hin.rest
    rw [← hf, hr] at hb
    have hi := hb.tailCall_idle hs
    rw [hin.unit, ← hf] at hi
    exact hi

/-- A run begins with the one frame of its module. -/
theorem Program.Begins.apart (hp : p.Begins σ ws t) (hws : ∀ w ∈ ws, w.In σ)
    (ht : t = .running m) : m.activity.Apart := by
  cases hp with
  | @module code next publishRoot withPrelude module hc =>
    have hb : Activity.Apart
        ⟨σ.scopes.push { parent := none, slots := [] },
          [⟨moduleBody module code σ.scopes.size σ.roots.size, σ.scopes.size⟩]⟩ := by
      refine .single ?_
      show σ.scopes.size < (σ.scopes.push _).size
      rw [Array.size_push]
      exact Nat.lt_succ_self _
    unfold beginCode at ht
    simp only at ht
    split at ht
    · exact Activity.Apart.moves hb (Machine.loadPrelude_moves ht)
    · cases ht
      exact hb
  | @line code next w publishRoot hc hw =>
    cases ht
    exact Activity.Apart.single (hws w hw).scope

/-- A run of a program whose functions restart themselves with all their arguments ends as it would if they
called themselves: with the same store, the same value, the same kind of fault. When a function restarts
itself, there are as many frames as before, and the scope it leaves stays as it is; a function that has
been made in it finds there what was there, whenever it runs. -/
theorem restarting_is_calling (hs : Session σ ws) (hp : p.Begins σ ws t)
    (hl : host.callLimit = none)
    (ha : ∀ m line argc k, t.Visits host m → m.frame.rest = .mk line (.tailCall argc) :: k →
      argc = m.frame.closure.arity) :
    (∀ o, (∃ n, (t.follow host n).outcome? = some o) ↔
      ∃ n, (t.followBy (Machine.stepCalling host) n).outcome? = some o) ∧
    ∀ m line argc k, t.Visits host m → m.frame.rest = .mk line (.tailCall argc) :: k →
      ∃ m', m.step host = .running m' ∧ m'.nesting = m.nesting ∧
        ∀ m'', m'.Reaches host m'' →
          (∀ n, m''.store.slot? m.frame.scope n = m.store.slot? m.frame.scope n) ∧
          ∀ n v, m''.frame.closure.scope = m.frame.scope →
            m''.store.slot? m''.frame.scope n = none → m.store.slot? m.frame.scope n = some v →
              m''.store.lookup m''.frame.scope n = some v := by
  obtain ⟨κ, hσ, hws⟩ := hs.sound
  have hok : ∀ m, t.Visits host m → ∃ κ' h, m.Ok κ' h := by
    rintro m ⟨m₀, rfl, hr⟩
    obtain ⟨κ', hu⟩ := (hp.ok hσ hws).leads (Transition.Leads.refl.reaches hr)
    obtain ⟨κ'', _, hm, _⟩ := hu
    exact ⟨κ'', _, hm⟩
  refine ⟨fun o => ?_, fun m line argc k hv hr => ?_⟩
  · cases t with
    | running m₀ =>
      have hlast : ∀ m, m₀.Reaches host m → m.frame.RestartsLast := by
        intro m hm line argc k hr
        have hv : Transition.Visits host (.running m₀) m := ⟨m₀, rfl, hm⟩
        obtain ⟨κ', h, hm⟩ := hok m hv
        exact ⟨ha m line argc k hv hr, hm.idle hr⟩
      have hends := (Machine.Mimics.self m₀).ends (o := o) hl hlast
      rw [Machine.ends_iff, Machine.ends_iff] at hends
      simp only [Transition.follow_eq_followBy]
      exact hends
    | finished τ v => exact Iff.rfl
    | raised m f => exact Iff.rfl
  · have hstep : m.step host = .running (m.resume m.store m.operands line k).restarted := by
      have hact : Op.action m.setting line k (.tailCall argc) = .restart :=
        if_pos (ha m line argc k hv hr).symm
      rw [step_eq_act hr, hact]
      rfl
    obtain ⟨m₀, ht, hm₀⟩ := hv
    have hapart : m.activity.Apart := (hp.apart hws ht).moves hm₀.moves
    obtain ⟨s, hscope, hleft⟩ := hapart.left (b := Base.of m.frame)
    have hapart' := hapart.moves (Machine.step_moves hstep)
    have hleft' : Activity.Left m.frame.scope s
        (m.resume m.store m.operands line k).restarted.activity :=
      Activity.Moves.left (.begins m.frame.closure) hleft
    refine ⟨_, hstep, rfl, fun m'' hm'' => ?_⟩
    have hsame : ∀ n, m''.store.slot? m.frame.scope n = m.store.slot? m.frame.scope n := by
      intro n
      have hs'' : m''.store.scopes[m.frame.scope]? = some s := (hleft'.moves hm''.moves).scope
      have hs : m.store.scopes[m.frame.scope]? = some s := hscope
      rw [Store.slot?, Store.slot?, hs'', hs]
    refine ⟨hsame, fun n v hc hown hslot => ?_⟩
    have hhost : Activity.Hosts m''.store.scopes (Base.of m''.frame) :=
      (hapart'.moves hm''.moves).hosts _ List.mem_cons_self
    refine hhost.lookup hown ?_
    show m''.store.slot? m''.frame.closure.scope n = some v
    rw [hc, hsame n]
    exact hslot

end

/-- Whether a restart that comes next has all its arguments. -/
def Frame.restartsInFull (f : Frame) : Bool :=
  match f.rest with
  | .mk _ (.tailCall argc) :: _ => argc == f.closure.arity
  | _ => true

/-- Whether a run that ends within some steps restarts with all arguments only. -/
def Machine.restartsInFull (host : Host) : Nat → Machine → Bool
  | 0, _ => false
  | n + 1, m =>
    m.frame.restartsInFull &&
      match m.step host with
      | .running m' => restartsInFull host n m'
      | _ => true

theorem Machine.restartsInFull_sound {host : Host} {n argc line : Nat} {k : List Instr}
    {m m' : Machine} (h : m.restartsInFull host n = true) (hm : m.Reaches host m')
    (hr : m'.frame.rest = .mk line (.tailCall argc) :: k) : argc = m'.frame.closure.arity := by
  obtain ⟨j, hw⟩ := hm
  induction n generalizing m j with
  | zero => cases h
  | succ n ih =>
    rw [restartsInFull, Bool.and_eq_true] at h
    obtain ⟨hf, hrun⟩ := h
    cases j with
    | zero =>
      cases hw
      rw [Frame.restartsInFull, hr] at hf
      exact beq_iff_eq.mp hf
    | succ j =>
      cases hs : m.step host with
      | running m₁ =>
        rw [hs] at hrun
        rw [walk, hs] at hw
        exact ih hrun j hw
      | finished store v =>
        rw [walk, hs] at hw
        cases hw
      | raised m₁ f =>
        rw [walk, hs] at hw
        cases hw

/-- The program `({ x -> (match x [ { (True) -> (. ()) } { _ -> x } ]) } True)`. -/
def loopProgram : Program :=
  { imports := []
    root := .mk ⟨0, [], 1⟩ true []
    trailing := some
      { callee := .function [.name 1 "x" 1]
          (.result (.call (.name ⟨2, ["match"], 1⟩)
            [.name ⟨3, ["x"], 1⟩,
              .list
                [.result (.function [.type ⟨4, ["True"], 1⟩ []]
                  (.result (.call (.self 1) [.literal .unit 1] 1)) 1),
                .result (.function [.wildcard] (.result (.name ⟨5, ["x"], 1⟩)) 1)] 1] 1)) 1
        args := [.name ⟨6, ["True"], 1⟩]
        line := 1 } }

def loopUnit : Code :=
  match loopProgram.compile false 0 with
  | .ok (code, _) => code
  | .error _ => .empty

def loopMachine : Machine :=
  (codeMachine loopUnit []).updateStore fun s => { s with nextSlot := 1 }

/-- The function is begun, restarts itself with `()`, and answers that. -/
theorem loop_answers_unit :
    (∃ σ n, ((Transition.running loopMachine).follow bareHost n).outcome? =
        some { store := σ, result := .ok (some builtins.unitValue) }) ∧
      ∃ σ n, ((Transition.running loopMachine).followBy
          (Machine.stepCalling bareHost) n).outcome? =
        some { store := σ, result := .ok (some builtins.unitValue) } := by
  have hc : loopProgram.compile false (Store.initial .deaf).nextSlot = .ok (loopUnit, 1) := rfl
  have hb : loopProgram.Begins (.initial .deaf) [] (.running loopMachine) :=
    show loopProgram.Begins (.initial .deaf) []
      (beginCode { Store.initial .deaf with nextSlot := 1 } false "main" loopUnit) from
    .module false false "main" hc
  have hfull : loopMachine.restartsInFull bareHost 40 = true := rfl
  have hargs : ∀ m line argc k, (Transition.running loopMachine).Visits bareHost m →
      m.frame.rest = .mk line (.tailCall argc) :: k → argc = m.frame.closure.arity := by
    rintro m line argc k ⟨m₀, hm₀, hr⟩ hrest
    cases hm₀
    exact Machine.restartsInFull_sound hfull hr hrest
  have hend : ∃ n, ((Transition.running loopMachine).follow bareHost n).outcome? =
      some { store := _, result := .ok (some builtins.unitValue) } := ⟨40, rfl⟩
  exact ⟨⟨_, hend⟩,
    ⟨_, ((restarting_is_calling (.begins .deaf) hb rfl hargs).1 _).mp hend⟩⟩

end MatchLang
