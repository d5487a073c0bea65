import MatchLang.Proofs.Machine.Activations
import MatchLang.Proofs.Session.Moments

/-! Scopes that nobody runs in any more. Once the frame of a scope is gone, nothing that comes later in the session
writes to the scope; but functions that were made in it still read it. -/

namespace MatchLang

/-- The scopes and the places of a run, of which none is left when it has ended. -/
def Transition.activity : Transition → Activity
  | .running m => m.activity
  | .finished σ _ => { scopes := σ.scopes, places := [] }
  | .raised m _ => { scopes := m.store.scopes, places := [] }

section

open Activity Relation

variable {host : Host} {m : Machine} {t : Transition} {file : String} {delivery : Delivery} {a : Activity}
  {id : Nat} {s : Scope} {σ : Array Scope} {ps : List Base}

theorem Activity.Moves.leave_all : ReflTransGen Moves ⟨σ, ps⟩ ⟨σ, []⟩ := by
  induction ps with
  | nil => exact .refl
  | cons p ps ih => exact .head .leaves ih

/-- A fault that leaves the scopes as they are is the end of all frames. -/
theorem Machine.raised_moves {m' : Machine} {f : Fault} (hs : m'.store.scopes = m.store.scopes) :
    ReflTransGen Moves m.activity (Transition.raised m' f).activity := by
  show ReflTransGen Moves m.activity ⟨m'.store.scopes, []⟩
  rw [hs]
  exact Moves.leave_all

theorem Machine.deliver_activity {source : Nat} :
    ReflTransGen Moves m.activity (m.deliver source delivery).activity := by
  cases hd : m.deliver source delivery with
  | running m' =>
    show ReflTransGen Moves m.activity m'.activity
    rw [deliver_moves hd]
  | raised m' f =>
    rw [deliver_eq] at hd
    generalize (delivery.merge _ _).2 = fault at hd
    cases fault with
    | none => cases hd
    | some g =>
      cases hd
      exact raised_moves rfl
  | finished σ v =>
    rw [deliver_eq] at hd
    generalize (delivery.merge _ _).2 = fault at hd
    cases fault <;> cases hd

theorem Machine.await_activity {code : Code} {next : Nat} :
    Moves m.activity (m.await delivery file code next).activity :=
  suspend_moves

theorem Machine.Loaded.activity (hl : m.Loaded host file delivery t) :
    ReflTransGen Moves m.activity t.activity := by
  induction hl with
  | cached _ => exact deliver_activity
  | faults _ => exact raised_moves rfl
  | begins _ _ _ => exact .single await_activity
  | equips _ _ _ _ _ _ ih => exact .head await_activity ih

theorem Machine.act_activity {op : Op} {line : Nat} {k : List Instr} :
    ReflTransGen Moves m.activity (m.act host line k (op.action m.setting line k)).activity := by
  by_cases hop : ∃ argc, op = .tailCall argc
  · obtain ⟨argc, rfl⟩ := hop
    by_cases ha : m.setting.closure.arity = argc
    · have hr : Op.action m.setting line k (.tailCall argc) = .restart := if_pos ha
      rw [hr]
      exact restarted_moves (m.resume m.store m.operands line k)
    · have hr : Op.action m.setting line k (.tailCall argc) = m.setting.refuse .partialTailCall := if_neg ha
      rw [hr]
      exact raised_moves rfl
  · have hstays : (op.action m.setting line k).Stays m.setting op.saved? :=
      Op.action_stays (not_exists.mp hop)
    cases ha : op.action m.setting line k with
    | proceed σ os is =>
      have hact : m.act host line k (op.action m.setting line k) = .running (m.resume σ os line is) := by rw [ha]; rfl
      exact act_moves hact
    | enter c os =>
      show ReflTransGen Moves m.activity ((m.resume m.store os line k).enter host c).activity
      unfold Machine.enter
      split
      · split
        · exact raised_moves rfl
        · exact .single (.begins c)
      · exact .single (.begins c)
    | restart =>
      rw [ha] at hstays
      exact hstays.elim
    | load file delivery =>
      have hl : (m.resume m.store m.operands line k).Loaded host file delivery _ := load_loaded
      exact hl.activity
    | fail σ os f =>
      rw [ha] at hstays
      rcases hstays.2 with he | ⟨_, _, ⟨⟩, _⟩
      exact raised_moves he

/-- A step is a few moves, and a run that ends leaves all places. -/
theorem Machine.step_activity : ReflTransGen Moves m.activity (m.step host).activity := by
  cases hr : m.frame.rest with
  | cons i k =>
    obtain ⟨line, op⟩ := i
    rw [step_eq_act hr]
    exact act_activity
  | nil =>
    cases hc : m.task.frames.callers with
    | cons g gs =>
      obtain ⟨frames, hp, -⟩ := Frames.pop?_cons (f := m.frame) (congrArg (m.frame :: ·) hc)
      have hs : m.step host = .running (m.withFrames frames) := step_pop hr hp
      rw [hs]
      exact step_moves hs
    | nil =>
      rw [step_nil hr hc]
      unfold finish
      cases hw : m.waiting with
      | nil => exact Moves.leave_all
      | cons w ws =>
        have hplaces : m.places = Base.of m.frame :: (w.task.places ++ ws.flatMap (·.task.places)) := by
          rw [places_eq, hc, hw]
          rfl
        have hactivity : m.activity = ⟨m.store.scopes, Base.of m.frame :: _⟩ :=
          congrArg (Activity.mk m.store.scopes) hplaces
        let next : Machine :=
          { store := m.store.remember m.task.module m.task.root, task := w.task, waiting := ws }
        have hd : ReflTransGen Moves next.activity (next.deliver m.task.root w.delivery).activity :=
          deliver_activity
        rw [hactivity]
        exact .head .leaves hd

theorem Machine.equip_activity {withPrelude : Bool} :
    ReflTransGen Moves m.activity (m.equip withPrelude).activity := by
  unfold equip
  split
  · have hl : m.Loaded bareHost preludeName .whole (m.loadPrelude .whole) := loadPrelude_loaded
    exact hl.activity
  · exact .refl

theorem Transition.hear_activity {console : Console} : (t.hear console).activity = t.activity := by
  cases t <;> rfl

theorem Transition.activity_scopes : t.activity.scopes = t.store.scopes := by
  cases t <;> rfl

theorem beginCode_activity {σ : Store} {withPrelude : Bool} {module : String} {code : Code} :
    ReflTransGen Moves ⟨σ.scopes, []⟩ (beginCode σ withPrelude module code).activity := by
  let m : Machine :=
    { store := (σ.newTask module code).2, task := (σ.newTask module code).1, waiting := [] }
  have hm : ReflTransGen Moves m.activity (m.equip withPrelude).activity := Machine.equip_activity
  exact .head (.loads (moduleBody module code σ.scopes.size σ.roots.size) rfl) hm

theorem idleMachine_activity {σ : Store} : Moves ⟨σ.scopes, []⟩ (idleMachine σ).activity :=
  .loads (moduleBody "" .empty σ.scopes.size σ.roots.size) rfl

end

namespace Moment

open Activity Relation

variable {allowed : Host → Prop} {texts : Prop} {a b : Moment} {id : Nat} {s : Scope}

/-- A scope that no frame runs in and that no workspace has. -/
structure Retired (id : Nat) (s : Scope) (a : Moment) : Prop where
  left : Left id s a.now.activity
  spaces : ∀ w ∈ a.spaces, w.scope ≠ id

theorem Retired.lt (h : Retired id s a) : id < a.store.scopes.size := by
  obtain ⟨hlt, -⟩ := Array.getElem?_eq_some_iff.mp h.left.scope
  rw [Transition.activity_scopes] at hlt
  exact hlt

/-- A scope that is retired stays as it is. -/
theorem Retired.next (hr : Retired id s a) (hn : Next allowed texts a b) : Retired id s b := by
  have hlt := hr.lt
  have hold : Left id s ⟨a.store.scopes, []⟩ := by
    refine ⟨?_, fun b hb => absurd hb List.not_mem_nil⟩
    have hscope := hr.left.scope
    rw [Transition.activity_scopes] at hscope
    exact hscope
  obtain ⟨hleft, hspaces⟩ := hr
  cases hn with
  | steps _ => exact ⟨hleft.moves Machine.step_activity, hspaces⟩
  | hears console =>
    refine ⟨?_, hspaces⟩
    rw [Transition.hear_activity]
    exact hleft
  | @begins t ws p u hp =>
    cases hp with
    | @module code next publishRoot withPrelude module _ =>
      exact ⟨hold.moves (beginCode_activity (σ := { t.store with nextSlot := next })), hspaces⟩
    | @line code next w publishRoot _ hw =>
      exact ⟨⟨hold.scope, List.forall_mem_singleton.mpr (hspaces w hw)⟩, hspaces⟩
  | @opens t ws withPrelude module =>
    refine ⟨hold.moves beginCode_activity, List.forall_mem_cons.mpr ⟨?_, hspaces⟩⟩
    exact (Nat.ne_of_lt hlt).symm
  | @rescopes t ws w hw =>
    refine ⟨⟨?_, fun b hb => absurd hb List.not_mem_nil⟩, List.forall_mem_cons.mpr ⟨?_, hspaces⟩⟩
    · have hlt : id < t.store.scopes.size := hlt
      show (t.store.scopes.push _)[id]? = some s
      rw [Array.getElem?_push, if_neg (Nat.ne_of_lt hlt)]
      exact hold.scope
    · exact (Nat.ne_of_lt hlt).symm
  | @loads t ws host file _ =>
    have hl : (idleMachine t.store).Loaded host file .whole _ := Machine.load_loaded
    exact ⟨(hold.moves (.single idleMachine_activity)).moves hl.activity, hspaces⟩
  | @takes t ws file source code next withPrelude _ _ =>
    have hawait : Moves (idleMachine t.store).activity
        ((idleMachine t.store).await .whole file code next).activity := Machine.await_activity
    exact ⟨hold.moves (.head idleMachine_activity (.head hawait Machine.equip_activity)), hspaces⟩

end Moment

end MatchLang
