import MatchLang.Proofs.Machine.Roots
import MatchLang.Proofs.Session.Moments

/-! Modules that have been loaded do not change. A module writes to its own root only, and has none any more
once it has run; so whatever runs later, the names that it has given to others stay as they are. -/

namespace MatchLang

/-- The tasks of a run that goes on. -/
def Transition.tasks : Transition → List Task
  | .running m => m.tasks
  | .finished _ _ => []
  | .raised _ _ => []

section

open Holding Relation

variable {host : Host} {m : Machine} {t : Transition} {r : Nat} {spaces : List Nat} {file : String}
  {delivery : Delivery}

theorem Machine.received_root {source : Nat} (hr : r ≠ m.task.root) :
    (m.received source delivery).store.root r = m.store.root r := by
  show (m.store.setRoot _ _).root r = _
  rw [Store.root_setRoot, if_neg fun h => hr h.1]

theorem Machine.orRaise_root {fault : Option Fault} :
    (m.orRaise fault).root? = some m.task.root := by
  cases fault <;> rfl

theorem Machine.deliver_root {source : Nat} (ho : (m.deliver source delivery).root? ≠ some r) :
    (m.deliver source delivery).store.root r = m.store.root r := by
  rw [deliver_eq, orRaise_root] at ho
  rw [deliver_eq, orRaise_store]
  exact received_root fun h => ho (congrArg some h.symm)

theorem Machine.await_root {code : Code} {next : Nat} (hr : r < m.store.roots.size) :
    (m.await delivery file code next).store.root r = m.store.root r := by
  show (m.store.newRoot _).2.root r = _
  rw [Store.root_newRoot, if_neg (Nat.ne_of_lt hr)]

theorem Machine.Loaded.root (hl : m.Loaded host file delivery t) (hr : r < m.store.roots.size)
    (ho : t.root? ≠ some r) : t.store.root r = m.store.root r := by
  induction hl with
  | cached _ => exact deliver_root ho
  | faults _ => rfl
  | begins _ _ _ => exact await_root hr
  | @equips m file delivery source code next t _ _ _ _ _ _ ih =>
    have hsize : (m.await delivery file code next).store.roots.size = m.store.roots.size + 1 :=
      Array.size_push _
    rw [ih (by omega) ho, await_root hr]

/-- A step writes to no root but that of the module that it leaves running. -/
theorem Machine.step_root (hr : r < m.store.roots.size) (ho : (m.step host).root? ≠ some r) :
    (m.step host).store.root r = m.store.root r := by
  have hs := m.stepped host
  generalize m.step host = t at hs ho
  cases hs with
  | @goes σ os line op k is _ hw _ =>
    obtain ⟨_, he | ⟨ns, _, he⟩⟩ := hw
    · show σ.roots.getD r _ = m.store.roots.getD r _
      rw [he]
      rfl
    · have hne : r ≠ m.task.root := fun h => ho (congrArg some h.symm)
      show σ.roots.getD r _ = m.store.roots.getD r _
      rw [he]
      show (m.store.setRoot m.task.root ns).root r = m.store.root r
      rw [Store.root_setRoot, if_neg fun h => hne h.1]
  | enters _ _ _ => rfl
  | restarts => rfl
  | @loads line op k file delivery _ _ =>
    have hl : (m.resume m.store m.operands line k).Loaded host file delivery _ := load_loaded
    exact hl.root hr ho
  | @faults σ os line k f _ he =>
    show σ.roots.getD r _ = m.store.roots.getD r _
    rw [he]
  | returns _ _ => rfl
  | ends _ _ =>
    unfold finish at ho ⊢
    cases hw : m.waiting with
    | nil => rfl
    | cons w ws =>
      rw [hw] at ho
      have hd := deliver_root ho
      exact hd

theorem Machine.equip_holding {withPrelude : Bool} :
    ReflTransGen Moves (m.holding spaces) ((m.equip withPrelude).holding spaces) := by
  unfold equip
  split
  · have hl : m.Loaded { appRoot := "", withPrelude, callLimit := none, read := fun _ => .error .missing }
        preludeName .whole (m.loadPrelude .whole) := loadPrelude_loaded
    exact hl.holding
  · exact .refl

theorem Transition.holding_stops :
    ReflTransGen Moves (t.holding spaces) (t.store.holding [] spaces) := by
  cases t with
  | running m => exact .single .stops
  | finished σ v => exact .refl
  | raised m f => exact .refl

theorem Transition.hear_holding {console : Console} :
    (t.hear console).holding spaces = t.holding spaces := by
  cases t <;> rfl

theorem beginCode_holding {σ : Store} {withPrelude : Bool} {module : String} {code : Code} :
    ReflTransGen Moves (σ.newSeededRoot.2.holding [(module, σ.roots.size)] spaces)
      ((beginCode σ withPrelude module code).holding spaces) := by
  let m : Machine :=
    { store := (σ.newTask module code).2, task := (σ.newTask module code).1, waiting := [] }
  have hm : ReflTransGen Moves (m.holding spaces) ((m.equip withPrelude).holding spaces) :=
    Machine.equip_holding
  exact hm

theorem idleMachine_holding {σ : Store} :
    Moves (σ.holding [] spaces) ((idleMachine σ).holding spaces) :=
  .begins "" rfl

end

namespace Moment

open Holding Relation

variable {allowed : Host → Prop} {texts : Prop} {a b : Moment} {file : String} {root : Nat}

def holding (a : Moment) : Holding :=
  a.now.holding (a.spaces.map (·.root))

theorem start_apart (console : Console) : (start console).holding.Apart :=
  ⟨.nil, nofun, nofun, nofun, nofun, nofun, nofun⟩

theorem Next.holding (hn : Next allowed texts a b) : ReflTransGen Moves a.holding b.holding := by
  cases hn with
  | steps _ => exact Machine.step_holding
  | hears console =>
    unfold Moment.holding
    rw [Transition.hear_holding]
  | @begins t ws p u hp =>
    refine Transition.holding_stops.trans ?_
    cases hp with
    | @module code next publishRoot withPrelude module _ =>
      exact .head (.begins module seed_children)
        (beginCode_holding (σ := { t.store with nextSlot := next }))
    | @line code next w publishRoot _ hw =>
      exact .single (.resumes w.module (List.mem_map_of_mem hw))
  | @opens t ws withPrelude module =>
    refine Transition.holding_stops.trans (.head (.begins module seed_children) ?_)
    exact .head .opens beginCode_holding
  | @rescopes t ws w hw =>
    have hr : w.root ∈ ws.map (·.root) := List.mem_map_of_mem hw
    exact Transition.holding_stops.tail (.rescopes hr)
  | @loads t ws host file _ =>
    have hl : (idleMachine t.store).Loaded host file .whole _ := Machine.load_loaded
    exact Transition.holding_stops.trans (.head idleMachine_holding hl.holding)
  | takes withPrelude _ _ =>
    exact Transition.holding_stops.trans
      (.head idleMachine_holding (.head Machine.await_holding Machine.equip_holding))

theorem Later.holding (hl : Later allowed texts a b) : ReflTransGen Moves a.holding b.holding := by
  induction hl with
  | refl => exact .refl
  | tail _ hn ih => exact ih.trans hn.holding

theorem Occurs.apart (ha : Occurs allowed texts a) : a.holding.Apart := by
  obtain ⟨console, hl⟩ := ha
  exact (start_apart console).moves hl.holding

theorem holding_roots : a.holding.roots = a.store.roots := by
  obtain ⟨t, ws⟩ := a
  cases t <;> rfl

theorem holding_modules : a.holding.modules = a.store.modules := by
  obtain ⟨t, ws⟩ := a
  cases t <;> rfl

theorem holding_running : a.holding.running = a.now.tasks.map Task.owner := by
  obtain ⟨t, ws⟩ := a
  cases t with
  | running m =>
    show m.task.owner :: m.waiting.map _ = m.task.owner :: (m.waiting.map _).map _
    rw [List.map_map]
    rfl
  | finished σ v => rfl
  | raised m f => rfl

theorem Occurs.root_eq (ha : Occurs allowed texts a) (hl : Later allowed texts a b)
    (hf : a.store.module? file = some root) : b.store.root root = a.store.root root := by
  have hf : Table.get? a.holding.modules file = some root := by
    rw [holding_modules]
    exact hf
  obtain ⟨ns, hleft⟩ := ha.apart.left hf
  have hlater := (hleft.moves hl.holding).root
  have hnow := hleft.root
  rw [holding_roots] at hnow hlater
  rw [Store.root, Store.root, Array.getD_eq_getD_getElem?, Array.getD_eq_getD_getElem?, hnow, hlater]

end Moment

section

open Moment

variable {allowed : Host → Prop} {texts : Prop} {a b : Moment}

end

open Moment

end MatchLang
