import Mathlib.Logic.Relation
import MatchLang.Proofs.Machine.Inversion

/-! Who has which root. Every module that runs has a root to itself, and so has every workspace; a module
that has run leaves its root to nobody, and no step writes to a root that nobody has. -/

namespace MatchLang

/-- The roots and the modules of a store, the names and the roots of the tasks that are not at their end,
innermost first, and the roots of the open workspaces. -/
structure Holding where
  roots : Array Namespace
  modules : List (String × Nat)
  running : List (String × Nat)
  spaces : List Nat

def Task.owner (t : Task) : String × Nat :=
  (t.module, t.root)

def Machine.owners (m : Machine) : List (String × Nat) :=
  m.task.owner :: m.waiting.map (·.task.owner)

def Store.holding (σ : Store) (running : List (String × Nat)) (spaces : List Nat) : Holding :=
  { roots := σ.roots, modules := σ.modules, running, spaces }

def Machine.holding (m : Machine) (spaces : List Nat) : Holding :=
  m.store.holding m.owners spaces

def Transition.holding (spaces : List Nat) : Transition → Holding
  | .running m => m.holding spaces
  | .finished σ _ => σ.holding [] spaces
  | .raised m _ => m.store.holding [] spaces

/-- The root that is written to while a transition is made. -/
def Transition.root? : Transition → Option Nat
  | .running m => some m.task.root
  | .finished _ _ => none
  | .raised m _ => some m.task.root

namespace Holding

/-- What becomes of the roots and of those who have them. -/
inductive Moves : Holding → Holding → Prop where
  | declares {ρ ms e es rs ns} : (ρ.getD e.2 (.empty true)).Declares ns →
    Moves ⟨ρ, ms, e :: es, rs⟩ ⟨ρ.modify e.2 fun _ => ns, ms, e :: es, rs⟩
  | takes {ρ ms e es rs} (source : Nat) (delivery : Delivery) :
    Moves ⟨ρ, ms, e :: es, rs⟩
      ⟨ρ.modify e.2 fun _ =>
        (delivery.merge (ρ.getD source (.empty true)) (ρ.getD e.2 (.empty true))).1,
        ms, e :: es, rs⟩
  | begins {ρ ms es rs ns} (file : String) : ns.children = [] →
    Moves ⟨ρ, ms, es, rs⟩ ⟨ρ.push ns, ms, (file, ρ.size) :: es, rs⟩
  | ends {ρ ms e d es rs} : Moves ⟨ρ, ms, e :: d :: es, rs⟩ ⟨ρ, Table.set ms e.1 e.2, d :: es, rs⟩
  | stops {ρ ms es rs} : Moves ⟨ρ, ms, es, rs⟩ ⟨ρ, ms, [], rs⟩
  | opens {ρ ms e rs} : Moves ⟨ρ, ms, [e], rs⟩ ⟨ρ, ms, [e], e.2 :: rs⟩
  | rescopes {ρ ms es rs r} : r ∈ rs → Moves ⟨ρ, ms, es, rs⟩ ⟨ρ, ms, es, r :: rs⟩
  | resumes {ρ ms rs r} (module : String) : r ∈ rs → Moves ⟨ρ, ms, [], rs⟩ ⟨ρ, ms, [(module, r)], rs⟩

/-- No two have the same root, but for a workspace and the line that is running in it. -/
structure Apart (h : Holding) : Prop where
  running : (h.running.map (·.2)).Nodup
  runningIn : ∀ e ∈ h.running, e.2 < h.roots.size
  spacesIn : ∀ r ∈ h.spaces, r < h.roots.size
  modulesIn : ∀ file r, Table.get? h.modules file = some r → r < h.roots.size
  waiting : ∀ e ∈ h.running.dropLast, e.2 ∉ h.spaces
  modules : ∀ file r, Table.get? h.modules file = some r →
    r ∉ h.running.map (·.2) ∧ r ∉ h.spaces
  names : ∀ file file' r, Table.get? h.modules file = some r →
    Table.get? h.modules file' = some r → file = file'

/-- A root that nobody has any more. -/
structure Left (r : Nat) (ns : Namespace) (h : Holding) : Prop where
  root : h.roots[r]? = some ns
  running : r ∉ h.running.map (·.2)
  spaces : r ∉ h.spaces

section

variable {h h' : Holding} {r : Nat} {ns : Namespace}

theorem Apart.modify {ρ : Array Namespace} {ms : List (String × Nat)} {es : List (String × Nat)}
    {rs : List Nat} (ha : Apart ⟨ρ, ms, es, rs⟩) (i : Nat) (ns : Namespace) :
    Apart ⟨ρ.modify i fun _ => ns, ms, es, rs⟩ := by
  have hsize : (ρ.modify i fun _ => ns).size = ρ.size := Array.size_modify
  refine ⟨ha.running, fun e he => ?_, fun r hr => ?_, fun file r hf => ?_, ha.waiting, ha.modules,
    ha.names⟩
  · exact Nat.lt_of_lt_of_eq (ha.runningIn e he) hsize.symm
  · exact Nat.lt_of_lt_of_eq (ha.spacesIn r hr) hsize.symm
  · exact Nat.lt_of_lt_of_eq (ha.modulesIn file r hf) hsize.symm

theorem Moves.apart (hm : Moves h h') (ha : Apart h) : Apart h' := by
  cases hm with
  | declares _ => exact ha.modify _ _
  | takes source delivery => exact ha.modify _ _
  | @begins ρ ms es rs ns file _ =>
    have hsize : (ρ.push ns).size = ρ.size + 1 := Array.size_push _
    have hnew : ∀ r, r < ρ.size → r < (ρ.push ns).size := fun r hr => by omega
    have hrun : ρ.size ∉ es.map (·.2) := by
      intro hmem
      obtain ⟨e, he, heq⟩ := List.mem_map.mp hmem
      exact absurd (ha.runningIn e he) (by simp only [heq, Nat.lt_irrefl, not_false_eq_true])
    have hsp : ρ.size ∉ rs := fun hmem => Nat.lt_irrefl _ (ha.spacesIn _ hmem)
    refine ⟨List.nodup_cons.mpr ⟨hrun, ha.running⟩, ?_, fun r hr => hnew r (ha.spacesIn r hr),
      fun f r hf => hnew r (ha.modulesIn f r hf), ?_, fun f r hf => ?_, ha.names⟩
    · exact List.forall_mem_cons.mpr ⟨by show ρ.size < (ρ.push ns).size; omega,
        fun e he => hnew _ (ha.runningIn e he)⟩
    · cases es with
      | nil => exact nofun
      | cons d es => exact List.forall_mem_cons.mpr ⟨hsp, ha.waiting⟩
    · obtain ⟨hr, hs⟩ := ha.modules f r hf
      refine ⟨fun hmem => ?_, hs⟩
      rcases List.mem_cons.mp hmem with he | hmem
      · have hlt : r < ρ.size := ha.modulesIn f r hf
        have he : r = ρ.size := he
        omega
      · exact hr hmem
  | @ends ρ ms e d es rs =>
    have hne : e.2 ∉ (d :: es).map (·.2) := (List.nodup_cons.mp ha.running).1
    have hws : e.2 ∉ rs := ha.waiting e List.mem_cons_self
    have hold : ∀ f, Table.get? ms f ≠ some e.2 :=
      fun f hf => (ha.modules f _ hf).1 List.mem_cons_self
    refine ⟨(List.nodup_cons.mp ha.running).2,
      fun c hc => ha.runningIn c (List.mem_cons_of_mem _ hc), ha.spacesIn, fun f r hf => ?_,
      fun c hc => ha.waiting c (List.mem_cons_of_mem _ hc), fun f r hf => ?_,
      fun f g r hf hg => ?_⟩
    · rw [Table.get?_set] at hf
      split at hf
      · cases hf
        exact ha.runningIn e List.mem_cons_self
      · exact ha.modulesIn f r hf
    · rw [Table.get?_set] at hf
      split at hf
      · cases hf
        exact ⟨hne, hws⟩
      · obtain ⟨hr, hs⟩ := ha.modules f r hf
        exact ⟨fun hmem => hr (List.mem_cons_of_mem _ hmem), hs⟩
    · rw [Table.get?_set] at hf hg
      split at hf <;> split at hg
      · rename_i h₁ h₂
        exact h₁.trans h₂.symm
      · cases hf
        exact absurd hg (hold g)
      · cases hg
        exact absurd hf (hold f)
      · exact ha.names f g r hf hg
  | stops =>
    exact ⟨.nil, nofun, ha.spacesIn, ha.modulesIn, nofun,
      fun f r hf => ⟨List.not_mem_nil, (ha.modules f r hf).2⟩, ha.names⟩
  | @opens ρ ms e rs =>
    refine ⟨ha.running, ha.runningIn, List.forall_mem_cons.mpr
      ⟨ha.runningIn e List.mem_cons_self, ha.spacesIn⟩, ha.modulesIn, nofun, fun f r hf => ?_,
      ha.names⟩
    obtain ⟨hr, hs⟩ := ha.modules f r hf
    refine ⟨hr, fun hmem => ?_⟩
    rcases List.mem_cons.mp hmem with rfl | hmem
    · exact hr List.mem_cons_self
    · exact hs hmem
  | @rescopes ρ ms es rs r hr =>
    have hin : ∀ i, i ∈ r :: rs → i ∈ rs := fun i hi => (List.mem_cons.mp hi).elim (· ▸ hr) id
    exact ⟨ha.running, ha.runningIn, fun i hi => ha.spacesIn i (hin i hi), ha.modulesIn,
      fun e he hmem => ha.waiting e he (hin _ hmem),
      fun f i hf => ⟨(ha.modules f i hf).1, fun hmem => (ha.modules f i hf).2 (hin i hmem)⟩,
      ha.names⟩
  | @resumes ρ ms rs r module hr =>
    refine ⟨List.pairwise_singleton _ _, List.forall_mem_singleton.mpr (ha.spacesIn r hr), ha.spacesIn,
      ha.modulesIn, nofun, fun f i hf => ?_, ha.names⟩
    obtain ⟨_, hs⟩ := ha.modules f i hf
    refine ⟨fun hmem => ?_, hs⟩
    exact hs (List.mem_singleton.mp hmem ▸ hr)

/-- No move writes to a root that nobody has. -/
theorem Moves.left (hm : Moves h h') (hl : Left r ns h) : Left r ns h' := by
  have hmodify : ∀ {ρ : Array Namespace} {ms : List (String × Nat)} {e : String × Nat}
      {es : List (String × Nat)} {rs : List Nat} {c : Namespace}, Left r ns ⟨ρ, ms, e :: es, rs⟩ →
      Left r ns ⟨ρ.modify e.2 fun _ => c, ms, e :: es, rs⟩ := by
    intro ρ ms e es rs c hl
    have hne : e.2 ≠ r := fun he => hl.running (he ▸ List.mem_cons_self)
    refine ⟨?_, hl.running, hl.spaces⟩
    show (ρ.modify e.2 _)[r]? = some ns
    rw [Array.getElem?_modify, if_neg hne]
    exact hl.root
  cases hm with
  | declares _ => exact hmodify hl
  | takes source delivery => exact hmodify hl
  | @begins ρ ms es rs c file _ =>
    obtain ⟨hlt, he⟩ := Array.getElem?_eq_some_iff.mp hl.root
    have hlt : r < ρ.size := hlt
    refine ⟨?_, fun hmem => ?_, hl.spaces⟩
    · show (ρ.push c)[r]? = some ns
      rw [Array.getElem?_push, if_neg (Nat.ne_of_lt hlt)]
      exact hl.root
    · rcases List.mem_cons.mp hmem with he | hmem
      · have he : r = ρ.size := he
        omega
      · exact hl.running hmem
  | ends => exact ⟨hl.root, fun hmem => hl.running (List.mem_cons_of_mem _ hmem), hl.spaces⟩
  | stops => exact ⟨hl.root, List.not_mem_nil, hl.spaces⟩
  | opens =>
    refine ⟨hl.root, hl.running, fun hmem => ?_⟩
    rcases List.mem_cons.mp hmem with rfl | hmem
    · exact hl.running List.mem_cons_self
    · exact hl.spaces hmem
  | rescopes hr =>
    refine ⟨hl.root, hl.running, fun hmem => ?_⟩
    rcases List.mem_cons.mp hmem with rfl | hmem
    · exact hl.spaces hr
    · exact hl.spaces hmem
  | resumes module hr =>
    refine ⟨hl.root, fun hmem => ?_, hl.spaces⟩
    exact hl.spaces (List.mem_singleton.mp hmem ▸ hr)

theorem Apart.moves (ha : Apart h) (hm : Relation.ReflTransGen Moves h h') : Apart h' := by
  induction hm with
  | refl => exact ha
  | tail _ hs ih => exact hs.apart ih

theorem Left.moves (hl : Left r ns h) (hm : Relation.ReflTransGen Moves h h') : Left r ns h' := by
  induction hm with
  | refl => exact hl
  | tail _ hs ih => exact hs.left ih

/-- The root of a module that has run is nobody's. -/
theorem Apart.left {file : String} (ha : Apart h) (hf : Table.get? h.modules file = some r) :
    ∃ ns, Left r ns h :=
  have hlt := ha.modulesIn file r hf
  ⟨h.roots[r], Array.getElem?_eq_getElem hlt, (ha.modules file r hf).1, (ha.modules file r hf).2⟩

end

end Holding

section

open Holding Relation

variable {host : Host} {m m' : Machine} {line : Nat} {k : List Instr} {σ : Store} {os : List Value}
  {file : String} {delivery : Delivery} {spaces : List Nat} {t : Transition} {h : Holding}

theorem Machine.orRaise_holding {fault : Option Fault}
    (hm : ReflTransGen Moves h (m.holding spaces)) :
    ReflTransGen Moves h ((m.orRaise fault).holding spaces) := by
  cases fault with
  | none => exact hm
  | some f => exact hm.tail .stops

theorem Machine.deliver_holding {source : Nat} :
    ReflTransGen Moves (m.holding spaces) ((m.deliver source delivery).holding spaces) := by
  rw [deliver_eq]
  exact orRaise_holding (.single (.takes (e := m.task.owner) source delivery))

theorem Machine.await_holding {code : Code} {next : Nat} :
    Moves (m.holding spaces) ((m.await delivery file code next).holding spaces) :=
  .begins file seed_children

theorem Machine.Loaded.holding (hl : m.Loaded host file delivery t) :
    ReflTransGen Moves (m.holding spaces) (t.holding spaces) := by
  induction hl with
  | cached _ => exact deliver_holding
  | faults _ => exact .single .stops
  | begins _ _ _ => exact .single await_holding
  | equips _ _ _ _ _ _ ih => exact .head await_holding ih

theorem Setting.Writes.holding (hw : m.setting.Writes σ) (es : List (String × Nat)) :
    ReflTransGen Moves (m.store.holding (m.task.owner :: es) spaces)
      (σ.holding (m.task.owner :: es) spaces) := by
  obtain ⟨hm, hr | ⟨ns, hd, hr⟩⟩ := hw
  · unfold Store.holding
    rw [hm, hr]
    exact .refl
  · have hd : (m.store.roots.getD m.task.owner.2 (.empty true)).Declares ns := hd
    unfold Store.holding
    rw [hm, hr]
    exact .single (.declares hd)

theorem Machine.step_holding :
    ReflTransGen Moves (m.holding spaces) ((m.step host).holding spaces) := by
  have hs := m.stepped host
  generalize m.step host = t at hs
  cases hs with
  | goes _ hw _ => exact hw.holding _
  | enters _ _ _ => exact .refl
  | restarts => exact .refl
  | @loads line op k file delivery _ _ =>
    have hl : (m.resume m.store m.operands line k).Loaded host file delivery _ := load_loaded
    exact hl.holding
  | @faults σ os line k f hm hr =>
    have he : ((m.resume σ os line k).store.holding [] spaces) = m.store.holding [] spaces := by
      unfold Store.holding
      rw [resume_store, hm, hr]
    show ReflTransGen Moves _ ((m.resume σ os line k).store.holding [] spaces)
    rw [he]
    exact .single .stops
  | returns _ _ => exact .refl
  | ends _ _ =>
    unfold finish
    cases hw : m.waiting with
    | nil => exact .single .stops
    | cons w ws =>
      have he : m.holding spaces =
          m.store.holding (m.task.owner :: w.task.owner :: ws.map (·.task.owner)) spaces := by
        unfold holding owners
        rw [hw]
        rfl
      let next : Machine :=
        { store := m.store.remember m.task.module m.task.root, task := w.task, waiting := ws }
      have hd : ReflTransGen Moves (next.holding spaces)
          ((next.deliver m.task.root w.delivery).holding spaces) := deliver_holding
      rw [he]
      exact .head .ends hd

end

end MatchLang
