import Mathlib.Logic.Relation
import MatchLang.Proofs.Machine.Action
import MatchLang.Proofs.Machine.Preservation

/-! The scopes of a run and the frames that use them. Each frame has a scope of its own, made later than
those below it; a scope that no frame uses any more is never written again. All this is about a list of
places and an array of scopes, which every step changes in one of a few ways. -/

namespace MatchLang

/-- The scopes of a run, and of each frame of each task the function and the scope, innermost first. -/
structure Activity where
  scopes : Array Scope
  places : List Base

def Task.places (t : Task) : List Base :=
  t.frames.toList.map Base.of

def Machine.places (m : Machine) : List Base :=
  m.task.places ++ m.waiting.flatMap (·.task.places)

def Machine.activity (m : Machine) : Activity :=
  { scopes := m.store.scopes, places := m.places }

namespace Activity

/-- What becomes of scopes and places. -/
inductive Moves : Activity → Activity → Prop where
  | saves {σ b bs} (slot : Nat) (v : Value) :
    Moves ⟨σ, b :: bs⟩ ⟨σ.modify b.scope (·.set slot v), b :: bs⟩
  | begins {σ bs} (c : Closure) :
    Moves ⟨σ, bs⟩ ⟨σ.push { parent := some c.scope, slots := [] }, ⟨c, σ.size⟩ :: bs⟩
  | loads {σ bs} (c : Closure) : c.scope = σ.size →
    Moves ⟨σ, bs⟩ ⟨σ.push { parent := none, slots := [] }, ⟨c, σ.size⟩ :: bs⟩
  | leaves {σ b bs} : Moves ⟨σ, b :: bs⟩ ⟨σ, bs⟩

/-- The scope of a place is the one that its function was made in, or lies right inside that. -/
def Hosts (σ : Array Scope) (b : Base) : Prop :=
  b.scope = b.closure.scope ∨ 0 < b.scope ∧ ∃ s, σ[b.scope]? = some s ∧ s.parent = some b.closure.scope

/-- Every place has a scope of its own. -/
structure Apart (a : Activity) : Prop where
  size : 0 < a.scopes.size
  descending : (a.places.map Base.scope).Pairwise (· > ·)
  scopes : ∀ b ∈ a.places, b.scope < a.scopes.size
  hosts : ∀ b ∈ a.places, Hosts a.scopes b

/-- A scope that no place has any more. -/
structure Left (id : Nat) (s : Scope) (a : Activity) : Prop where
  scope : a.scopes[id]? = some s
  places : ∀ b ∈ a.places, b.scope ≠ id

section

variable {σ : Array Scope} {a a' : Activity} {id slot : Nat} {s : Scope} {v : Value} {b : Base}

theorem Hosts.push (h : Hosts σ b) : Hosts (σ.push s) b := by
  rcases h with h | ⟨hb, t, ht, hp⟩
  · exact .inl h
  · refine .inr ⟨hb, t, ?_, hp⟩
    obtain ⟨hlt, rfl⟩ := Array.getElem?_eq_some_iff.mp ht
    rw [Array.getElem?_push, if_neg (Nat.ne_of_lt hlt)]
    exact Array.getElem?_eq_getElem hlt

theorem Hosts.modify (h : Hosts σ b) : Hosts (σ.modify id (·.set slot v)) b := by
  rcases h with h | ⟨hb, t, ht, hp⟩
  · exact .inl h
  · rw [Hosts, Array.getElem?_modify, ht]
    by_cases hi : id = b.scope
    · exact .inr ⟨hb, t.set slot v, by rw [if_pos hi]; rfl, hp⟩
    · exact .inr ⟨hb, t, by rw [if_neg hi], hp⟩

theorem Apart.push {bs : List Base} {c : Closure} {parent : Option Nat} (h : Apart ⟨σ, bs⟩)
    (hc : c.scope = σ.size ∨ parent = some c.scope) :
    Apart ⟨σ.push { parent, slots := [] }, ⟨c, σ.size⟩ :: bs⟩ := by
  have hsize : (σ.push { parent, slots := [] }).size = σ.size + 1 := Array.size_push _
  have hpos : 0 < σ.size := h.size
  refine ⟨?_, ?_, ?_, ?_⟩
  · show 0 < (σ.push _).size
    omega
  · refine List.pairwise_cons.mpr ⟨fun i hi => ?_, h.descending⟩
    obtain ⟨b, hb, rfl⟩ := List.mem_map.mp hi
    exact h.scopes b hb
  · refine List.forall_mem_cons.mpr ⟨?_, fun b hb => ?_⟩
    · show σ.size < (σ.push _).size
      omega
    · have hlt : b.scope < σ.size := h.scopes b hb
      show b.scope < (σ.push _).size
      omega
  · refine List.forall_mem_cons.mpr ⟨?_, fun b hb => (h.hosts b hb).push⟩
    rcases hc with hc | hc
    · exact .inl hc.symm
    · exact .inr ⟨hpos, _, Array.getElem?_push_size, hc⟩

/-- One move leaves places apart. -/
theorem Moves.apart (hm : Moves a a') (h : Apart a) : Apart a' := by
  cases hm with
  | @saves σ b bs slot v =>
    have hsize : (σ.modify b.scope (·.set slot v)).size = σ.size := Array.size_modify
    refine ⟨?_, h.descending, fun d hd => ?_, fun d hd => (h.hosts d hd).modify⟩
    · show 0 < (σ.modify _ _).size
      rw [hsize]
      exact h.size
    · show d.scope < (σ.modify _ _).size
      rw [hsize]
      exact h.scopes d hd
  | begins c => exact h.push (.inr rfl)
  | loads c hc => exact h.push (.inl hc)
  | leaves =>
    refine ⟨h.size, (List.pairwise_cons.mp h.descending).2, fun d hd => ?_, fun d hd => ?_⟩
    · exact h.scopes d (List.mem_cons_of_mem _ hd)
    · exact h.hosts d (List.mem_cons_of_mem _ hd)

/-- No move reaches a scope that has been left. -/
theorem Moves.left (hm : Moves a a') (h : Left id s a) : Left id s a' := by
  have hpush : ∀ {σ : Array Scope} {bs : List Base} {c : Closure} {t : Scope}, Left id s ⟨σ, bs⟩ →
      Left id s ⟨σ.push t, ⟨c, σ.size⟩ :: bs⟩ := by
    intro σ bs c t h
    obtain ⟨hlt, he⟩ := Array.getElem?_eq_some_iff.mp h.scope
    have hlt : id < σ.size := hlt
    refine ⟨?_, List.forall_mem_cons.mpr ⟨fun he => ?_, h.places⟩⟩
    · show (σ.push t)[id]? = some s
      rw [Array.getElem?_push, if_neg (Nat.ne_of_lt hlt)]
      exact h.scope
    · have he : σ.size = id := he
      omega
  cases hm with
  | @saves σ b bs slot v =>
    refine ⟨?_, h.places⟩
    show (σ.modify b.scope _)[id]? = some s
    rw [Array.getElem?_modify, if_neg (h.places b List.mem_cons_self)]
    exact h.scope
  | begins c => exact hpush h
  | loads c _ => exact hpush h
  | leaves => exact ⟨h.scope, fun d hd => h.places d (List.mem_cons_of_mem _ hd)⟩

/-- The innermost place is the only one with its scope. -/
theorem Apart.left {σ : Array Scope} {bs : List Base} (h : Apart ⟨σ, b :: bs⟩) :
    ∃ s, σ[b.scope]? = some s ∧ Left b.scope s ⟨σ, bs⟩ := by
  have hlt : b.scope < σ.size := h.scopes b List.mem_cons_self
  have hs : σ[b.scope]? = some σ[b.scope] := Array.getElem?_eq_getElem hlt
  refine ⟨σ[b.scope], hs, hs, fun d hd he => ?_⟩
  have hgt : b.scope > d.scope :=
    (List.pairwise_cons.mp h.descending).1 d.scope (List.mem_map_of_mem hd)
  omega

theorem Apart.single {c : Closure} (hs : c.scope < σ.size) : Apart ⟨σ, [⟨c, c.scope⟩]⟩ where
  size := Nat.lt_of_le_of_lt (Nat.zero_le _) hs
  descending := List.pairwise_singleton _ _
  scopes := List.forall_mem_singleton.mpr hs
  hosts := List.forall_mem_singleton.mpr (.inl rfl)

theorem Apart.moves (h : Apart a) (hm : Relation.ReflTransGen Moves a a') : Apart a' := by
  induction hm with
  | refl => exact h
  | tail _ hs ih => exact hs.apart ih

theorem Left.moves (h : Left id s a) (hm : Relation.ReflTransGen Moves a a') : Left id s a' := by
  induction hm with
  | refl => exact h
  | tail _ hs ih => exact hs.left ih

end

end Activity

/-- What a function finds in a slot of the scope it was made in, unless the slot is one of its own. -/
theorem Activity.Hosts.lookup {σ : Store} {b : Base} {n : Nat} {v : Value}
    (h : Hosts σ.scopes b) (ho : σ.slot? b.scope n = none)
    (hs : σ.slot? b.closure.scope n = some v) : σ.lookup b.scope n = some v := by
  rcases h with he | ⟨hpos, t, ht, hp⟩
  · rw [he, hs] at ho
    cases ho
  · have hn : t.get? n = none := by
      rw [Store.slot?, ht] at ho
      exact ho
    obtain ⟨i, hi⟩ : ∃ i, b.scope = i + 1 := Nat.exists_eq_succ_of_ne_zero (by omega)
    unfold Store.slot? at hs
    obtain ⟨u, hu, hv⟩ := Option.bind_eq_some_iff.mp hs
    rw [Store.lookup, Store.lookupFrom, ht]
    simp only [hn, hp, Option.bind_some]
    rw [hi, Store.lookupFrom, hu]
    simp only [hv]

section

open Activity Relation

variable {host : Host} {m m' : Machine} {line : Nat} {k : List Instr} {σ : Store} {os : List Value}

theorem Machine.places_eq :
    m.places = Base.of m.frame :: (m.task.frames.callers.map Base.of ++
      m.waiting.flatMap (·.task.places)) := rfl

theorem Machine.activity_eq_of (hs : m'.store.scopes = m.store.scopes)
    (hp : m'.places = m.places) : m'.activity = m.activity := by
  unfold Machine.activity
  rw [hs, hp]

theorem Machine.deliver_moves {source : Nat} {delivery : Delivery}
    (h : m.deliver source delivery = .running m') : m'.activity = m.activity := by
  cases delivery with
  | whole =>
    cases h
    rfl
  | entry path =>
    simp only [Machine.deliver] at h
    split at h
    · cases h
      rfl
    · cases h

theorem Machine.suspend_moves {delivery : Delivery} {file : String} {code : Code} {n : Nat} :
    Moves m.activity ((m.updateStore fun s => { s with nextSlot := n }).suspend delivery file
      code).activity :=
  .loads (moduleBody file code m.store.scopes.size m.store.roots.size) rfl

theorem Machine.loadPrelude_moves {delivery : Delivery} (h : m.loadPrelude delivery = .running m') :
    ReflTransGen Moves m.activity m'.activity := by
  revert h
  unfold Machine.loadPrelude
  generalize preludeSource = source
  intro h
  cases hm : m.store.module? preludeName with
  | some root =>
    rw [hm] at h
    rw [deliver_moves h]
  | none =>
    rw [hm] at h
    cases hc : compileModule preludeName source m.store.nextSlot with
    | ok r =>
      rw [hc] at h
      cases h
      exact .single suspend_moves
    | error f =>
      rw [hc] at h
      cases h

theorem Machine.load_moves {file : String} {delivery : Delivery}
    (h : m.load host file delivery = .running m') : ReflTransGen Moves m.activity m'.activity := by
  unfold Machine.load at h
  split at h
  · rw [deliver_moves h]
  · split at h
    · exact loadPrelude_moves h
    · split at h
      · cases h
      · split at h
        · cases h
        · simp only at h
          split at h
          · exact .head suspend_moves (loadPrelude_moves h)
          · cases h
            exact .single suspend_moves

theorem Machine.enter_moves {c : Closure} (h : m.enter host c = .running m') :
    Moves m.activity m'.activity := by
  have hp : Transition.running (m.pushFrame c) = .running m' := by
    unfold Machine.enter at h
    split at h
    · split at h
      · cases h
      · exact h
    · exact h
  cases hp
  exact .begins c

theorem Machine.restarted_moves (m : Machine) :
    ReflTransGen Moves m.activity m.restarted.activity :=
  (ReflTransGen.single Moves.leaves).tail (.begins m.frame.closure)

/-- What an instruction comes to is a few moves. -/
theorem Machine.act_moves {op : Op}
    (h : m.act host line k (op.action m.setting line k) = .running m') :
    ReflTransGen Moves m.activity m'.activity := by
  by_cases hop : ∃ argc, op = .tailCall argc
  · obtain ⟨argc, rfl⟩ := hop
    by_cases ha : m.setting.closure.arity = argc
    · have hr : Op.action m.setting line k (.tailCall argc) = .restart := if_pos ha
      rw [hr] at h
      cases h
      exact restarted_moves (m.resume m.store m.operands line k)
    · have hr : Op.action m.setting line k (.tailCall argc) = m.setting.refuse .partialTailCall :=
        if_neg ha
      rw [hr] at h
      cases h
  · have hs : (op.action m.setting line k).Stays m.setting op.saved? :=
      Op.action_stays (not_exists.mp hop)
    generalize op.action m.setting line k = a at h hs
    cases a with
    | proceed σ os is =>
      cases h
      rcases hs.2 with he | ⟨slot, v, -, he⟩
      · have he : (m.resume σ os line is).activity = m.activity := activity_eq_of he rfl
        rw [he]
      · refine .single ?_
        unfold Machine.activity
        rw [resume_store, he]
        exact .saves slot v
    | enter c os =>
      have he : Moves (m.resume m.store os line k).activity m'.activity := enter_moves h
      exact .single he
    | restart => exact hs.elim
    | load file delivery =>
      have hl : ReflTransGen Moves (m.resume m.store m.operands line k).activity m'.activity :=
        load_moves h
      exact hl
    | fail σ os f => cases h

theorem Machine.finish_moves (h : m.finish = .running m') (hc : m.task.frames.callers = []) :
    ReflTransGen Moves m.activity m'.activity := by
  unfold Machine.finish at h
  cases hw : m.waiting with
  | nil =>
    rw [hw] at h
    cases h
  | cons w ws =>
    rw [hw] at h
    rw [deliver_moves h]
    have hp : m.places = Base.of m.frame :: (w.task.places ++ ws.flatMap (·.task.places)) := by
      rw [places_eq, hc, hw]
      rfl
    unfold Machine.activity
    rw [hp]
    exact .single .leaves

/-- A step is a few moves. -/
theorem Machine.step_moves (h : m.step host = .running m') :
    ReflTransGen Moves m.activity m'.activity := by
  cases hr : m.frame.rest with
  | nil =>
    cases hc : m.task.frames.callers with
    | nil =>
      rw [step_nil hr hc] at h
      exact finish_moves h hc
    | cons g gs =>
      obtain ⟨frames, hp, hfs⟩ := Frames.pop?_cons (f := m.frame) (congrArg (m.frame :: ·) hc)
      rw [step_pop hr hp] at h
      cases h
      have hm : (m.withFrames frames).places =
          (g :: gs).map Base.of ++ m.waiting.flatMap (·.task.places) := by
        rw [← hfs]
        rfl
      unfold Machine.activity
      rw [places_eq, hc, hm]
      exact .single .leaves
  | cons i k =>
    obtain ⟨line, op⟩ := i
    rw [step_eq_act hr] at h
    exact act_moves h

theorem Machine.Reaches.moves (h : m.Reaches host m') :
    ReflTransGen Moves m.activity m'.activity :=
  h.preserves (P := fun m₁ => ReflTransGen Moves m.activity m₁.activity)
    (fun _ _ hm hs => hm.trans (step_moves hs)) .refl

end

end MatchLang
