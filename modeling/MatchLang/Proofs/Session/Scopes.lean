import MatchLang.Proofs.Machine.Functions
import MatchLang.Proofs.Session.Retired

/-! The scopes of a session. At every moment the functions that are about lie in scopes that are there, and a function
that was called has nothing in its scope but what its own code saves. -/

namespace MatchLang

/-- A frame that was called keeps in its scope what its own code saves. The body of a module is not called, and runs
in the scope that it lies in. -/
def Store.Owns (σ : Store) (f : Frame) : Prop :=
  f.scope = f.closure.scope ∨ ∀ n v, σ.slot? f.scope n = some v → f.closure.code.Saves n

/-- A run whose functions lie in scopes that are there, and whose frames have scopes of their own. -/
structure Machine.Settled (m : Machine) : Prop where
  closed : m.Closed
  apart : m.activity.Apart
  owns : ∀ f ∈ m.stack, m.store.Owns f

def Transition.Settled : Transition → Prop
  | .running m => m.Settled
  | .finished σ _ => σ.Closed
  | .raised m _ => m.store.Closed

section

variable {host : Host} {m : Machine} {t : Transition} {f : Frame} {file : String} {delivery : Delivery}
  {scope : Nat} {saved : Option Nat} {around : Nat → Prop} {σ τ : Store}

theorem Store.Owns.after (ho : σ.Owns f) (h : σ.After scope saved around τ)
    (hs : f.scope = scope → ∀ n, saved = some n → f.closure.code.Saves n) : τ.Owns f := by
  refine ho.imp_right fun ho n v hv => ?_
  by_cases hn : f.scope = scope ∧ saved = some n
  · exact hs hn.1 n hn.2
  · rw [h.slots _ n fun ht he => hn ⟨ht, he⟩] at hv
    exact ho n v hv

theorem Frame.Begun.owns (hb : f.Begun σ τ) (h : σ.After scope saved around τ)
    (hs : f.scope = scope → saved = none) : τ.Owns f := by
  refine .inr fun n v hv => ?_
  rw [h.slots _ n fun ht => by rw [hs ht]; nofun, Store.slot?_size hb.new] at hv
  cases hv

theorem Machine.places_stack : m.places = m.stack.map Base.of := by
  unfold places stack below Task.places
  rw [List.map_cons, List.map_append, List.map_flatMap]
  rfl

/-- The running frame is the only one with its scope. -/
theorem Machine.closure_of_scope (ha : m.activity.Apart) (hf : f ∈ m.stack) (hs : f.scope = m.frame.scope) :
    f.closure = m.frame.closure := by
  have hd : (m.places.map Base.scope).Pairwise (· > ·) := ha.descending
  rw [places_stack, List.map_map, stack, List.map_cons] at hd
  rcases List.mem_cons.mp hf with rfl | hf
  · rfl
  · have hlt : m.frame.scope > f.scope := (List.pairwise_cons.mp hd).1 _ (List.mem_map_of_mem hf)
    exact absurd hs (Nat.ne_of_lt hlt)

theorem Transition.settled_of (hc : t.Closed) (ha : ∀ m, t = .running m → m.activity.Apart)
    (ho : ∀ f ∈ t.stack, t.store.Owns f) : t.Settled := by
  cases t with
  | running m => exact ⟨hc, ha m rfl, ho⟩
  | finished σ v => exact hc
  | raised m f => exact hc

theorem Transition.Settled.store (h : t.Settled) : t.store.Closed := by
  cases t with
  | running m => exact (Machine.Settled.closed h).store
  | finished σ v => exact h
  | raised m f => exact h

namespace Machine.Settled

theorem adds (h : m.Settled) (ha : m.Adds t) (hm : Relation.ReflTransGen Activity.Moves m.activity t.activity) :
    t.Settled := by
  refine Transition.settled_of (h.closed.adds ha) ?_ fun f hf => ?_
  · rintro m' rfl
    exact h.apart.moves hm
  · rcases ha.stack f hf with hf | hl
    · exact (h.owns f hf).after ha.after fun _ => nofun
    · exact hl.begun.owns ha.after fun _ => rfl

theorem loaded (h : m.Settled) (hl : m.Loaded host file delivery t) : t.Settled :=
  h.adds hl.adds hl.activity

theorem step (h : m.Settled) : (m.step host).Settled := by
  have hafter : m.store.After m.frame.scope m.frame.saved? m.Around (m.step host).store := step_after
  have hself := h.closed.frames m.frame List.mem_cons_self
  have hbegun : ∀ {f : Frame}, f.Begun m.store (m.step host).store → (m.step host).store.Owns f := by
    intro f hb
    refine hb.owns hafter fun he => absurd hself.scope ?_
    rw [← he]
    exact Nat.not_lt.mpr hb.new
  refine Transition.settled_of h.closed.step ?_ fun f hf => ?_
  · intro m' hs
    have hm : Relation.ReflTransGen Activity.Moves m.activity (m.step host).activity := step_activity
    rw [hs] at hm
    exact h.apart.moves hm
  · have hy : m.Yields (m.step host).store f := step_stack hf
    cases hy with
    | stays hg =>
      refine (h.owns f hg).after hafter fun he n hn => ?_
      rw [closure_of_scope h.apart hg he]
      exact hself.inCode.saves hn
    | goes _ _ he =>
      subst he
      have ho : m.store.Owns m.frame := h.owns m.frame List.mem_cons_self
      exact ho.after hafter fun _ n hn => hself.inCode.saves hn
    | begins hb _ => exact hbegun hb
    | loads hl => exact hbegun hl.begun

end Machine.Settled

theorem Store.Closed.after (h : σ.Closed) (ha : σ.After scope saved (fun _ => False) τ) (he : τ.Every σ.Admits) :
    τ.Closed :=
  ⟨ha.descends h.parents fun _ => False.elim, he.mono fun _ hc => ha.admits hc⟩

theorem Store.Closed.of_scopes (h : σ.Closed) (hs : τ.scopes = σ.scopes) (hn : σ.nextSlot ≤ τ.nextSlot)
    (he : τ.Every σ.Admits) : τ.Closed :=
  have ha : σ.After 0 none (fun _ => False) τ := .of_scopes hs hn
  h.after ha he

theorem Store.Closed.withNextSlot {next : Nat} (h : σ.Closed) (hn : σ.nextSlot ≤ next) :
    Store.Closed { σ with nextSlot := next } :=
  h.of_scopes rfl hn (h.functions.congr rfl rfl)

theorem Store.Closed.newScope (h : σ.Closed) : (σ.newScope none).2.Closed :=
  have ha : σ.After 0 none (fun _ => False) (σ.newScope none).2 := .newScope nofun
  h.after ha h.functions.newScope

theorem Store.Closed.newTask {module : String} {code : Code} (h : σ.Closed) : (σ.newTask module code).2.Closed :=
  have hr : σ.newSeededRoot.2.Closed :=
    h.of_scopes rfl (Nat.le_refl _)
      (h.functions.newRoot Namespace.seed_every (Namespace.tidy_of_nil seed_children))
  hr.newScope

theorem Store.initial_closed (console : Console) : (Store.initial console).Closed where
  parents _ _ := nofun
  functions := .initial console

/-- A run that begins with the body of a module in a scope that is there. -/
theorem Machine.body_settled {module : String} {code : Code} {root : Nat} (h : τ.Closed)
    (hs : scope < τ.scopes.size) (hc : code.EverySlot (·.id < τ.nextSlot)) :
    Machine.Settled { store := τ, task := bodyTask module code scope root, waiting := [] } where
  closed := ⟨h, ⟨h.functions, trivial, nofun⟩, List.forall_mem_singleton.mpr ⟨⟨hs, hc⟩, hs, List.suffix_refl _⟩⟩
  apart := Activity.Apart.single (c := moduleBody module code scope root) hs
  owns := List.forall_mem_singleton.mpr (.inl rfl)

theorem Machine.Settled.equip {withPrelude : Bool} (h : m.Settled) : (m.equip withPrelude).Settled := by
  unfold Machine.equip
  split
  · have hl : m.Loaded bareHost preludeName .whole (m.loadPrelude .whole) := loadPrelude_loaded
    exact h.loaded hl
  · exact h

theorem beginCode_settled {withPrelude : Bool} {module : String} {code : Code} (h : σ.Closed)
    (hc : code.EverySlot (·.id < σ.nextSlot)) : (beginCode σ withPrelude module code).Settled := by
  have hlt : σ.scopes.size < (σ.newTask module code).2.scopes.size :=
    Nat.lt_of_lt_of_eq (Nat.lt_succ_self _) Store.size_newScope.symm
  have hm : Machine.Settled
      { store := (σ.newTask module code).2, task := (σ.newTask module code).1, waiting := [] } :=
    Machine.body_settled h.newTask hlt hc
  exact hm.equip

theorem idleMachine_settled (h : σ.Closed) : (idleMachine σ).Settled := by
  have hr : (σ.newRoot (.empty true)).2.Closed :=
    h.of_scopes rfl (Nat.le_refl _)
      (h.functions.newRoot Namespace.empty_every (Namespace.tidy_of_nil rfl))
  exact Machine.body_settled hr.newScope (Nat.lt_of_lt_of_eq (Nat.lt_succ_self _) Store.size_newScope.symm) trivial

end

namespace Moment

variable {allowed : Host → Prop} {texts : Prop} {a b : Moment}

theorem Next.settled (hn : Next allowed texts a b) (ha : a.Ok) (hs : a.now.Settled) : b.now.Settled := by
  have hstore : a.store.Closed := hs.store
  cases hn with
  | steps _ => exact Machine.Settled.step hs
  | @hears t ws console =>
    have hcongr : ∀ {σ : Store}, σ.Closed → Store.Closed { σ with console } := fun hσ =>
      hσ.of_scopes rfl (Nat.le_refl _) (hσ.functions.congr rfl rfl)
    cases t with
    | running m => exact Machine.Settled.adds hs (m.hear_adds console) .refl
    | finished σ v => exact hcongr hs
    | raised m f => exact hcongr hs
  | @begins t ws p u hp =>
    cases hp with
    | @module code next publishRoot withPrelude module hc =>
      obtain ⟨hle, hslots⟩ := compile_between hc
      exact beginCode_settled (hstore.withNextSlot hle) (.mono (fun _ hb => hb.2) _ hslots)
    | @line code next w publishRoot hc hw =>
      obtain ⟨hle, hslots⟩ := compile_between hc
      exact Machine.body_settled (hstore.withNextSlot hle) (ha.spaces w hw).scope (.mono (fun _ hb => hb.2) _ hslots)
  | opens withPrelude module => exact beginCode_settled hstore trivial
  | rescopes _ => exact hstore.newScope
  | @loads t ws host file _ =>
    have hl : (idleMachine t.store).Loaded host file .whole _ := Machine.load_loaded
    exact (idleMachine_settled hstore).loaded hl
  | @takes t ws file source code next withPrelude _ hc =>
    exact ((idleMachine_settled hstore).adds (Machine.await_adds hc) (.single Machine.await_activity)).equip

theorem Occurs.settled (ha : Occurs allowed texts a) : a.now.Settled := by
  obtain ⟨console, hl⟩ := ha
  induction hl with
  | refl => exact Store.initial_closed console
  | tail hl hn ih => exact hn.settled (Occurs.ok ⟨console, hl⟩) ih

end Moment

end MatchLang
