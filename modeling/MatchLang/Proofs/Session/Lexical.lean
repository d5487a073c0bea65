import MatchLang.Proofs.Grammar.Numbering
import MatchLang.Proofs.Lowering.Lexical
import MatchLang.Proofs.Machine.Lexical
import MatchLang.Proofs.Session.Lines

/-! Slots in a session. The programs that it reads are compiled to lexical code, and each runs in the scope that its
unit has; so what is found in a slot was saved by the unit around the reading one that saves to it, in the scope that
is around the reading one for that unit. -/

namespace MatchLang

/-- A transition from a store with nothing but whole programs that begin. -/
structure Store.Starts (σ : Store) (t : Transition) : Prop where
  after : σ.After 0 none (fun _ => False) t.store
  every : ∀ P, σ.Every P → t.Every P
  stack : ∀ f ∈ t.stack, f.Opens σ t.store

section

variable {ran : Nat → Code → Prop} {host : Host} {m : Machine} {t : Transition} {f g : Frame} {file module : String}
  {delivery : Delivery} {σ τ υ : Store} {code : Code} {n next : Nat} {p : Program} {source : String}

theorem Code.Loaded.whole (h : code.Loaded) : code.Whole := by
  obtain ⟨file, source, n, next, hc⟩ := h
  obtain ⟨p, hp, hc⟩ := compileModule_eq_ok hc
  exact compile_whole (Program.read_ids_nodup hp) hc

theorem Code.EverySlot.bounded (h : code.EverySlot (·.id < next)) : ∀ n, code.SavesWithin n → n < next := by
  intro n hn
  obtain ⟨slot, hlt, rfl⟩ := h.savesWithin hn
  exact hlt

theorem Frame.Loads.opens (h : f.Loads σ τ) : f.Opens σ τ :=
  ⟨h.begun, h.outermost, h.text.whole, h.admits.slots.bounded⟩

/-- Two frames have the same scope only if they have the same function. -/
theorem Transition.Settled.closure_of_scope (ht : t.Settled) (hf : f ∈ t.stack) (hg : g ∈ t.stack)
    (hs : f.scope = g.scope) : f.closure = g.closure := by
  cases t with
  | finished σ v => cases hf
  | raised m fault => cases hf
  | running m =>
    have hd : (m.places.map Base.scope).Pairwise (· > ·) := (Machine.Settled.apart ht).descending
    rw [Machine.places_stack, List.map_map, List.pairwise_map] at hd
    have hne : m.stack.Pairwise fun f g => f.scope = g.scope → f.closure = g.closure :=
      hd.imp fun hgt he => absurd he.symm (Nat.ne_of_lt hgt)
    have hflip : m.stack.Pairwise (flip fun f g => f.scope = g.scope → f.closure = g.closure) :=
      hd.imp fun hgt he => absurd he (Nat.ne_of_lt hgt)
    exact hne.forall_of_forall_of_flip (fun _ _ _ => rfl) hflip hf hg hs

/-- A function that was called lies right around the scope of its frame. -/
theorem Transition.Settled.parent_of_begun (ht : t.Settled) (hf : f ∈ t.stack) (hb : f.Begun σ τ)
    (hc : f.closure.scope < σ.scopes.size) : t.store.parent? f.scope = some f.closure.scope := by
  cases t with
  | finished σ v => cases hf
  | raised m fault => cases hf
  | running m =>
    have hplace : Base.of f ∈ m.places := by
      rw [Machine.places_stack]
      exact List.mem_map_of_mem hf
    rcases (Machine.Settled.apart ht).hosts _ hplace with he | ⟨-, s, hs, hp⟩
    · have he : f.scope = f.closure.scope := he
      exact absurd hb.new (he ▸ Nat.not_le.mpr hc)
    · exact Option.bind_eq_some_iff.mpr ⟨s, hs, hp⟩

namespace Machine.Lexical

/-- What the next instruction begins is a function in its proper place. -/
theorem begins {c : Closure} (h : m.Lexical ran) (hm : m.Closed) (hc : m.Invokes c) : m.store.Places ran c := by
  have hself : m.store.Runs ran m.frame := h.frames m.frame List.mem_cons_self
  have hin : m.frame.InCode := (hm.frames m.frame List.mem_cons_self).inCode
  cases hc with
  | @restarts line argc k hr he =>
    have hmem : .mk line (.tailCall argc) ∈ m.frame.closure.code.instrs := hin.subset (hr ▸ List.mem_cons_self)
    exact he ▸ hself.again.resolve_left fun hsteady => hsteady _ hmem argc rfl
  | @enters line op k os hr ha =>
    have hop : (op.action m.setting line k).Every (m.store.Places ran) :=
      Op.action_every h.functions.store h.functions.operands fun code arity he =>
        hself.makes ⟨line, arity, hin.subset (hr ▸ he ▸ List.mem_cons_self)⟩
    rw [ha] at hop
    exact hop.1

/-- A step leaves the scopes in order. -/
theorem step (h : m.Lexical ran) (hm : m.Settled) :
    (m.step host).Lexical ((m.step host).record ran) := by
  have hself : m.store.Runs ran m.frame := h.frames m.frame List.mem_cons_self
  have hin : m.frame.InCode := (hm.closed.frames m.frame List.mem_cons_self).inCode
  have hsettled : (m.step host).Settled := hm.step
  have hafter : m.store.After m.frame.scope m.frame.saved? m.Around (m.step host).store := step_after
  have hevery : (m.step host).Every (m.store.Places ran) :=
    h.functions.step fun line code arity k hr => hself.makes ⟨line, arity, hin.subset (hr ▸ List.mem_cons_self)⟩
  refine h.store.goes hm.closed.store h.frames hafter (fun n hn => ⟨_, hself.here, hin.saves hn⟩) hevery
    (fun f hf => ?_) fun f hf g hg => hsettled.closure_of_scope hf hg
  have hy : m.Yields (m.step host).store f := step_stack hf
  cases hy with
  | stays hg => exact .stays hg rfl rfl
  | goes _ _ he => exact .stays List.mem_cons_self (he ▸ rfl) (he ▸ rfl)
  | begins hb hc =>
    exact .called hb (hsettled.parent_of_begun hf hb (hm.closed.begins hc).scope) (h.begins hm.closed hc)
  | loads hl => exact .opens hl.opens

end Machine.Lexical

theorem Transition.Lexical.frames (h : t.Lexical ran) : ∀ f ∈ t.stack, t.store.Runs ran f := by
  cases t with
  | running m => exact Machine.Lexical.frames h
  | finished σ v => exact nofun
  | raised m fault => exact nofun

theorem Transition.Lexical.every (h : t.Lexical ran) : t.Every (t.store.Places ran) := by
  cases t with
  | running m => exact Machine.Lexical.functions h
  | finished σ v => exact Store.Lexical.functions h
  | raised m fault => exact Store.Lexical.functions h

theorem Transition.Lexical.hear (console : Console) (h : t.Lexical ran) (ht : t.Settled) :
    (t.hear console).Lexical ((t.hear console).record ran) := by
  have hstack : (t.hear console).stack = t.stack := by cases t <;> rfl
  have hafter : t.store.After 0 none (fun _ => False) (t.hear console).store := by
    cases t <;> exact .of_scopes rfl (Nat.le_refl _)
  have hevery : (t.hear console).Every (t.store.Places ran) := by
    cases t with
    | running m => exact (m.hear_adds console).every _ (Machine.Lexical.functions h)
    | finished σ v => exact h.store.functions.congr rfl rfl
    | raised m fault => exact h.store.functions.congr rfl rfl
  refine h.store.goes ht.store h.frames hafter (fun _ hn => by cases hn) hevery (fun f hf => ?_) fun f hf g hg => ?_
  · exact .stays (hstack ▸ hf) rfl rfl
  · exact ht.closure_of_scope (hstack ▸ hf) (hstack ▸ hg)

namespace Store.Starts

theorem adds (h : σ.Starts (.running m)) (ha : m.Adds t) : σ.Starts t where
  after := h.after.trans ha.after
  every P hP := ha.every P (h.every P hP)
  stack f hf := by
    rcases ha.stack f hf with hf | hl
    · obtain ⟨hb, ho, hw, hbound⟩ := h.stack f hf
      exact ⟨⟨hb.new, Nat.lt_of_lt_of_le hb.there ha.after.size, hb.rest⟩, (ha.after.parents _ hb.there).trans ho, hw,
        fun n hn => Nat.lt_of_lt_of_le (hbound n hn) ha.after.nextSlot⟩
    · obtain ⟨hb, ho, hw, hbound⟩ := hl.opens
      exact ⟨⟨Nat.le_trans h.after.size hb.new, hb.there, hb.rest⟩, ho, hw, hbound⟩

theorem withNextSlot (h : Store.Starts { σ with nextSlot := next } t) (hn : σ.nextSlot ≤ next) : σ.Starts t where
  after :=
    have ha : σ.After 0 none (fun _ => False) { σ with nextSlot := next } := .of_scopes rfl hn
    ha.trans h.after
  every P hP := h.every P (hP.congr rfl rfl)
  stack f hf := by
    obtain ⟨hb, ho, hw, hbound⟩ := h.stack f hf
    exact ⟨⟨hb.new, hb.there, hb.rest⟩, ho, hw, hbound⟩

/-- A run that begins with a whole program in a new scope. -/
theorem body {root : Nat} (hw : code.Whole) (hb : ∀ n, code.SavesWithin n → n < σ.nextSlot)
    (hs : τ.scopes = σ.scopes) (hn : τ.nextSlot = σ.nextSlot) (he : ∀ P, σ.Every P → τ.Every P) :
    σ.Starts (.running
      { store := (τ.newScope none).2, task := bodyTask module code τ.scopes.size root, waiting := [] }) where
  after :=
    have ha : σ.After 0 none (fun _ => False) τ := .of_scopes hs (Nat.le_of_eq hn.symm)
    ha.trans (.newScope nofun)
  every P hP := ⟨(he P hP).newScope, trivial, nofun⟩
  stack := by
    refine List.forall_mem_singleton.mpr ⟨⟨Nat.le_of_eq (by rw [hs]; rfl), ?_, rfl⟩, Store.parent?_newScope_self, hw, ?_⟩
    · exact Nat.lt_of_lt_of_eq (Nat.lt_succ_self _) Store.size_newScope.symm
    · exact fun n h => Nat.lt_of_lt_of_eq (hb n h) hn.symm

theorem beginCode {withPrelude : Bool} (hw : code.Whole) (hb : ∀ n, code.SavesWithin n → n < σ.nextSlot) :
    σ.Starts (beginCode σ withPrelude module code) := by
  let m : Machine :=
    { store := (σ.newTask module code).2, task := (σ.newTask module code).1, waiting := [] }
  have hm : σ.Starts (.running m) :=
    .body (τ := σ.newSeededRoot.2) hw hb rfl rfl fun P hP =>
      hP.newRoot Namespace.seed_every (Namespace.tidy_of_nil seed_children)
  exact hm.adds Machine.equip_adds

theorem idleMachine : σ.Starts (.running (idleMachine σ)) :=
  .body (τ := (σ.newRoot (.empty true)).2) Code.empty_whole (Code.EverySlot.bounded (by trivial)) rfl rfl fun P hP =>
    hP.newRoot Namespace.empty_every (Namespace.tidy_of_nil rfl)

/-- Whole programs that begin leave the scopes in order. -/
theorem lexical (h : σ.Starts t) (hl : σ.Lexical ran) (hσ : σ.Closed) (ht : t.Settled) :
    t.Lexical (t.record ran) :=
  hl.goes hσ (List.forall_mem_nil _) h.after (fun _ hn => by cases hn) (h.every _ hl.functions)
    (fun f hf => .opens (h.stack f hf)) fun _ hf _ hg => ht.closure_of_scope hf hg

end Store.Starts

/-- A line that begins in the scope of a workspace has slots of its own, and leaves the scopes in order. -/
theorem Store.Lexical.line {w : Workspace} (hl : σ.Lexical ran) (hσ : σ.Closed) (hs : w.scope < σ.scopes.size)
    (hp : σ.parent? w.scope = none) (hn : σ.nextSlot ≤ next) (hslots : code.EverySlot (·.Between σ.nextSlot next))
    (hw : code.Whole) :
    Machine.Lexical (Transition.record ran (.running (w.begin { σ with nextSlot := next } code)))
      (w.begin { σ with nextSlot := next } code) := by
  let m := w.begin { σ with nextSlot := next } code
  let ran' := Transition.record ran (.running m)
  have hrecord : ∀ s u, ran' s u → ran s u ∨ s = w.scope ∧ u = code := by
    rintro s u (hr | ⟨f, hf, rfl, rfl⟩)
    · exact .inl hr
    · obtain rfl := List.mem_singleton.mp hf
      exact .inr ⟨rfl, rfl⟩
  have hself : ran' w.scope code := .inr ⟨m.frame, List.mem_cons_self, rfl, rfl⟩
  have hwithin : ∀ n, code.SavesWithin n → σ.nextSlot ≤ n ∧ n < next := by
    intro n h
    obtain ⟨slot, hb, rfl⟩ := hslots.savesWithin h
    exact hb
  have ho : σ.Onwards ran ran' m.store := by
    refine ⟨Nat.le_refl _, fun _ _ => rfl, hn, fun _ _ hr => .inl hr, fun s u _ hr => ?_⟩
    rcases hrecord s u hr with hr | ⟨-, rfl⟩
    · exact .inl hr
    · exact .inr fun n h => (hwithin n h.within).1
  have hevery : m.store.Every (σ.Places ran) := hl.functions.congr rfl rfl
  have hlexical : m.store.Lexical ran' := by
    refine hl.onwards hσ ho (fun s u hr => ?_) (fun s n v hv => ?_) hevery fun s u hr => ?_
    · rcases hrecord s u hr with hr | ⟨rfl, rfl⟩
      · obtain ⟨hlt, hb⟩ := hl.there s u hr
        exact ⟨hlt, fun n h => Nat.lt_of_lt_of_le (hb n h) hn⟩
      · exact ⟨hs, fun n h => (hwithin n h.within).2⟩
    · obtain ⟨u, hr, hu⟩ := hl.saved s n v hv
      exact ⟨u, .inl hr, hu⟩
    · rcases hrecord s u hr with hr | ⟨rfl, rfl⟩
      · exact .inl hr
      · exact .inr (.inr ⟨hp, hw.lexical⟩)
  refine ⟨hlexical, ⟨hlexical.functions, trivial, nofun⟩, List.forall_mem_singleton.mpr ?_⟩
  refine ⟨hself, hw.shielded, fun n h => (hwithin n h).2, fun d hd => ?_, .inl hw.steady⟩
  refine Store.clears_inner hw.shielded.self hd (fun u n hr h hu => ?_) fun p hp' => ?_
  · rcases hrecord w.scope u hr with hr | ⟨-, rfl⟩
    · have hge := (hwithin n (h.of_holds hd.holds)).1
      exact absurd ((hl.there w.scope u hr).2 n hu) (Nat.not_lt.mpr hge)
    · rfl
  · have hp' : σ.parent? w.scope = some p := hp'
    rw [hp] at hp'
    cases hp'

end

namespace Moment

/-- A moment of a session of texts, and what has run in each scope by then. -/
inductive Chronicle : Moment → (Nat → Code → Prop) → Prop where
  | starts (console : Console) : Chronicle (start console) fun _ _ => False
  | turns {a b ran} : Chronicle a ran → Turns a b → Chronicle b (b.now.record ran)

variable {allowed : Host → Prop} {texts : Prop} {ran : Nat → Code → Prop} {a b : Moment}

theorem Chronicle.occurs (h : Chronicle a ran) : Occurs (fun _ => True) True a := by
  induction h with
  | starts console => exact ⟨console, .refl⟩
  | turns _ hn ih => exact ih.later (.single hn.next)

theorem Chronicle.of_turns (h : Relation.ReflTransGen Turns a b) (ha : Chronicle a ran) : ∃ ran', Chronicle b ran' := by
  induction h with
  | refl => exact ⟨ran, ha⟩
  | tail _ hn ih =>
    obtain ⟨ran', hb⟩ := ih
    exact ⟨_, hb.turns hn⟩

theorem Next.parents (hn : Next allowed texts a b) {s : Nat} (hs : s < a.store.scopes.size) :
    b.store.parent? s = a.store.parent? s := by
  rcases hn.begins_or_steps with ⟨m, host, hm, hb⟩ | ⟨hafter, -⟩
  · unfold store at hs ⊢
    rw [hm] at hs ⊢
    rw [hb]
    exact Machine.step_after.parents s hs
  · exact hafter.parents s hs

/-- What texts lead to leaves the scopes in order, and those of workspaces have none around. -/
theorem Chronicle.lexical (h : Chronicle a ran) :
    a.now.Lexical ran ∧ ∀ w ∈ a.spaces, a.store.parent? w.scope = none := by
  induction h with
  | starts console =>
    refine ⟨⟨nofun, fun s n v hv => ?_, nofun, nofun, nofun, .initial console⟩, nofun⟩
    cases hv
  | @turns a b ran ha hn ih =>
    obtain ⟨hl, hp⟩ := ih
    have hsettled : a.now.Settled := ha.occurs.settled
    have hsettled' : b.now.Settled := (ha.turns hn).occurs.settled
    have hok : a.Ok := ha.occurs.ok
    have hsame : ∀ w ∈ a.spaces, b.store.parent? w.scope = none := fun w hw =>
      (hn.next.parents (hok.spaces w hw).scope).trans (hp w hw)
    have hstart : a.store.Starts b.now → b.now.Lexical (b.now.record ran) := fun hs =>
      hs.lexical hl.store hsettled.store hsettled'
    cases hn with
    | steps host => exact ⟨Machine.Lexical.step hl hsettled, hsame⟩
    | hears console => exact ⟨hl.hear console hsettled, hsame⟩
    | @reads t ws source p u hread hbegins =>
      have hids := Program.read_ids_nodup hread
      cases hbegins with
      | @module code next publishRoot withPrelude module hc =>
        obtain ⟨hle, hslots⟩ := compile_between hc
        have hbound : code.EverySlot (·.id < next) := .mono (fun _ hb => hb.2) _ hslots
        have hs : Store.Starts { t.store with nextSlot := next }
            (beginCode { t.store with nextSlot := next } withPrelude module code) :=
          .beginCode (compile_whole hids hc) hbound.bounded
        exact ⟨hstart (hs.withNextSlot hle), hsame⟩
      | @line code next w publishRoot hc hw =>
        obtain ⟨hle, hslots⟩ := compile_between hc
        exact ⟨hl.store.line hsettled.store (hok.spaces w hw).scope (hp w hw) hle hslots (compile_whole hids hc), hsame⟩
    | @opens t ws withPrelude module =>
      have hs : t.store.Starts (beginCode t.store withPrelude module .empty) :=
        .beginCode Code.empty_whole (Code.EverySlot.bounded (by trivial))
      refine ⟨hstart hs, List.forall_mem_cons.mpr ⟨?_, hsame⟩⟩
      exact Option.eq_none_iff_forall_ne_some.mpr fun p hp => hs.after.fresh _ p (Nat.le_refl _) hp
    | @rescopes t ws w hw =>
      have hs : t.store.Starts (.finished (w.withNewScope t.store).2 none) :=
        ⟨.newScope nofun, fun _ hP => hP.newScope, nofun⟩
      exact ⟨hstart hs, List.forall_mem_cons.mpr ⟨Store.parent?_newScope_self, hsame⟩⟩
    | @loads t ws host file =>
      have hl : (idleMachine t.store).Loaded host file .whole _ := Machine.load_loaded
      exact ⟨hstart (Store.Starts.idleMachine.adds hl.adds), hsame⟩
    | @takes t ws file source code next withPrelude hc =>
      have hawait : (idleMachine t.store).Adds (.running ((idleMachine t.store).await .whole file code next)) :=
        Machine.await_adds hc
      exact ⟨hstart ((Store.Starts.idleMachine.adds hawait).adds Machine.equip_adds), hsame⟩

end Moment

section

variable {ran : Nat → Code → Prop} {σ : Store} {s t t' n : Nat} {u w : Code} {v : Value}

namespace Store

namespace Lexical

/-- Among the scopes around another, one at most has run a unit that saves to a slot. -/
theorem only (hl : σ.Lexical ran) (h : σ.Outward s t) (h' : σ.Outward s t') (hr : ran t u) (hr' : ran t' w)
    (hu : u.Saves n) (hw : w.Saves n) : t = t' := by
  by_contra hne
  rcases h.total h' with hout | hout
  · exact hl.apart t t' u w n hout hne hr hr' hu hw
  · exact hl.apart t' t w u n hout (Ne.symm hne) hr' hr hw hu

/-- What runs in a scope reads the slots that the units save to which run in the scopes around, and hold it. -/
theorem reads (hl : σ.Lexical ran) (hσ : σ.Closed) (hr : ran s u) :
    u.Lexical fun n => ∃ t w, σ.Outward s t ∧ ran t w ∧ w.Holds u ∧ w.Saves n := by
  induction s using Nat.strong_induction_on generalizing u with
  | _ s ih =>
    cases hp : σ.parent? s with
    | none => exact (hl.outermost s u hp hr).mono fun _ => False.elim
    | some p =>
      obtain ⟨w, hw, hm⟩ := hl.nested s p u hp hr
      refine ((ih p (hσ.parents s p hp) hw).inner hm).mono fun n hn => ?_
      rcases hn with ⟨t, w', hout, hr', hholds, hn⟩ | hn
      · exact ⟨t, w', .head hp hout, hr', hholds.trans hm.holds, hn⟩
      · exact ⟨p, w, .single hp, hw, hm.holds, hn⟩

end Lexical

end Store

theorem Code.Lexical.read {outside : Nat → Prop} {line : Nat} {slot : Slot} (h : u.Lexical outside)
    (hi : .mk line (.loadLocal slot) ∈ u.instrs) : outside slot.id ∨ u.Saves slot.id := by
  cases h with
  | mk hr _ => exact hr line slot hi

/-- What a text that is read leads to is a moment of a session of texts. -/
theorem Moment.Chronicle.of_begins {ws : List Workspace} {p : Program} {source : String} {t u : Transition}
    (hs : Session σ ws) (hr : Program.read source = .ok p) (hp : p.Begins σ ws t) (hu : t.Leads u) :
    ∃ vs ran, Chronicle ⟨u, vs⟩ ran := by
  obtain ⟨console, ⟨t₀, vs⟩, hl, rfl, hw⟩ := hs.turns
  have hbegins : Relation.ReflTransGen Turns (start console) ⟨t, vs⟩ := hl.tail (.reads hr (hp.mono hw))
  have hleads : Relation.ReflTransGen Turns ⟨t, vs⟩ ⟨u, vs⟩ := by
    induction hu with
    | refl => exact .refl
    | step host _ ih => exact ih.tail (.steps host)
    | hears console _ ih => exact ih.tail (.hears console)
  exact ⟨vs, Chronicle.of_turns (hbegins.trans hleads) (.starts console)⟩

/-- A slot that a unit of a compiled program reads is saved by that unit or by one around it. Wherever a run has come
to, with whatever has been run before it: a scope has nothing in its slots but what the units save that have run in
it, and lies in a scope of a unit that makes these; of the scopes around another one at most has run a unit that saves
to a slot; and what a unit finds in a slot that it reads is what the unit around it that saves to the slot has in its
own scope. -/
theorem slots_are_read_lexically {ws : List Workspace} {p : Program} {source : String} {t u : Transition}
    (hs : Session σ ws) (hr : Program.read source = .ok p) (hp : p.Begins σ ws t) (hu : t.Leads u) :
    (∀ publishRoot n code next, p.compile publishRoot n = .ok (code, next) → code.Lexical fun _ => False) ∧
    (∃ vs ran, Moment.Chronicle ⟨u, vs⟩ ran) ∧
    ∀ vs ran, Moment.Chronicle ⟨u, vs⟩ ran →
      (∀ f ∈ u.stack, ran f.scope f.closure.code) ∧
      (u.Every fun c => ∃ w, ran c.scope w ∧ w.Makes c.code) ∧
      (∀ s n v, u.store.slot? s n = some v → ∃ w, ran s w ∧ w.Saves n) ∧
      (∀ s p w, u.store.parent? s = some p → ran s w → ∃ w', ran p w' ∧ w'.Makes w) ∧
      (∀ s t t' w w' n, u.store.Outward s t → u.store.Outward s t' → ran t w → ran t' w' → w.Saves n → w'.Saves n →
        t = t') ∧
      ∀ s w line slot, ran s w → .mk line (.loadLocal slot) ∈ w.instrs →
        ∃ t w', u.store.Outward s t ∧ ran t w' ∧ w'.Holds w ∧ w'.Saves slot.id ∧
          u.store.lookup s slot.id = u.store.slot? t slot.id := by
  refine ⟨fun _ _ _ _ hc => (compile_whole (Program.read_ids_nodup hr) hc).lexical,
    Moment.Chronicle.of_begins hs hr hp hu, ?_⟩
  intro vs ran hc
  have hlex : u.Lexical ran := hc.lexical.1
  have hl : u.store.Lexical ran := hlex.store
  have hclosed : u.store.Closed := hc.occurs.settled.store
  refine ⟨fun f hf => (hlex.frames f hf).here, hlex.every.mono fun _ hc => hc.maker, hl.saved, hl.nested,
    fun s t t' w w' n h h' hr hr' hw hw' => hl.only h h' hr hr' hw hw', fun s w line slot hr hi => ?_⟩
  have hread : ∃ t w', u.store.Outward s t ∧ ran t w' ∧ w'.Holds w ∧ w'.Saves slot.id := by
    rcases (hl.reads hclosed hr).read hi with h | h
    · exact h
    · exact ⟨s, w, .refl, hr, .self, h⟩
  obtain ⟨t, w', hout, hr', hholds, hsaves⟩ := hread
  refine ⟨t, w', hout, hr', hholds, hsaves, Store.lookup_only hclosed.parents hout fun t' hout' hsome => ?_⟩
  obtain ⟨v, hv⟩ := Option.isSome_iff_exists.mp hsome
  obtain ⟨w'', hr'', hsaves'⟩ := hl.saved t' slot.id v hv
  exact hl.only hout' hout hr'' hr' hsaves' hsaves

end

/-- A function that reads a name of its module. -/
def captureText : String :=
  "let x = \"a\" let f = { y -> x } (f \"c\")"

/-- The machine when the function is about to read it. -/
def captureReader : Option Machine :=
  (compileText captureText false 0).toOption.bind fun (code, next) =>
    match beginCode { Store.initial .deaf with nextSlot := next } false "main" code with
    | .running m => m.walk bareHost 8
    | _ => none

/-- The next instruction reads a slot that the running scope does not have, and finds the text there. -/
def Machine.readsText (m : Machine) (text : String) : Bool :=
  match m.frame.rest with
  | .mk _ (.loadLocal slot) :: _ =>
    match m.store.slot? m.frame.scope slot.id, m.store.lookup m.frame.scope slot.id with
    | none, some (.text s) => s == text
    | _, _ => false
  | _ => false

theorem Machine.readsText_sound {m : Machine} {text : String} (h : m.readsText text = true) :
    ∃ line slot k, m.frame.rest = .mk line (.loadLocal slot) :: k ∧
      m.store.slot? m.frame.scope slot.id = none ∧ m.store.lookup m.frame.scope slot.id = some (.text text) := by
  unfold readsText at h
  split at h
  · rename_i line slot k hr
    split at h
    · rename_i s hnone hsome
      exact ⟨line, slot, k, hr, hnone, eq_of_beq h ▸ hsome⟩
    · cases h
  · cases h

/-- What it finds is what its module has saved. -/
theorem f_reads_x_in_its_module :
    ∃ p t m line slot k, Program.read captureText = .ok p ∧ p.Begins (.initial .deaf) [] t ∧
      t.Leads (.running m) ∧ m.frame.rest = .mk line (.loadLocal slot) :: k ∧
      ∃ vs ran, Moment.Chronicle ⟨.running m, vs⟩ ran ∧
        ∃ outer unit, m.store.Outward m.frame.scope outer ∧ outer ≠ m.frame.scope ∧ ran outer unit ∧
          unit.Holds m.frame.closure.code ∧ unit.Saves slot.id ∧ m.store.slot? outer slot.id = some (.text "a") := by
  have hcheck : captureReader.any (·.readsText "a") = true := by decide +kernel
  obtain ⟨m, hm, hreads⟩ : ∃ m, captureReader = some m ∧ m.readsText "a" = true := by
    cases hm : captureReader with
    | none =>
      rw [hm] at hcheck
      cases hcheck
    | some m =>
      rw [hm] at hcheck
      exact ⟨m, rfl, hcheck⟩
  obtain ⟨⟨code, next⟩, hc, hwalk⟩ := Option.bind_eq_some_iff.mp hm
  have hok : compileText captureText false 0 = .ok (code, next) := by
    cases hr : compileText captureText false 0 with
    | ok r =>
      rw [hr] at hc
      exact congrArg Except.ok (Option.some.inj hc)
    | error e =>
      rw [hr] at hc
      cases hc
  obtain ⟨p, hread, hp⟩ := compileText_eq_ok hok
  obtain ⟨line, slot, k, hr, hnone, hfound⟩ := Machine.readsText_sound hreads
  have hb : p.Begins (.initial .deaf) [] _ := .module false false "main" hp
  have hu : Transition.Leads (beginCode { Store.initial .deaf with nextSlot := next } false "main" code) (.running m) :=
    Transition.Leads.refl.reaches ⟨8, hwalk⟩
  obtain ⟨-, ⟨vs, ran, hchron⟩, hall⟩ := slots_are_read_lexically (.begins .deaf) hread hb hu
  obtain ⟨hframes, -, -, -, -, hslots⟩ := hall vs ran hchron
  have hin : m.frame.InCode :=
    ((Machine.Settled.closed hchron.occurs.settled).frames m.frame List.mem_cons_self).inCode
  obtain ⟨outer, unit, hout, hran, hholds, hsaves, hlookup⟩ :=
    hslots m.frame.scope _ line slot (hframes m.frame List.mem_cons_self) (hin.subset (hr ▸ List.mem_cons_self))
  have hvalue : m.store.slot? outer slot.id = some (.text "a") := hlookup.symm.trans hfound
  refine ⟨p, _, m, line, slot, k, hread, hb, hu, hr, vs, ran, hchron, outer, unit, hout, ?_, hran, hholds, hsaves,
    hvalue⟩
  rintro rfl
  rw [hnone] at hvalue
  cases hvalue

end MatchLang
