import MatchLang.Proofs.Code.Units
import MatchLang.Proofs.Session.Scopes

/-! The units of code that a session runs. They are units of programs that have been compiled, so what all
of those have, the functions of a session have at every moment. -/

namespace MatchLang

/-- The functions of a machine, those of its frames included, have code with a property in all units. -/
structure Machine.Units (P : Code → Prop) (m : Machine) : Prop where
  functions : m.Every fun c => c.code.EveryUnit P
  frames : ∀ f ∈ m.stack, f.closure.code.EveryUnit P

def Transition.Units (P : Code → Prop) : Transition → Prop
  | .running m => m.Units P
  | .finished σ _ => σ.Every fun c => c.code.EveryUnit P
  | .raised m _ => m.store.Every fun c => c.code.EveryUnit P

section

variable {P : Code → Prop} {host : Host} {m : Machine} {t : Transition} {f : Frame} {file : String}
  {delivery : Delivery} {σ : Store} {code : Code} {next : Nat}

/-- A frame after a step has a function of a frame before, one that the instruction begins, or the body of
a module that is loaded. -/
theorem Machine.step_function (hf : f ∈ (m.step host).stack) :
    (∃ g ∈ m.stack, g.closure = f.closure) ∨ m.Invokes f.closure ∨ f.closure.code.Loaded := by
  have hy : m.Yields (m.step host).store f := step_stack hf
  cases hy with
  | stays hf => exact .inl ⟨f, hf, rfl⟩
  | goes _ _ he => exact .inl ⟨m.frame, List.mem_cons_self, he ▸ rfl⟩
  | begins _ hc => exact .inr (.inl hc)
  | loads hl => exact .inr (.inr hl.text)

theorem Transition.Units.store (h : t.Units P) : t.store.Every fun c => c.code.EveryUnit P := by
  cases t with
  | running m => exact (Machine.Units.functions h).store
  | finished σ v => exact h
  | raised m f => exact h

theorem Transition.units_of (he : t.Every fun c => c.code.EveryUnit P)
    (hf : ∀ f ∈ t.stack, f.closure.code.EveryUnit P) : t.Units P := by
  cases t with
  | running m => exact ⟨he, hf⟩
  | finished σ v => exact he
  | raised m f => exact he

end

section

/-! A property of all units of compiled programs. -/

variable {P : Code → Prop}
  (hP : ∀ {p : Program} {publishRoot : Bool} {n next : Nat} {c : Code},
    p.compile publishRoot n = .ok (c, next) → c.EveryUnit P)
  {host : Host} {m : Machine} {t : Transition} {file module : String} {delivery : Delivery} {σ : Store}
  {code : Code} {next n scope root : Nat}

include hP

theorem Code.Loaded.units (h : code.Loaded) : code.EveryUnit P := by
  obtain ⟨file, source, n, next, hc⟩ := h
  obtain ⟨p, _, hc⟩ := compileModule_eq_ok hc
  exact hP hc

namespace Machine.Units

theorem adds (h : m.Units P) (ha : m.Adds t) : t.Units P :=
  Transition.units_of (ha.every _ h.functions) fun f hf =>
    (ha.stack f hf).elim (h.frames f) fun hl => Code.Loaded.units hP hl.text

theorem step (h : m.Units P) (hm : m.Closed) : (m.step host).Units P := by
  have hmade : ∀ line code arity k, m.frame.rest = .mk line (.loadFunction code arity) :: k →
      code.EveryUnit P := by
    intro line code arity k hr
    have hin : m.frame.InCode := (hm.frames m.frame List.mem_cons_self).inCode
    exact (h.frames m.frame List.mem_cons_self).inner (hin.subset (hr ▸ List.mem_cons_self))
  refine Transition.units_of (h.functions.step hmade) fun f hf => ?_
  rcases m.step_function hf with ⟨g, hg, he⟩ | hc | hc
  · exact he ▸ h.frames g hg
  · cases hc with
    | restarts _ he => exact he ▸ h.frames m.frame List.mem_cons_self
    | @enters line op k os hr ha =>
      have hop : (op.action m.setting line k).Every fun c => c.code.EveryUnit P :=
        Op.action_every h.functions.store h.functions.operands fun code arity he =>
          hmade line code arity k (he ▸ hr)
      rw [ha] at hop
      exact hop.1
  · exact Code.Loaded.units hP hc

theorem equip (h : m.Units P) (withPrelude : Bool) : (m.equip withPrelude).Units P := by
  unfold Machine.equip
  split
  · have hl : m.Loaded bareHost preludeName .whole (m.loadPrelude .whole) := loadPrelude_loaded
    exact h.adds hP hl.adds
  · exact h

end Machine.Units

omit hP in
theorem Machine.body_units (hσ : σ.Every fun c => c.code.EveryUnit P) (hc : code.EveryUnit P) :
    Machine.Units P { store := σ, task := bodyTask module code scope root, waiting := [] } :=
  ⟨⟨hσ, trivial, nofun⟩, List.forall_mem_singleton.mpr hc⟩

theorem beginCode_units {withPrelude : Bool} (hσ : σ.Every fun c => c.code.EveryUnit P)
    (hc : code.EveryUnit P) : (beginCode σ withPrelude module code).Units P :=
  have hm : Machine.Units P
      { store := (σ.newTask module code).2, task := (σ.newTask module code).1, waiting := [] } :=
    Machine.body_units (hσ.newTask module code) hc
  hm.equip hP withPrelude

namespace Moment

variable {allowed : Host → Prop} {texts : Prop} {a b : Moment} (hempty : P .empty)

include hempty

theorem Next.units (hn : Next allowed texts a b) (hc : a.now.Settled) (ha : a.now.Units P) :
    b.now.Units P := by
  have hstore := ha.store
  have hunit : Code.EveryUnit P .empty := .of_inner hempty fun _ _ _ hi => by cases hi
  have hidle : ∀ {σ : Store}, (σ.Every fun c => c.code.EveryUnit P) → (idleMachine σ).Units P := by
    intro σ hσ
    have hroot : (σ.newRoot (.empty true)).2.Every fun c => c.code.EveryUnit P :=
      hσ.newRoot Namespace.empty_every (Namespace.tidy_of_nil rfl)
    exact Machine.body_units hroot.newScope hunit
  cases hn with
  | steps _ => exact Machine.Units.step hP ha hc.closed
  | @hears t ws console =>
    cases t with
    | running m => exact ⟨(m.hear_adds console).every _ ha.functions, ha.frames⟩
    | finished σ v => exact hstore.congr rfl rfl
    | raised m f => exact hstore.congr rfl rfl
  | @begins t ws p u hp =>
    cases hp with
    | module _ _ _ hcompile => exact beginCode_units hP (hstore.congr rfl rfl) (hP hcompile)
    | line _ hcompile _ => exact Machine.body_units (hstore.congr rfl rfl) (hP hcompile)
  | opens withPrelude module => exact beginCode_units hP hstore hunit
  | rescopes _ => exact hstore.newScope
  | @loads t ws host file _ =>
    have hl : (idleMachine t.store).Loaded host file .whole _ := Machine.load_loaded
    exact (hidle hstore).adds hP hl.adds
  | @takes t ws file source code next withPrelude _ hcompile =>
    have hadds : (idleMachine t.store).Adds (.running ((idleMachine t.store).await .whole file code next)) :=
      Machine.await_adds hcompile
    have hm : Machine.Units P ((idleMachine t.store).await .whole file code next) := (hidle hstore).adds hP hadds
    exact hm.equip hP withPrelude

/-- What all units of compiled programs have, all units have that are run. -/
theorem Occurs.units (ha : Occurs allowed texts a) : a.now.Units P := by
  obtain ⟨console, hl⟩ := ha
  induction hl with
  | refl => exact Store.Every.initial console
  | tail hl hn ih => exact hn.units hP hempty (Occurs.settled ⟨console, hl⟩) ih

end Moment

end

end MatchLang
