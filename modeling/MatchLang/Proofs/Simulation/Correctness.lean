import MatchLang.Proofs.Simulation.Modules

/-! Compiled programs mean what their trees mean. Where lists and the unit stay the built-in ones, the run of a program and
the evaluation of its tree come to the same, or neither comes to an end. -/

namespace MatchLang

/-- The same value but for how functions are represented, the same output and errors, the same names in every root, under
numbers that stand for one another. -/
structure SameOutcome (ρ : Numbering) (r : Except RunError (Option Value) × Store)
    (r' : Except RunError (Option Value) × World) : Prop where
  fits : ρ.Fits r.2.nextIdentity r'.2.nextIdentity
  result : match r.1, r'.1 with
    | .ok v, .ok w => Both (fun v w => v.bare.Like ρ (fun _ => True) w) v w
    | .error e, .error e' => e = e'
    | _, _ => False
  console : r.2.console = r'.2.console
  modules : r.2.modules = r'.2.modules
  roots : r.2.roots.size = r'.2.roots.size
  root : ∀ i, (r.2.root i).bare.Like ρ (fun _ => True) (r'.2.root i)

section

variable {host : Host} {sugar : Sugar} {t t' : Twin} {module source : String} {p : Program} {code : Code} {s n n' next : Nat}
  {uses : Nat → Prop} {r : Except RunError (Option Value) × Store} {r' : Except RunError (Option Value) × World}
  {tr : Transition} {console : Console}

theorem Twin.Concludes.same (h : t.Concludes s uses r r' t') : SameOutcome t'.numbers r r' := by
  obtain ⟨hstore, hworld, ht, -, hresult⟩ := h
  have hroot := fun i => (ht.root i).like
  have hfits := ht.fits
  have hsize := ht.size
  have hmodules := ht.modules
  have hconsole := ht.console
  rw [hstore, hworld] at hfits hsize hmodules hconsole
  simp only [hstore, hworld] at hroot
  refine ⟨hfits, ?_, hconsole, hmodules, hsize, hroot⟩
  revert hresult
  cases r.1 <;> cases r'.1 <;> first | exact id | exact fun h => h.imp fun _ _ hv => hv.like

/-- Nothing has been run. -/
def Twin.initial (console : Console) : Twin where
  store := .initial console
  world := .initial console
  numbers i j := i = j ∧ i < Builtins.count
  place _ := (0, 0)
  own _ _ := False
  hidden _ := False

theorem Twin.initial_sound : (Twin.initial console).Sound where
  fits :=
    { lt := fun i j h => ⟨h.2, h.1 ▸ h.2⟩
      iff := fun i j i' j' h h' => by rw [h.1, h'.1]
      builtin := fun i hi => ⟨rfl, hi⟩ }
  lambdas := nofun
  parents := nofun
  cell := nofun
  placed := nofun
  apart := nofun
  saved := nofun
  owned := nofun
  items := nofun
  nested _ _ _ _ h := h.elim
  size := rfl
  root := fun r => .empty
  modules := rfl
  console := rfl

/-- On their way compiled programs keep the invariant. -/
theorem Program.Begins.trusted {κ : Registry} {σ : Store} {ws : List Workspace} (hp : p.Begins σ ws tr) (hσ : σ.Sound κ)
    (hws : ∀ w ∈ ws, w.In σ) (hs : sugar = .builtIn → ∀ m, tr.Visits host m → m.home.Standard) :
    tr.Trusted host sugar := by
  rintro m₀ rfl m hr
  obtain ⟨κ', hu⟩ := (hp.ok hσ hws).leads (Transition.Leads.refl.reaches hr)
  obtain ⟨κ'', _, hm, _⟩ := hu
  exact ⟨⟨κ'', _, hm⟩, fun h => hs h m ⟨m₀, rfl, hr⟩⟩

/-- A program that is run as a module comes to what its evaluation comes to. -/
theorem settles_beginCode (ht : t.Sound) (hr : Program.read source = .ok p)
    (hc : p.compile false t.store.nextSlot = .ok (code, next)) (fuel : Nat)
    (htrust : (beginCode { t.store with nextSlot := next } host.withPrelude module code).Trusted host sugar) :
    ∃ t₀ : Twin, (beginCode { t.store with nextSlot := next } host.withPrelude module code).Settles host fuel t₀
      t.store.scopes.size (fun _ => True) (p.evaluateAs host sugar fuel module t.world) := by
  obtain ⟨own, hl⟩ := Program.link_resolves p t.store.nextSlot (Program.read_ids_nodup hr)
  have hbody := compile_eq_ok hc
  have heval : p.evaluateAs host sugar fuel module t.world =
      (Activation.equip (host.rules sugar fuel) (host.importer sugar fuel) host.withPrelude
          (moduleActivation module t.store.roots.size) >>= fun _ =>
        p.evaluate (host.rules sugar fuel) (host.importer sugar fuel) false (moduleActivation module t.store.roots.size))
        (t.beginModule (p.link t.store.nextSlot).nextSlot next own).world := by
    rw [ht.size]
    rfl
  rw [heval]
  refine ⟨_, Transition.Tracks.settles rfl rfl (tracks_beginCode (Machine.rules_fit host sugar fuel)
    (Machine.brings_importer host sugar fuel) ht (link_between p t.store.nextSlot).1 hbody.slots_le htrust
    fun m a t' ha hroot hcode hscope hready => ?_)⟩
  subst hcode
  exact (Machine.follows_program (Machine.rules_fit host sugar fuel) (Machine.brings_importer host sugar fuel) ha hroot
    (hscope ▸ hready) hl hbody).mono fun _ _ => trivial

/-- More steps make no difference to a run that has come to its end. -/
theorem Transition.follow_of_le (h : (settle (tr.follow host n)).1 ≠ .error .unfinished) (hn : n ≤ n') :
    tr.follow host n' = tr.follow host n := by
  cases tr with
  | finished _ _ | raised _ _ => rfl
  | running m =>
    show m.run host n' = m.run host n
    replace h : (settle (m.run host n)).1 ≠ .error .unfinished := h
    cases hr : m.run host n with
    | finished σ v =>
      obtain ⟨k, hk, hw⟩ := Machine.run_eq_finished.mp hr
      exact Machine.run_eq_finished.mpr ⟨k, Nat.lt_of_lt_of_le hk hn, hw⟩
    | failed σ e =>
      obtain ⟨k, hk, hw⟩ := Machine.run_eq_failed.mp hr
      exact Machine.run_eq_failed.mpr ⟨k, Nat.lt_of_lt_of_le hk hn, hw⟩
    | cut m' => exact absurd (by rw [hr]; rfl) h

/-- Where runs settle as evaluations do, for any fuel, they come to the same or to nothing. -/
theorem agree_of_settles {x : Nat → Except Halt (Option Value) × World}
    (h : ∀ k, ∃ t s uses, tr.Settles host k t s uses (x k)) :
    ((∀ n, (settle (tr.follow host n)).1 = .error .unfinished) ↔ ∀ k, (World.settle (x k)).1 = .error .unfinished) ∧
    ∀ n k, (settle (tr.follow host n)).1 ≠ .error .unfinished → (World.settle (x k)).1 ≠ .error .unfinished →
      ∃ ρ, SameOutcome ρ (settle (tr.follow host n)) (World.settle (x k)) := by
  have hends : ∀ k, (World.settle (x k)).1 ≠ .error .unfinished → ∃ n₀ ρ, ∀ n, n₀ ≤ n →
      SameOutcome ρ (settle (tr.follow host n)) (World.settle (x k)) := by
    intro k hk
    obtain ⟨t, s, uses, hs⟩ := h k
    cases hs with
    | cut he _ => exact absurd he hk
    | @ends t' n₀ _ hn => exact ⟨n₀, t'.numbers, fun n hle => (hn n hle).same⟩
  refine ⟨⟨fun hall k => ?_, fun hall n => ?_⟩, fun n k hn hk => ?_⟩
  · by_contra hk
    obtain ⟨n₀, ρ, hsame⟩ := hends k hk
    have hr := (hsame n₀ (Nat.le_refl n₀)).result
    rw [hall n₀] at hr
    cases hx : (World.settle (x k)).1 with
    | ok w =>
      rw [hx] at hr
      exact hr
    | error e =>
      rw [hx] at hr
      exact hk (hx.trans (congrArg Except.error hr.symm))
  · obtain ⟨t, s, uses, hs⟩ := h n
    cases hs with
    | cut _ he => exact he
    | ends _ _ hne _ => exact absurd (hall n) hne
  · obtain ⟨n₀, ρ, hsame⟩ := hends k hk
    refine ⟨ρ, ?_⟩
    rw [← Transition.follow_of_le hn (Nat.le_max_left n n₀)]
    exact hsame _ (Nat.le_max_right n n₀)

/-- The compiled code of a program and its tree come to the same: the same value but for how functions are represented,
the same output, the same names in every namespace, or the same error; and the one comes to no end exactly if the other
does not. -/
theorem compiled_code_means_its_tree (host : Host) (console : Console) (module : String)
    (hr : Program.read source = .ok p) (hc : ∃ compiled, p.compile false 0 = .ok compiled)
    (hs : ∀ tr m, beginSource host (.initial console) module source = .ok tr → tr.Visits host m → m.home.Standard) :
    ((∀ n, (runSource host n (.initial console) module source).1 = .error .unfinished) ↔
      ∀ n, (World.settle (p.evaluateAs host .builtIn n module (.initial console))).1 = .error .unfinished) ∧
    ∀ n k, (runSource host n (.initial console) module source).1 ≠ .error .unfinished →
      (World.settle (p.evaluateAs host .builtIn k module (.initial console))).1 ≠ .error .unfinished →
      ∃ ρ, SameOutcome ρ (runSource host n (.initial console) module source)
        (World.settle (p.evaluateAs host .builtIn k module (.initial console))) := by
  obtain ⟨⟨code, next⟩, hc⟩ := hc
  have hbegin : beginSource host (.initial console) module source =
      .ok (beginCode { Store.initial console with nextSlot := next } host.withPrelude module code) := by
    unfold beginSource compileText
    simp only [hr]
    rw [show p.compile false (Store.initial console).nextSlot = .ok (code, next) from hc]
    rfl
  have hrun : ∀ n, runSource host n (.initial console) module source =
      settle ((beginCode { Store.initial console with nextSlot := next } host.withPrelude module code).follow host n) := by
    intro n
    unfold runSource
    rw [hbegin]
  obtain ⟨κ, hσ, hws⟩ := (Session.begins console).sound
  have htrust : (beginCode { Store.initial console with nextSlot := next } host.withPrelude module code).Trusted host .builtIn :=
    Program.Begins.trusted (p := p) (.module false host.withPrelude module hc) hσ hws
      fun _ m hm => hs _ m hbegin hm
  simp only [hrun]
  refine agree_of_settles fun k => ?_
  obtain ⟨t₀, h⟩ := settles_beginCode (t := Twin.initial console) Twin.initial_sound hr hc k htrust
  exact ⟨t₀, _, _, h⟩

end

/-- Whether lists and the unit are the built-in ones. -/
def Namespace.isStandard (ns : Namespace) : Bool :=
  [builtins.cons, builtins.empty, builtins.unit].all fun c =>
    (match ns.findValue [c.name] with
      | .ok (.constant d) => c.arity = 0 ∧ d = c
      | .ok (.constructor d) => c.arity ≠ 0 ∧ d = c
      | _ => false) &&
    match ns.findType [c.name] with
    | .ok (.case d) => d = c
    | _ => false

theorem Namespace.isStandard_sound {ns : Namespace} (h : ns.isStandard = true) : ns.Standard := by
  rw [isStandard, List.all_eq_true] at h
  constructor
  · intro c hc
    have hv := (Bool.and_eq_true_iff.mp (h c hc)).1
    split at hv
    · rename_i d hd
      obtain ⟨ha, rfl⟩ := decide_eq_true_eq.mp hv
      rw [hd, Case.value, if_pos ha]
    · rename_i d hd
      obtain ⟨ha, rfl⟩ := decide_eq_true_eq.mp hv
      rw [hd, Case.value, if_neg ha]
    · cases hv
  · intro c hc
    have ht := (Bool.and_eq_true_iff.mp (h c hc)).2
    split at ht
    · rename_i d hd
      rw [hd, decide_eq_true_eq.mp ht]
    · cases ht

/-- Whether they are in every module whose functions run, if the run ends within some steps. -/
def Machine.keepsStandard (host : Host) : Nat → Machine → Bool
  | 0, _ => false
  | n + 1, m =>
    m.home.isStandard &&
      match m.step host with
      | .running m' => keepsStandard host n m'
      | _ => true

theorem Machine.keepsStandard_sound {host : Host} {n : Nat} {m m' : Machine} (h : m.keepsStandard host n = true)
    (hr : m.Reaches host m') : m'.home.Standard := by
  obtain ⟨j, hw⟩ := hr
  induction n generalizing m j with
  | zero => cases h
  | succ n ih =>
    rw [keepsStandard, Bool.and_eq_true] at h
    obtain ⟨hm, hrun⟩ := h
    cases j with
    | zero =>
      cases hw
      exact Namespace.isStandard_sound hm
    | succ j =>
      unfold walk at hw
      cases hs : m.step host with
      | running m₁ =>
        rw [hs] at hw hrun
        exact ih hrun j hw
      | finished _ _ | raised _ _ =>
        rw [hs] at hw
        cases hw

/-- A function that is called for an element of the list that it is called with. -/
def pickText : String :=
  "let pick = { x -> (match x [ { [] -> 1 } { [y _] -> y } ]) }\n(pick [(pick []) 2])"

def isNumber (x : Float) : Except RunError (Option Value) → Bool
  | .ok (some (.number y)) => x == y
  | _ => false

def picksOne (source : String) : Bool :=
  match Program.read source, beginSource bareHost (.initial .deaf) "main" source with
  | .ok p, .ok (.running m) =>
    m.keepsStandard bareHost 100 && isNumber 1 (runSource bareHost 100 (.initial .deaf) "main" source).1 &&
      isNumber 1 (World.settle (p.evaluateAs bareHost .builtIn 3 "main" (.initial .deaf))).1
  | _, _ => false

theorem pick_means_its_tree : ∃ p ρ, Program.read pickText = .ok p ∧
    isNumber 1 (runSource bareHost 100 (.initial .deaf) "main" pickText).1 = true ∧
    SameOutcome ρ (runSource bareHost 100 (.initial .deaf) "main" pickText)
      (World.settle (p.evaluateAs bareHost .builtIn 3 "main" (.initial .deaf))) := by
  have hpicks : picksOne pickText = true := by
    set_option maxRecDepth 100000 in decide +kernel
  revert hpicks
  -- What the text is does not matter from here on.
  generalize pickText = source
  intro hpicks
  unfold picksOne at hpicks
  split at hpicks
  · rename_i p m hr hb
    simp only [Bool.and_eq_true] at hpicks
    obtain ⟨⟨hm, hrun⟩, heval⟩ := hpicks
    have hc : ∃ compiled, p.compile false 0 = .ok compiled := by
      unfold beginSource at hb
      cases hcompiled : compileText source false (Store.initial .deaf).nextSlot with
      | error e => simp [hcompiled, Except.map] at hb
      | ok compiled =>
        obtain ⟨q, hq, hcode⟩ := compileText_eq_ok hcompiled
        cases hr.symm.trans hq
        exact ⟨_, hcode⟩
    have hs : ∀ tr m', beginSource bareHost (.initial .deaf) "main" source = .ok tr → tr.Visits bareHost m' →
        m'.home.Standard := by
      rintro tr m' htr ⟨m₀, rfl, hreach⟩
      cases hb.symm.trans htr
      exact Machine.keepsStandard_sound hm hreach
    have hne : ∀ r : Except RunError (Option Value), isNumber 1 r = true → r ≠ .error .unfinished := by
      rintro r h rfl
      cases h
    obtain ⟨ρ, hsame⟩ := (compiled_code_means_its_tree bareHost .deaf "main" hr hc hs).2 100 3 (hne _ hrun) (hne _ heval)
    exact ⟨p, ρ, hr, hrun, hsame⟩
  · cases hpicks

end MatchLang
