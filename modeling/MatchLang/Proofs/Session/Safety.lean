import MatchLang.Proofs.Machine.Returning
import MatchLang.Proofs.Session.Stores

/-! Compiled programs are safe to run, whatever has been run before them and whatever they import. -/

namespace MatchLang

/-- How a compiled program begins: in a module of its own, or as a line in a workspace. -/
inductive Program.Begins (p : Program) (σ : Store) (ws : List Workspace) : Transition → Prop where
  | module {code next} (publishRoot withPrelude : Bool) (module : String) :
    p.compile publishRoot σ.nextSlot = .ok (code, next) →
    Begins p σ ws (beginCode { σ with nextSlot := next } withPrelude module code)
  | line {code next w} (publishRoot : Bool) :
    p.compile publishRoot σ.nextSlot = .ok (code, next) → w ∈ ws →
    Begins p σ ws (.running (w.begin { σ with nextSlot := next } code))

/-- Some steps from one transition to another. Between them there may be more input, and another host,
which has read more files. -/
inductive Transition.Leads (t : Transition) : Transition → Prop where
  | refl : Leads t t
  | step {m} (host : Host) : Leads t (.running m) → Leads t (m.step host)
  | hears {m} (console : Console) : Leads t (.running m) →
    Leads t (.running (m.updateStore fun s => { s with console }))

section

variable {κ : Registry} {h : Nat} {σ : Store} {ws : List Workspace} {p : Program}
  {t u : Transition}

theorem Transition.Leads.reaches {host : Host} {m m' : Machine} (ht : t.Leads (.running m))
    (hw : m.Reaches host m') : t.Leads (.running m') := by
  obtain ⟨n, hw⟩ := hw
  induction n generalizing m with
  | zero =>
    cases hw
    exact ht
  | succ n ih =>
    cases hs : m.step host with
    | running m₁ =>
      simp only [Machine.walk, hs] at hw
      exact ih (hs ▸ ht.step host) hw
    | finished τ v => simp [Machine.walk, hs] at hw
    | raised m₁ f => simp [Machine.walk, hs] at hw

theorem Program.Begins.mono {vs : List Workspace} (hp : p.Begins σ ws t) (hw : ∀ w ∈ ws, w ∈ vs) :
    p.Begins σ vs t := by
  cases hp with
  | module publishRoot withPrelude module hc => exact .module publishRoot withPrelude module hc
  | line publishRoot hc hm => exact .line publishRoot hc (hw _ hm)

theorem Program.Begins.ok (hp : p.Begins σ ws t) (hσ : σ.Sound κ) (hws : ∀ w ∈ ws, w.In σ) :
    t.Ok κ p.height σ := by
  cases hp with
  | @module code next publishRoot withPrelude module hc =>
    have hn : Store.Sound κ { σ with nextSlot := next } := hσ.withNextSlot
    have hg : σ.Grows (Store.newTask { σ with nextSlot := next } module code).2 :=
      .trans .withNextSlot (.newTask module code)
    exact (beginCode_ok hn (compile_balanced hc)).of_grows hg
  | @line code next w publishRoot hc hw =>
    have hn : Store.Sound κ { σ with nextSlot := next } := hσ.withNextSlot
    have hi : w.In { σ with nextSlot := next } := (hws w hw).mono .withNextSlot
    exact (hi.begin_ok hn (compile_balanced hc)).running .withNextSlot

theorem Transition.Ok.leads (ht : t.Ok κ h σ) (hu : t.Leads u) : ∃ κ', u.Ok κ' h σ := by
  induction hu with
  | refl => exact ⟨κ, ht⟩
  | step host _ ih =>
    obtain ⟨_, κ', _, hm, hg⟩ := ih
    exact ⟨κ', (hm.step host).of_grows hg⟩
  | @hears m console _ ih =>
    obtain ⟨_, κ', _, hm, hg⟩ := ih
    have hc : m.store.Grows { m.store with console } := .of_eq rfl rfl
    have hs : Store.Sound κ' { m.store with console } := hm.store.congr rfl rfl (Nat.le_refl _)
    exact ⟨κ', (hm.updateStore hs hc).running (hg.trans hc)⟩

/-- Compiled programs never meet a fault of the machine. Every call of theirs that comes to its end has
taken the callee and its arguments off the operands and put one value on them, with the frame at the
next instruction and all but the store as before. A program that ends with a call, and no other, has a
value. -/
theorem compiled_programs_are_safe (hs : Session σ ws) (hp : p.Begins σ ws t) (hu : t.Leads u) :
    (∀ m f, u = .raised m f → ¬ f.Internal) ∧
    (∀ m line argc k, u = .running m → m.frame.rest = .mk line (.call argc) :: k →
      ∀ host m', m.Returns host m' →
        ∃ callee args rest v, m.operands = callee :: (args ++ rest) ∧ args.length = argc ∧
          m' = m.resume m'.store (v :: rest) line k) ∧
    (∀ τ v, u = .finished τ v → (v.isSome ↔ p.trailing.isSome)) := by
  obtain ⟨κ, hσ, hws⟩ := hs.sound
  obtain ⟨κ', hu⟩ := (hp.ok hσ hws).leads hu
  refine ⟨?_, ?_, ?_⟩
  · rintro m f rfl
    exact hu.2.2
  · rintro m line argc k rfl hr host m' hret
    obtain ⟨κ'', -, hm, -⟩ := hu
    exact hm.returns hr hret
  · rintro τ v rfl
    have hv := hu.2.2
    unfold Program.height at hv
    cases hc : p.trailing.isSome with
    | false => simpa [hc] using hv
    | true => simpa [hc] using hv

end

/-- The program `(:: True Empty)`. -/
def consProgram : Program :=
  { imports := []
    root := .mk ⟨0, [], 1⟩ true []
    trailing := some
      { callee := .name ⟨1, ["::"], 1⟩
        args := [.name ⟨2, ["True"], 1⟩, .name ⟨3, ["Empty"], 1⟩]
        line := 1 } }

def consUnit : Code :=
  .mk [.mk 1 (.loadName ["Empty"]), .mk 1 (.loadName ["True"]), .mk 1 (.loadName ["::"]),
    .mk 1 (.call 2)] []

/-- The machine of the program with the given operands and the instructions from the given one on. -/
def consMachine (operands : List Value) (i : Nat) : Machine :=
  (codeMachine consUnit []).resume (codeMachine consUnit []).store operands 1
    (consUnit.instrs.drop i)

theorem cons_is_safe :
    ∃ callee args rest v,
      (consMachine [.constructor builtins.cons, builtins.boolValue true, .constant builtins.empty]
        3).operands = callee :: (args ++ rest) ∧ args.length = 2 ∧
      consMachine [builtins.list [builtins.boolValue true]] 4 =
        (consMachine [.constructor builtins.cons, builtins.boolValue true,
          .constant builtins.empty] 3).resume (codeMachine consUnit []).store (v :: rest) 1 [] :=
  have hb : consProgram.Begins (.initial .deaf) [] (.running (codeMachine consUnit [])) :=
    .module false false "main" rfl
  have h₁ : (Transition.running (codeMachine consUnit [])).Leads
      (.running (consMachine [.constant builtins.empty] 1)) :=
    .step (m := codeMachine consUnit []) bareHost .refl
  have h₂ : (Transition.running (codeMachine consUnit [])).Leads
      (.running (consMachine [builtins.boolValue true, .constant builtins.empty] 2)) :=
    .step bareHost h₁
  have h₃ : (Transition.running (codeMachine consUnit [])).Leads
      (.running (consMachine [.constructor builtins.cons, builtins.boolValue true,
        .constant builtins.empty] 3)) := .step bareHost h₂
  (compiled_programs_are_safe (.begins .deaf) hb h₃).2.1 _ 1 2 [] rfl rfl bareHost
    (consMachine [builtins.list [builtins.boolValue true]] 4)
    ⟨0, rfl, Nat.le_refl _, fun _ _ hj hle _ => absurd hj (Nat.not_lt.mpr hle)⟩

end MatchLang
