import MatchLang.Proofs.Machine.Like
import MatchLang.Proofs.Session.Moments

/-! Sessions in which any code is run, not only what programs are compiled to. Labels may lead anywhere, and
instructions may ask for what is not there; still every value that can be reached is built as its case or
its callee says. What holds of values is that they are like themselves, with every number in them given out. -/

namespace MatchLang

/-- Nothing is wrong with what is going on: it is like itself. -/
def Transition.Sane (t : Transition) : Prop :=
  ∃ ρ, t.Like ρ .none t

/-- What can come next if any code may be run, in a module of its own or in a workspace. -/
inductive Moment.Runs : Moment → Moment → Prop where
  | next {a b} : Moment.Next (fun _ => True) True a b → Runs a b
  | begins {t ws} (withPrelude : Bool) (module : String) (code : Code) :
    Runs ⟨t, ws⟩ ⟨beginCode t.store withPrelude module code, ws⟩
  | enters {t ws w} (code : Code) : w ∈ ws → Runs ⟨t, ws⟩ ⟨.running (w.begin t.store code), ws⟩

/-- A moment that comes about in some session in which any code may be run. -/
def Moment.Arises (a : Moment) : Prop :=
  ∃ console, Relation.ReflTransGen Moment.Runs (Moment.start console) a

/-- Built as its case or its callee says. -/
def Value.WellMade : Value → Prop
  | .record c fields => fields.length = c.arity ∧ 1 ≤ fields.length
  | .constant c => c.arity = 0
  | .constructor c => 1 ≤ c.arity
  | .partialCall _ callee args => ∃ n, callee.arity? = some n ∧ args.length < n
  | _ => True

/-- What a value is put together from. -/
inductive Value.Part : Value → Value → Prop where
  | field {c fields v} : v ∈ fields → Part v (.record c fields)
  | callee {id callee args} : Part callee (.partialCall id callee args)
  | argument {id callee args v} : v ∈ args → Part v (.partialCall id callee args)

/-- The tasks that are running or waiting. -/
def Transition.allTasks : Transition → List Task
  | .running m => m.task :: m.waiting.map Suspended.task
  | .raised m _ => m.task :: m.waiting.map Suspended.task
  | .finished _ _ => []

def Transition.result? : Transition → Option Value
  | .finished _ v => v
  | _ => none

/-- A value can be reached: it is an operand, the result, in a scope or under a name in some namespace, or in
another that can be reached. -/
inductive Transition.Reaches (t : Transition) : Value → Prop where
  | operand {u v} : u ∈ t.allTasks → v ∈ u.operands → Reaches t v
  | result {v} : t.result? = some v → Reaches t v
  | slot {scope slot v} : t.store.slot? scope slot = some v → Reaches t v
  | name {root path name v} : (t.store.root root).valueAt? path name = some v → Reaches t v
  | part {v u} : v.Part u → Reaches t u → Reaches t v

section

variable {ρ : Numbering} {A : Code → Prop} {v v' : Value} {n : Nat} {os : List Value}

theorem partner_of_mem {α β : Type} {r : α → β → Prop} {x : α} {xs : List α} {ys : List β}
    (h : List.Forall₂ r xs ys) (hx : x ∈ xs) : ∃ y, r x y := by
  induction h with
  | nil => cases hx
  | cons hxy _ ih =>
    rcases List.mem_cons.mp hx with rfl | hx
    · exact ⟨_, hxy⟩
    · exact ih hx

theorem Value.Like.wellMade (h : v.Like ρ A v') : v.WellMade := by
  cases h with
  | record _ hpos hl => exact ⟨hl, hl ▸ hpos⟩
  | constant _ ha => exact ha
  | constructor _ ha => exact ha
  | partialCall _ _ _ hn hl => exact ⟨_, hn, hl⟩
  | _ => trivial

theorem Value.Like.part {u : Value} (h : v.Like ρ A v') (hp : u.Part v) : ∃ u', u.Like ρ A u' := by
  cases hp with
  | field hu =>
    cases h with
    | record _ _ _ hvs => exact partner_of_mem hvs hu
  | callee =>
    cases h with
    | partialCall _ hf _ _ _ => exact ⟨_, hf⟩
  | argument hu =>
    cases h with
    | partialCall _ _ hvs _ _ => exact partner_of_mem hvs hu

theorem takeOperands_of_le (h : n ≤ os.length) : takeOperands n os = some (os.take n, os.drop n) := by
  have ht := takeOperands_append (os.take n) (os.drop n)
  rwa [List.take_append_drop, List.length_take_of_le h] at ht

theorem Value.Like.callable : {v v' : Value} → {os : List Value} → v.Like ρ A v' → v.isCallable →
    ∀ what, applyFull v os ≠ .fault (.notCallable what)
  | .function _, _, _, _, _, _ => by simp [applyFull]
  | .partialCall _ _ _, _, _, .partialCall _ hf _ hk _, _, what => by
    rw [applyFull]
    exact hf.callable (by rw [Value.isCallable, hk]; rfl) what
  | .constructor c, _, os, _, _, what => by
    rw [applyFull]
    cases takeOperands c.arity os <;> simp
  | .native f, _, os, _, _, what => by
    rw [applyFull]
    cases takeOperands f.arity os <;> simp
termination_by structural v => v

/-- With as many arguments as it wants what can be called is applied. -/
theorem Value.Like.applies : {v v' : Value} → {os : List Value} → {n : Nat} → v.Like ρ A v' →
    v.arity? = some n → n ≤ os.length → ∀ f, applyFull v os ≠ .fault f
  | .function c, _, _, _, _, _, _, _ => by rintro ⟨⟩
  | .partialCall _ callee args, _, os, n, .partialCall (n := k) _ hf _ hk hl, hn, hos, f => by
    have hnk : k - args.length = n := by
      rw [Value.arity?, hk] at hn
      exact Option.some.inj hn
    have hlen : k ≤ (args ++ os).length := by
      rw [List.length_append]
      omega
    rw [applyFull]
    exact hf.applies hk hlen f
  | .constructor c, _, os, n, _, hn, hos, f => by
    cases hn
    rw [applyFull, takeOperands_of_le hos]
    rintro ⟨⟩
  | .native g, _, os, n, _, hn, hos, f => by
    cases hn
    rw [applyFull, takeOperands_of_le hos]
    rintro ⟨⟩
termination_by structural v => v

end

section

variable {ρ : Numbering} {w : Slack} {σ τ : Store} {m m' : Machine} {t t' : Transition} {code : Code}

theorem Transition.Like.store (h : t.Like ρ w t') : t.store.Like ρ w t'.store := by
  cases h with
  | running hm => exact hm.store
  | finished hσ _ => exact hσ
  | raised _ hm => exact hm.store

theorem Transition.Like.hear (h : t.Like ρ w t') (console : Console) :
    (t.hear console).Like ρ w (t'.hear console) := by
  cases h with
  | running hm => exact .running (hm.updateStore (hm.store.withConsole console))
  | finished hσ hv => exact .finished (hσ.withConsole console) hv
  | raised f hm => exact .raised f (hm.updateStore (hm.store.withConsole console))

theorem Machine.Like.equip (h : m.Like ρ w m') (hall : ∀ code, w.admits code) (withPrelude : Bool) :
    (m.equip withPrelude).Like ρ w (m'.equip withPrelude) := by
  unfold Machine.equip
  cases withPrelude with
  | true => exact h.loadPrelude hall .whole
  | false => exact .running h

theorem Store.Like.beginCode (h : σ.Like ρ w τ) (hall : ∀ code, w.admits code) (withPrelude : Bool)
    (module : String) (code : Code) :
    (MatchLang.beginCode σ withPrelude module code).Like ρ w
      (MatchLang.beginCode τ withPrelude module code) := by
  obtain ⟨htask, hσ⟩ := h.newTask (hall code) module
  have hm : Machine.Like ρ w
      { store := (σ.newTask module code).2, task := (σ.newTask module code).1, waiting := [] }
      { store := (τ.newTask module code).2, task := (τ.newTask module code).1, waiting := [] } :=
    ⟨hσ, htask, .nil⟩
  exact hm.equip hall withPrelude

theorem Store.Like.begin {v : Workspace} (h : σ.Like ρ w τ) (hcode : w.admits code) :
    (v.begin σ code).Like ρ w (v.begin τ code) :=
  ⟨h, bodyTask_like h.fits hcode v.module, .nil⟩

theorem Store.Like.idleMachine (h : σ.Like ρ w τ) (hall : ∀ code, w.admits code) :
    (MatchLang.idleMachine σ).Like ρ w (MatchLang.idleMachine τ) := by
  have hσ := (h.newRoot (Namespace.empty_like true)).newScope none
  have hbody : (bodyTask "" .empty σ.scopes.size σ.roots.size).Like ρ w
      (bodyTask "" .empty τ.scopes.size τ.roots.size) := by
    rw [h.scopes, h.roots]
    exact bodyTask_like h.fits (hall _) ""
  exact ⟨hσ, hbody, .nil⟩

theorem Store.initial_like (console : Console) (hn : ∀ i, w.numbers i i)
    (hc : w.counters Builtins.count Builtins.count) (hh : ∀ n, w.held n = none) :
    (Store.initial console).Like (fun i j => i = j ∧ i < Builtins.count) w (Store.initial console) where
  fits :=
    { lt := by
        rintro i j ⟨rfl, hi⟩
        exact ⟨hi, hi⟩
      iff := by
        rintro i j i' j' ⟨rfl, _⟩ ⟨rfl, _⟩
        exact Iff.rfl
      builtin := fun i hi => ⟨rfl, hi⟩ }
  pairs i j hij := hij.1 ▸ hn i
  next := hc
  scopes := rfl
  parents _ := rfl
  slots t n _ := .inl ⟨by simp [slot?, initial], by simp [slot?, initial]⟩
  held n v h := absurd ((hh n).symm.trans h) (Option.some_ne_none v).symm
  roots := rfl
  root r := by
    have hr : (initial console).root r = .empty true := by simp [root, initial]
    rw [hr]
    exact Namespace.empty_like true
  modules := rfl
  nextSlot := rfl
  console := rfl

end

namespace Moment

variable {a b : Moment}

theorem Runs.sane (hr : Runs a b) (ha : a.now.Sane) : b.now.Sane := by
  have hall : ∀ code, Slack.none.admits code := fun _ => trivial
  obtain ⟨ρ, ha⟩ := ha
  have hσ : a.now.store.Like ρ .none a.now.store := ha.store
  cases hr with
  | begins withPrelude module code => exact ⟨ρ, hσ.beginCode hall withPrelude module code⟩
  | enters code _ => exact ⟨ρ, .running (hσ.begin (hall code))⟩
  | next hn =>
    cases hn with
    | @steps m ws host _ =>
      cases ha with
      | running hm =>
        obtain ⟨ρ', -, hs⟩ := hm.step host hall
        exact ⟨ρ', hs⟩
    | hears console => exact ⟨ρ, ha.hear console⟩
    | begins hp =>
      cases hp with
      | module publishRoot withPrelude module hc =>
        exact ⟨ρ, (hσ.withNextSlot _).beginCode hall withPrelude module _⟩
      | line publishRoot hc _ => exact ⟨ρ, .running ((hσ.withNextSlot _).begin (hall _))⟩
    | opens withPrelude module => exact ⟨ρ, hσ.beginCode hall withPrelude module .empty⟩
    | rescopes _ => exact ⟨ρ, .finished (hσ.newScope none) (.inl ⟨rfl, rfl⟩)⟩
    | loads file _ => exact ⟨ρ, (hσ.idleMachine hall).load _ hall file .whole⟩
    | takes withPrelude _ hc =>
      exact ⟨ρ, ((hσ.idleMachine hall).await (hall _) _).equip hall withPrelude⟩

theorem Arises.sane (ha : a.Arises) : a.now.Sane := by
  obtain ⟨console, hl⟩ := ha
  induction hl with
  | refl => exact ⟨_, .finished (Store.initial_like console (fun _ => rfl) rfl fun _ => rfl) (.inl ⟨rfl, rfl⟩)⟩
  | tail _ hr ih => exact hr.sane ih

end Moment

section

variable {ρ : Numbering} {w : Slack} {t t' : Transition} {a : Moment} {v : Value}

theorem Both.partner {α β : Type} {r : α → β → Prop} {x : Option α} {y : Option β} {a : α}
    (h : Both r x y) (hx : x = some a) : ∃ b, r a b := by
  obtain ⟨hno, _⟩ | ⟨a', b, he, _, hab⟩ := h
  · cases hx.symm.trans hno
  · cases hx.symm.trans he
    exact ⟨b, hab⟩

theorem Transition.Like.operand {u : Task} (h : t.Like ρ w t') (hu : u ∈ t.allTasks) (hv : v ∈ u.operands) :
    ∃ v', v.Like ρ w.admits v' := by
  have htask : ∃ u', u.Like ρ w u' := by
    have hm : ∀ {m m' : Machine}, m.Like ρ w m' → u ∈ m.task :: m.waiting.map Suspended.task →
        ∃ u', u.Like ρ w u' := by
      intro m m' hm hu
      rcases List.mem_cons.mp hu with rfl | hu
      · exact ⟨_, hm.task⟩
      · obtain ⟨s, hs, rfl⟩ := List.mem_map.mp hu
        obtain ⟨s', hss⟩ := partner_of_mem hm.waiting hs
        exact ⟨_, hss.task⟩
    cases h with
    | running hm' => exact hm hm' hu
    | finished _ _ => cases hu
    | raised _ hm' => exact hm hm' hu
  obtain ⟨u', hlike⟩ := htask
  exact partner_of_mem hlike.operands hv

theorem Transition.Like.reaches (h : t.Like ρ w t') (hs : ∀ n, ¬ w.hidden n) (hv : t.Reaches v) :
    ∃ v', v.Like ρ w.admits v' := by
  induction hv with
  | operand hu hv => exact h.operand hu hv
  | result hr =>
    cases h with
    | finished _ hb =>
      exact hb.partner hr
    | running _ => cases hr
    | raised _ _ => cases hr
  | slot hv => exact (h.store.slots _ _ fun _ => hs _).partner hv
  | name hv => exact (((h.store.root _).at? _).bind fun _ _ hn => hn.value? _).partner hv
  | part hp _ ih =>
    obtain ⟨u', hu⟩ := ih
    exact hu.part hp

/-- Every value that can be reached is built as its case or its callee says; no call of it with as many arguments
as it wants, or with more operands below these, comes to something that cannot be called. -/
theorem reached_values_are_well_made (ha : a.Arises) (hv : a.now.Reaches v) :
    v.WellMade ∧ ∀ n os, v.arity? = some n →
      (∀ text, applyFull v os ≠ .fault (.notCallable text)) ∧
        (n ≤ os.length → ∀ f, applyFull v os ≠ .fault f) := by
  obtain ⟨ρ, hlike⟩ := ha.sane
  obtain ⟨v', hvv⟩ := hlike.reaches (fun _ => id) hv
  have hcall : ∀ {n}, v.arity? = some n → v.isCallable := by
    intro n hn
    rw [Value.isCallable, hn]
    rfl
  exact ⟨hvv.wellMade, fun n os hn => ⟨hvv.callable (hcall hn), hvv.applies hn⟩⟩

theorem Moment.Arises.walk {host : Host} {m m' : Machine} {ws : List Workspace} {k : Nat}
    (ha : Moment.Arises ⟨.running m, ws⟩) (hw : m.walk host k = some m') :
    Moment.Arises ⟨.running m', ws⟩ := by
  obtain ⟨console, hl⟩ := ha
  have hlater : Moment.Later (fun _ => True) True ⟨.running m, ws⟩ ⟨.running m', ws⟩ := .walk trivial hw ws
  exact ⟨console, hl.trans (hlater.lift id fun _ _ => .next)⟩

end

def heldPairCode : Code :=
  .mk [.mk 1 (.loadText "head"), .mk 1 (.loadName ["::"]), .mk 1 (.call 1)] []

/-- A call of the constructor of lists with one argument. -/
theorem held_pair_wants_a_tail : ∃ (a : Moment) (v : Value), a.Arises ∧ a.now.Reaches v ∧
    v = .partialCall 5 (.constructor builtins.cons) [.text "head"] ∧ v.arity? = some 1 ∧ v.WellMade ∧
    ∀ tail f, applyFull v [tail] ≠ .fault f := by
  let m := codeMachine heldPairCode []
  let v : Value := .partialCall 5 (.constructor builtins.cons) [.text "head"]
  have hstart : Moment.Arises ⟨.running m, []⟩ := ⟨.deaf, .single (.begins false "main" heldPairCode)⟩
  have hw : ∃ m', m.walk bareHost 3 = some m' ∧ m'.task.operands = [v] := ⟨_, rfl, rfl⟩
  obtain ⟨m', hw, ho⟩ := hw
  have ha : Moment.Arises ⟨.running m', []⟩ := hstart.walk hw
  have hv : Transition.Reaches (.running m') v :=
    .operand List.mem_cons_self (ho ▸ List.mem_cons_self)
  obtain ⟨hmade, hcall⟩ := reached_values_are_well_made ha hv
  exact ⟨_, v, ha, hv, rfl, rfl, hmade, fun tail => (hcall 1 [tail] rfl).2 (Nat.le_refl 1)⟩

end MatchLang
