import MatchLang.Proofs.Prelude.Standing
import MatchLang.Proofs.Prelude.Steps

/-! What the functions on lists do: they go on as a script says, from the first instruction to the return. -/

namespace MatchLang

/-- Whether a value is the built-in `True`. -/
def Value.isYes : Value → Bool
  | .constant d => d == builtins.yes
  | _ => false

/-- Go through a list with a state that each element may change. -/
def Script.through {α : Type} (step : α → Value → (α → Script) → Script) :
    α → List Value → (α → Script) → Script
  | a, [], k => k a
  | a, v :: vs, k => step a v fun a' => through step a' vs k

theorem Script.through_push (vs acc : List Value) (k : List Value → Script) :
    Script.through (fun acc v k => k (v :: acc)) acc vs k = k (vs.reverse ++ acc) := by
  induction vs generalizing acc with
  | nil => rfl
  | cons v vs ih =>
    rw [List.reverse_cons, List.append_assoc]
    exact ih (v :: acc)

/-- The call at `c` finds the prelude, whose body has run in the scope `s` and has the root `r`. -/
structure Prelude.Serving (host : Host) (c : CallSite) (n r s : Nat) : Prop where
  roomy : c.Roomy host
  names : (c.machine.store.root r).HasLists
  scope : s < c.machine.store.scopes.size
  slots : ∀ d ∈ Prelude.listFunctions n, c.machine.store.Binds r s d

/-- A callback that goes on as a script says, from one state of the accumulator to the next. -/
def Prelude.Does {α : Type} (host : Host) (c : CallSite) (r room : Nat) (f : Value)
    (step : α → Value → (α → Script) → Script) (embed : α → Value) (σ₀ : Store) : Prop :=
  ∀ ⦃b σ a v os line is k⦄, b.Serves c r → b.HasRoom c room → σ₀.Beyond σ →
    (∀ a' τ, σ.Beyond τ → (k a').Runs host c r b τ (embed a' :: os) is) →
    (step a v k).Runs host c r b σ (f :: embed a :: v :: os) (.mk line (.call 2) :: is)

/-- A function without parameters that leaves a value. -/
def Prelude.Gives (host : Host) (c : CallSite) (r : Nat) (g : Closure) (v : Value) (σ₀ : Store) : Prop :=
  ∀ ⦃b : Machine⦄ ⦃σ os line is⦄ ⦃s : Script⦄, b.Serves c r → b.HasRoom c 1 → σ₀.Beyond σ →
    (∀ τ, σ.Beyond τ → s.Runs host c r b τ (v :: os) is) →
    s.Runs host c r b σ (.function g :: os) (.mk line (.call 0) :: is)

/-- What a scope leads to, now and later. -/
def Store.Finds (σ : Store) (scope i : Nat) (v : Value) : Prop :=
  scope < σ.scopes.size ∧ ∀ τ, σ.Beyond τ → τ.lookup scope i = some v

section

variable {find : List String → Except Fault DataType} {v : Value} {vs : List Value}

theorem accepts_cons (h : find ["::"] = .ok (.case builtins.cons)) :
    (Shape.type ["::"] [.any, .any]).accepts find (builtins.list vs) = .ok !vs.isEmpty := by
  cases vs <;> simp only [Shape.accepts, h, builtins] <;> rfl

theorem takeApart_cons (h : find ["::"] = .ok (.case builtins.cons)) :
    takeApart find ["::"] 2 (builtins.list (v :: vs)) = .ok [v, builtins.list vs] := by
  unfold takeApart
  rw [h]
  rfl

theorem Value.Occurs.yes (hv : v.Occurs) (h : find ["True"] = .ok (.case builtins.yes)) :
    (Shape.type ["True"] []).accepts find v = .ok v.isYes ∧
      (v.isYes = true → takeApart find ["True"] 0 v = .ok []) := by
  obtain ⟨κ, hok, hκ⟩ := hv
  have hyes : κ.Has builtins.yes := hκ _ rfl
  constructor
  · unfold Shape.accepts
    rw [h]
    cases v with
    | constant d =>
      show Except.ok (d.id == builtins.yes.id) = .ok (d == builtins.yes)
      by_cases hd : d.id = builtins.yes.id
      · obtain rfl := hok.1.eq_of_id hyes hd
        rfl
      · rw [beq_eq_false_iff_ne.mpr hd, beq_eq_false_iff_ne.mpr fun he => hd (congrArg Case.id he)]
    | record d fields =>
      have hd : d.id ≠ builtins.yes.id := by
        intro hd
        have hpos := hok.2.1
        rw [hok.1.eq_of_id hyes hd] at hpos
        exact Nat.lt_irrefl 0 hpos
      simp only [beq_eq_false_iff_ne.mpr hd, Bool.false_and]
      rfl
    | _ => rfl
  · intro hy
    cases v with
    | constant d =>
      obtain rfl : d = builtins.yes := beq_iff_eq.mp hy
      unfold takeApart
      rw [h]
      rfl
    | _ => cases hy

theorem List.lookup_cons_ne {env : List (Nat × Value)} {i j : Nat} (h : j ≠ i) :
    List.lookup j ((i, v) :: env) = env.lookup j := by
  rw [List.lookup_cons, beq_eq_false_iff_ne.mpr h]

end

namespace Store.Opened

variable {σ τ υ : Store} {scope p i : Nat} {env : List (Nat × Value)} {v : Value}

theorem finds (h : σ.Opened scope p env τ) (hv : env.lookup i = some v) : τ.Finds scope i v :=
  ⟨h.old, fun _ hυ => (h.later hυ).lookup hv⟩

/-- What is found right inside a scope in which it is found. -/
theorem finds_outer (h : σ.Opened scope p env τ) (hi : env.lookup i = none) (hσ : υ.Beyond σ)
    (hv : υ.Finds p i v) : τ.Finds scope i v := by
  have hp : p < scope := Nat.lt_of_lt_of_le hv.1 (Nat.le_trans hσ.size h.fresh)
  refine ⟨h.old, fun τ' hτ' => (h.later hτ').lookup_outer hi hp (hv.2 τ' ?_)⟩
  exact hσ.trans (h.beyond.trans hτ')

end Store.Opened

theorem Store.Finds.now {σ : Store} {scope i : Nat} {v : Value} (h : σ.Finds scope i v) :
    σ.lookup scope i = some v :=
  h.2 σ (.refl σ)

theorem Store.Finds.later {σ τ : Store} {scope i : Nat} {v : Value} (h : σ.Finds scope i v) (hτ : σ.Beyond τ) :
    τ.Finds scope i v :=
  ⟨Nat.lt_of_lt_of_le h.1 hτ.size, fun υ hυ => h.2 υ (hτ.trans hυ)⟩

namespace Prelude

variable {host : Host} {c : CallSite} {n r s i line : Nat} {σ σ₀ τ : Store} {b : Machine} {acc x : Slot} {g : Closure}
  {is : List Instr} {os : List Value}

namespace Serving

theorem lists (hp : Serving host c n r s) (hσ : c.machine.store.Beyond σ) : (σ.root r).HasLists := by
  rw [hσ.root]
  exact hp.names

theorem finds {d : Definition} (hp : Serving host c n r s) (hd : d ∈ listFunctions n) :
    ∃ id, c.machine.store.Finds s d.slot.id (.function (d.closure r s id)) := by
  obtain ⟨id, hslot, -⟩ := hp.slots d hd
  exact ⟨id, hp.scope, fun τ hτ => Store.lookup_of_slot? ((hτ.slots s _ hp.scope).trans hslot)⟩

theorem push (hp : Serving host c n r s) (hσ₀ : c.machine.store.Beyond σ₀) (hne : acc.id ≠ x.id)
    (hcode : g.code = pushCode acc x) (harity : g.arity = 2) (hhome : g.home = r) :
    Does host c r 1 (.function g) (fun vs v k => k (v :: vs)) builtins.list σ₀ := by
  intro b σ vs v os line is k hb hroom hσ hk
  have hbeyond := hσ₀.trans hσ
  have hs : (b.calling line is g σ.scopes.size).Serves c r := hroom.serves hhome hbeyond.size
  refine .call [_, _] hb harity.symm hroom hp.roomy hhome ?_
  rw [hcode]
  refine .saveLocal hs .new fun σ₁ h₁ => .saveLocal hs h₁ fun σ₂ h₂ => ?_
  have hacc := h₂.lookup ((List.lookup_cons_ne hne).trans List.lookup_cons_self)
  have hx := h₂.lookup List.lookup_cons_self
  exact .loadLocal hs hacc (.loadLocal hs hx
    (.loadName hs (hp.lists (hbeyond.trans h₂.beyond)).cons (.cons hs (.leave hs (hk _ _ h₂.beyond)))))

/-- The loop that `fold` is: with each element its function begins again. -/
theorem fold_body {α : Type} {room id : Nat} {f : Value} {step : α → Value → (α → Script) → Script}
    {embed : α → Value} {k : α → Script} (hp : Serving host c n r s) (hσ₀ : c.machine.store.Beyond σ₀)
    (hb : b.HasRoom c (room + 1)) (hf : Does host c r room f step embed σ₀)
    (hk : ∀ a τ scope, σ₀.Beyond τ → c.machine.store.scopes.size ≤ scope →
      (k a).Runs host c r (b.calling line is ((fold n).closure r s id) scope) τ (embed a :: os) [])
    (vs : List Value) (a : α) {σ₁ : Store} (hσ₁ : σ₀.Beyond σ₁) :
    (Script.through step a vs k).Runs host c r (b.calling line is ((fold n).closure r s id) σ₁.scopes.size)
      (σ₁.newScope (some s)).2 (f :: embed a :: builtins.list vs :: os) (fold n).code.instrs := by
  induction vs generalizing a σ₁ with
  | nil =>
    have hbeyond := hσ₀.trans hσ₁
    have hs : (b.calling line is ((fold n).closure r s id) σ₁.scopes.size).Serves c r :=
      hb.serves rfl hbeyond.size
    refine .saveLocal hs .new fun σ₂ h₂ => .saveLocal hs h₂ fun σ₃ h₃ => .saveLocal hs h₃ fun σ₄ h₄ => ?_
    have hxs := h₄.lookup List.lookup_cons_self
    have hacc := h₄.lookup ((List.lookup_cons_ne (by simp)).trans List.lookup_cons_self)
    have htype := (hp.lists (hbeyond.trans h₄.beyond)).consType
    refine .loadLocal hs hxs (.duplicate hs (.jumpIf_no hs (accepts_cons htype) ?_))
    refine .duplicate hs (.jumpIf_yes hs rfl rfl ?_)
    refine .pop hs (.loadLocal hs hacc (.jump hs rfl (.nothing hs (hk a σ₄ _ (hσ₁.trans h₄.beyond) hbeyond.size))))
  | cons v vs ih =>
    have hbeyond := hσ₀.trans hσ₁
    have hs : (b.calling line is ((fold n).closure r s id) σ₁.scopes.size).Serves c r :=
      hb.serves rfl hbeyond.size
    refine .saveLocal hs .new fun σ₂ h₂ => .saveLocal hs h₂ fun σ₃ h₃ => .saveLocal hs h₃ fun σ₄ h₄ => ?_
    have hxs := h₄.lookup List.lookup_cons_self
    have htype := (hp.lists (hbeyond.trans h₄.beyond)).consType
    have hlabel : (fold n).code.from? 1 = some ((fold n).code.instrs.drop 9) := rfl
    refine .loadLocal hs hxs (.duplicate hs (.jumpIf_yes hs (accepts_cons htype) hlabel ?_))
    refine .decompose hs (takeApart_cons htype) ?_
    refine .saveLocal hs h₄ fun σ₅ h₅ => .saveLocal hs h₅ fun σ₆ h₆ => ?_
    have hrest := h₆.lookup List.lookup_cons_self
    have hx := h₆.lookup ((List.lookup_cons_ne (by simp)).trans List.lookup_cons_self)
    have hacc : σ₆.lookup σ₁.scopes.size (n + 22) = some (embed a) := h₆.lookup (by simp [List.lookup_cons_ne])
    have hfun : ∀ υ, σ₆.Beyond υ → υ.lookup σ₁.scopes.size (n + 21) = some f :=
      fun υ hυ => (h₆.later hυ).lookup (by simp [List.lookup_cons_ne])
    refine .loadLocal hs hrest (.loadLocal hs hx (.loadLocal hs hacc (.loadLocal hs (hfun _ (.refl _)) ?_)))
    refine hf hs hb.calling (hσ₁.trans h₆.beyond) fun a' υ hυ => ?_
    have hlater := (h₆.later hυ).beyond
    exact .loadLocal hs (hfun υ hυ) (.tailCall hb rfl hbeyond.size
      (ih a' (hσ₁.trans hlater)))

/-- What `fold` does with a callback when it is called by another function of the prelude. -/
theorem fold_call {α : Type} {room id : Nat} {f : Value} {step : α → Value → (α → Script) → Script}
    {embed : α → Value} {a : α} {vs : List Value} {k : α → Script} (hp : Serving host c n r s)
    (hσ : c.machine.store.Beyond σ) (hs : b.Serves c r) (hb : b.HasRoom c (room + 1))
    (hf : Does host c r room f step embed σ)
    (hk : ∀ a τ, σ.Beyond τ → (k a).Runs host c r b τ (embed a :: os) is) :
    (Script.through step a vs k).Runs host c r b σ
      (.function ((fold n).closure r s id) :: f :: embed a :: builtins.list vs :: os)
      (.mk line (.call 3) :: is) := by
  refine .call [_, _, _] hs rfl hb hp.roomy rfl ?_
  refine hp.fold_body hσ hb hf (fun a τ scope hτ hscope => ?_) vs a (.refl σ)
  exact .leave (hb.serves rfl hscope) (hk a τ hτ)

/-- A list is put in front of another one, the last element first. -/
theorem fold_push {id : Nat} {before vs : List Value} {k : List Value → Script} (hp : Serving host c n r s)
    (hσ : c.machine.store.Beyond σ) (hs : b.Serves c r) (hb : b.HasRoom c 2) (hne : acc.id ≠ x.id)
    (hcode : g.code = pushCode acc x) (harity : g.arity = 2) (hhome : g.home = r)
    (hk : ∀ rs τ, σ.Beyond τ → (k rs).Runs host c r b τ (builtins.list rs :: os) is) :
    (k (vs.reverse ++ before)).Runs host c r b σ
      (.function ((fold n).closure r s id) :: .function g :: builtins.list before :: builtins.list vs :: os)
      (.mk line (.call 3) :: is) := by
  rw [← Script.through_push vs before k]
  exact hp.fold_call hσ hs hb (hp.push hσ hne hcode harity hhome) hk

/-- What `reverse` does. -/
theorem reverse_body {id : Nat} {vs : List Value} {k : List Value → Script} (hp : Serving host c n r s)
    (hσ : c.machine.store.Beyond σ) (hb : b.HasRoom c 3)
    (hk : ∀ rs τ, σ.Beyond τ → (k rs).Runs host c r
      (b.calling line is ((reverse n).closure r s id) σ.scopes.size) τ (builtins.list rs :: os) []) :
    (k vs.reverse).Runs host c r (b.calling line is ((reverse n).closure r s id) σ.scopes.size)
      (σ.newScope (some s)).2 (builtins.list vs :: os) (reverse n).code.instrs := by
  have hs : (b.calling line is ((reverse n).closure r s id) σ.scopes.size).Serves c r :=
    hb.serves rfl hσ.size
  obtain ⟨fid, hfold⟩ := hp.finds (d := fold n) (by simp [listFunctions])
  refine .saveLocal hs .new fun σ₁ h₁ => .loadLocal hs (h₁.lookup List.lookup_cons_self) ?_
  refine .loadName hs (hp.lists (hσ.trans h₁.beyond)).empty (.loadFunction hs h₁ fun σ₂ gid h₂ => ?_)
  refine .loadLocal hs (h₂.finds_outer (by simp [fold, List.lookup_cons_ne]) hσ hfold).now ?_
  rw [← List.append_nil vs.reverse]
  exact hp.fold_push (hσ.trans h₂.beyond) hs hb.calling (by simp) rfl rfl rfl
    fun rs τ hτ => hk rs τ (h₂.beyond.trans hτ)

theorem reverse_call {id : Nat} {vs : List Value} {k : List Value → Script} (hp : Serving host c n r s)
    (hσ : c.machine.store.Beyond σ) (hs : b.Serves c r) (hb : b.HasRoom c 3)
    (hk : ∀ rs τ, σ.Beyond τ → (k rs).Runs host c r b τ (builtins.list rs :: os) is) :
    (k vs.reverse).Runs host c r b σ (.function ((reverse n).closure r s id) :: builtins.list vs :: os)
      (.mk line (.call 1) :: is) := by
  refine .call [_] hs rfl hb hp.roomy rfl ?_
  exact hp.reverse_body hσ hb fun rs τ hτ => .leave (hb.serves rfl hσ.size) (hk rs τ hτ)

/-- What `append` does. -/
theorem append_body {id : Nat} {vs ws : List Value} {k : List Value → Script} (hp : Serving host c n r s)
    (hσ : c.machine.store.Beyond σ) (hb : b.HasRoom c 4)
    (hk : ∀ rs τ, σ.Beyond τ → (k rs).Runs host c r
      (b.calling line is ((append n).closure r s id) σ.scopes.size) τ (builtins.list rs :: os) []) :
    (k (vs ++ ws)).Runs host c r (b.calling line is ((append n).closure r s id) σ.scopes.size)
      (σ.newScope (some s)).2 (builtins.list vs :: builtins.list ws :: os) (append n).code.instrs := by
  have hs : (b.calling line is ((append n).closure r s id) σ.scopes.size).Serves c r :=
    hb.serves rfl hσ.size
  obtain ⟨rid, hreverse⟩ := hp.finds (d := reverse n) (by simp [listFunctions])
  obtain ⟨fid, hfold⟩ := hp.finds (d := fold n) (by simp [listFunctions])
  refine .saveLocal hs .new fun σ₁ h₁ => .saveLocal hs h₁ fun σ₂ h₂ => ?_
  have hxs := h₂.lookup ((List.lookup_cons_ne (by simp)).trans List.lookup_cons_self)
  refine .loadLocal hs hxs (.loadLocal hs (h₂.finds_outer (by simp [reverse, List.lookup_cons_ne]) hσ hreverse).now ?_)
  have htwice : vs ++ ws = vs.reverse.reverse ++ ws := by rw [List.reverse_reverse]
  rw [htwice]
  have hbeyond := hσ.trans h₂.beyond
  refine hp.reverse_call (k := fun rs => k (rs.reverse ++ ws)) hbeyond hs hb.calling fun rs τ hτ => ?_
  have hlater := h₂.later hτ
  refine .loadLocal hs (hlater.lookup List.lookup_cons_self) (.loadFunction hs hlater fun σ₃ gid h₃ => ?_)
  refine .loadLocal hs (h₃.finds_outer (by simp [fold, List.lookup_cons_ne]) hσ hfold).now ?_
  exact hp.fold_push (hσ.trans h₃.beyond) hs (hb.calling.mono (by decide)) (by simp) rfl rfl rfl
    fun rs τ hτ => hk rs τ (h₃.beyond.trans hτ)

/-- The callback of `map`, which applies a value to each element. -/
theorem pushResult {f : Value} (hp : Serving host c n r s) (hσ₀ : c.machine.store.Beyond σ₀)
    (hf : σ₀.Finds g.scope (n + 31) f) (hcode : g.code = pushResultCode n) (harity : g.arity = 2)
    (hhome : g.home = r) :
    Does host c r 1 (.function g) (fun rs v k => .apply f [v] fun w => k (w :: rs)) builtins.list σ₀ := by
  intro b σ rs v os line is k hb hroom hσ hk
  have hbeyond := hσ₀.trans hσ
  have hs : (b.calling line is g σ.scopes.size).Serves c r := hroom.serves hhome hbeyond.size
  refine .call [_, _] hb harity.symm hroom hp.roomy hhome ?_
  rw [hcode]
  refine .saveLocal hs .new fun σ₁ h₁ => .saveLocal hs h₁ fun σ₂ h₂ => ?_
  have hacc := h₂.lookup ((List.lookup_cons_ne (by simp)).trans List.lookup_cons_self)
  have hx := h₂.lookup List.lookup_cons_self
  have hfun := (h₂.finds_outer (by simp [List.lookup_cons_ne]) hσ hf).now
  refine .loadLocal hs hacc (.loadLocal hs hx (.loadLocal hs hfun (.apply [v] hs fun w τ hτ _ => ?_)))
  have hlater := h₂.beyond.trans hτ
  exact .loadName hs (hp.lists (hbeyond.trans hlater)).cons (.cons hs (.leave hs (hk _ _ hlater)))

/-- What `map` does. -/
theorem map_body {id : Nat} {f : Value} {vs : List Value} {k : List Value → Script} (hp : Serving host c n r s)
    (hσ : c.machine.store.Beyond σ) (hb : b.HasRoom c 4)
    (hk : ∀ rs τ, σ.Beyond τ → (k rs).Runs host c r
      (b.calling line is ((map n).closure r s id) σ.scopes.size) τ (builtins.list rs :: os) []) :
    (Script.through (fun rs v k => .apply f [v] fun w => k (w :: rs)) [] vs fun rs => k rs.reverse).Runs host c r
      (b.calling line is ((map n).closure r s id) σ.scopes.size) (σ.newScope (some s)).2
      (f :: builtins.list vs :: os) (map n).code.instrs := by
  have hs : (b.calling line is ((map n).closure r s id) σ.scopes.size).Serves c r :=
    hb.serves rfl hσ.size
  obtain ⟨rid, hreverse⟩ := hp.finds (d := reverse n) (by simp [listFunctions])
  obtain ⟨fid, hfold⟩ := hp.finds (d := fold n) (by simp [listFunctions])
  refine .saveLocal hs .new fun σ₁ h₁ => .saveLocal hs h₁ fun σ₂ h₂ => ?_
  refine .loadLocal hs (h₂.lookup List.lookup_cons_self) ?_
  refine .loadName hs (hp.lists (hσ.trans h₂.beyond)).empty (.loadFunction hs h₂ fun σ₃ gid h₃ => ?_)
  refine .loadLocal hs (h₃.finds_outer (by simp [fold, List.lookup_cons_ne]) hσ hfold).now ?_
  have hbeyond := hσ.trans h₃.beyond
  have hf := h₃.finds (i := n + 31) (v := f) (by simp [List.lookup_cons_ne])
  refine hp.fold_call (a := []) hbeyond hs (hb.calling.mono (by decide)) (hp.pushResult hbeyond hf rfl rfl rfl)
    fun rs τ hτ => ?_
  have hlater := h₃.later hτ
  refine .loadLocal hs (hlater.finds_outer (by simp [reverse, List.lookup_cons_ne]) hσ hreverse).now ?_
  exact hp.reverse_call (hσ.trans hlater.beyond) hs hb.calling fun rs υ hυ => hk rs υ (hlater.beyond.trans hυ)

/-- What `if` does with two functions without parameters. -/
theorem choose_call {id : Nat} {w v : Value} {yes no : Closure} {k : Script} (hp : Serving host c n r s)
    (hσ : c.machine.store.Beyond σ) (hs : b.Serves c r) (hb : b.HasRoom c 2) (hw : w.Occurs)
    (hyes : w.isYes = true → Gives host c r yes v σ) (hno : w.isYes = false → Gives host c r no v σ)
    (hk : ∀ τ, σ.Beyond τ → k.Runs host c r b τ (v :: os) is) :
    k.Runs host c r b σ
      (.function ((choose n).closure r s id) :: w :: .function yes :: .function no :: os)
      (.mk line (.call 3) :: is) := by
  refine .call [_, _, _] hs rfl hb hp.roomy rfl ?_
  have hf : (b.calling line is ((choose n).closure r s id) σ.scopes.size).Serves c r :=
    hb.serves rfl hσ.size
  refine .saveLocal hf .new fun σ₁ h₁ => .saveLocal hf h₁ fun σ₂ h₂ => .saveLocal hf h₂ fun σ₃ h₃ => ?_
  have hc := h₃.finds (i := n + 18) (v := w) (by simp [List.lookup_cons_ne])
  have hthen := h₃.finds (i := n + 19) (v := .function yes) (by simp [List.lookup_cons_ne])
  have helse := h₃.finds (i := n + 20) (v := .function no) (by simp)
  obtain ⟨haccepts, hparts⟩ := hw.yes (hp.lists (hσ.trans h₃.beyond)).yesType
  -- both arms end behind the last instruction but one
  have hend : ∀ τ, σ₃.Beyond τ → k.Runs host c r
      (b.calling line is ((choose n).closure r s id) σ.scopes.size) τ (v :: os)
        ((choose n).code.instrs.drop 17) :=
    fun τ hτ => .nothing hf (.leave hf (hk τ (h₃.beyond.trans hτ)))
  refine .loadLocal hf hc.now (.duplicate hf ?_)
  cases hy : w.isYes with
  | true =>
    rw [hy] at haccepts
    have hlabel : (choose n).code.from? 1 = some ((choose n).code.instrs.drop 9) := rfl
    refine .jumpIf_yes hf haccepts hlabel (.decompose hf (hparts hy) ?_)
    refine .loadLocal hf hthen.now (hyes hy hf hb.calling h₃.beyond fun τ hτ => ?_)
    exact .jump hf rfl (hend τ hτ)
  | false =>
    rw [hy] at haccepts
    refine .jumpIf_no hf haccepts (.duplicate hf (.jumpIf_yes hf rfl rfl (.pop hf ?_)))
    refine .loadLocal hf helse.now (hno hy hf hb.calling h₃.beyond fun τ hτ => ?_)
    exact .jump hf rfl (hend τ hτ)

/-- A function that leaves what it finds. -/
theorem gives_found {v : Value} (hp : Serving host c n r s) (hcode : g.code = .mk (onLine i [.loadLocal acc]) [])
    (harity : g.arity = 0) (hhome : g.home = r) (hσ₀ : c.machine.store.Beyond σ₀)
    (hv : σ₀.Finds g.scope acc.id v) : Gives host c r g v σ₀ := by
  intro b σ os line is k hb hroom hσ hk
  have hbeyond := hσ₀.trans hσ
  have hs : (b.calling line is g σ.scopes.size).Serves c r := hroom.serves hhome hbeyond.size
  refine .call [] hb harity.symm hroom hp.roomy hhome ?_
  rw [hcode]
  have ho : σ.Opened σ.scopes.size g.scope [] (σ.newScope (some g.scope)).2 := .new
  exact .loadLocal hs (ho.finds_outer rfl hσ hv).now (.leave hs (hk _ ho.beyond))

/-- A function that puts a value that it finds in front of a list that it finds. -/
theorem gives_cons {v : Value} {vs : List Value} (hp : Serving host c n r s)
    (hcode : g.code = .mk (consOf i x acc) []) (harity : g.arity = 0) (hhome : g.home = r)
    (hσ₀ : c.machine.store.Beyond σ₀) (hx : σ₀.Finds g.scope x.id v)
    (hacc : σ₀.Finds g.scope acc.id (builtins.list vs)) :
    Gives host c r g (builtins.list (v :: vs)) σ₀ := by
  intro b σ os line is k hb hroom hσ hk
  have hbeyond := hσ₀.trans hσ
  have hs : (b.calling line is g σ.scopes.size).Serves c r := hroom.serves hhome hbeyond.size
  refine .call [] hb harity.symm hroom hp.roomy hhome ?_
  rw [hcode]
  have ho : σ.Opened σ.scopes.size g.scope [] (σ.newScope (some g.scope)).2 := .new
  refine .loadLocal hs (ho.finds_outer rfl hσ hacc).now (.loadLocal hs (ho.finds_outer rfl hσ hx).now ?_)
  exact .loadName hs (hp.lists (hbeyond.trans ho.beyond)).cons (.cons hs (.leave hs (hk _ ho.beyond)))

/-- The callback of `filter`, which applies a value to each element and keeps it if the answer is `True`. -/
theorem keep {id : Nat} {p : Value} (hp : Serving host c n r s) (hσ₀ : c.machine.store.Beyond σ₀)
    (hpred : σ₀.Finds g.scope (n + 35) p)
    (hchoose : σ₀.Finds g.scope (n + 4) (.function ((choose n).closure r s id)))
    (hcode : g.code = keepCode n) (harity : g.arity = 2) (hhome : g.home = r) :
    Does host c r 3 (.function g)
      (fun kept v k => .apply p [v] fun w => k (if w.isYes then v :: kept else kept)) builtins.list σ₀ := by
  intro b σ kept v os line is k hb hroom hσ hk
  have hbeyond := hσ₀.trans hσ
  have hs : (b.calling line is g σ.scopes.size).Serves c r := hroom.serves hhome hbeyond.size
  refine .call [_, _] hb harity.symm hroom hp.roomy hhome ?_
  rw [hcode]
  refine .saveLocal hs .new fun σ₁ h₁ => .saveLocal hs h₁ fun σ₂ h₂ => ?_
  refine .loadFunction hs h₂ fun σ₃ nid h₃ => .loadFunction hs h₃ fun σ₄ yid h₄ => ?_
  have hx := h₄.finds (i := n + 39) (v := v) (by simp)
  have hacc := h₄.finds (i := n + 38) (v := builtins.list kept) (by simp [List.lookup_cons_ne])
  have hpred := (h₄.finds_outer (by simp [List.lookup_cons_ne]) hσ hpred)
  have hchoose := (h₄.finds_outer (by simp [List.lookup_cons_ne]) hσ hchoose)
  refine .loadLocal hs hx.now (.loadLocal hs hpred.now (.apply [v] hs fun w τ hτ hw => ?_))
  have hlater := hbeyond.trans (h₄.beyond.trans hτ)
  refine .loadLocal hs (hchoose.2 τ hτ) (hp.choose_call (v := builtins.list (if w.isYes then v :: kept else kept))
    hlater hs hroom.calling hw (fun hy => ?_) (fun hy => ?_) fun υ hυ =>
      .leave hs (hk _ υ (h₄.beyond.trans (hτ.trans hυ))))
  · rw [if_pos hy]
    exact hp.gives_cons rfl rfl hhome hlater (hx.later hτ) (hacc.later hτ)
  · rw [hy]
    exact hp.gives_found rfl rfl hhome hlater (hacc.later hτ)

/-- What `filter` does. -/
theorem filter_body {id : Nat} {p : Value} {vs : List Value} {k : List Value → Script}
    (hp : Serving host c n r s) (hσ : c.machine.store.Beyond σ) (hb : b.HasRoom c 5)
    (hk : ∀ rs τ, σ.Beyond τ → (k rs).Runs host c r
      (b.calling line is ((filter n).closure r s id) σ.scopes.size) τ (builtins.list rs :: os) []) :
    (Script.through (fun kept v k => .apply p [v] fun w => k (if w.isYes then v :: kept else kept)) [] vs
        fun rs => k rs.reverse).Runs host c r
      (b.calling line is ((filter n).closure r s id) σ.scopes.size) (σ.newScope (some s)).2
      (p :: builtins.list vs :: os) (filter n).code.instrs := by
  have hs : (b.calling line is ((filter n).closure r s id) σ.scopes.size).Serves c r :=
    hb.serves rfl hσ.size
  obtain ⟨cid, hchoose⟩ := hp.finds (d := choose n) (by simp [listFunctions])
  obtain ⟨rid, hreverse⟩ := hp.finds (d := reverse n) (by simp [listFunctions])
  obtain ⟨fid, hfold⟩ := hp.finds (d := fold n) (by simp [listFunctions])
  refine .saveLocal hs .new fun σ₁ h₁ => .saveLocal hs h₁ fun σ₂ h₂ => .loadFunction hs h₂ fun σ₃ gid h₃ => ?_
  refine .saveLocal hs h₃ fun σ₄ h₄ => ?_
  have hxs := h₄.finds (i := n + 36) (v := builtins.list vs) (by simp [List.lookup_cons_ne])
  have hpred := h₄.finds (i := n + 35) (v := p) (by simp [List.lookup_cons_ne])
  have hbeyond := hσ.trans h₄.beyond
  refine .loadLocal hs hxs.now (.loadName hs (hp.lists hbeyond).empty ?_)
  refine .loadLocal hs (h₄.lookup List.lookup_cons_self) ?_
  refine .loadLocal hs (h₄.finds_outer (by simp [fold, List.lookup_cons_ne]) hσ hfold).now ?_
  have hchoose := h₄.finds_outer (by simp [choose, List.lookup_cons_ne]) hσ hchoose
  refine hp.fold_call (a := []) hbeyond hs hb.calling (hp.keep hbeyond hpred hchoose rfl rfl rfl)
    fun rs τ hτ => ?_
  have hlater := h₄.later hτ
  refine .loadLocal hs (hlater.finds_outer (by simp [reverse, List.lookup_cons_ne]) hσ hreverse).now ?_
  exact hp.reverse_call (hσ.trans hlater.beyond) hs (hb.calling.mono (by decide)) fun rs υ hυ =>
    hk rs υ (hlater.beyond.trans hυ)

end Serving

end Prelude

end MatchLang
