import MatchLang.Proofs.Lists.Building
import MatchLang.Proofs.Session.HomeModule
import MatchLang.Proofs.Store.Beyond

/-! Calls inside calls. A call that is part of another comes to an end before it, or takes it along; and when it
has answered, the store has only been added to. -/

namespace MatchLang

section

variable {κ : Registry} {host : Host} {m m' m₁ : Machine} {t u : Transition} {l l' h line : Nat}
  {k : List Instr} {σ τ : Store} {callee : Value} {args os : List Value}

theorem Transition.Over.mono (h : t.Over l) (hl : l ≤ l') : t.Over l' := by
  cases t with
  | running m => exact Nat.le_trans h hl
  | finished σ v => exact h
  | raised m f => exact h

namespace Machine.EndsAt

theorem isOver (h : m.EndsAt host l t) : t.Over l := by
  induction h with
  | ends hover => exact hover
  | goes _ _ _ ih => exact ih

/-- A step that does not end a call leads on to its end. -/
theorem after_step (h : m.EndsAt host l t) (hs : m.step host = .running m') (hlt : l < m'.nesting) :
    m'.EndsAt host l t := by
  cases h with
  | ends hover =>
    rw [hs] at hover
    exact absurd hlt (Nat.not_lt.mpr hover)
  | goes hs' _ h =>
    rw [hs] at hs'
    cases hs'
    exact h

/-- What comes after a call that has answered. -/
theorem trans (h : m.EndsAt host l' t) (hl : l ≤ l') (ht : t = .running m') (hlt : l < m'.nesting)
    (h' : m'.EndsAt host l u) : m.EndsAt host l u := by
  induction h with
  | ends _ => exact .goes ht hlt h'
  | goes hs hlt' _ ih => exact .goes hs (Nat.lt_of_le_of_lt hl hlt') (ih ht)

/-- A fault in a call ends the calls around it. -/
theorem fault {f : Fault} (h : m.EndsAt host l' t) (hl : l ≤ l') (ht : t = .raised m' f) :
    m.EndsAt host l t := by
  induction h with
  | ends _ => exact .ends (ht ▸ trivial)
  | goes hs hlt _ ih => exact .goes hs (Nat.lt_of_le_of_lt hl hlt) (ih ht)

/-- A call that is part of another one ends with it or before. -/
theorem split (h : m.EndsAt host l t) (hl : l ≤ l') :
    ∃ u, m.EndsAt host l' u ∧ (u = t ∨ ∃ m', u = .running m' ∧ l < m'.nesting ∧ m'.EndsAt host l t) := by
  induction h with
  | ends hover => exact ⟨_, .ends (hover.mono hl), .inl rfl⟩
  | @goes m m' t hs hlt h ih =>
    by_cases hn : m'.nesting ≤ l'
    · exact ⟨.running m', hs ▸ .ends (hs ▸ hn), .inr ⟨m', rfl, hlt, h⟩⟩
    · obtain ⟨u, hu, hrest⟩ := ih
      exact ⟨u, .goes hs (Nat.lt_of_not_le hn) hu, hrest⟩

/-- A call that ends with a machine returns to it. -/
theorem returns (h : m.EndsAt host m₁.nesting t) (ht : t = .running m') :
    ∃ n, m.walk host (n + 1) = some m' ∧ m'.nesting ≤ m₁.nesting ∧
      ∀ j m₂, 0 < j → j ≤ n → m.walk host j = some m₂ → m₁.nesting < m₂.nesting := by
  induction h with
  | ends hover =>
    rw [ht] at hover
    exact ⟨0, walk_one.mpr ht, hover, fun j _ hj hle => absurd hj (Nat.not_lt.mpr hle)⟩
  | @goes m m₃ t hs hlt _ ih =>
    obtain ⟨n, hw, hle, hbefore⟩ := ih ht
    refine ⟨n + 1, walk_of_step hs hw, hle, fun j m₂ hj hjn h₂ => ?_⟩
    obtain ⟨j, rfl⟩ := Nat.exists_eq_succ_of_ne_zero (Nat.pos_iff_ne_zero.mp hj)
    rw [walk, hs] at h₂
    rcases Nat.eq_zero_or_pos j with rfl | hpos
    · cases h₂
      exact hlt
    · exact hbefore j m₂ hpos (Nat.le_of_succ_le_succ hjn) h₂

theorem reaches (h : m.EndsAt host l t) (ht : t = .running m') : m.Reaches host m' := by
  induction h with
  | ends _ => exact .of_step ht
  | goes hs _ _ ih => exact .head hs (ih ht)

end Machine.EndsAt

/-- In the middle of the call that `m` is about to make, or right before it: the store has only been added to. -/
structure Machine.Amid (κ : Registry) (m : Machine) (os : List Value) (k : List Instr) (m₁ : Machine) :
    Prop where
  store : m₁.store.Sound κ
  upper : m₁.task.Upper κ m₁.store (.call m.frame.closure.code k) [] (Base.of m.frame)
    m.store.scopes.size m.task.frames.callers os
  waiting : m₁.waiting = m.waiting
  beyond : m.store.Beyond m₁.store

/-- A step of frames of which the last one saves nothing. -/
theorem Store.Steps.slots {c : Code} {b : Base} {n t i : Nat} (h : σ.Steps (.call c k) b n τ)
    (hn : n ≤ σ.scopes.size) (ht : t < n) : τ.slot? t i = σ.slot? t i := by
  obtain ⟨scope, saves, ho, hscope⟩ := h
  refine ho.slots t i (Nat.lt_of_lt_of_le ht hn) fun he => ?_
  rcases hscope with hle | ⟨rfl, _⟩
  · omega
  · exact id

theorem Machine.Amid.step (ha : m.Amid κ os k m₁) (hs : m₁.step host = .running m')
    (hend : m.nesting < m₁.nesting ∨ k.length < m₁.frame.rest.length) : m.Amid κ os k m' := by
  have hadv := ha.upper.advance host ha.store ha.beyond.size
  rcases hadv with ⟨hrest, hcallers, -⟩ | hadv
  · rcases hend with hlt | hlt
    · have hn : m₁.nesting = m.nesting := by
        rw [nesting, nesting, ha.waiting, Frames.depth_eq, Frames.depth_eq, hcallers]
      omega
    · have hk : m₁.frame.rest = k := hrest
      rw [hk] at hlt
      exact absurd hlt (Nat.lt_irrefl _)
  · rw [hs] at hadv
    generalize ht : Transition.running m' = t at hadv
    cases hadv with
    | @running κ' qs m₂ _ hσ hsteps hq hup _ _ hwait =>
      cases ht
      obtain ⟨rfl, rfl, hroots⟩ := hq rfl
      have hgrows : m₁.store.scopes.size ≤ m'.store.scopes.size := by
        obtain ⟨_, _, ho, _⟩ := hsteps
        exact ho.scopes
      refine ⟨hσ, hup, hwait.trans ha.waiting, Nat.le_trans ha.beyond.size hgrows, fun t i ht => ?_,
        fun t ht => ?_, hroots.trans ha.beyond.roots⟩
      · exact (hsteps.slots ha.beyond.size ht).trans (ha.beyond.slots t i ht)
      · exact (step_parent hs (Nat.lt_of_lt_of_le ht ha.beyond.size)).trans (ha.beyond.parents t ht)
    | loads hnil _ _ _ _ => exact absurd hnil List.not_mem_nil
    | raises _ _ _ => cases ht

theorem Machine.Amid.ends (ha : m.Amid κ os k m₁) (h : m₁.EndsAt host m.nesting t)
    (hend : m.nesting < m₁.nesting ∨ k.length < m₁.frame.rest.length) (ht : t = .running m') :
    m.Amid κ os k m' := by
  induction h with
  | ends _ => exact ha.step ht hend
  | goes hs hlt _ ih => exact ih (ha.step hs hend) (.inl hlt) ht

/-- What a call comes to: a value in place of the callee and the arguments, and a store that has only been
added to; or a fault. -/
theorem Machine.Ok.call_ends (hm : m.Ok κ h) (hr : m.frame.rest = .mk line (.call args.length) :: k)
    (ho : m.operands = callee :: (args ++ os)) (he : m.EndsAt host m.nesting t) :
    (∃ v τ, t = .running (m.resume τ (v :: os) line k) ∧ m.store.Beyond τ ∧ v.Ok κ) ∨
      ∃ m' f, t = .raised m' f := by
  cases t with
  | finished σ v => exact he.isOver.elim
  | raised m' f => exact .inr ⟨m', f, rfl⟩
  | running m' =>
    left
    obtain ⟨h', ht, -⟩ := hm.tasks.running
    obtain ⟨callee', args', rest, v, ho', hl, hm'⟩ := hm.returns hr (he.returns rfl)
    obtain ⟨rfl, happ⟩ := List.cons.inj (ho.symm.trans ho')
    obtain ⟨rfl, rfl⟩ := List.append_inj happ hl.symm
    obtain ⟨callee', args', rest', ho', hl, hc, hs⟩ := ht.call_operands hr
    obtain ⟨rfl, happ⟩ := List.cons.inj (ho.symm.trans ho')
    obtain ⟨rfl, rfl⟩ := List.append_inj happ hl.symm
    have hb : Balanced (.call m.frame.closure.code k) (callee :: args).length [] m.frame.rest := by
      have hcall : Balanced (.call m.frame.closure.code k) (0 + args.length + 1) []
          (.mk line (.call args.length) :: k) := .call (.done rfl rfl)
      rw [Nat.zero_add] at hcall
      rw [hr]
      exact hcall
    have hframe : m.frame.Within (.call m.frame.closure.code k) [] (callee :: args).length :=
      ⟨rfl, fun h => absurd h Bool.false_ne_true, hb⟩
    obtain ⟨_, _, _, above, own, hu⟩ := ht
    have hscope : m.frame.scope < m.store.scopes.size := by
      cases above with
      | nil => exact hu.balanced.elim
      | cons f fs =>
        obtain ⟨rfl, -⟩ := List.cons.inj hu.frames
        exact hu.scopes _ List.mem_cons_self
    have ha : m.Amid κ os k m := by
      refine ⟨hm.store, ⟨[m.frame], callee :: args, rfl, ho, ⟨hc, hs⟩, ⟨hframe, fun _ => rfl⟩, ?_,
        hu.root, fun _ h => absurd h List.not_mem_nil⟩, rfl, .refl _⟩
      exact List.forall_mem_singleton.mpr hscope
    have hlen : k.length < m.frame.rest.length := by
      rw [hr]
      exact Nat.lt_succ_self _
    have hend := ha.ends he (.inr hlen) rfl
    refine ⟨v, m'.store, congrArg Transition.running hm', hend.beyond, ?_⟩
    obtain ⟨above, own', hu'⟩ := hend.upper
    have hcallers : m'.task.frames.callers = m.task.frames.callers := by
      rw [hm']
      rfl
    obtain rfl := hu'.single hcallers
    have hos : own' ++ os = [v] ++ os := by
      rw [← hu'.operands, hm']
      rfl
    rw [List.append_cancel_right hos] at hu'
    exact hu'.sound.1

end

end MatchLang
