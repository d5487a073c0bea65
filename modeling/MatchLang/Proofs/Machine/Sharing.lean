import MatchLang.Proofs.Machine.Locality
import MatchLang.Proofs.Value.Every

/-! Two stores of which some code sees the same. It sees the scopes and the roots that its functions and
values name; how the stores differ otherwise has no effect on what it does, and it has none on that. -/

namespace MatchLang

/-- The scopes and the roots that some code can reach. -/
structure Reach where
  scopes : Nat → Prop
  homes : Nat → Prop

namespace Reach

/-- Everything. -/
def all : Reach :=
  { scopes := fun _ => True, homes := fun _ => True }

/-- A function that was made within reach, in its scope and in its module. -/
def Has (K : Reach) (c : Closure) : Prop :=
  K.scopes c.scope ∧ K.homes c.home

end Reach

/-- Within reach two stores are the same, and lead to nothing beyond. Scopes that are yet to be made are
within reach. -/
structure Store.Shares (K : Reach) (σ τ : Store) : Prop where
  size : τ.scopes.size = σ.scopes.size
  scopes : ∀ s, K.scopes s → τ.scopes[s]? = σ.scopes[s]?
  parents : ∀ s sc p, K.scopes s → σ.scopes[s]? = some sc → sc.parent = some p → K.scopes p
  slots : ∀ s sc n v, K.scopes s → σ.scopes[s]? = some sc → sc.get? n = some v → v.Every K.Has
  fresh : ∀ s, σ.scopes.size ≤ s → K.scopes s
  roots : ∀ r, K.homes r → τ.root r = σ.root r
  names : ∀ r path v, K.homes r → (σ.root r).findValue path = .ok v → v.Every K.Has
  identity : τ.nextIdentity = σ.nextIdentity
  console : τ.console = σ.console

/-- Out of reach nothing has changed, and no root nor module at all. -/
structure Store.Spares (K : Reach) (σ τ : Store) : Prop where
  scopes : ∀ s, ¬ K.scopes s → τ.scopes[s]? = σ.scopes[s]?
  roots : τ.roots = σ.roots
  modules : τ.modules = σ.modules

namespace Store

variable {K : Reach} {σ τ υ : Store} {scope slot s : Nat} {v : Value}

theorem Shares.all (σ : Store) : σ.Shares .all σ where
  size := rfl
  scopes _ _ := rfl
  parents _ _ _ _ _ _ := trivial
  slots _ _ _ v _ _ _ := v.every_of_forall fun _ => ⟨trivial, trivial⟩
  fresh _ _ := trivial
  roots _ _ := rfl
  names _ _ v _ _ := v.every_of_forall fun _ => ⟨trivial, trivial⟩
  identity := rfl
  console := rfl

theorem Spares.refl (σ : Store) : σ.Spares K σ :=
  ⟨fun _ _ => rfl, rfl, rfl⟩

theorem Spares.trans (h : σ.Spares K τ) (h' : τ.Spares K υ) : σ.Spares K υ :=
  ⟨fun s hs => (h'.scopes s hs).trans (h.scopes s hs), h'.roots.trans h.roots,
    h'.modules.trans h.modules⟩

theorem Spares.save (h : K.scopes scope) : σ.Spares K (σ.save scope slot v) := by
  refine ⟨fun s hs => ?_, rfl, rfl⟩
  show (σ.scopes.modify scope _)[s]? = σ.scopes[s]?
  have hne : scope ≠ s := fun he => hs (he ▸ h)
  rw [Array.getElem?_modify, if_neg hne]

theorem Spares.newScope {parent : Option Nat} (hf : ∀ s, σ.scopes.size ≤ s → K.scopes s) :
    σ.Spares K (σ.newScope parent).2 := by
  refine ⟨fun s hs => ?_, rfl, rfl⟩
  have hlt : s < σ.scopes.size := Nat.lt_of_not_le fun hle => hs (hf s hle)
  show (σ.scopes.push _)[s]? = σ.scopes[s]?
  rw [Array.getElem?_push, if_neg (Nat.ne_of_lt hlt)]

namespace Shares

theorem lookup (slot : Nat) (h : σ.Shares K τ) (hs : K.scopes scope) :
    τ.lookup scope slot = σ.lookup scope slot ∧
      ∀ v, σ.lookup scope slot = some v → v.Every K.Has := by
  have hfrom : ∀ n s, K.scopes s →
      lookupFrom τ.scopes n s slot = lookupFrom σ.scopes n s slot ∧
        ∀ v, lookupFrom σ.scopes n s slot = some v → v.Every K.Has := by
    intro n
    induction n with
    | zero => exact fun s _ => ⟨rfl, fun v => by rintro ⟨⟩⟩
    | succ n ih =>
      intro s hs
      rw [lookupFrom, lookupFrom, h.scopes s hs]
      cases hsc : σ.scopes[s]? with
      | none => exact ⟨rfl, fun v => by rintro ⟨⟩⟩
      | some sc =>
        simp only
        cases hg : sc.get? slot with
        | some v =>
          refine ⟨rfl, fun w hw => ?_⟩
          cases hw
          exact h.slots s sc slot v hs hsc hg
        | none =>
          cases hp : sc.parent with
          | none => exact ⟨rfl, fun v => by rintro ⟨⟩⟩
          | some p => exact ih p (h.parents s sc p hs hsc hp)
  exact hfrom (scope + 1) scope hs

theorem congr {σ' τ' : Store} (h : σ.Shares K τ) (hσ : σ'.scopes = σ.scopes ∧ σ'.roots = σ.roots)
    (hτ : τ'.scopes = τ.scopes ∧ τ'.roots = τ.roots) (hi : τ'.nextIdentity = σ'.nextIdentity)
    (hc : τ'.console = σ'.console) : σ'.Shares K τ' := by
  obtain ⟨hσs, hσr⟩ := hσ
  obtain ⟨hτs, hτr⟩ := hτ
  have hroot : ∀ r, σ'.root r = σ.root r := fun r => by rw [root, hσr, ← root]
  refine ⟨?_, fun s hs => ?_, ?_, ?_, ?_, fun r hr => ?_, fun r path v hr hv => ?_, hi, hc⟩
  · rw [hσs, hτs]
    exact h.size
  · rw [hσs, hτs]
    exact h.scopes s hs
  · rw [hσs]
    exact h.parents
  · rw [hσs]
    exact h.slots
  · rw [hσs]
    exact h.fresh
  · rw [hroot, root, hτr, ← root]
    exact h.roots r hr
  · rw [hroot] at hv
    exact h.names r path v hr hv

theorem save (h : σ.Shares K τ) (hv : v.Every K.Has) :
    (σ.save scope slot v).Shares K (τ.save scope slot v) := by
  have hsize : ∀ σ : Store, (σ.save scope slot v).scopes.size = σ.scopes.size :=
    fun σ => Array.size_modify
  have hget : ∀ (σ : Store) s, (σ.save scope slot v).scopes[s]? =
      if scope = s then σ.scopes[s]?.map (·.set slot v) else σ.scopes[s]? :=
    fun σ s => Array.getElem?_modify
  have hback : ∀ (s : Nat) (sc : Scope), (σ.save scope slot v).scopes[s]? = some sc →
      ∃ d : Scope, σ.scopes[s]? = some d ∧ (sc = d ∨ sc = d.set slot v) := by
    intro s sc hsc
    rw [hget] at hsc
    split at hsc
    · obtain ⟨d, hd, rfl⟩ := Option.map_eq_some_iff.mp hsc
      exact ⟨d, hd, .inr rfl⟩
    · exact ⟨sc, hsc, .inl rfl⟩
  refine ⟨?_, fun s hs => ?_, fun s sc p hs hsc hp => ?_, fun s sc n w hs hsc hw => ?_,
    fun s hs => h.fresh s (hsize σ ▸ hs), h.roots, h.names, h.identity, h.console⟩
  · rw [hsize, hsize]
    exact h.size
  · rw [hget, hget, h.scopes s hs]
  · obtain ⟨d, hd, rfl | rfl⟩ := hback s sc hsc
    · exact h.parents s sc p hs hd hp
    · exact h.parents s d p hs hd hp
  · obtain ⟨d, hd, rfl | rfl⟩ := hback s sc hsc
    · exact h.slots s sc n w hs hd hw
    · rw [Scope.get?_set] at hw
      split at hw
      · cases hw
        exact hv
      · exact h.slots s d n w hs hd hw

theorem newScope {p : Nat} (h : σ.Shares K τ) (hp : K.scopes p) :
    (σ.newScope (some p)).2.Shares K (τ.newScope (some p)).2 := by
  have hsize : ∀ σ : Store, (σ.newScope (some p)).2.scopes.size = σ.scopes.size + 1 :=
    fun σ => Array.size_push _
  have hget : ∀ (σ : Store) s, (σ.newScope (some p)).2.scopes[s]? =
      if s = σ.scopes.size then some { parent := some p, slots := [] } else σ.scopes[s]? :=
    fun σ s => Array.getElem?_push
  have hback : ∀ (s : Nat) (sc : Scope), (σ.newScope (some p)).2.scopes[s]? = some sc →
      sc = { parent := some p, slots := [] } ∨ σ.scopes[s]? = some sc := by
    intro s sc hsc
    rw [hget] at hsc
    split at hsc
    · exact .inl (Option.some.inj hsc).symm
    · exact .inr hsc
  refine ⟨?_, fun s hs => ?_, fun s sc q hs hsc hq => ?_, fun s sc n w hs hsc hw => ?_,
    fun s hs => h.fresh s ?_, h.roots, h.names, h.identity, h.console⟩
  · rw [hsize, hsize, h.size]
  · rw [hget, hget, h.size, h.scopes s hs]
  · rcases hback s sc hsc with rfl | hsc
    · cases hq
      exact hp
    · exact h.parents s sc q hs hsc hq
  · rcases hback s sc hsc with rfl | hsc
    · cases hw
    · exact h.slots s sc n w hs hsc hw
  · rw [hsize] at hs
    omega

end Shares

end Store

/-- Two stores that share what the same operands can reach. -/
structure Setting.Meets (K : Reach) (s t : Setting) : Prop where
  store : s.store.Shares K t.store
  operands : t.operands = s.operands
  every : EveryValue K.Has s.operands

/-- One function is about to go on in two such stores. -/
structure Setting.Shares (K : Reach) (s t : Setting) : Prop extends s.Meets K t where
  closure : t.closure = s.closure
  scope : t.scope = s.scope
  has : K.Has s.closure
  reaches : K.scopes s.scope

/-- What an instruction comes to in two settings that share what it can reach. -/
inductive Action.Alike (K : Reach) (s t : Setting) : Action → Action → Prop where
  | proceed {σ τ os is} : σ.Shares K τ → s.store.Spares K σ → t.store.Spares K τ →
    EveryValue K.Has os → Alike K s t (.proceed σ os is) (.proceed τ os is)
  | enter {c os} : K.Has c → EveryValue K.Has os → Alike K s t (.enter c os) (.enter c os)
  | restart : Alike K s t .restart .restart
  | fail {σ τ os f} : σ.Shares K τ → s.store.Spares K σ → t.store.Spares K τ →
    Alike K s t (.fail σ os f) (.fail τ os f)

theorem Action.Alike.stores {K : Reach} {s t s' t' : Setting} {a b : Action}
    (h : Action.Alike K s t a b) (hs : s.store = s'.store) (ht : t.store = t'.store) :
    Action.Alike K s' t' a b := by
  cases h with
  | proceed hσ hsp hsp' ho => exact .proceed hσ (hs ▸ hsp) (ht ▸ hsp') ho
  | enter hc ho => exact .enter hc ho
  | restart => exact .restart
  | fail hσ hsp hsp' => exact .fail hσ (hs ▸ hsp) (ht ▸ hsp')

theorem Action.Alike.fault {K : Reach} {s t : Setting} {a b : Action} {τ : Store}
    {os : List Value} {f : Fault} (h : Action.Alike K s t a b) (hb : b = .fail τ os f) :
    ∃ σ, a = .fail σ os f := by
  cases h with
  | fail _ _ _ =>
    cases hb
    exact ⟨_, rfl⟩
  | _ => cases hb

namespace Setting.Meets

variable {K : Reach} {s t : Setting} {line : Nat} {k : List Instr}

theorem same {os : List Value} {is : List Instr} (h : s.Meets K t) (ho : EveryValue K.Has os) :
    Action.Alike K s t (.proceed s.store os is) (.proceed t.store os is) :=
  .proceed h.store (.refl _) (.refl _) ho

theorem refuse {f : Fault} (h : s.Meets K t) : Action.Alike K s t (s.refuse f) (t.refuse f) := by
  have hf : Action.Alike K s t (.fail s.store s.operands f) (.fail t.store s.operands f) :=
    .fail h.store (.refl _) (.refl _)
  unfold Setting.refuse
  rw [h.operands]
  exact hf

theorem pop {next next' : Value → List Value → Action} (h : s.Meets K t)
    (hn : ∀ v os, v.Every K.Has → EveryValue K.Has os →
      Action.Alike K s t (next v os) (next' v os)) :
    Action.Alike K s t (s.pop next) (t.pop next') := by
  have he := h.every
  unfold Setting.pop
  rw [h.operands]
  cases ho : s.operands with
  | nil => exact h.refuse
  | cons v os =>
    rw [ho] at he
    exact hn v os he.1 he.2

theorem apply {callee : Value} {os : List Value} (h : s.Meets K t) (hc : callee.Every K.Has)
    (ho : EveryValue K.Has os) :
    Action.Alike K s t (s.apply callee os k) (t.apply callee os k) := by
  have ha : (applyFull callee os).Every K.Has := applyFull_every hc ho
  unfold Setting.apply
  generalize applyFull callee os = a at ha
  cases a with
  | enter c os => exact .enter ha.1 ha.2
  | build c fields rest => exact h.same ⟨ha.1, ha.2⟩
  | fault f => exact h.refuse
  | compute f args rest =>
    simp only
    rw [h.store.console]
    cases hr : f.run args s.store.console with
    | error fault => exact h.refuse
    | ok r =>
      exact .proceed (h.store.congr ⟨rfl, rfl⟩ ⟨rfl, rfl⟩ h.store.identity rfl)
        ⟨fun _ _ => rfl, rfl, rfl⟩ ⟨fun _ _ => rfl, rfl, rfl⟩ ⟨Native.run_every hr, ha⟩

theorem newIdentity {os : List Value} {is : List Instr} (h : s.Meets K t)
    (ho : EveryValue K.Has os) :
    Action.Alike K s t (.proceed s.store.newIdentity.2 os is)
      (.proceed t.store.newIdentity.2 os is) :=
  .proceed (h.store.congr ⟨rfl, rfl⟩ ⟨rfl, rfl⟩ (congrArg (· + 1) h.store.identity) h.store.console)
    ⟨fun _ _ => rfl, rfl, rfl⟩ ⟨fun _ _ => rfl, rfl, rfl⟩ ho

theorem hold {callee : Value} {argc : Nat} {os : List Value} (h : s.Meets K t)
    (hc : callee.Every K.Has) (ho : EveryValue K.Has os) :
    Action.Alike K s t (s.hold callee argc os k) (t.hold callee argc os k) := by
  unfold Setting.hold
  rw [h.store.identity]
  cases ht : takeOperands argc os with
  | none => exact h.refuse
  | some r =>
    obtain ⟨ha, hr⟩ := ho.take ht
    exact h.newIdentity ⟨⟨hc, ha⟩, hr⟩

theorem call {argc : Nat} (h : s.Meets K t) :
    Action.Alike K s t (s.call argc k) (t.call argc k) := by
  refine h.pop fun callee os hc ho => ?_
  cases callee.arity? with
  | none => exact h.refuse
  | some arity =>
    simp only
    split
    · exact h.apply hc ho
    · split
      · exact h.hold hc ho
      · exact h.refuse

end Setting.Meets

namespace Setting.Shares

variable {K : Reach} {s t : Setting}

theorem home (h : s.Shares K t) : t.home = s.home := by
  show t.store.root t.closure.home = s.store.root s.closure.home
  rw [h.closure, h.store.roots _ h.has.2]

theorem jump {label : Nat} {os : List Value} (h : s.Shares K t) (ho : EveryValue K.Has os) :
    Action.Alike K s t ((s.withOperands os).jump label) ((t.withOperands os).jump label) := by
  have hc : (t.withOperands os).closure = (s.withOperands os).closure := h.closure
  unfold Setting.jump
  rw [hc]
  cases (s.withOperands os).closure.code.from? label with
  | some is => exact h.same ho
  | none => exact .fail h.store (.refl _) (.refl _)

theorem test {shape : Shape} {next next' : List Value → Bool → Action} (h : s.Shares K t)
    (hn : ∀ os fits, EveryValue K.Has os → Action.Alike K s t (next os fits) (next' os fits)) :
    Action.Alike K s t (s.test shape next) (t.test shape next') := by
  refine h.pop fun v os _ ho => ?_
  rw [h.home]
  cases shape.accepts s.home.findType v with
  | ok fits => exact hn os fits ho
  | error f => exact h.refuse

end Setting.Shares

/-- An instruction does the same in both, unless it is about the root of the running module. -/
theorem Op.action_alike {K : Reach} {s t : Setting} {op : Op} {line : Nat} {k : List Instr}
    (h : s.Shares K t) (hop : op.touchesRoot = false) :
    Action.Alike K s t (op.action s line k) (op.action t line k) := by
  cases op with
  | nothing =>
    simp only [Op.action, h.operands]
    exact h.same h.every
  | fail message => exact h.refuse
  | pop => exact h.pop fun v os _ ho => h.same ho
  | duplicate => exact h.pop fun v os hv ho => h.same ⟨hv, hv, ho⟩
  | decompose path parts =>
    simp only [Op.action, h.home, h.operands]
    cases s.home.findType path with
    | error f => exact h.refuse
    | ok d =>
      simp only
      cases hd : MatchLang.decompose d parts s.operands with
      | error f => exact h.refuse
      | ok os => exact h.same (decompose_every h.every hd)
  | jump label =>
    have hj : Action.Alike K s t ((s.withOperands s.operands).jump label)
        ((t.withOperands s.operands).jump label) := h.jump h.every
    have ht : t.withOperands s.operands = t := by
      rw [← h.operands]
      rfl
    rw [ht] at hj
    exact hj
  | require shape =>
    refine h.test fun os fits ho => ?_
    cases fits with
    | true => exact h.same ho
    | false => exact .fail h.store (.refl _) (.refl _)
  | jumpIf shape label =>
    refine h.test fun os fits ho => ?_
    cases fits with
    | true => exact h.jump ho
    | false => exact h.same ho
  | loadLocal slot =>
    obtain ⟨he, hv⟩ := h.store.lookup slot.id h.reaches
    simp only [Op.action, h.scope, he, h.operands]
    cases hl : s.store.lookup s.scope slot.id with
    | none => exact h.refuse
    | some v => exact h.same ⟨hv v hl, h.every⟩
  | loadName path =>
    simp only [Op.action, h.home, h.operands]
    cases hl : s.home.findValue path with
    | error f => exact h.refuse
    | ok v => exact h.same ⟨h.store.names _ path v h.has.2 hl, h.every⟩
  | loadNumber x =>
    simp only [Op.action, h.operands]
    exact h.same ⟨trivial, h.every⟩
  | loadText text =>
    simp only [Op.action, h.operands]
    exact h.same ⟨trivial, h.every⟩
  | loadFunction code arity =>
    simp only [Op.action, h.operands, h.closure, h.scope, h.store.identity]
    exact h.newIdentity ⟨⟨h.reaches, h.has.2⟩, h.every⟩
  | saveLocal slot =>
    refine h.pop fun v os hv ho => ?_
    rw [h.scope]
    exact .proceed (h.store.save hv) (.save h.reaches) (.save h.reaches) ho
  | call argc => exact h.call
  | tailCall argc =>
    simp only [Op.action, h.closure]
    split
    · exact .restart
    · exact h.refuse
  | publish _ _ | makeNamespace _ _ | makeType _ _ _ | importAll _ | importEntry _ _ => cases hop

end MatchLang
