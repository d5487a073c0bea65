import Mathlib.Data.List.Forall2
import MatchLang.Proofs.Lowering.Balance
import MatchLang.Proofs.Machine.Passage

/-! What a list literal comes to. Its elements are evaluated in its own activation; then the value that
is called `::` puts them, from the last one on, in front of the value that is called `Empty`. Where
`::` is the name of a case, the list is a chain of records of that case. -/

namespace MatchLang

/-- The slots that the code of an expression may save to: those of names, and those given out for its
list items. -/
def Links.Touches (l : Links) (i n : Nat) : Prop :=
  (∃ id slot, l.get? id = some slot ∧ slot.id = n) ∨ i ≤ n

/-- The code of a block that is not in tail position. -/
def Stretch.block (code : Code) (l : Links) (i : Nat) (rest : List Instr) : Stretch :=
  { unit := code, restarts := false, saves := l.Touches i, height := 1, rest }

/-- A call, which saves to no slot of the activation it is made in. -/
def Stretch.call (code : Code) (rest : List Instr) : Stretch :=
  { unit := code, restarts := false, saves := fun _ => False, height := 1, rest }

/-- On the way from `m` to `m'` the code of a block is run in the activation of `m`, and leaves a
value. -/
def Machine.Evaluates (host : Host) (l : Links) (m m' : Machine) (b : Block) (v : Value) : Prop :=
  ∃ σ τ os line line' i j is k, BlockCode l b m.frame.closure.code false i j is k ∧
    m.Reaches host (m.resume σ os line is) ∧
    (m.resume σ os line is).Reaches host (m.resume τ (v :: os) line' k) ∧
    (m.resume τ (v :: os) line' k).Reaches host m'

/-- What a case makes of a value and a list when it is called with both: a record, or a partial call if
it has more fields than two. -/
def Case.Conses (c : Case) (v u w : Value) : Prop :=
  c.arity = 2 ∧ w = .record c [v, u] ∨ 2 < c.arity ∧ ∃ id, w = .partialCall id c.value [v, u]

/-- The values in front of `e`, each put there by a case. -/
def Case.Chain (c : Case) (e : Value) : List Value → Value → Prop
  | [], w => w = e
  | v :: vs, w => ∃ u, c.Chain e vs u ∧ c.Conses v u w

section

variable {κ : Registry} {host : Host} {l : Links} {c : Code} {m m₁ m' : Machine} {v : Value}
  {os : List Value} {line i j : Nat} {is k : List Instr} {b : Block} {saves : Nat → Prop}

theorem Stretch.block_saves : (Stretch.block c l i k).Saves l i :=
  ⟨fun id slot h => .inl ⟨id, slot, h, rfl⟩, fun _ hn => .inr hn⟩

theorem BlockCode.length_le (h : BlockCode l b c false i j is k) : k.length ≤ is.length :=
  have hb : Balanced (.block c l i k) 0 [] is :=
    BlockCode.balanced b h Stretch.block_saves (fun h => absurd h Bool.false_ne_true) (.done rfl rfl)
  hb.length_le

theorem PureCode.length_le {bs : List Block} (h : PureCode l bs c line i j is k) :
    k.length ≤ is.length :=
  have hb : Balanced (.block c l i k) (0 + 1) [] is :=
    PureCode.balanced bs h Stretch.block_saves (.done rfl rfl)
  hb.length_le

theorem ItemsCode.length_le {bs : List Block} {slots : List Slot}
    (h : ItemsCode l bs c line slots i j is k) : k.length ≤ is.length :=
  have hb : Balanced (.block c l i k) 1 [] is :=
    ItemsCode.balanced bs h Stretch.block_saves (.done rfl rfl)
  hb.length_le

theorem Links.Touches.mono {n : Nat} (hij : i ≤ j) (h : l.Touches j n) : l.Touches i n := by
  rcases h with h | h
  · exact .inl h
  · exact .inr (Nat.le_trans hij h)

/-- What is evaluated later on in an activation is evaluated in it. -/
theorem Machine.Evaluates.of_via (h : m₁.Evaluates host l m' b v)
    (hv : m.Via host κ saves m' os k m₁) : m.Evaluates host l m' b v := by
  obtain ⟨line₀, hp⟩ := hv.resumed.place
  obtain ⟨σ, τ, os', line, line', i, j, is', k', hc, h₁, h₂, h₃⟩ := h
  rw [hp] at hc h₁ h₂ h₃
  refine ⟨σ, τ, os', line, line', i, j, is', k', hc, ?_, h₂, h₃⟩
  rw [hp] at hv
  exact hv.before.trans h₁

/-- A block leaves a well-formed value. -/
theorem BlockCode.evaluates (h : BlockCode l b m.frame.closure.code false i j m.frame.rest k)
    (hm : m.Ready κ) (hw : m.Reaches host m') (hp : m.Past k.length m') :
    ∃ v m₁, m.Via host κ (l.Touches i) m' (v :: m.operands) k m₁ ∧ v.Ok κ ∧
      m.Evaluates host l m' b v := by
  have hb : Balanced (.block m.frame.closure.code l i k) ([] : List Value).length [] m.frame.rest :=
    BlockCode.balanced b h Stretch.block_saves (fun h => absurd h Bool.false_ne_true) (.done rfl rfl)
  obtain ⟨own, m₁, hv, hl, hs⟩ := hm.passes rfl rfl hb rfl trivial hw hp
  obtain ⟨v, rfl⟩ := List.length_eq_one_iff.mp hl
  refine ⟨v, m₁, hv, hs.1, ?_⟩
  obtain ⟨line, hplace⟩ := hv.resumed.place
  have hbefore := hv.before
  have hafter := hv.after
  rw [hplace] at hbefore hafter
  exact ⟨m.store, m₁.store, m.operands, m.frame.line, line, i, j, m.frame.rest, k, h, .refl m,
    hbefore, hafter⟩

/-- What a name stands for is put on the stack. -/
theorem Machine.Ready.via_loadName {path : List String} (hm : m.Ready κ)
    (hr : m.frame.rest = .mk line (.loadName path) :: k) (hw : m.Reaches host m')
    (hp : m.Past k.length m') :
    ∃ v m₁, m.home.findValue path = .ok v ∧
      m.Via host κ (fun _ => False) m' (v :: m.operands) k m₁ ∧ v.Ok κ := by
  obtain ⟨m₁, hst, hw⟩ := hw.first_step hr hp
  cases hv : m.home.findValue path with
  | error f =>
    rw [step_cons hr, perform_loadName_error hv] at hst
    cases hst
  | ok v =>
    have hs : m.step host = .running (m.resume m.store (v :: m.operands) line k) := by
      rw [step_cons hr, perform_loadName_ok hv]
    rw [hs] at hst
    cases hst
    exact ⟨v, _, rfl, ⟨.of_step hs, hw, ⟨line, rfl⟩, hm.store, .refl _⟩,
      (hm.store.roots _).findValue hv⟩

/-- The value of a slot of the running scope is put on the stack. -/
theorem Machine.Ready.via_loadLocal {slot : Slot} (hm : m.Ready κ)
    (hr : m.frame.rest = .mk line (.loadLocal slot) :: k) (hw : m.Reaches host m')
    (hp : m.Past k.length m') (hv : m.store.slot? m.frame.scope slot.id = some v) :
    ∃ m₁, m.Via host κ (fun _ => False) m' (v :: m.operands) k m₁ := by
  obtain ⟨m₁, hst, hw⟩ := hw.first_step hr hp
  have hs : m.step host = .running (m.resume m.store (v :: m.operands) line k) := by
    rw [step_cons hr, perform_loadLocal_some (Store.lookup_of_slot? hv)]
  rw [hs] at hst
  cases hst
  exact ⟨_, .of_step hs, hw, ⟨line, rfl⟩, hm.store, .refl _⟩

/-- The value on top of the stack is saved to a slot. -/
theorem Machine.Ready.via_saveLocal {slot : Slot} (hm : m.Ready κ)
    (hr : m.frame.rest = .mk line (.saveLocal slot) :: k) (ho : m.operands = v :: os)
    (hw : m.Reaches host m') (hp : m.Past k.length m') (hv : v.Ok κ) (hs : saves slot.id) :
    ∃ m₁, m.Via host κ saves m' os k m₁ ∧ m₁.store.slot? m.frame.scope slot.id = some v := by
  obtain ⟨m₁, hst, hw⟩ := hw.first_step hr hp
  have hstep : m.step host =
      .running (m.resume (m.store.save m.frame.scope slot.id v) os line k) := by
    rw [step_cons hr, show m.operands = _ from ho]
    rfl
  rw [hstep] at hst
  cases hst
  refine ⟨_, ⟨.of_step hstep, hw, ⟨line, rfl⟩, hm.store.save hv, .save hs⟩, ?_⟩
  rw [Machine.resume_store, Store.slot?_save, if_pos ⟨rfl, rfl, hm.scope⟩]

theorem Case.value_inj {c d : Case} (h : c.value = d.value) : c = d := by
  unfold Case.value at h
  split at h <;> split at h <;> cases h <;> rfl

/-- A case is called with two values. -/
theorem Machine.Ready.via_case {d : Case} {u : Value} (hm : m.Ready κ)
    (hr : m.frame.rest = .mk line (.call 2) :: k) (ho : m.operands = d.value :: v :: u :: os)
    (hw : m.Reaches host m') (hp : m.Past k.length m') (hd : d.value.Ok κ) (hv : v.Ok κ)
    (hu : u.Ok κ) :
    ∃ w m₁, m.Via host κ (fun _ => False) m' (w :: os) k m₁ ∧ w.Ok κ ∧ d.Conses v u w := by
  obtain ⟨m₁, hst, hw⟩ := hw.first_step hr hp
  have hs : m.step host = (m.resume m.store (d.value :: v :: u :: os) line k).perform host
      (.call 2) := by
    rw [step_cons hr, show m.operands = _ from ho]
  unfold Case.value at hs hd
  split at hs
  · rw [hs] at hst
    cases hst
  · rename_i h0
    rw [if_neg h0] at hd
    have hcall : (m.resume m.store (.constructor d :: v :: u :: os) line k).perform host (.call 2) =
        if 2 = d.arity then
          (m.resume m.store (.constructor d :: v :: u :: os) line k).apply host (.constructor d)
            (v :: u :: os)
        else if 2 < d.arity then
          .running (m.resume m.store.newIdentity.2
            (.partialCall m.store.nextIdentity (.constructor d) [v, u] :: os) line k)
        else .raised (m.resume m.store (.constructor d :: v :: u :: os) line k)
          (.tooManyArguments (Value.constructor d).display) := rfl
    rw [hcall] at hs
    split at hs
    · rename_i h2
      have happ : (m.resume m.store (.constructor d :: v :: u :: os) line k).apply host
          (.constructor d) (v :: u :: os) =
            .running (m.resume m.store (.record d [v, u] :: os) line k) := by
        unfold Machine.apply
        have ht : takeOperands d.arity (v :: u :: os) = some ([v, u], os) := h2 ▸ rfl
        rw [applyFull, ht]
        rfl
      rw [happ] at hs
      rw [hs] at hst
      cases hst
      have hw' : (Value.record d [v, u]).Ok κ := ⟨hd.1, hd.2, h2, hv, hu, trivial⟩
      exact ⟨_, _, ⟨.of_step hs, hw, ⟨line, rfl⟩, hm.store, .refl _⟩, hw', .inl ⟨h2.symm, rfl⟩⟩
    · split at hs
      · rename_i hlt
        rw [hs] at hst
        cases hst
        have hw' : (Value.partialCall m.store.nextIdentity (.constructor d) [v, u]).Ok κ :=
          ⟨hd, ⟨hv, hu, trivial⟩, d.arity, rfl, hlt⟩
        refine ⟨_, _, ⟨.of_step hs, hw, ⟨line, rfl⟩, hm.store.newIdentity, ⟨Nat.le_refl _, rfl,
          fun _ _ => rfl⟩⟩, hw', .inr ⟨hlt, m.store.nextIdentity, ?_⟩⟩
        rw [Case.value, if_neg h0]
      · rw [hs] at hst
        cases hst

/-- The value that is called `::` puts a value in front of a list. -/
theorem Machine.Ready.via_cons {u : Value} (hm : m.Ready κ)
    (hr : m.frame.rest = .mk line (.loadName [consName]) :: .mk line (.call 2) :: k)
    (ho : m.operands = v :: u :: os) (hw : m.Reaches host m') (hp : m.Past k.length m')
    (hv : v.Ok κ) (hu : u.Ok κ) :
    ∃ w m₁, m.Via host κ (fun _ => False) m' (w :: os) k m₁ ∧ w.Ok κ ∧
      ∀ d : Case, m.home.findValue [consName] = .ok d.value → d.Conses v u w := by
  obtain ⟨f, m₁, hf, h₁, hfok⟩ := hm.via_loadName hr hw (hp.mono (Nat.le_succ _))
  have hm₁ := h₁.resumed.ready hm
  have hp₁ := hp.of_resumed h₁.resumed
  have ho₁ : m₁.operands = f :: v :: u :: os := ho ▸ h₁.resumed.operands
  by_cases hd : ∃ d : Case, f = d.value
  · obtain ⟨d, rfl⟩ := hd
    obtain ⟨w, m₂, h₂, hwok, hc⟩ := hm₁.via_case h₁.resumed.rest ho₁ h₁.after hp₁ hfok hv hu
    refine ⟨w, m₂, h₁.trans h₂, hwok, fun d' hd' => ?_⟩
    rw [hf, Except.ok.injEq] at hd'
    exact Case.value_inj hd' ▸ hc
  · have hb : Balanced (.call m₁.frame.closure.code k) [f, v, u].length [] m₁.frame.rest := by
      rw [h₁.resumed.rest]
      exact @Balanced.call _ 0 [] line 2 k (.done rfl rfl)
    have hs : SoundAll κ Closure.Balanced [f, v, u] := ⟨hfok, hv, hu, trivial⟩
    obtain ⟨own, m₂, h₂, hl, hown⟩ := hm₁.passes rfl rfl hb ho₁ hs h₁.after hp₁
    obtain ⟨w, rfl⟩ := List.length_eq_one_iff.mp hl
    refine ⟨w, m₂, h₁.trans h₂, hown.1, fun d hd' => ?_⟩
    rw [hf, Except.ok.injEq] at hd'
    exact absurd ⟨d, hd'⟩ hd

/-- Pure elements are put in front of a list, the last one first. -/
theorem PureCode.evaluates {bs : List Block} {e : Value}
    (h : PureCode l bs m.frame.closure.code line i j m.frame.rest k) (hm : m.Ready κ)
    (ho : m.operands = e :: os) (he : e.Ok κ) (hw : m.Reaches host m') (hp : m.Past k.length m') :
    ∃ vs w m₁, m.Via host κ (l.Touches i) m' (w :: os) k m₁ ∧ w.Ok κ ∧
      List.Forall₂ (m.Evaluates host l m') bs vs ∧
      ∀ d : Case, bs = [] ∨ m.home.findValue [consName] = .ok d.value → d.Chain e vs w := by
  induction bs generalizing j k with
  | nil =>
    simp only [PureCode] at h
    refine ⟨[], e, m, ⟨.refl m, hw, ⟨m.frame.line, ?_⟩, hm.store, .refl _⟩, he, .nil,
      fun _ _ => rfl⟩
    rw [← h.2, ← ho, m.resume_self]
  | cons b bs ih =>
    obtain ⟨n, r, hbs, hb⟩ := h
    have hle := hb.length_le
    have hcons : (Instr.mk line (.loadName [consName]) :: .mk line (.call 2) :: k).length =
        k.length + 2 := rfl
    rw [hcons] at hle
    have hin : i ≤ n := PureCode.slots_le bs hbs
    obtain ⟨vs, u, m₁, h₁, hu, hvs, hchain⟩ := ih hbs (hp.mono (by omega))
    have hm₁ := h₁.resumed.ready hm
    have hp₁ := hp.of_resumed h₁.resumed
    rw [← h₁.resumed.rest, ← h₁.resumed.closure] at hb
    obtain ⟨v, m₂, h₂, hv, hev⟩ := hb.evaluates hm₁ h₁.after (hp₁.mono (by omega))
    rw [h₁.resumed.operands] at h₂
    have hm₂ := h₂.resumed.ready hm₁
    have hp₂ := hp₁.of_resumed h₂.resumed
    obtain ⟨w, m₃, h₃, hwok, hc⟩ :=
      hm₂.via_cons h₂.resumed.rest h₂.resumed.operands h₂.after hp₂ hv hu
    have h₂' := h₂.mono fun _ => Links.Touches.mono hin
    refine ⟨v :: vs, w, m₃, h₁.trans (h₂'.trans (h₃.mono fun _ => False.elim)), hwok,
      .cons (hev.of_via h₁) hvs, fun d hd => ?_⟩
    have hd := hd.resolve_left (List.cons_ne_nil b bs)
    refine ⟨u, hchain d (.inr hd), hc d ?_⟩
    rw [h₂.resumed.home, h₁.resumed.home]
    exact hd

/-- Elements are evaluated in order, and each is kept in the slot of its item. -/
theorem ItemsCode.evaluates {bs : List Block} {slots : List Slot}
    (h : ItemsCode l bs m.frame.closure.code line slots i j m.frame.rest k)
    (hl : ∀ id slot, l.get? id = some slot → slot.id < i) (hm : m.Ready κ)
    (hw : m.Reaches host m') (hp : m.Past k.length m') :
    ∃ vs m₁, m.Via host κ (l.Touches i) m' m.operands k m₁ ∧
      List.Forall₂ (m.Evaluates host l m') bs vs ∧
      List.Forall₂ (fun slot v => m₁.store.slot? m.frame.scope slot.id = some v ∧ v.Ok κ)
        slots vs := by
  induction bs generalizing m i slots with
  | nil =>
    simp only [ItemsCode] at h
    obtain ⟨rfl, _, hk⟩ := h
    refine ⟨[], m, ⟨.refl m, hw, ⟨m.frame.line, ?_⟩, hm.store, .refl _⟩, .nil, .nil⟩
    rw [← hk, m.resume_self]
  | cons b bs ih =>
    obtain ⟨n, r, rest, hb, rfl, hbs⟩ := h
    have hin : i ≤ n := BlockCode.slots_le b hb
    have hr : k.length ≤ r.length := hbs.length_le
    obtain ⟨v, m₁, h₁, hv, hev⟩ := hb.evaluates hm hw (hp.mono (Nat.le_succ_of_le hr))
    have hm₁ := h₁.resumed.ready hm
    have hp₁ := hp.of_resumed h₁.resumed
    have hn : l.Touches i n := .inr hin
    obtain ⟨m₂, h₂, hslot⟩ := hm₁.via_saveLocal h₁.resumed.rest h₁.resumed.operands h₁.after
      (hp₁.mono hr) hv hn
    have h₂ := h₁.trans h₂
    have hm₂ := h₂.resumed.ready hm
    have hp₂ := hp.of_resumed h₂.resumed
    rw [← h₂.resumed.rest, ← h₂.resumed.closure] at hbs
    obtain ⟨vs, m₃, h₃, hvs, hslots⟩ := ih hbs
      (fun id slot hs => Nat.lt_succ_of_le (Nat.le_trans (Nat.le_of_lt (hl id slot hs)) hin))
      hm₂ h₂.after hp₂
    have hnot : ¬ l.Touches (n + 1) n := by
      rintro (⟨id, slot, hs, he⟩ | hle)
      · have := hl id slot hs
        omega
      · exact Nat.not_succ_le_self n hle
    have hkeep := h₃.resumed.kept.slots n hnot
    rw [h₂.resumed.scope] at hkeep hslots
    rw [h₁.resumed.scope] at hslot
    rw [h₂.resumed.operands] at h₃
    have h₃' := h₃.mono fun _ => Links.Touches.mono (Nat.le_succ_of_le hin)
    refine ⟨v :: vs, m₃, h₂.trans h₃', .cons hev ?_, .cons ⟨hkeep.trans hslot, hv⟩ hslots⟩
    exact hvs.imp fun b v h => h.of_via h₂

/-- The values of slots are put in front of a list, the last one first. -/
theorem consCode_evaluates {slots : List Slot} {vs : List Value} {e : Value}
    (hr : m.frame.rest = consCode line slots ++ k) (hm : m.Ready κ) (ho : m.operands = e :: os)
    (he : e.Ok κ) (hw : m.Reaches host m') (hp : m.Past k.length m')
    (hs : List.Forall₂ (fun slot v => m.store.slot? m.frame.scope slot.id = some v ∧ v.Ok κ)
      slots vs) :
    ∃ w m₁, m.Via host κ (fun _ => False) m' (w :: os) k m₁ ∧ w.Ok κ ∧
      ∀ d : Case, vs = [] ∨ m.home.findValue [consName] = .ok d.value → d.Chain e vs w := by
  induction hs generalizing k with
  | nil =>
    refine ⟨e, m, ⟨.refl m, hw, ⟨m.frame.line, ?_⟩, hm.store, .refl _⟩, he, fun _ _ => rfl⟩
    rw [← ho, show k = m.frame.rest from hr.symm, m.resume_self]
  | @cons slot v slots vs hv _ ih =>
    rw [consCode, List.append_assoc] at hr
    have hlen : ∀ a b c : Instr, ([a, b, c] ++ k).length = k.length + 3 := fun _ _ _ => rfl
    obtain ⟨u, m₁, h₁, hu, hchain⟩ := ih hr (hp.mono (by rw [hlen]; omega))
    have hm₁ := h₁.resumed.ready hm
    have hp₁ := hp.of_resumed h₁.resumed
    have hslot : m₁.store.slot? m₁.frame.scope slot.id = some v := by
      rw [h₁.resumed.scope, h₁.resumed.kept.slots slot.id id]
      exact hv.1
    obtain ⟨m₂, h₂⟩ := hm₁.via_loadLocal h₁.resumed.rest h₁.after
      (hp₁.mono (show k.length ≤ k.length + 2 by omega)) hslot
    rw [h₁.resumed.operands] at h₂
    have hm₂ := h₂.resumed.ready hm₁
    obtain ⟨w, m₃, h₃, hwok, hc⟩ := hm₂.via_cons h₂.resumed.rest h₂.resumed.operands h₂.after
      (hp₁.of_resumed h₂.resumed) hv.2 hu
    refine ⟨w, m₃, h₁.trans (h₂.trans h₃), hwok, fun d hd => ?_⟩
    have hd := hd.resolve_left (List.cons_ne_nil v vs)
    refine ⟨u, hchain d (.inr hd), hc d ?_⟩
    rw [h₂.resumed.home, h₁.resumed.home]
    exact hd

/-- A list literal that is evaluated leaves what `::` has made of the values of its elements, in front
of the value of `Empty`. -/
theorem ExprCode.list_evaluates {elements : List Block} {allowTail : Bool}
    (h : ExprCode l (.list elements line) m.frame.closure.code allowTail i j m.frame.rest k)
    (hl : ∀ id slot, l.get? id = some slot → slot.id < i) (hm : m.Ready κ)
    (hw : m.Reaches host m') (hp : m.Past k.length m') :
    ∃ e vs w m₁, m.home.findValue [emptyName] = .ok e ∧ e.Ok κ ∧
      m.Via host κ (l.Touches i) m' (w :: m.operands) k m₁ ∧ w.Ok κ ∧
      List.Forall₂ (m.Evaluates host l m') elements vs ∧
      ∀ d : Case, elements = [] ∨ m.home.findValue [consName] = .ok d.value → d.Chain e vs w := by
  simp only [ExprCode] at h
  split at h
  · obtain ⟨r, hr, hpure⟩ := h
    have hle : k.length ≤ r.length := hpure.length_le
    obtain ⟨e, m₁, hempty, h₁, he⟩ := hm.via_loadName hr hw (hp.mono hle)
    have hm₁ := h₁.resumed.ready hm
    rw [← h₁.resumed.rest, ← h₁.resumed.closure] at hpure
    obtain ⟨vs, w, m₂, h₂, hwok, hvs, hchain⟩ := hpure.evaluates hm₁ h₁.resumed.operands he
      h₁.after (hp.of_resumed h₁.resumed)
    refine ⟨e, vs, w, m₂, hempty, he, (h₁.mono fun _ => False.elim).trans h₂, hwok,
      hvs.imp fun b v hev => hev.of_via h₁, fun d hd => hchain d (hd.imp_right fun hd => ?_)⟩
    rw [h₁.resumed.home]
    exact hd
  · obtain ⟨slots, hitems⟩ := h
    obtain ⟨vs, m₁, h₁, hvs, hslots⟩ := hitems.evaluates hl hm hw (hp.mono (by simp; omega))
    have hm₁ := h₁.resumed.ready hm
    have hp₁ := hp.of_resumed h₁.resumed
    obtain ⟨e, m₂, hempty, h₂, he⟩ := hm₁.via_loadName h₁.resumed.rest h₁.after
      (hp₁.mono (by simp))
    have hm₂ := h₂.resumed.ready hm₁
    have hslots₂ : List.Forall₂
        (fun slot v => m₂.store.slot? m₂.frame.scope slot.id = some v ∧ v.Ok κ) slots vs := by
      refine hslots.imp fun slot v hv => ⟨?_, hv.2⟩
      have hkeep := h₂.resumed.kept.slots slot.id id
      rw [h₂.resumed.scope, hkeep, h₁.resumed.scope]
      exact hv.1
    rw [h₁.resumed.operands] at h₂
    obtain ⟨w, m₃, h₃, hwok, hchain⟩ := consCode_evaluates h₂.resumed.rest hm₂
      h₂.resumed.operands he h₂.after (hp₁.of_resumed h₂.resumed) hslots₂
    refine ⟨e, vs, w, m₃, ?_, he, h₁.trans ((h₂.trans h₃).mono fun _ => False.elim), hwok, hvs,
      fun d hd => hchain d (hd.imp ?_ fun hd => ?_)⟩
    · rw [← h₁.resumed.home]
      exact hempty
    · rintro rfl
      cases hvs
      rfl
    · rw [h₂.resumed.home, h₁.resumed.home]
      exact hd

end

end MatchLang
