import MatchLang.Proofs.Lists.Calm
import MatchLang.Proofs.Lists.Coherence
import MatchLang.Proofs.Machine.Beside

/-! The order in which the elements of a list literal are evaluated. A literal whose elements are pure is put
together from its end, before its other elements are evaluated; where they call nothing, no run can tell. -/

namespace MatchLang

/-- In the activation of `m` two runs have come to these stores. -/
structure Abreast (κ : Registry) (ρ : Numbering) (w : Slack) (m : Machine) (σ τ : Store) : Prop where
  like : σ.Like ρ w τ
  sound : σ.Sound κ
  roots : σ.roots = m.store.roots
  scopes : m.store.scopes.size ≤ σ.scopes.size
  closure : m.frame.closure.Like ρ w.admits m.frame.closure

/-- In the activation of `m` two runs have left a value on the stack, the same but for the numbers. -/
def Puts (κ : Registry) (ρ : Numbering) (w : Slack) (m : Machine) (line : Nat) (os os' : List Value)
    (k k' : List Instr) (m' n' : Machine) : Prop :=
  ∃ ρ' σ τ v v', ρ.Le ρ' ∧ Abreast κ ρ' w m σ τ ∧ v.Like ρ' w.admits v' ∧ v.Ok κ ∧
    m' = m.resume σ (v :: os) line k ∧ n' = m.resume τ (v' :: os') line k'

section

variable {κ : Registry} {ρ ρ' : Numbering} {w : Slack} {host : Host} {m : Machine} {σ τ : Store}
  {line l l' : Nat} {os os' : List Value} {k k' : List Instr} {v v' u u' : Value} {o : Outlook}

theorem Puts.mono {m' n' : Machine} (hρ : ρ.Le ρ') (h : Puts κ ρ' w m line os os' k k' m' n') :
    Puts κ ρ w m line os os' k k' m' n' := by
  obtain ⟨ρ₁, σ, τ, v, v', hle, h⟩ := h
  exact ⟨ρ₁, σ, τ, v, v', hρ.trans hle, h⟩

theorem orderedCode_cons {x : Item} {xs : List Item} {slot : Slot} {slots : List Slot} :
    orderedCode line (x :: xs) (slot :: slots) k = x.code (.mk line (.saveLocal slot) ::
      orderedCode line xs slots (.mk line (.loadLocal slot) :: frontCode line k)) := by
  simp [orderedCode, keepCode, consCode, frontCode]

theorem Machine.reaches_saveLocal {slot : Slot} :
    (m.resume σ (v :: os) l (.mk line (.saveLocal slot) :: k)).Reaches host
      (m.resume (σ.save m.frame.scope slot.id v) os line k) :=
  .of_step rfl

theorem Machine.reaches_loadLocal {slot : Slot} (h : σ.slot? m.frame.scope slot.id = some v) :
    (m.resume σ os l (.mk line (.loadLocal slot) :: k)).Reaches host (m.resume σ (v :: os) line k) := by
  refine .of_step ?_
  rw [Machine.step_resume, perform_loadLocal_some (Store.lookup_of_slot? h)]

theorem Outlook.Like.mono {A : Code → Prop} {o' : Outlook} (hρ : ρ.Le ρ') (h : o.Like ρ A o') :
    o.Like ρ' A o' :=
  ⟨h.closure.mono hρ, h.scope, h.unit.mono hρ _, h.empty.mono hρ _, h.arity⟩

/-- The code that an item makes functions of is admitted where the item is passed. -/
theorem Item.every_passes {x : Item} (h : w.passes (x.code k)) :
    (x.Every fun code _ => w.admits code) ∧ w.passes k :=
  x.every_of (fun _ _ _ _ h => (w.passes_cons _ _ _ h).1) (fun _ _ _ h _ => (w.passes_cons _ _ _ h).2) h

theorem everyItem_passes (xs : List Item) (h : w.passes (frontsCode line xs k)) :
    EveryItem (fun code _ => w.admits code) xs ∧ w.passes k :=
  everyItem_of (fun _ _ _ _ h => (w.passes_cons _ _ _ h).1) (fun _ _ _ h _ => (w.passes_cons _ _ _ h).2) xs h

namespace Abreast

theorem root_eq (ha : Abreast κ ρ w m σ τ) (r : Nat) : σ.root r = m.store.root r := by
  rw [Store.root, ha.roots, ← Store.root]

theorem on (ha : Abreast κ ρ w m σ τ) (ho : o.On m m.store) : o.On m σ := by
  refine ⟨ho.closure, ho.scope, ?_, ?_⟩
  · rw [ha.root_eq]
    exact ho.unit
  · rw [ha.root_eq]
    exact ho.empty

theorem conses (ha : Abreast κ ρ w m σ τ) (hc : o.Conses m m.store) : o.Conses m σ := by
  rw [Outlook.Conses, ha.root_eq]
  exact hc

/-- What has a value on the one side has it on the other. -/
theorem findValue (ha : Abreast κ ρ w m σ τ) {path : List String}
    (hv : (m.store.root m.frame.closure.home).findValue path = .ok v) :
    v.Ok κ ∧ ∃ v', (τ.root m.frame.closure.home).findValue path = .ok v' ∧ v.Like ρ w.admits v' := by
  rw [← ha.root_eq] at hv
  refine ⟨(ha.sound.roots _).findValue hv, ?_⟩
  obtain ⟨u, v', h₁, h₂, huv⟩ | ⟨f, h₁, _⟩ :=
    ((ha.like.root m.frame.closure.home).findValue path).split
  · rw [hv] at h₁
    cases h₁
    exact ⟨v', h₂, huv⟩
  · rw [hv] at h₁
    cases h₁

/-- The outlook on the other side. -/
theorem outlook (ha : Abreast κ ρ w m σ τ) (ho : o.On m m.store) :
    ∃ o', o.Like ρ w.admits o' ∧ o'.On m τ ∧
      (o.Conses m m.store → o'.Conses m τ ∧ o.cons.Like ρ o'.cons) := by
  obtain ⟨-, unit, hunit, hu⟩ := ha.findValue ho.unit
  obtain ⟨-, empty, hempty, he⟩ := ha.findValue ho.empty
  have hcl : o.closure.Like ρ w.admits o.closure := ho.closure ▸ ha.closure
  by_cases hc : o.Conses m m.store
  · obtain ⟨-, f, hf, hlike⟩ := ha.findValue hc.1
    cases hlike with
    | @constructor _ d hd _ =>
      have harity := hd.arity
      exact ⟨⟨o.closure, o.scope, unit, empty, d⟩, ⟨hcl, rfl, hu, he, harity⟩,
        ⟨ho.closure, ho.scope, hunit, hempty⟩, fun _ => ⟨⟨hf, harity ▸ hc.2⟩, hd⟩⟩
  · exact ⟨⟨o.closure, o.scope, unit, empty, o.cons⟩, ⟨hcl, rfl, hu, he, rfl⟩,
      ⟨ho.closure, ho.scope, hunit, hempty⟩, fun h => absurd h hc⟩

/-- Like values are put in front of like lists, by whatever is called `::`. -/
theorem front (ha : Abreast κ ρ w m σ τ) (hroot : m.task.root < m.store.roots.size)
    (hv : v.Like ρ w.admits v') (hu : u.Like ρ w.admits u') (hvk : v.Ok κ) (huk : u.Ok κ)
    (hk : w.passes k) :
    Together host w (Puts κ ρ w m line os os' k k') (m.resume σ (v :: u :: os) l (frontCode line k))
      (m.resume τ (v' :: u' :: os') l' (frontCode line k')) := by
  obtain ⟨f, f', hf, hf', hff⟩ | ⟨f, hf, hf'⟩ :=
    ((ha.like.root m.frame.closure.home).findValue [consName]).split
  · let c : CallSite := ⟨m.resume σ (f :: v :: u :: os) line (.mk line (.call 2) :: k), os, line, k⟩
    let d : CallSite := ⟨m.resume τ (f' :: v' :: u' :: os') line (.mk line (.call 2) :: k'), os', line, k'⟩
    have hc : c.Calls f [v, u] := ⟨rfl, rfl⟩
    have hd : d.Calls f' [v', u'] := ⟨rfl, rfl⟩
    have htwin : c.Twin d := ⟨rfl, rfl, rfl, rfl, rfl, rfl⟩
    have hroot' : c.machine.task.root < c.machine.store.roots.size := by
      show m.task.root < σ.roots.size
      rw [ha.roots]
      exact hroot
    have hconcurs : Concurs κ ρ w c d (c.machine.step host) (d.machine.step host) :=
      hc.concurs host hd htwin rfl ha.closure hk ha.like ha.sound hroot' hff (.cons hv (.cons hu .nil))
        ((ha.sound.roots _).findValue hf) ⟨hvk, huk, trivial⟩
    refine .head (Machine.reaches_loadName hf) (Machine.reaches_loadName hf') ?_
    refine (hconcurs.together htwin).imp (fun ρ σ τ h => ⟨ρ, h⟩) fun m' n' h => ?_
    obtain ⟨ρ', σ', τ', v, v', hρ, hlike, hvv, hok, hsound, hroots, hscopes, rfl, rfl⟩ := h
    have hab : Abreast κ ρ' w m σ' τ' :=
      ⟨hlike, hsound, hroots.trans ha.roots, Nat.le_trans ha.scopes hscopes, ha.closure.mono hρ⟩
    exact ⟨ρ', σ', τ', v, v', hρ, hab, hvv, hok, rfl, rfl⟩
  · have hm : (m.resume σ (v :: u :: os) l (frontCode line k)).step host =
        .raised (m.resume σ (v :: u :: os) line (.mk line (.call 2) :: k)) f := by
      rw [frontCode, Machine.step_resume, perform_loadName_error hf]
    have hn : (m.resume τ (v' :: u' :: os') l' (frontCode line k')).step host =
        .raised (m.resume τ (v' :: u' :: os') line (.mk line (.call 2) :: k')) f := by
      rw [frontCode, Machine.step_resume, perform_loadName_error hf']
    have hfail : ∀ (σ τ : Store) (os os' : List Value) (k k' : List Instr),
        (m.resume σ os line k).failure f = (m.resume τ os' line k').failure f := by
      intros
      apply Machine.failure_congr <;> rfl
    exact .fails ⟨_, .refl _, hm⟩ ⟨_, .refl _, hn⟩ ha.like (hfail _ _ _ _ _ _)

/-- An item that calls nothing comes to a well-formed value. -/
theorem value_ok (ha : Abreast κ ρ w m σ τ) (ho : o.On m m.store) {x : Item} {i : Nat}
    (hx : x.Flat ∨ o.Conses m m.store)
    (hb : x.Every fun code arity => Balanced (.body code) arity [] code.instrs) : (x.value o i).Ok κ := by
  refine x.value_ok (ha.findValue ho.unit).1 (ha.findValue ho.empty).1 (hx.imp_right fun hc => ?_) hb
  have hcons : (Value.constructor o.cons).Ok κ := (ha.findValue hc.1).1
  exact ⟨hcons.1, hc.2⟩

theorem skip (ha : Abreast κ ρ w m σ τ) {n : Nat} {υ : Store} (hρ : ρ.Le ρ')
    (hlike : (σ.skip n).Like ρ' w υ) : Abreast κ ρ' w m (σ.skip n) υ :=
  ⟨hlike, ha.sound.congr rfl rfl (Nat.le_add_right _ _), ha.roots, ha.scopes, ha.closure.mono hρ⟩

/-- An item that calls nothing comes to like values, the numbers that are given out on the way standing for one
another. -/
theorem calm (ha : Abreast κ ρ w m σ τ) (ho : o.On m m.store) {x : Item}
    (hx : x.Flat ∨ o.Conses m m.store) (hA : x.Every fun code _ => w.admits code)
    (hb : x.Every fun code arity => Balanced (.body code) arity [] code.instrs) :
    Together host w (Puts κ ρ w m x.line os os' k k') (m.resume σ os l (x.code k))
      (m.resume τ os' l' (x.code k')) := by
  obtain ⟨o', hlike, ho', hconses⟩ := ha.outlook ho
  have hle := Numbering.Le.extend ρ σ.nextIdentity τ.nextIdentity (x.size o.cons)
  have hm := x.runs host os l k (ha.on ho) (hx.imp_right ha.conses)
  have hn := x.runs host os' l' k' ho' (hx.imp_right fun hc => (hconses hc).1)
  rw [(Item.size_eq hlike.arity x).symm] at hn
  have hvv : (x.value o σ.nextIdentity).Like (ρ.extend σ.nextIdentity τ.nextIdentity (x.size o.cons))
      w.admits (x.value o' τ.nextIdentity) :=
    x.value_like (hlike.mono hle) (hx.imp_right fun hc => ⟨(hconses hc).2.mono hle, hc.2⟩) hA
      fun t ht => .inr ⟨t, ht, rfl, rfl⟩
  exact .comes hm hn ⟨_, _, _, _, _, hle, ha.skip hle (ha.like.extend _), hvv, ha.value_ok ho hx hb, rfl, rfl⟩

mutual

/-- The same item is evaluated on both sides, whatever is called in it. -/
theorem item {ρ : Numbering} {σ τ : Store} (ha : Abreast κ ρ w m σ τ) (ho : o.On m m.store)
    (hroot : m.task.root < m.store.roots.size) (x : Item)
    (hb : x.Every fun code arity => Balanced (.body code) arity [] code.instrs)
    {os os' : List Value} {l l' : Nat} {k k' : List Instr} (hp : w.passes (x.code k)) :
    Together host w (Puts κ ρ w m x.line os os' k k') (m.resume σ os l (x.code k))
      (m.resume τ os' l' (x.code k')) := by
  match x with
  | .literal value line => exact ha.calm ho (.inl trivial) (Item.every_passes hp).1 hb
  | .function code arity line => exact ha.calm ho (.inl trivial) (Item.every_passes hp).1 hb
  | .list items line =>
    obtain ⟨hek, e', he, hee⟩ := ha.findValue ho.empty
    refine .head (Machine.reaches_loadName (ha.on ho).empty) (Machine.reaches_loadName he) ?_
    exact ha.items ho hroot items hb hee hek (w.passes_cons _ _ _ hp).2
termination_by sizeOf x

theorem items {ρ : Numbering} {σ τ : Store} (ha : Abreast κ ρ w m σ τ) (ho : o.On m m.store)
    (hroot : m.task.root < m.store.roots.size) (xs : List Item)
    (hb : EveryItem (fun code arity => Balanced (.body code) arity [] code.instrs) xs)
    {os os' : List Value} {line : Nat} {k k' : List Instr} {u u' : Value} (hu : u.Like ρ w.admits u')
    (huk : u.Ok κ) (hp : w.passes (frontsCode line xs k)) :
    Together host w (Puts κ ρ w m line os os' k k') (m.resume σ (u :: os) line (frontsCode line xs k))
      (m.resume τ (u' :: os') line (frontsCode line xs k')) := by
  match xs with
  | [] => exact .comes (.refl _) (.refl _) ⟨ρ, σ, τ, u, u', .refl ρ, ha, hu, huk, rfl, rfl⟩
  | x :: xs =>
    have hpx : w.passes (x.code (frontCode line k)) := (everyItem_passes xs hp).2
    have hpk : w.passes (frontCode line k) := (Item.every_passes hpx).2
    refine (ha.items ho hroot xs hb.2 hu huk hp).bind fun m' n' h => ?_
    obtain ⟨ρ₁, σ₁, τ₁, u₁, u₁', hρ₁, ha₁, hu₁, huk₁, rfl, rfl⟩ := h
    refine (ha₁.item ho hroot x hb.1 hpx).bind fun m' n' h => ?_
    obtain ⟨ρ₂, σ₂, τ₂, v, v', hρ₂, ha₂, hv, hvk, rfl, rfl⟩ := h
    refine (ha₂.front hroot hv (hu₁.mono hρ₂ _) hvk huk₁ ?_).imp (fun ρ σ τ h => ⟨ρ, h⟩)
      fun m' n' h => h.mono (hρ₁.trans hρ₂)
    exact (w.passes_cons _ _ _ (w.passes_cons _ _ _ hpk).2).2
termination_by sizeOf xs

end

/-- A value is saved in a hidden slot on the one side, where it is no longer in the way. -/
theorem save_hidden (ha : Abreast κ ρ w m σ τ) {n : Nat} (hs : w.hidden n) (hno : w.held n = none) :
    Abreast κ ρ w m σ (τ.save w.scope n v) :=
  ⟨ha.like.save_hidden hs hno, ha.sound, ha.roots, ha.scopes, ha.closure⟩

/-- The last item is evaluated on both sides; on the one it is kept in a slot until there is a list to put it in
front of. -/
theorem last (ha : Abreast κ ρ w m σ τ) (ho : o.On m m.store) (hm : m.Ready κ) (x : Item)
    (hb : x.Every fun code arity => Balanced (.body code) arity [] code.instrs)
    (hp : w.passes (x.code (frontCode line k))) {slot : Slot} (hs : w.hidden slot.id)
    (hno : w.held slot.id = none) (hscope : w.scope = m.frame.scope) :
    Together host w (Puts κ ρ w m line os os' k k')
      (m.resume σ (o.empty :: os) l (x.code (frontCode line k)))
      (m.resume τ os' l' (orderedCode line [x] [slot] k')) := by
  have hpk : w.passes (frontCode line k) := (Item.every_passes hp).2
  rw [orderedCode_cons]
  refine (ha.item ho hm.root x hb hp).bind fun m' n' h => ?_
  obtain ⟨ρ₁, σ₁, τ₁, v, v', hρ₁, ha₁, hv, hvk, rfl, rfl⟩ := h
  have ha₂ : Abreast κ ρ₁ w m σ₁ (τ₁.save m.frame.scope slot.id v') := hscope ▸ ha₁.save_hidden hs hno
  have hlt : m.frame.scope < τ₁.scopes.size := by
    rw [← ha₁.like.scopes]
    exact Nat.lt_of_lt_of_le hm.scope ha₁.scopes
  have hslot : (τ₁.save m.frame.scope slot.id v').slot? m.frame.scope slot.id = some v' :=
    Store.slot?_save.trans (if_pos ⟨rfl, rfl, hlt⟩)
  obtain ⟨hek, e', he, hee⟩ := ha₂.findValue ho.empty
  refine .head (.refl _) (((Machine.reaches_saveLocal).trans (Machine.reaches_loadName he)).trans
    (Machine.reaches_loadLocal hslot)) ?_
  refine (ha₂.front hm.root hv hee hvk hek ?_).imp (fun ρ σ τ h => ⟨ρ, h⟩) fun m' n' h => h.mono hρ₁
  exact (w.passes_cons _ _ _ (w.passes_cons _ _ _ hpk).2).2

/-- The one side makes a value and keeps it. -/
theorem keep (ha : Abreast κ ρ w m σ τ) (hm : m.Ready κ) (hw : w.Loose) {n : Nat} (hs : w.hidden n)
    (hno : w.held n = none) (hscope : w.scope = m.frame.scope) (count : Nat) :
    Abreast κ ρ (w.keep n v τ.nextIdentity count hs) m σ ((τ.skip count).save m.frame.scope n v) := by
  have hsize : w.scope < σ.scopes.size := by
    rw [hscope]
    exact Nat.lt_of_lt_of_le hm.scope ha.scopes
  exact ⟨hscope ▸ ha.like.keep hw hs hno hsize count, ha.sound, ha.roots, ha.scopes, ha.closure⟩

/-- When there is a list to put it in front of, the other side makes the value that the one has kept, with numbers
that stand for those it was made with. -/
theorem put_kept (ha : Abreast κ ρ w m σ τ) (ho : o.On m m.store) (hm : m.Ready κ) {x : Item}
    (hx : x.Flat ∨ o.Conses m m.store)
    (hb : x.Every fun code arity => Balanced (.body code) arity [] code.instrs)
    (hp : w.passes (x.code (frontCode line k))) {o' : Outlook} (hlike : o.Like ρ w.admits o')
    (hcons : o.Conses m m.store → o.cons.Like ρ o'.cons) {slot : Slot} {hs : w.hidden slot.id}
    (hno : w.held slot.id = none) (hw : w.Loose) (hscope : w.scope = m.frame.scope) {m' n' : Machine}
    (h : Puts κ ρ (w.keep slot.id (x.value o' τ.nextIdentity) τ.nextIdentity (x.size o.cons) hs) m line os os'
      (x.code (frontCode line k)) (.mk line (.loadLocal slot) :: frontCode line k') m' n') :
    Together host w (Puts κ ρ w m line os os' k k') m' n' := by
  obtain ⟨ρ₁, σ₁, τ₁, u, u', hρ₁, ha₁, hu, huk, rfl, rfl⟩ := h
  obtain ⟨hA, hpk⟩ := Item.every_passes hp
  have hle := Numbering.Le.extend ρ₁ σ₁.nextIdentity τ.nextIdentity (x.size o.cons)
  have ha₂ : Abreast κ (ρ₁.extend σ₁.nextIdentity τ.nextIdentity (x.size o.cons)) w m
      (σ₁.skip (x.size o.cons)) τ₁ :=
    ⟨ha₁.like.catch_up hw hno ha.like.next, ha₁.sound.congr rfl rfl (Nat.le_add_right _ _), ha₁.roots,
      ha₁.scopes, ha₁.closure.mono hle⟩
  have hmade := x.runs host (u :: os) line (frontCode line k) (ha₁.on ho) (hx.imp_right ha₁.conses)
  have hslot : τ₁.slot? m.frame.scope slot.id = some (x.value o' τ.nextIdentity) :=
    hscope ▸ ha₁.like.held slot.id _ (if_pos rfl)
  have hvv : (x.value o σ₁.nextIdentity).Like (ρ₁.extend σ₁.nextIdentity τ.nextIdentity (x.size o.cons))
      w.admits (x.value o' τ.nextIdentity) :=
    x.value_like (hlike.mono (hρ₁.trans hle))
      (hx.imp_right fun hc => ⟨(hcons hc).mono (hρ₁.trans hle), hc.2⟩) hA fun t ht => .inr ⟨t, ht, rfl, rfl⟩
  refine .head hmade (Machine.reaches_loadLocal hslot) ?_
  refine (ha₂.front hm.root hvv (hu.mono hle _) (ha₁.value_ok ho hx hb) huk ?_).imp
    (fun ρ σ τ h => ⟨ρ, h⟩) fun m' n' h => h.mono (hρ₁.trans hle)
  exact (w.passes_cons _ _ _ (w.passes_cons _ _ _ hpk).2).2

/-- Where all items but the last call nothing, they may as well be evaluated in their order. -/
theorem ordered (ho : o.On m m.store) (hm : m.Ready κ) (xs : List Item) {w : Slack} {ρ : Numbering}
    {σ τ : Store} {slots : List Slot} {os' : List Value} {l' : Nat} {k k' : List Instr}
    (ha : Abreast κ ρ w m σ τ) (hx : (∀ x ∈ xs.dropLast, x.Flat) ∨ o.Conses m m.store)
    (hb : EveryItem (fun code arity => Balanced (.body code) arity [] code.instrs) xs)
    (hp : w.passes (frontsCode line xs k)) (hl : slots.length = xs.length)
    (hs : ∀ slot ∈ slots, w.hidden slot.id ∧ w.held slot.id = none) (hd : (slots.map Slot.id).Nodup)
    (hw : w.Loose) (hscope : w.scope = m.frame.scope) :
    Together host w (Puts κ ρ w m line os os' k k')
      (m.resume σ (o.empty :: os) line (frontsCode line xs k))
      (m.resume τ os' l' (orderedCode line xs slots k')) := by
  induction xs generalizing w ρ σ τ slots os' l' k k' with
  | nil =>
    obtain rfl := List.length_eq_zero_iff.mp hl
    obtain ⟨hek, e', he, hee⟩ := ha.findValue ho.empty
    exact .comes (.refl _) (Machine.reaches_loadName he)
      ⟨ρ, σ, τ, _, e', .refl ρ, ha, hee, hek, rfl, rfl⟩
  | cons x xs ih =>
    obtain ⟨slot, slots, rfl⟩ := List.exists_cons_of_length_eq_add_one hl
    obtain ⟨⟨hs₀, hno⟩, hs⟩ := List.forall_mem_cons.mp hs
    obtain ⟨hnew, hd⟩ := List.nodup_cons.mp hd
    have hpx : w.passes (x.code (frontCode line k)) := (everyItem_passes xs hp).2
    cases xs with
    | nil =>
      obtain rfl := List.length_eq_zero_iff.mp (Nat.succ.inj hl)
      exact ha.last ho hm x hb.1 hpx hs₀ hno hscope
    | cons y ys =>
      have hcalm : x.Flat ∨ o.Conses m m.store := hx.imp_left fun h => h x (by simp)
      have hrest : (∀ z ∈ (y :: ys).dropLast, z.Flat) ∨ o.Conses m m.store :=
        hx.imp_left fun h z hz => h z (by simp [hz])
      obtain ⟨o', hlike, ho', hconses⟩ := ha.outlook ho
      have hfirst := x.runs host os' l' (.mk line (.saveLocal slot) ::
          orderedCode line (y :: ys) slots (.mk line (.loadLocal slot) :: frontCode line k'))
        ho' (hcalm.imp_right fun hc => (hconses hc).1)
      rw [← Item.size_eq hlike.arity x] at hfirst
      have hothers : ∀ s ∈ slots, (w.keep slot.id (x.value o' τ.nextIdentity) τ.nextIdentity
          (x.size o.cons) hs₀).hidden s.id ∧ (w.keep slot.id (x.value o' τ.nextIdentity) τ.nextIdentity
            (x.size o.cons) hs₀).held s.id = none := by
        intro s hsl
        have hne : s.id ≠ slot.id := fun he => hnew (List.mem_map.mpr ⟨s, hsl, he⟩)
        exact ⟨(hs s hsl).1, (if_neg hne).trans (hs s hsl).2⟩
      rw [orderedCode_cons]
      refine .head (.refl _) (hfirst.trans Machine.reaches_saveLocal) ?_
      refine ((ih (ha.keep hm hw hs₀ hno hscope _) hrest hb.2 hp (Nat.succ.inj hl) hothers hd (hw.keep hs₀)
        hscope).imp (fun ρ _ _ h => ⟨ρ, h.unkeep hno⟩) fun _ _ h => h).bind fun m' n' h => ?_
      exact ha.put_kept ho hm hcalm hb.1 hpx hlike (fun hc => (hconses hc).2) hno hw hscope h

end Abreast

end

end MatchLang
