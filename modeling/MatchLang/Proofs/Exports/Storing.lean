import MatchLang.Proofs.Exports.Writing
import MatchLang.Proofs.Machine.Action

/-! A run that gets beyond a pattern has stored the value: no part of it has failed to fit. The code of a
pattern goes straight on, so a run that is not over yet cannot have ended in its middle. -/

namespace MatchLang

/-- To go on at the next instruction, or to meet a fault. -/
def Action.Straight (k : List Instr) (a : Action) : Prop :=
  (∃ σ os, a = .proceed σ os k) ∨ ∃ σ os f, a = .fail σ os f

/-- An instruction that goes on at the next one, whatever it finds. -/
def Op.Straight (op : Op) : Prop :=
  ∀ s line k, (op.action s line k).Straight k

section

variable {s : Setting} {k : List Instr}

theorem Setting.refuse_straight {f : Fault} : (s.refuse f).Straight k :=
  .inr ⟨_, _, f, rfl⟩

theorem Setting.pop_straight {next : Value → List Value → Action} (h : ∀ v os, (next v os).Straight k) :
    (s.pop next).Straight k := by
  unfold pop
  cases s.operands with
  | nil => exact refuse_straight
  | cons v os => exact h v os

theorem straight_pop : Op.pop.Straight :=
  fun _ _ _ => Setting.pop_straight fun _ _ => .inl ⟨_, _, rfl⟩

theorem straight_duplicate : Op.duplicate.Straight :=
  fun _ _ _ => Setting.pop_straight fun _ _ => .inl ⟨_, _, rfl⟩

theorem straight_saveLocal {slot : Slot} : (Op.saveLocal slot).Straight :=
  fun _ _ _ => Setting.pop_straight fun _ _ => .inl ⟨_, _, rfl⟩

theorem straight_publish {name : String} {path : List String} : (Op.publish name path).Straight := by
  refine fun s line k => Setting.pop_straight fun v os => ?_
  cases Machine.publishIn (s.store.root s.root) path name v with
  | ok ns => exact .inl ⟨_, _, rfl⟩
  | error f => exact .inr ⟨_, _, f, rfl⟩

theorem straight_require {shape : Shape} : (Op.require shape).Straight := by
  refine fun s line k => Setting.pop_straight fun v os => ?_
  cases shape.accepts s.home.findType v with
  | error f => exact Setting.refuse_straight
  | ok fits =>
    cases fits with
    | true => exact .inl ⟨_, _, rfl⟩
    | false => exact .inr ⟨_, _, _, rfl⟩

theorem straight_decompose {path : List String} {parts : Nat} : (Op.decompose path parts).Straight := by
  intro s line k
  simp only [Op.action]
  cases s.home.findType path with
  | error f => exact Setting.refuse_straight
  | ok t =>
    simp only
    cases decompose t parts s.operands with
    | ok os => exact .inl ⟨_, _, rfl⟩
    | error f => exact Setting.refuse_straight

end

/-- Straight instructions stand before others. -/
def StraightTo (is k : List Instr) : Prop :=
  ∃ front, is = front ++ k ∧ ∀ i ∈ front, i.op.Straight

section

variable {is js k : List Instr} {line : Nat} {op : Op} {l : Links} {publishAt : Option (List String)}

theorem StraightTo.refl (is : List Instr) : StraightTo is is :=
  ⟨[], rfl, nofun⟩

theorem StraightTo.cons (ho : op.Straight) (h : StraightTo is k) : StraightTo (.mk line op :: is) k := by
  obtain ⟨front, rfl, hf⟩ := h
  exact ⟨.mk line op :: front, rfl, List.forall_mem_cons.mpr ⟨ho, hf⟩⟩

theorem StraightTo.trans (h : StraightTo is js) (h' : StraightTo js k) : StraightTo is k := by
  obtain ⟨front, rfl, hf⟩ := h
  obtain ⟨front', rfl, hf'⟩ := h'
  refine ⟨front ++ front', (List.append_assoc front front' k).symm, fun i hi => ?_⟩
  exact (List.mem_append.mp hi).elim (hf i) (hf' i)

mutual

theorem PatternCode.straight : (p : Pattern) → {line : Nat} → {is k : List Instr} →
    PatternCode l publishAt p line is k → StraightTo is k
  | .wildcard, _, _, k, h => by
    rw [PatternCode] at h
    exact h ▸ (StraightTo.refl k).cons straight_pop
  | .name _ _ _, _, _, k, h => by
    obtain ⟨slot, _, rfl⟩ := h
    have hs : ∀ {line : Nat}, StraightTo (.mk line (.saveLocal slot) :: k) k :=
      (StraightTo.refl k).cons straight_saveLocal
    cases publishAt with
    | none => exact hs
    | some path => exact (hs.cons straight_publish).cons straight_duplicate
  | .literal _ _, _, _, k, h => by
    rw [PatternCode] at h
    exact h ▸ (StraightTo.refl k).cons straight_require
  | .list items, _, _, _, h => ItemPatternsCode.straight items h
  | .type _ params, _, _, _, h => by
    obtain ⟨r, rfl, hr⟩ := h
    exact (PatternsCode.straight params hr).cons straight_decompose

theorem ItemPatternsCode.straight : (ps : List Pattern) → {line : Nat} → {is k : List Instr} →
    ItemPatternsCode l publishAt ps line is k → StraightTo is k
  | [], _, _, k, h => by
    rw [ItemPatternsCode] at h
    exact h ▸ (StraightTo.refl k).cons straight_decompose
  | p :: ps, _, _, _, h => by
    obtain ⟨r, r', rfl, hp, hps⟩ := h
    exact ((PatternCode.straight p hp).trans (ItemPatternsCode.straight ps hps)).cons straight_decompose

theorem PatternsCode.straight : (ps : List Pattern) → {line : Nat} → {is k : List Instr} →
    PatternsCode l publishAt ps line is k → StraightTo is k
  | [], _, _, k, h => by
    rw [PatternsCode] at h
    exact h ▸ StraightTo.refl k
  | p :: ps, _, _, _, h => by
    obtain ⟨r, hp, hps⟩ := h
    exact (PatternCode.straight p hp).trans (PatternsCode.straight ps hps)

end

end

section

variable {host : Host} {m m' : Machine} {front k : List Instr} {j : Nat} {κ : Registry} {h : Nat}
  {l : Links} {path : List String} {q : Pattern} {line : Nat} {v : Value} {os : List Value}

/-- Among straight instructions every step takes one of them. -/
theorem Machine.walk_straight (hr : m.frame.rest = front ++ k) (hf : ∀ i ∈ front, i.op.Straight)
    (hj : j ≤ front.length) (hw : m.walk host j = some m') :
    m'.frame.rest = front.drop j ++ k := by
  induction j generalizing m front with
  | zero =>
    cases hw
    exact hr
  | succ j ih =>
    cases front with
    | nil => cases hj
    | cons i front =>
      obtain ⟨hi, hrest⟩ := List.forall_mem_cons.mp hf
      obtain ⟨line, op⟩ := i
      have hs : m.step host = m.act host line (front ++ k) (op.action m.setting line (front ++ k)) :=
        step_eq_act hr
      rcases hi m.setting line (front ++ k) with ⟨σ, os, ha⟩ | ⟨σ, os, f, ha⟩
      · have ha : op.action m.setting line (front ++ k) = .proceed σ os (front ++ k) := ha
        rw [ha] at hs
        rw [walk, hs] at hw
        exact ih (m := m.resume σ os line (front ++ k)) rfl hrest (Nat.le_of_succ_le_succ hj) hw
      · have ha : op.action m.setting line (front ++ k) = .fail σ os f := ha
        rw [ha] at hs
        rw [walk, hs] at hw
        cases hw

/-- A run that gets to the end of a body has passed the straight instructions before it. -/
theorem Machine.Reaches.walk_of_straight (hr : m.frame.rest = front ++ k) (hf : ∀ i ∈ front, i.op.Straight)
    (hw : m.Reaches host m') (hend : m'.frame.rest = []) :
    ∃ m₁, m.walk host front.length = some m₁ ∧ m₁.Reaches host m' := by
  obtain ⟨n, hn⟩ := hw
  have hle : front.length ≤ n := by
    by_contra hlt
    have hd := walk_straight hr hf (Nat.le_of_not_le hlt) hn
    rw [hend] at hd
    have hl := congrArg List.length hd
    rw [List.length_append, List.length_drop, List.length_nil] at hl
    omega
  obtain ⟨m₁, h₁, h₂⟩ := walk_le hn hle
  exact ⟨m₁, h₁, _, h₂⟩

/-- A run that gets to the end of a body has stored the value that a published pattern stands before: nothing
has failed to fit, and the root has the names of the pattern. -/
theorem Machine.Ok.stores (hm : m.Ok κ h) (hc : PatternCode l (some path) q line m.frame.rest k)
    (ho : m.operands = v :: os) (hw : m.Reaches host m') (hend : m'.frame.rest = []) :
    (q.pieces m.home.findType v).fault = none ∧ ∃ m₁, m.Reaches host m₁ ∧ m₁.Reaches host m' ∧
      (∃ line', m₁ = m.resume m₁.store os line' k) ∧
      (m.store.root m.task.root).Written (pieceWritings path (q.pieces m.home.findType v).found)
        (m₁.store.root m.task.root) := by
  have hv : v.Sound κ Closure.Balanced := by
    have hs := hm.operands
    rw [ho] at hs
    exact hs.1
  obtain ⟨hnone, hadds, hroots⟩ := hm.keepAll hc v rfl
  have hpass : m.Passes host (m.frame.rest.length - k.length) m.store m.operands m.frame.rest
      ((m.keeper l (some path)).bind (q.pieces m.home.findType v) m.store) os k :=
    ho ▸ PatternCode.passes (hm.store.roots _).findType q hc hv rfl
  obtain ⟨front, hfront, hstraight⟩ := PatternCode.straight q hc
  obtain ⟨m₁, h₁, h₂⟩ := hw.walk_of_straight hfront hstraight hend
  have hlen : m.frame.rest.length - k.length = front.length := by
    rw [hfront, List.length_append, Nat.add_sub_cancel]
  rw [Keeper.bind, hnone, Option.none_or, hlen] at hpass
  cases hfault : (q.pieces m.home.findType v).fault with
  | some f =>
    rw [hfault] at hpass
    obtain ⟨j, hj, x, _, _, _, hx, hs⟩ := hpass m.frame.line
    rw [m.resume_self] at hx
    obtain ⟨y, hy, hrest⟩ := Machine.walk_le h₁ (Nat.le_of_lt hj)
    cases hx.symm.trans hy
    obtain ⟨i, hi⟩ := Nat.exists_eq_succ_of_ne_zero (Nat.sub_ne_zero_of_lt hj)
    rw [hi, walk, hs] at hrest
    cases hrest
  | none =>
    rw [hfault] at hpass
    obtain ⟨line', hy⟩ := hpass m.frame.line
    rw [m.resume_self, h₁] at hy
    cases hy
    refine ⟨rfl, _, ⟨_, h₁⟩, h₂, ⟨line', rfl⟩, ?_⟩
    have hroot := hroots m.task.root
    rw [if_pos rfl] at hroot
    rw [resume_store, hroot]
    exact hadds.written

end

end MatchLang
