import MatchLang.Proofs.Lowering.Code
import MatchLang.Proofs.Lowering.Emission

/-! What lowering emits is the code of what it lowers, read in the finished unit. The claim about
each form supposes that the unit is finished later; only then do the labels in it lead anywhere. -/

namespace MatchLang

/-- From `s` to `t` an emitter writes code of the kind `P`. -/
def Emitting.Writes (s t : Emitting)
    (P : Code → Nat → Nat → List Instr → List Instr → Prop) : Prop :=
  s.Grows t ∧ ∀ {c : Code}, t.Within c → P c s.nextSlot t.nextSlot (s.after c) (t.after c)

/-- The same for code without slots of its own. -/
def Emitting.WritesPlain (s t : Emitting) (P : List Instr → List Instr → Prop) : Prop :=
  s.Grows t ∧ t.nextSlot = s.nextSlot ∧ ∀ {c : Code}, t.Within c → P (s.after c) (t.after c)

theorem emit_writes {line : Nat} {op : Op} {s t : Emitting}
    (h : (emit line op).run s = .ok ((), t)) :
    s.WritesPlain t fun is k => is = .mk line op :: k :=
  emit_eq_ok h

theorem Emitting.WritesPlain.writes {s t : Emitting} {P : List Instr → List Instr → Prop}
    (h : s.WritesPlain t P) : s.Writes t fun _ i j is k => j = i ∧ P is k :=
  ⟨h.1, fun hc => ⟨h.2.1, h.2.2 hc⟩⟩

theorem storeName_writes {l : Links} {publishAt : Option (List String)} {id line : Nat}
    {name : String} {s t : Emitting}
    (h : (storeName l publishAt id name line).run s = .ok ((), t)) :
    s.WritesPlain t fun is k =>
      ∃ slot, l.get? id = some slot ∧ is = leafCode publishAt name line slot ++ k := by
  unfold storeName at h
  cases hl : l.get? id with
  | none =>
    rw [hl] at h
    exact absurd h Emitter.reject_ne_ok
  | some slot =>
    rw [hl] at h
    cases publishAt with
    | none =>
      obtain ⟨hg, hn, hw⟩ := emit_writes h
      exact ⟨hg, hn, fun hc => ⟨slot, rfl, hw hc⟩⟩
    | some path =>
      obtain ⟨_, t₁, h₁, h⟩ := Emitter.bind_eq_ok h
      obtain ⟨_, t₂, h₂, h₃⟩ := Emitter.bind_eq_ok h
      obtain ⟨hg₁, hn₁, hw₁⟩ := emit_writes h₁
      obtain ⟨hg₂, hn₂, hw₂⟩ := emit_writes h₂
      obtain ⟨hg₃, hn₃, hw₃⟩ := emit_writes h₃
      refine ⟨hg₁.trans (hg₂.trans hg₃), by omega, fun hc => ⟨slot, rfl, ?_⟩⟩
      rw [hw₁ (hc.of_grows (hg₂.trans hg₃)), hw₂ (hc.of_grows hg₃), hw₃ hc]
      rfl

mutual

theorem storePattern_writes {l : Links} {publishAt : Option (List String)} :
    (p : Pattern) → {line : Nat} → {s t : Emitting} →
      (storePattern l publishAt p line).run s = .ok ((), t) →
      s.WritesPlain t (PatternCode l publishAt p line)
  | .wildcard, _, _, _, h => emit_writes h
  | .name _ _ _, _, _, _, h => storeName_writes h
  | .literal _ _, _, _, _, h => emit_writes h
  | .list items, _, _, _, h => storeItems_writes items h
  | .type n params, _, _, _, h => by
    obtain ⟨_, t₁, h₁, h₂⟩ := Emitter.bind_eq_ok h
    obtain ⟨hg₁, hn₁, hw₁⟩ := emit_writes h₁
    obtain ⟨hg₂, hn₂, hw₂⟩ := storePatterns_writes params h₂
    exact ⟨hg₁.trans hg₂, by omega, fun hc => ⟨_, hw₁ (hc.of_grows hg₂), hw₂ hc⟩⟩

theorem storeItems_writes {l : Links} {publishAt : Option (List String)} :
    (ps : List Pattern) → {line : Nat} → {s t : Emitting} →
      (storeItems l publishAt ps line).run s = .ok ((), t) →
      s.WritesPlain t (ItemPatternsCode l publishAt ps line)
  | [], _, _, _, h => emit_writes h
  | p :: ps, _, _, _, h => by
    obtain ⟨_, t₁, h₁, h⟩ := Emitter.bind_eq_ok h
    obtain ⟨_, t₂, h₂, h₃⟩ := Emitter.bind_eq_ok h
    obtain ⟨hg₁, hn₁, hw₁⟩ := emit_writes h₁
    obtain ⟨hg₂, hn₂, hw₂⟩ := storePattern_writes p h₂
    obtain ⟨hg₃, hn₃, hw₃⟩ := storeItems_writes ps h₃
    exact ⟨hg₁.trans (hg₂.trans hg₃), by omega, fun hc =>
      ⟨_, _, hw₁ (hc.of_grows (hg₂.trans hg₃)), hw₂ (hc.of_grows hg₃), hw₃ hc⟩⟩

theorem storePatterns_writes {l : Links} {publishAt : Option (List String)} :
    (ps : List Pattern) → {line : Nat} → {s t : Emitting} →
      (storePatterns l publishAt ps line).run s = .ok ((), t) →
      s.WritesPlain t (PatternsCode l publishAt ps line)
  | [], _, s, _, h => by
    cases h
    exact ⟨.refl s, rfl, fun _ => rfl⟩
  | p :: ps, _, _, _, h => by
    obtain ⟨_, t₁, h₁, h₂⟩ := Emitter.bind_eq_ok h
    obtain ⟨hg₁, hn₁, hw₁⟩ := storePattern_writes p h₁
    obtain ⟨hg₂, hn₂, hw₂⟩ := storePatterns_writes ps h₂
    exact ⟨hg₁.trans hg₂, by omega, fun hc => ⟨_, hw₁ (hc.of_grows hg₂), hw₂ hc⟩⟩

end

theorem emitCons_writes {line : Nat} {s t : Emitting} (h : (emitCons line).run s = .ok ((), t)) :
    s.WritesPlain t fun is k => is = .mk line (.loadName [consName]) :: .mk line (.call 2) :: k := by
  obtain ⟨_, t₁, h₁, h₂⟩ := Emitter.bind_eq_ok h
  obtain ⟨hg₁, hn₁, hw₁⟩ := emit_writes h₁
  obtain ⟨hg₂, hn₂, hw₂⟩ := emit_writes h₂
  exact ⟨hg₁.trans hg₂, by omega, fun hc => by rw [hw₁ (hc.of_grows hg₂), hw₂ hc]⟩

theorem emitItems_writes {line : Nat} : (slots : List Slot) → {s t : Emitting} →
    (emitItems line slots).run s = .ok ((), t) →
    s.WritesPlain t fun is k => is = consCode line slots ++ k
  | [], s, _, h => by
    cases h
    exact ⟨.refl s, rfl, fun _ => rfl⟩
  | slot :: slots, _, _, h => by
    obtain ⟨_, t₁, h₁, h⟩ := Emitter.bind_eq_ok h
    obtain ⟨_, t₂, h₂, h₃⟩ := Emitter.bind_eq_ok h
    obtain ⟨hg₁, hn₁, hw₁⟩ := emitItems_writes slots h₁
    obtain ⟨hg₂, hn₂, hw₂⟩ := emit_writes h₂
    obtain ⟨hg₃, hn₃, hw₃⟩ := emitCons_writes h₃
    refine ⟨hg₁.trans (hg₂.trans hg₃), by omega, fun hc => ?_⟩
    rw [hw₁ (hc.of_grows (hg₂.trans hg₃)), hw₂ (hc.of_grows hg₃), hw₃ hc]
    simp [consCode]

/-- The arms of a choice are functions of one parameter. -/
theorem armsOf_cons {b : Block} {bs : List Block} {arms : List Arm}
    (h : armsOf (b :: bs) = .ok arms) :
    ∃ pattern body line rest, b = .result (.function [pattern] body line) ∧
      arms = ⟨pattern, line⟩ :: rest ∧ armsOf bs = .ok rest := by
  unfold armsOf at h
  split at h
  · rename_i params body line hv
    split at h
    · cases h
    · rename_i hb
      split at h
      · rename_i pattern
        cases hr : armsOf bs with
        | error e => simp [hr, Except.map] at h
        | ok rest =>
          simp only [hr, Except.map, Except.ok.injEq] at h
          cases b with
          | bind => simp [Block.hasBindings] at hb
          | result e =>
            simp only [Block.value] at hv
            subst hv
            exact ⟨pattern, body, line, rest, rfl, h.symm, rfl⟩
      · cases h
  · cases h

theorem armLabels_eq_ok : (arms : List Arm) → {labels : List Nat} → {s t : Emitting} →
    (armLabels arms).run s = .ok (labels, t) →
    s.Grows t ∧ t.nextSlot = s.nextSlot ∧ (∀ c : Code, s.after c = t.after c) ∧
      labels.length = arms.length
  | [], _, s, _, h => by
    cases h
    exact ⟨.refl s, rfl, fun _ => rfl, rfl⟩
  | a :: as, _, _, _, h => by
    obtain ⟨label, t₁, h₁, h⟩ := Emitter.bind_eq_ok h
    obtain ⟨labels, t₂, h₂, h⟩ := Emitter.bind_eq_ok h
    cases h
    obtain ⟨hg₁, hn₁, ha₁⟩ := freshLabel_eq_ok h₁
    obtain ⟨hg₂, hn₂, ha₂, hl⟩ := armLabels_eq_ok as h₂
    exact ⟨hg₁.trans hg₂, by omega, fun c => (ha₁ c).trans (ha₂ c), by simp [hl]⟩

/-- The tests of a choice, each with the label of its arm. -/
def testsCode : List Arm → List Nat → List Instr
  | a :: as, label :: labels =>
    .mk a.line .duplicate :: .mk a.line (.jumpIf a.pattern.shape label) :: testsCode as labels
  | _, _ => []

theorem emitTests_writes : (arms : List Arm) → {labels : List Nat} → {s t : Emitting} →
    (emitTests arms labels).run s = .ok ((), t) →
    s.WritesPlain t fun is k => is = testsCode arms labels ++ k
  | [], _, s, _, h => by
    cases h
    exact ⟨.refl s, rfl, fun _ => rfl⟩
  | _ :: _, [], s, _, h => by
    cases h
    exact ⟨.refl s, rfl, fun _ => rfl⟩
  | a :: as, label :: labels, _, _, h => by
    obtain ⟨_, t₁, h₁, h⟩ := Emitter.bind_eq_ok h
    obtain ⟨_, t₂, h₂, h₃⟩ := Emitter.bind_eq_ok h
    obtain ⟨hg₁, hn₁, hw₁⟩ := emit_writes h₁
    obtain ⟨hg₂, hn₂, hw₂⟩ := emit_writes h₂
    obtain ⟨hg₃, hn₃, hw₃⟩ := emitTests_writes as h₃
    refine ⟨hg₁.trans (hg₂.trans hg₃), by omega, fun hc => ?_⟩
    rw [hw₁ (hc.of_grows (hg₂.trans hg₃)), hw₂ (hc.of_grows hg₃), hw₃ hc]
    rfl

mutual

theorem lowerExpr_writes {l : Links} :
    (e : Expr) → {allowTail : Bool} → {s t : Emitting} →
      (lowerExpr l e allowTail).run s = .ok ((), t) →
      s.Writes t fun c => ExprCode l e c allowTail
  | .call callee args line, allowTail, s, t, h => by
    unfold lowerExpr at h
    split at h
    · rename_i hm
      split at h
      · rename_i scrutinee cases caseLine
        obtain ⟨arms, r, ha, h⟩ := Emitter.bind_eq_ok h
        obtain ⟨ha, hr⟩ := Emitter.lift_eq_ok ha
        rw [hr] at h
        obtain ⟨_, t₁, h₁, h⟩ := Emitter.bind_eq_ok h
        obtain ⟨done, t₂, h₂, h⟩ := Emitter.bind_eq_ok h
        obtain ⟨labels, t₃, h₃, h⟩ := Emitter.bind_eq_ok h
        obtain ⟨_, t₄, h₄, h⟩ := Emitter.bind_eq_ok h
        obtain ⟨_, t₅, h₅, h⟩ := Emitter.bind_eq_ok h
        obtain ⟨_, t₆, h₆, h⟩ := Emitter.bind_eq_ok h
        obtain ⟨_, t₇, h₇, h₈⟩ := Emitter.bind_eq_ok h
        obtain ⟨hg₁, hw₁⟩ := lowerExpr_writes scrutinee h₁
        obtain ⟨hg₂, hn₂, ha₂⟩ := freshLabel_eq_ok h₂
        obtain ⟨hg₃, hn₃, ha₃, hl⟩ := armLabels_eq_ok arms h₃
        obtain ⟨hg₄, hn₄, hw₄⟩ := emitTests_writes arms h₄
        obtain ⟨hg₅, hn₅, hw₅⟩ := emit_writes h₅
        obtain ⟨hg₆, hw₆⟩ := lowerArms_writes cases ha hl h₆
        obtain ⟨hg₇, hn₇, ha₇, hw₇⟩ := attach_eq_ok h₇
        obtain ⟨hg₈, hn₈, hw₈⟩ := emit_writes h₈
        have hg : t₁.Grows t :=
          hg₂.trans (hg₃.trans (hg₄.trans (hg₅.trans (hg₆.trans (hg₇.trans hg₈)))))
        refine ⟨hg₁.trans hg, fun {c} hc =>
          (exprCode_match hm).mpr ⟨t₁.nextSlot, t₁.after c, t₅.after c, done, ?_, ?_, ?_, ?_⟩⟩
        · exact hw₁ (hc.of_grows hg)
        · have hb := hw₆ (hc.of_grows (hg₇.trans hg₈)) (.mk line (.fail noMatch) :: t₅.after c)
            ((t.after c).length + 1) (by rw [ha₇, hw₈ hc, List.length_cons])
          have ht : t₁.after c = testsCode arms labels ++ .mk line (.fail noMatch) :: t₅.after c := by
            rw [ha₂, ha₃, hw₄ (hc.of_grows (hg₅.trans (hg₆.trans (hg₇.trans hg₈)))),
              hw₅ (hc.of_grows (hg₆.trans (hg₇.trans hg₈)))]
          rwa [← ht, show t₅.nextSlot = t₁.nextSlot by omega,
            show t₆.nextSlot = t.nextSlot by omega] at hb
        · have hle := hg₆.length_after_le c
          rw [ha₇, hw₈ hc, List.length_cons] at hle
          exact hle
        · rw [hw₇ (hc.of_grows hg₈), hw₈ hc]
      · exact absurd h Emitter.reject_ne_ok
      · exact absurd h Emitter.reject_ne_ok
    · rename_i hm
      obtain ⟨_, t₁, h₁, h⟩ := Emitter.bind_eq_ok h
      obtain ⟨hg₁, hw₁⟩ := lowerArgs_writes args h₁
      split at h
      · split at h
        · rename_i ht
          obtain ⟨hg₂, hn₂, hw₂⟩ := emit_writes h
          refine ⟨hg₁.trans hg₂, fun hc => exprCode_self.mpr ⟨ht, ?_⟩⟩
          have hb := hw₁ (hc.of_grows hg₂)
          rwa [hw₂ hc, ← hn₂] at hb
        · exact absurd h Emitter.reject_ne_ok
      · rename_i hs
        obtain ⟨_, t₂, h₂, h₃⟩ := Emitter.bind_eq_ok h
        obtain ⟨hg₂, hw₂⟩ := lowerExpr_writes callee h₂
        obtain ⟨hg₃, hn₃, hw₃⟩ := emit_writes h₃
        refine ⟨hg₁.trans (hg₂.trans hg₃), fun {c} hc =>
          (exprCode_call (by simpa using hm) hs).mpr
            ⟨t₁.nextSlot, t₁.after c, hw₁ (hc.of_grows (hg₂.trans hg₃)), ?_⟩⟩
        have hb := hw₂ (hc.of_grows hg₃)
        rwa [hw₃ hc, ← hn₃] at hb
  | .function params body line, _, s, t, h => by
    unfold lowerExpr at h
    obtain ⟨unit, t₁, h₁, h₂⟩ := Emitter.bind_eq_ok h
    obtain ⟨r, hb, hf, rfl⟩ := inOwnUnit_eq_ok h₁
    obtain ⟨_, r₁, hp, hb⟩ := Emitter.bind_eq_ok hb
    obtain ⟨hgp, hnp, hwp⟩ := storePatterns_writes params hp
    obtain ⟨hgb, hwb⟩ := lowerBlock_writes body hb
    obtain ⟨hg₂, hn₂, hw₂⟩ := emit_writes h₂
    obtain ⟨hu, hi, ha⟩ := finish_eq_ok hf
    have hs : s.Grows { r with unit := s.unit } :=
      ⟨List.prefix_refl _, fun _ _ _ h => h, hgp.slots.trans hgb.slots⟩
    refine ⟨hs.trans hg₂, fun {c} hc => ?_⟩
    simp only [ExprCode]
    refine ⟨unit, r₁.after unit, ?_, ?_, ?_⟩
    · exact hwp (hu.of_grows hgb)
    · have hb := hwb hu
      rw [ha, hnp] at hb
      rwa [hn₂]
    · exact hw₂ hc
  | .list elements line, _, s, t, h => by
    unfold lowerExpr at h
    split at h
    · rename_i hp
      obtain ⟨_, t₁, h₁, h₂⟩ := Emitter.bind_eq_ok h
      obtain ⟨hg₁, hn₁, hw₁⟩ := emit_writes h₁
      obtain ⟨hg₂, hw₂⟩ := lowerPure_writes elements h₂
      refine ⟨hg₁.trans hg₂, fun hc => ?_⟩
      simp only [ExprCode, hp, if_true]
      exact ⟨_, hw₁ (hc.of_grows hg₂), by simpa only [hn₁] using hw₂ hc⟩
    · rename_i hp
      obtain ⟨slots, t₁, h₁, h⟩ := Emitter.bind_eq_ok h
      obtain ⟨_, t₂, h₂, h₃⟩ := Emitter.bind_eq_ok h
      obtain ⟨hg₁, hw₁⟩ := lowerItems_writes elements h₁
      obtain ⟨hg₂, hn₂, hw₂⟩ := emit_writes h₂
      obtain ⟨hg₃, hn₃, hw₃⟩ := emitItems_writes slots h₃
      refine ⟨hg₁.trans (hg₂.trans hg₃), fun hc => ?_⟩
      simp only [ExprCode, hp]
      refine ⟨slots, ?_⟩
      have hb := hw₁ (hc.of_grows (hg₂.trans hg₃))
      rwa [hw₂ (hc.of_grows hg₃), hw₃ hc, ← hn₂, ← hn₃] at hb
  | .literal value line, _, s, t, h => by
    unfold lowerExpr at h
    exact (emit_writes h).writes
  | .name n, _, s, t, h => by
    unfold lowerExpr at h
    exact (emit_writes h).writes
  | .self line, _, s, t, h => by
    unfold lowerExpr at h
    exact absurd h Emitter.reject_ne_ok

theorem lowerArgs_writes {l : Links} :
    (es : List Expr) → {s t : Emitting} → (lowerArgs l es).run s = .ok ((), t) →
      s.Writes t (ArgsCode l es)
  | [], s, _, h => by
    cases h
    exact ⟨.refl s, fun _ => ⟨rfl, rfl⟩⟩
  | e :: es, s, t, h => by
    obtain ⟨_, t₁, h₁, h₂⟩ := Emitter.bind_eq_ok h
    obtain ⟨hg₁, hw₁⟩ := lowerArgs_writes es h₁
    obtain ⟨hg₂, hw₂⟩ := lowerExpr_writes e h₂
    exact ⟨hg₁.trans hg₂, fun hc => ⟨_, _, hw₁ (hc.of_grows hg₂), hw₂ hc⟩⟩

theorem lowerPure_writes {l : Links} :
    (bs : List Block) → {line : Nat} → {s t : Emitting} →
      (lowerPure l bs line).run s = .ok ((), t) → s.Writes t fun c => PureCode l bs c line
  | [], _, s, _, h => by
    cases h
    exact ⟨.refl s, fun _ => ⟨rfl, rfl⟩⟩
  | b :: bs, line, s, t, h => by
    obtain ⟨_, t₁, h₁, h⟩ := Emitter.bind_eq_ok h
    obtain ⟨_, t₂, h₂, h₃⟩ := Emitter.bind_eq_ok h
    obtain ⟨hg₁, hw₁⟩ := lowerPure_writes bs h₁
    obtain ⟨hg₂, hw₂⟩ := lowerBlock_writes b h₂
    obtain ⟨hg₃, hn₃, hw₃⟩ := emitCons_writes h₃
    refine ⟨hg₁.trans (hg₂.trans hg₃), fun hc =>
      ⟨_, _, hw₁ (hc.of_grows (hg₂.trans hg₃)), ?_⟩⟩
    have hb := hw₂ (hc.of_grows hg₃)
    rwa [hw₃ hc, ← hn₃] at hb

theorem lowerItems_writes {l : Links} :
    (bs : List Block) → {line : Nat} → {slots : List Slot} → {s t : Emitting} →
      (lowerItems l bs line).run s = .ok (slots, t) →
      s.Writes t fun c => ItemsCode l bs c line slots
  | [], _, _, s, _, h => by
    cases h
    exact ⟨.refl s, fun _ => ⟨rfl, rfl, rfl⟩⟩
  | b :: bs, line, slots, s, t, h => by
    obtain ⟨_, t₁, h₁, h⟩ := Emitter.bind_eq_ok h
    obtain ⟨slot, t₂, h₂, h⟩ := Emitter.bind_eq_ok h
    obtain ⟨_, t₃, h₃, h⟩ := Emitter.bind_eq_ok h
    obtain ⟨rest, t₄, h₄, h⟩ := Emitter.bind_eq_ok h
    cases h
    obtain ⟨hg₁, hw₁⟩ := lowerBlock_writes b h₁
    obtain ⟨hg₂, rfl, hn₂, ha₂⟩ := freshSlot_eq_ok h₂
    obtain ⟨hg₃, hn₃, hw₃⟩ := emit_writes h₃
    obtain ⟨hg₄, hw₄⟩ := lowerItems_writes bs h₄
    refine ⟨hg₁.trans (hg₂.trans (hg₃.trans hg₄)), fun {c} hc =>
      ⟨t₁.nextSlot, t₃.after c, rest, ?_, rfl, ?_⟩⟩
    · have hb := hw₁ (hc.of_grows (hg₂.trans (hg₃.trans hg₄)))
      rwa [ha₂, hw₃ (hc.of_grows hg₄)] at hb
    · have hb := hw₄ hc
      rwa [hn₃, hn₂] at hb

theorem lowerArms_writes {l : Links} :
    (cases : List Block) → {arms : List Arm} → {labels : List Nat} → {done : Nat} →
      {allowTail : Bool} → {s t : Emitting} → armsOf cases = .ok arms →
      labels.length = arms.length →
      (lowerArms l cases labels done allowTail).run s = .ok ((), t) →
      s.Grows t ∧ ∀ {c : Code}, t.Within c → ∀ (k : List Instr) (behind : Nat),
        behind ≤ (t.after c).length →
        ArmsCode l cases c done allowTail behind s.nextSlot t.nextSlot
          (testsCode arms labels ++ k) k
  | [], _, _, _, _, s, _, ha, _, h => by
    cases ha
    unfold lowerArms at h
    cases h
    exact ⟨.refl s, fun _ _ _ _ => by
      unfold ArmsCode
      exact ⟨rfl, rfl⟩⟩
  | b :: bs, arms, labels, done, allowTail, s, t, ha, hl, h => by
    obtain ⟨pattern, body, line, rest, rfl, rfl, hr⟩ := armsOf_cons ha
    cases labels with
    | nil => simp at hl
    | cons label labels =>
      unfold lowerArms at h
      obtain ⟨_, t₁, h₁, h⟩ := Emitter.bind_eq_ok h
      obtain ⟨_, t₂, h₂, h⟩ := Emitter.bind_eq_ok h
      obtain ⟨_, t₃, h₃, h⟩ := Emitter.bind_eq_ok h
      obtain ⟨_, t₄, h₄, h₅⟩ := Emitter.bind_eq_ok h
      obtain ⟨hg₁, hn₁, ha₁, hw₁⟩ := attach_eq_ok h₁
      obtain ⟨hg₂, hn₂, hw₂⟩ := storePattern_writes pattern h₂
      obtain ⟨hg₃, hw₃⟩ := lowerBlock_writes body h₃
      obtain ⟨hg₄, hn₄, hw₄⟩ := emit_writes h₄
      obtain ⟨hg₅, hw₅⟩ := lowerArms_writes bs hr (by simpa using hl) h₅
      refine ⟨hg₁.trans (hg₂.trans (hg₃.trans (hg₄.trans hg₅))), fun {c} hc k behind hle => ?_⟩
      unfold ArmsCode
      refine ⟨label, t₃.nextSlot, testsCode rest labels ++ k, t₁.after c, t₂.after c, t₄.after c,
        rfl, ?_, ?_, ?_, ?_, ?_⟩
      · exact hw₁ (hc.of_grows (hg₂.trans (hg₃.trans (hg₄.trans hg₅))))
      · exact hw₂ (hc.of_grows (hg₃.trans (hg₄.trans hg₅)))
      · have hb := hw₃ (hc.of_grows (hg₄.trans hg₅))
        rwa [hw₄ (hc.of_grows hg₅), hn₂, hn₁] at hb
      · exact hle.trans (hg₅.length_after_le c)
      · have hb := hw₅ hc k behind hle
        rwa [hn₄] at hb

theorem lowerBlock_writes {l : Links} :
    (b : Block) → {allowTail : Bool} → {s t : Emitting} →
      (lowerBlock l b allowTail).run s = .ok ((), t) →
      s.Writes t fun c => BlockCode l b c allowTail
  | .result e, _, _, _, h => lowerExpr_writes e h
  | .bind p value _ rest, allowTail, s, t, h => by
    obtain ⟨_, t₁, h₁, h⟩ := Emitter.bind_eq_ok h
    obtain ⟨_, t₂, h₂, h₃⟩ := Emitter.bind_eq_ok h
    obtain ⟨hg₁, hw₁⟩ := lowerBlock_writes value h₁
    obtain ⟨hg₂, hn₂, hw₂⟩ := storePattern_writes p h₂
    obtain ⟨hg₃, hw₃⟩ := lowerBlock_writes rest h₃
    refine ⟨hg₁.trans (hg₂.trans hg₃), fun {c} hc =>
      ⟨t₁.nextSlot, t₁.after c, t₂.after c, hw₁ (hc.of_grows (hg₂.trans hg₃)),
        hw₂ (hc.of_grows hg₃), ?_⟩⟩
    have hb := hw₃ hc
    rwa [hn₂] at hb

end

end MatchLang
