import MatchLang.Proofs.Code.Units
import MatchLang.Proofs.Lowering.Emission

/-! Jumps only go forward. A label is attached behind the jumps that lead to it, because they are emitted
while it waits; and something is emitted behind every label. -/

namespace MatchLang

namespace Emitting

/-- A label that has been made and stands nowhere yet. -/
def Open (s : Emitting) (label : Nat) : Prop :=
  ∃ line, s.unit.labels[label]? = some ⟨none, line⟩

/-- The jumps that have been emitted go forward, as far as their labels stand. A label stands less than
`slack` instructions behind the end. -/
structure Forward (slack : Nat) (s : Emitting) : Prop where
  jumps : ∀ (i : Nat) instr label, s.unit.instrs.toList[i]? = some instr → instr.op.label? = some label →
    ∃ place, s.unit.labels[label]? = some place ∧ ∀ target, place.target = some target → i < target
  places : ∀ label target line : Nat, s.unit.labels[label]? = some ⟨some target, line⟩ →
    target < s.unit.instrs.size + slack
  units : ∀ line code arity, Instr.mk line (.loadFunction code arity) ∈ s.unit.instrs.toList →
    code.EveryUnit Code.Forward

/-- Labels are made and attached, but none that has been there before goes away, and jumps go forward if
they did before. -/
structure Onward (s t : Emitting) : Prop where
  length_le : s.unit.labels.length ≤ t.unit.labels.length
  opened : ∀ label < s.unit.labels.length, t.Open label → s.Open label
  forward : ∀ slack, s.Forward slack → t.Forward slack

variable {s t r : Emitting} {slack label line : Nat} {op : Op} {c : Code}

theorem Open.lt (h : s.Open label) : label < s.unit.labels.length := by
  obtain ⟨line, hl⟩ := h
  exact (List.getElem?_eq_some_iff.mp hl).1

/-- New labels leave those open that were. -/
theorem Open.append (h : s.Open label) (hl : s.unit.labels <+: t.unit.labels) : t.Open label := by
  obtain ⟨line, ho⟩ := h
  obtain ⟨rest, hr⟩ := hl
  exact ⟨line, by rw [← hr, List.getElem?_append_left (Open.lt ⟨line, ho⟩), ho]⟩

theorem Forward.mono (h : s.Forward slack) : s.Forward (slack + 1) :=
  { h with places := fun label target line hl => Nat.lt_succ_of_lt (h.places label target line hl) }

/-- An emission puts one more instruction behind all labels. -/
theorem Forward.emit (h : s.Forward (slack + 1)) (hl : ∀ label, op.label? = some label → s.Open label)
    (hu : ∀ code arity, op = .loadFunction code arity → code.EveryUnit Code.Forward) :
    Forward slack { s with unit := s.unit.emit line op } where
  jumps i instr label hi hop := by
    rw [Builder.instrs_emit, List.getElem?_append] at hi
    split at hi
    · exact h.jumps i instr label hi hop
    · obtain rfl : instr = .mk line op := List.mem_singleton.mp (List.mem_of_getElem? hi)
      obtain ⟨created, hopen⟩ := hl label hop
      exact ⟨_, hopen, nofun⟩
  places label target created hlabel := by
    have hsize : (s.unit.emit line op).instrs.size = s.unit.instrs.size + 1 := by simp [Builder.emit]
    have hlt := h.places label target created hlabel
    simp only [hsize]
    omega
  units line' code arity hi := by
    rw [Builder.instrs_emit, List.mem_append, List.mem_singleton] at hi
    rcases hi with hi | hi
    · exact h.units line' code arity hi
    · cases hi
      exact hu code arity rfl

theorem Forward.empty {nextSlot : Nat} : Forward 0 ⟨.empty, nextSlot⟩ where
  jumps i instr label hi := by simp [Builder.empty] at hi
  places label target line hl := by simp [Builder.empty] at hl
  units line code arity hi := by cases hi

/-- What is finished goes forward to the last jump. -/
theorem Forward.finish (h : s.Forward 0) (hf : s.unit.finish = .ok c) : c.EveryUnit Code.Forward := by
  have hattached : ∀ (index : Nat) (ls : List LabelPlace) (ts : List Nat),
      Builder.targetsFrom index ls = .ok ts → ∀ (i : Nat) place, ls[i]? = some place →
        place.target ≠ none := by
    intro index ls
    induction ls generalizing index with
    | nil => exact fun ts _ i place hi => by simp at hi
    | cons p ls ih =>
      intro ts hts i place hi
      obtain ⟨_ | target, created⟩ := p
      · simp [Builder.targetsFrom] at hts
      · cases i with
        | zero =>
          cases hi
          exact Option.some_ne_none target
        | succ i =>
          cases hr : Builder.targetsFrom (index + 1) ls with
          | error e => simp [Builder.targetsFrom, hr, Except.map] at hts
          | ok rest => exact ih (index + 1) rest hr i place hi
  obtain ⟨hwithin, hinstrs, _⟩ := finish_eq_ok hf
  refine .of_inner (fun i instr label hi hop => ?_) fun line d arity hi => ?_
  · rw [hinstrs] at hi
    obtain ⟨⟨target, created⟩, hplace, hlt⟩ := h.jumps i instr label hi hop
    cases hts : Builder.targetsFrom 0 s.unit.labels with
    | error e => simp [Builder.finish, hts, Except.map] at hf
    | ok ts =>
      obtain ⟨target, rfl⟩ := Option.ne_none_iff_exists'.mp (hattached 0 _ ts hts label _ hplace)
      have hend := h.places label target created hplace
      refine ⟨target, hwithin.labels label target created hplace, hlt target rfl, ?_⟩
      rwa [Code.length, hinstrs, Array.length_toList]
  · exact h.units line d arity (hinstrs ▸ hi)

theorem Onward.refl (s : Emitting) : s.Onward s :=
  ⟨Nat.le_refl _, fun _ _ h => h, fun _ h => h⟩

theorem Onward.trans (h : s.Onward t) (h' : t.Onward r) : s.Onward r where
  length_le := Nat.le_trans h.length_le h'.length_le
  opened label hlt ho := h.opened label hlt (h'.opened label (Nat.lt_of_lt_of_le hlt h.length_le) ho)
  forward slack hs := h'.forward slack (h.forward slack hs)

end Emitting

open Emitting

/-- An emitter that leaves jumps going forward. -/
def Emitter.Onward {α : Type} (x : Emitter α) : Prop :=
  ∀ s a t, x.run s = .ok (a, t) → s.Onward t

namespace Emitter

variable {α β : Type} {x : Emitter α} {f : α → Emitter β}

theorem Onward.pure {a : α} : Onward (pure a : Emitter α) := by
  intro s b t h
  obtain ⟨-, rfl⟩ := pure_eq_ok h
  exact .refl _

theorem Onward.bind (hx : Onward x) (hf : ∀ a, Onward (f a)) : Onward (x >>= f) := by
  intro s b t h
  obtain ⟨a, r, hr, ht⟩ := bind_eq_ok h
  exact (hx s a r hr).trans (hf a r b t ht)

theorem Onward.ite {p : Prop} [Decidable p] {y : Emitter α} (hx : Onward x) (hy : Onward y) :
    Onward (if p then x else y) := by
  split
  · exact hx
  · exact hy

theorem Onward.lift {r : Except CompileError α} : Onward (liftM r : Emitter α) := by
  intro s a t h
  obtain ⟨-, rfl⟩ := lift_eq_ok h
  exact .refl _

theorem Onward.reject {failure : CompileFailure} {line : Nat} : Onward (reject failure line : Emitter α) :=
  fun _ _ _ h => absurd h reject_ne_ok

end Emitter

section

open Emitter

variable {links : Links} {s t : Emitting} {line label : Nat} {op : Op}

theorem emit_onward_of (h : (emit line op).run s = .ok ((), t))
    (hl : ∀ label, op.label? = some label → s.Open label)
    (hu : ∀ code arity, op = .loadFunction code arity → code.EveryUnit Code.Forward) : s.Onward t := by
  cases h
  exact ⟨Nat.le_refl _, fun _ _ ho => ho, fun _ hs => hs.mono.emit hl hu⟩

theorem emit_onward (hl : op.label? = none)
    (hu : ∀ code arity, op = .loadFunction code arity → code.EveryUnit Code.Forward) :
    Onward (emit line op) := by
  intro s a t h
  refine emit_onward_of h (fun label hop => ?_) hu
  rw [hl] at hop
  cases hop

theorem freshLabel_onward (h : (freshLabel line).run s = .ok (label, t)) :
    s.Onward t ∧ s.unit.labels <+: t.unit.labels ∧ t.Open label := by
  cases h
  have hlabels : ∀ i < s.unit.labels.length, (s.unit.freshLabel line).2.labels[i]? = s.unit.labels[i]? :=
    fun i hi => List.getElem?_append_left hi
  refine ⟨⟨by simp, fun i hi ho => ?_, fun slack hs => ?_⟩, List.prefix_append _ _, ⟨line, by simp⟩⟩
  · obtain ⟨created, hopen⟩ := ho
    exact ⟨created, (hlabels i hi).symm.trans hopen⟩
  · refine ⟨fun i instr label hi hop => ?_, fun i target created hi => ?_, hs.units⟩
    · obtain ⟨place, hplace, hlt⟩ := hs.jumps i instr label hi hop
      exact ⟨place, (hlabels _ (List.getElem?_eq_some_iff.mp hplace).1).trans hplace, hlt⟩
    · refine hs.places i target created ?_
      by_cases hlt : i < s.unit.labels.length
      · exact (hlabels i hlt).symm.trans hi
      · have hlast : (s.unit.labels ++ [⟨none, line⟩])[i]? = some ⟨some target, created⟩ := hi
        rw [List.getElem?_append_right (Nat.le_of_not_lt hlt)] at hlast
        cases List.mem_singleton.mp (List.mem_of_getElem? hlast)

/-- A label that is attached stands at the end, one instruction less behind it than others may. -/
theorem attach_onward (h : (attach label line).run s = .ok ((), t)) :
    s.Open label ∧ t.unit.labels.length = s.unit.labels.length ∧ (∀ i, t.Open i → s.Open i) ∧
      ∀ slack, s.Forward slack → t.Forward (slack + 1) := by
  obtain ⟨r, r', hget, h⟩ := bind_eq_ok h
  cases hget
  obtain ⟨unit, r'', ha, h⟩ := bind_eq_ok h
  cases h
  obtain ⟨ha, rfl⟩ := lift_eq_ok ha
  unfold Builder.attach at ha
  split at ha
  · rename_i created hl
    cases ha
    have hother : ∀ i, label ≠ i →
        (r''.unit.labels.set label ⟨some r''.unit.instrs.size, created⟩)[i]? = r''.unit.labels[i]? :=
      fun i hne => List.getElem?_set_ne hne
    have hself : (r''.unit.labels.set label ⟨some r''.unit.instrs.size, created⟩)[label]? =
        some ⟨some r''.unit.instrs.size, created⟩ :=
      List.getElem?_set_self (List.getElem?_eq_some_iff.mp hl).1
    refine ⟨⟨created, hl⟩, List.length_set, fun i ⟨line, ho⟩ => ?_, fun slack hs => ⟨?_, ?_, hs.units⟩⟩
    · by_cases hi : label = i
      · subst hi
        cases hself.symm.trans ho
      · exact ⟨line, (hother i hi).symm.trans ho⟩
    · intro i instr target hi hop
      obtain ⟨place, hplace, hlt⟩ := hs.jumps i instr target hi hop
      by_cases hi' : label = target
      · subst hi'
        have hsize : i < r''.unit.instrs.size := Array.length_toList ▸ (List.getElem?_eq_some_iff.mp hi).1
        exact ⟨_, hself, fun _ he => Option.some.inj he ▸ hsize⟩
      · exact ⟨place, (hother target hi').trans hplace, hlt⟩
    · intro i target created' hi
      by_cases hi' : label = i
      · subst hi'
        cases hself.symm.trans hi
        exact Nat.lt_add_of_pos_right (Nat.succ_pos slack)
      · exact Nat.lt_succ_of_lt (hs.places i target created' ((hother i hi').symm.trans hi))
  · cases ha

theorem freshSlot_onward {name : String} : Onward (freshSlot name line) := by
  intro s a t h
  cases h
  exact ⟨Nat.le_refl _, fun _ _ ho => ho, fun _ hs => ⟨hs.jumps, hs.places, hs.units⟩⟩

theorem inOwnUnit_onward {build : Emitter Unit} (hb : Onward build) {code : Code}
    (h : (inOwnUnit build).run s = .ok (code, t)) : s.Onward t ∧ code.EveryUnit Code.Forward := by
  obtain ⟨r, hr, hf, rfl⟩ := inOwnUnit_eq_ok h
  have hsame : ∀ slack, s.Forward slack → Emitting.Forward slack { r with unit := s.unit } :=
    fun _ hs => ⟨hs.jumps, hs.places, hs.units⟩
  exact ⟨⟨Nat.le_refl _, fun _ _ ho => ho, hsame⟩, ((hb _ _ r hr).forward 0 .empty).finish hf⟩

theorem storeName_onward {publishAt : Option (List String)} {id : Nat} {name : String} :
    Onward (storeName links publishAt id name line) := by
  unfold storeName
  cases links.get? id with
  | none => exact .reject
  | some slot =>
    cases publishAt with
    | none => exact emit_onward rfl nofun
    | some path =>
      exact .bind (emit_onward rfl nofun) fun _ => .bind (emit_onward rfl nofun) fun _ =>
        emit_onward rfl nofun

mutual

theorem storePattern_onward {publishAt : Option (List String)} (p : Pattern) (line : Nat) :
    Onward (storePattern links publishAt p line) := by
  match p with
  | .wildcard | .literal _ _ => exact emit_onward rfl nofun
  | .name id name nameLine => exact storeName_onward
  | .list items => exact storeItems_onward items line
  | .type q params => exact .bind (emit_onward rfl nofun) fun _ => storePatterns_onward params q.line

theorem storeItems_onward {publishAt : Option (List String)} (ps : List Pattern) (line : Nat) :
    Onward (storeItems links publishAt ps line) := by
  match ps with
  | [] => exact emit_onward rfl nofun
  | p :: ps =>
    exact .bind (emit_onward rfl nofun) fun _ => .bind (storePattern_onward p line) fun _ =>
      storeItems_onward ps line

theorem storePatterns_onward {publishAt : Option (List String)} (ps : List Pattern) (line : Nat) :
    Onward (storePatterns links publishAt ps line) := by
  match ps with
  | [] => exact .pure
  | p :: ps => exact .bind (storePattern_onward p line) fun _ => storePatterns_onward ps line

end

theorem emitCons_onward : Onward (emitCons line) :=
  .bind (emit_onward rfl nofun) fun _ => emit_onward rfl nofun

theorem armLabels_onward (arms : List Arm) {labels : List Nat} {s t : Emitting}
    (h : (armLabels arms).run s = .ok (labels, t)) :
    s.Onward t ∧ s.unit.labels <+: t.unit.labels ∧ ∀ label ∈ labels, t.Open label := by
  induction arms generalizing s labels with
  | nil =>
    obtain ⟨rfl, rfl⟩ := pure_eq_ok h
    exact ⟨.refl _, List.prefix_refl _, nofun⟩
  | cons a as ih =>
    obtain ⟨label, r, hr, h⟩ := bind_eq_ok h
    obtain ⟨rest, r', hr', h⟩ := bind_eq_ok h
    obtain ⟨rfl, rfl⟩ := pure_eq_ok h
    obtain ⟨hon, hprefix, hopen⟩ := freshLabel_onward hr
    obtain ⟨hon', hprefix', hopen'⟩ := ih hr'
    exact ⟨hon.trans hon', hprefix.trans hprefix', List.forall_mem_cons.mpr ⟨hopen.append hprefix', hopen'⟩⟩

/-- The tests of a choice lead to labels that wait. -/
theorem emitTests_onward (arms : List Arm) {labels : List Nat} {s t : Emitting}
    (h : (emitTests arms labels).run s = .ok ((), t)) (hl : ∀ label ∈ labels, s.Open label) :
    s.Onward t := by
  induction arms generalizing s labels with
  | nil =>
    obtain ⟨-, rfl⟩ := pure_eq_ok h
    exact .refl _
  | cons a as ih =>
    cases labels with
    | nil =>
      obtain ⟨-, rfl⟩ := pure_eq_ok h
      exact .refl _
    | cons label labels =>
      obtain ⟨hlabel, hl⟩ := List.forall_mem_cons.mp hl
      obtain ⟨_, r, hr, h⟩ := bind_eq_ok h
      obtain ⟨_, r', hr', h⟩ := bind_eq_ok h
      have hdup : Onward (emit a.line .duplicate) := emit_onward rfl nofun
      have hon := hdup s () r hr
      cases hr
      have hjump := emit_onward_of hr' (fun i hi => Option.some.inj hi ▸ hlabel) nofun
      cases hr'
      exact (hon.trans hjump).trans (ih h hl)

theorem emitItems_onward (slots : List Slot) : Onward (emitItems line slots) := by
  induction slots with
  | nil => exact .pure
  | cons slot slots ih =>
    exact .bind ih fun _ => .bind (emit_onward rfl nofun) fun _ => emitCons_onward

theorem lowerLiteral_onward {value : Literal} : Onward (lowerLiteral value line) := by
  cases value <;> exact emit_onward rfl nofun

theorem lowerName_onward {q : QName} : Onward (lowerName links q) := by
  unfold lowerName QName.op
  cases links.get? q.id with
  | none => exact emit_onward rfl nofun
  | some slot => exact emit_onward rfl nofun

mutual

theorem lowerExpr_onward (e : Expr) (allowTail : Bool) : Onward (lowerExpr links e allowTail) := by
  match e with
  | .call callee args line =>
    unfold lowerExpr
    split
    · split
      · rename_i scrutinee cases caseLine
        refine .bind .lift fun arms => .bind (lowerExpr_onward scrutinee false) fun _ => ?_
        intro s a t h
        obtain ⟨done, s₁, h₁, h⟩ := bind_eq_ok h
        obtain ⟨labels, s₂, h₂, h⟩ := bind_eq_ok h
        obtain ⟨_, s₃, h₃, h⟩ := bind_eq_ok h
        obtain ⟨_, s₄, h₄, h⟩ := bind_eq_ok h
        obtain ⟨_, s₅, h₅, h⟩ := bind_eq_ok h
        obtain ⟨_, s₆, h₆, h⟩ := bind_eq_ok h
        obtain ⟨hdone, _, hopen⟩ := freshLabel_onward h₁
        obtain ⟨hlabels, hprefix, hopens⟩ := armLabels_onward arms h₂
        have htests := emitTests_onward arms h₃ hopens
        have hfail : Onward (emit line (.fail noMatch)) := emit_onward rfl nofun
        have hbefore := hlabels.trans (htests.trans (hfail _ _ _ h₄))
        -- the end of the choice is attached after the arms, so it waits as long as they are emitted
        obtain ⟨hend, hlength, hopened, hattach⟩ := attach_onward h₆
        have harms := lowerArms_onward cases labels done allowTail h₅
          (Nat.lt_of_lt_of_le hopen.lt hbefore.length_le) hend
        have hall := hdone.trans (hbefore.trans harms)
        have hlabel : ∀ label, Op.label? .nothing = some label → s₆.Open label := nofun
        have hunit : ∀ code arity, Op.nothing = .loadFunction code arity → code.EveryUnit Code.Forward := nofun
        cases h
        exact ⟨hlength ▸ hall.length_le, fun i hi ho => hall.opened i hi (hopened i ho),
          fun slack hs => (hattach slack (hall.forward slack hs)).emit hlabel hunit⟩
      · exact .reject
      · exact .reject
    · refine .bind (lowerArgs_onward args) fun _ => ?_
      split
      · exact .ite (emit_onward rfl nofun) .reject
      · exact .bind (lowerExpr_onward callee false) fun _ => emit_onward rfl nofun
  | .function params body line =>
    unfold lowerExpr
    intro s a t h
    obtain ⟨code, r, hr, h⟩ := bind_eq_ok h
    obtain ⟨hon, hcode⟩ := inOwnUnit_onward
      (.bind (storePatterns_onward params line) fun _ => lowerBlock_onward body true) hr
    refine hon.trans (emit_onward_of h nofun fun d arity he => ?_)
    cases he
    exact hcode
  | .list elements line =>
    unfold lowerExpr
    refine .ite (.bind (emit_onward rfl nofun) fun _ => lowerPure_onward elements line) ?_
    exact .bind (lowerItems_onward elements line) fun slots => .bind (emit_onward rfl nofun) fun _ =>
      emitItems_onward slots
  | .literal value line =>
    unfold lowerExpr
    exact lowerLiteral_onward
  | .name q =>
    unfold lowerExpr
    exact lowerName_onward
  | .self line =>
    unfold lowerExpr
    exact .reject

theorem lowerArgs_onward (es : List Expr) : Onward (lowerArgs links es) := by
  match es with
  | [] => exact .pure
  | e :: es => exact .bind (lowerArgs_onward es) fun _ => lowerExpr_onward e false

theorem lowerPure_onward (bs : List Block) (line : Nat) : Onward (lowerPure links bs line) := by
  match bs with
  | [] => exact .pure
  | b :: bs =>
    exact .bind (lowerPure_onward bs line) fun _ => .bind (lowerBlock_onward b false) fun _ =>
      emitCons_onward

theorem lowerItems_onward (bs : List Block) (line : Nat) : Onward (lowerItems links bs line) := by
  match bs with
  | [] => exact .pure
  | b :: bs =>
    exact .bind (lowerBlock_onward b false) fun _ => .bind freshSlot_onward fun slot =>
      .bind (emit_onward rfl nofun) fun _ => .bind (lowerItems_onward bs line) fun _ => .pure

/-- The arms of a choice, of which the end waits until they are done. -/
theorem lowerArms_onward (cases : List Block) (labels : List Nat) (done : Nat) (allowTail : Bool)
    {s t : Emitting} (h : (lowerArms links cases labels done allowTail).run s = .ok ((), t))
    (hlt : done < s.unit.labels.length) (hdone : t.Open done) : s.Onward t := by
  unfold lowerArms at h
  split at h
  · rename_i pattern body line cases label labels
    obtain ⟨_, s₁, h₁, h⟩ := bind_eq_ok h
    obtain ⟨_, s₂, h₂, h⟩ := bind_eq_ok h
    obtain ⟨_, s₃, h₃, h⟩ := bind_eq_ok h
    obtain ⟨_, s₄, h₄, h⟩ := bind_eq_ok h
    obtain ⟨_, hlength, hopened, hattach⟩ := attach_onward h₁
    have hbody := (storePattern_onward pattern line _ _ _ h₂).trans
      (lowerBlock_onward body allowTail _ _ _ h₃)
    have hle : s.unit.labels.length ≤ s₃.unit.labels.length := hlength ▸ hbody.length_le
    have hlabels : s₄.unit.labels = s₃.unit.labels := by
      cases h₄
      rfl
    have hrest : s₄.Onward t := lowerArms_onward cases labels done allowTail h
      (hlabels ▸ Nat.lt_of_lt_of_le hlt hle) hdone
    have hopen : s₃.Open done := by
      have ho := hrest.opened done (hlabels ▸ Nat.lt_of_lt_of_le hlt hle) hdone
      rwa [Emitting.Open, hlabels] at ho
    refine .trans ⟨?_, fun i hi ho => ?_, fun slack hs => ?_⟩ hrest
    · rw [hlabels]
      exact hle
    · rw [Emitting.Open, hlabels] at ho
      exact hopened i (hbody.opened i (hlength ▸ hi) ho)
    · cases h₄
      exact (hbody.forward _ (hattach slack hs)).emit (fun i hi => Option.some.inj hi ▸ hopen) nofun
  · obtain ⟨-, rfl⟩ := pure_eq_ok h
    exact .refl _

theorem lowerBlock_onward (b : Block) (allowTail : Bool) : Onward (lowerBlock links b allowTail) := by
  match b with
  | .result e => exact lowerExpr_onward e allowTail
  | .bind p value _ rest =>
    exact .bind (lowerBlock_onward value false) fun _ => .bind (storePattern_onward p value.value.line) fun _ =>
      lowerBlock_onward rest allowTail

end

theorem lowerType_onward {path : List String} {name : QName} {isPublic : Bool} {cases : List CaseDecl} :
    Onward (lowerType path name isPublic cases) := by
  unfold lowerType
  cases name.parts.getLast? with
  | none => exact .pure
  | some last =>
    simp only
    split
    · exact emit_onward rfl nofun
    · exact .bind (emit_onward rfl nofun) fun _ => emit_onward rfl nofun

mutual

theorem lowerDecls_onward {publishRoot : Bool} {path : List String} (ds : List Decl) :
    Onward (lowerDecls links publishRoot path ds) := by
  match ds with
  | [] => exact .pure
  | d :: ds => exact .bind (lowerDecl_onward d) fun _ => lowerDecls_onward ds

theorem lowerDecl_onward {publishRoot : Bool} {path : List String} (d : Decl) :
    Onward (lowerDecl links publishRoot path d) := by
  match d with
  | .space ns => exact lowerNamespace_onward ns
  | .type name isPublic cases none => exact .bind lowerType_onward fun _ => .pure
  | .type name isPublic cases (some ns) =>
    exact .bind lowerType_onward fun _ => .ite .pure (lowerNamespace_onward ns)
  | .binding p value isPublic =>
    exact .bind (lowerBlock_onward value false) fun _ => storePattern_onward p value.value.line

theorem lowerNamespace_onward {publishRoot : Bool} {path : List String} (ns : NamespaceDecl) :
    Onward (lowerNamespace links publishRoot path ns) := by
  match ns with
  | .mk name isPublic decls => exact .bind (emit_onward rfl nofun) fun _ => lowerDecls_onward decls

end

theorem lowerImport_onward (i : Import) : Onward (lowerImport i) := by
  have hentries : ∀ names : List QName, Onward
      (names.forM fun q => emit i.line (.importEntry i.file q.parts)) := by
    intro names
    induction names with
    | nil => exact .pure
    | cons q names ih => exact .bind (emit_onward rfl nofun) fun _ => ih
  exact .ite (emit_onward rfl nofun) (hentries i.names)

theorem lowerProgram_onward {publishRoot : Bool} (p : Program) :
    Onward (lowerProgram links publishRoot p) := by
  have himports : ∀ is : List Import, Onward (is.forM lowerImport) := by
    intro is
    induction is with
    | nil => exact .pure
    | cons i is ih => exact .bind (lowerImport_onward i) fun _ => ih
  refine .bind (himports p.imports) fun _ => .bind (lowerDecls_onward _) fun _ => ?_
  cases p.trailing with
  | none => exact .pure
  | some c => exact lowerExpr_onward _ _

/-- In the code of a program and of all functions in it, jumps go forward. -/
theorem compile_forward {p : Program} {publishRoot : Bool} {n next : Nat} {c : Code}
    (h : p.compile publishRoot n = .ok (c, next)) : c.EveryUnit Code.Forward := by
  unfold Program.compile at h
  obtain ⟨⟨_, t⟩, hlow, h⟩ := Except.bind_eq_ok h
  obtain ⟨unit, hf, h⟩ := Except.bind_eq_ok h
  cases h
  exact ((lowerProgram_onward p _ _ t hlow).forward 0 .empty).finish hf

end

end MatchLang
