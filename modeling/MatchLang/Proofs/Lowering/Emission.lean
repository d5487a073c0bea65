import Mathlib.Data.List.Infix
import MatchLang.Lowering.Program

/-! What an emitter does to the unit at hand: instructions are only appended, a label that stands
somewhere stays there, and slots are only used up. A finished unit is read from the place where an
emitter stands. -/

namespace MatchLang

theorem Except.bind_eq_ok {ε α β : Type} {x : Except ε α} {f : α → Except ε β} {b : β}
    (h : x >>= f = .ok b) : ∃ a, x = .ok a ∧ f a = .ok b := by
  cases x with
  | error e => cases h
  | ok a => exact ⟨a, rfl, h⟩

theorem Emitter.bind_eq_ok {x : Emitter α} {f : α → Emitter β} {s t : Emitting} {b : β}
    (h : (x >>= f).run s = .ok (b, t)) : ∃ a r, x.run s = .ok (a, r) ∧ (f a).run r = .ok (b, t) := by
  rw [StateT.run_bind] at h
  obtain ⟨⟨a, r⟩, hx, hf⟩ := Except.bind_eq_ok h
  exact ⟨a, r, hx, hf⟩

theorem Emitter.pure_eq_ok {a b : α} {s t : Emitting}
    (h : (pure a : Emitter α).run s = .ok (b, t)) : b = a ∧ t = s := by
  cases h
  exact ⟨rfl, rfl⟩

theorem Emitter.lift_eq_ok {x : Except CompileError α} {a : α} {s t : Emitting}
    (h : (liftM x : Emitter α).run s = .ok (a, t)) : x = .ok a ∧ t = s := by
  cases x with
  | error e => cases h
  | ok b => cases h; exact ⟨rfl, rfl⟩

theorem Emitter.reject_ne_ok {failure : CompileFailure} {line : Nat} {s t : Emitting} {a : α} :
    ¬ (reject failure line : Emitter α).run s = .ok (a, t) := nofun

namespace Emitting

/-- Nothing an emitter has done so far is undone. -/
structure Grows (s t : Emitting) : Prop where
  instrs : s.unit.instrs.toList <+: t.unit.instrs.toList
  labels : ∀ i target line : Nat, s.unit.labels[i]? = some ⟨some target, line⟩ →
    t.unit.labels[i]? = some ⟨some target, line⟩
  slots : s.nextSlot ≤ t.nextSlot

/-- A unit that begins with what an emitter has built, and in which its labels stand where they stand
now. -/
structure Within (s : Emitting) (c : Code) : Prop where
  instrs : s.unit.instrs.toList <+: c.instrs
  labels : ∀ i target line : Nat, s.unit.labels[i]? = some ⟨some target, line⟩ →
    c.targets[i]? = some target

/-- The instructions of a unit from where an emitter stands. -/
def after (s : Emitting) (c : Code) : List Instr :=
  c.instrs.drop s.unit.instrs.size

theorem Grows.refl (s : Emitting) : s.Grows s :=
  ⟨List.prefix_refl _, fun _ _ _ h => h, le_refl _⟩

theorem Grows.trans {s t r : Emitting} (h : s.Grows t) (k : t.Grows r) : s.Grows r :=
  ⟨h.instrs.trans k.instrs, fun i p l hi => k.labels i p l (h.labels i p l hi),
    h.slots.trans k.slots⟩

theorem Within.of_grows {s t : Emitting} {c : Code} (h : t.Within c) (k : s.Grows t) :
    s.Within c :=
  ⟨k.instrs.trans h.instrs, fun i p l hi => h.labels i p l (k.labels i p l hi)⟩

/-- The further an emitter has come, the less is left. -/
theorem Grows.length_after_le {s t : Emitting} (h : s.Grows t) (c : Code) :
    (t.after c).length ≤ (s.after c).length := by
  have hs : s.unit.instrs.size ≤ t.unit.instrs.size := h.instrs.length_le
  rw [after, after, List.length_drop, List.length_drop]
  omega

end Emitting

theorem grows_emit (s : Emitting) (line : Nat) (op : Op) :
    s.Grows { s with unit := s.unit.emit line op } :=
  ⟨by rw [Builder.instrs_emit]; exact List.prefix_append _ _, fun _ _ _ h => h, le_refl _⟩

theorem after_emit {s : Emitting} {line : Nat} {op : Op} {c : Code}
    (h : Emitting.Within { s with unit := s.unit.emit line op } c) :
    s.after c = .mk line op :: Emitting.after { s with unit := s.unit.emit line op } c := by
  obtain ⟨rest, hr⟩ := h.instrs
  rw [Builder.instrs_emit] at hr
  have hc : c.instrs = s.unit.instrs.toList ++ .mk line op :: rest := by simp [← hr]
  have hs : (s.unit.emit line op).instrs.size = s.unit.instrs.toList.length + 1 := by
    simp [Builder.emit]
  simp only [Emitting.after, hc, hs, ← Array.length_toList, List.drop_left, List.drop_length_add_append,
    List.drop_succ_cons, List.drop_zero]

/-- One instruction appended. -/
theorem emit_eq_ok {line : Nat} {op : Op} {s t : Emitting} (h : (emit line op).run s = .ok ((), t)) :
    s.Grows t ∧ t.nextSlot = s.nextSlot ∧
      ∀ {c : Code}, t.Within c → s.after c = .mk line op :: t.after c := by
  cases h
  exact ⟨grows_emit s line op, rfl, fun hc => after_emit hc⟩

/-- A new label changes nothing that stands. -/
theorem freshLabel_eq_ok {line label : Nat} {s t : Emitting}
    (h : (freshLabel line).run s = .ok (label, t)) :
    s.Grows t ∧ t.nextSlot = s.nextSlot ∧ ∀ c : Code, s.after c = t.after c := by
  cases h
  refine ⟨⟨List.prefix_refl _, fun i p l hi => ?_, le_refl _⟩, rfl, fun _ => rfl⟩
  have hlt : i < s.unit.labels.length := (List.getElem?_eq_some_iff.mp hi).1
  simpa only [Builder.freshLabel, List.getElem?_append_left hlt] using hi

/-- A label that has been attached leads to the next instruction. -/
theorem attach_eq_ok {label line : Nat} {s t : Emitting}
    (h : (attach label line).run s = .ok ((), t)) :
    s.Grows t ∧ t.nextSlot = s.nextSlot ∧ (∀ c : Code, s.after c = t.after c) ∧
      ∀ {c : Code}, t.Within c → c.from? label = some (t.after c) := by
  obtain ⟨r, r', hget, h⟩ := Emitter.bind_eq_ok h
  cases hget
  obtain ⟨unit, r'', ha, h⟩ := Emitter.bind_eq_ok h
  cases h
  obtain ⟨ha, rfl⟩ := Emitter.lift_eq_ok ha
  have hi := Builder.instrs_attach ha
  unfold Builder.attach at ha
  split at ha
  · rename_i created hl
    have hlt : label < r''.unit.labels.length := (List.getElem?_eq_some_iff.mp hl).1
    cases ha
    refine ⟨⟨List.prefix_refl _, fun i p l hip => ?_, le_refl _⟩, rfl, fun _ => rfl, fun hc => ?_⟩
    · by_cases he : label = i
      · subst i
        rw [hl] at hip
        cases hip
      · simpa only [List.getElem?_set_ne he] using hip
    · have hp := hc.labels label r''.unit.instrs.size created (by simp [hlt])
      simp only [Code.from?, hp, Option.map_some, Emitting.after]
  · cases ha

theorem freshSlot_eq_ok {name : String} {line : Nat} {slot : Slot} {s t : Emitting}
    (h : (freshSlot name line).run s = .ok (slot, t)) :
    s.Grows t ∧ slot = { id := s.nextSlot, name, line } ∧ t.nextSlot = s.nextSlot + 1 ∧
      ∀ c : Code, s.after c = t.after c := by
  cases h
  exact ⟨⟨List.prefix_refl _, fun _ _ _ h => h, Nat.le_succ _⟩, rfl, rfl, fun _ => rfl⟩

theorem targetsFrom_get {index : Nat} {ls : List LabelPlace} {ts : List Nat}
    (h : Builder.targetsFrom index ls = .ok ts) :
    ∀ i target line : Nat, ls[i]? = some ⟨some target, line⟩ → ts[i]? = some target := by
  induction ls generalizing index ts with
  | nil => intro i target line hi; simp at hi
  | cons p ls ih =>
    obtain ⟨place, created⟩ := p
    cases place with
    | none => simp [Builder.targetsFrom] at h
    | some first =>
      cases hr : Builder.targetsFrom (index + 1) ls with
      | error e => simp [Builder.targetsFrom, hr, Except.map] at h
      | ok rest =>
        simp only [Builder.targetsFrom, hr, Except.map, Except.ok.injEq] at h
        subst h
        intro i target line hi
        cases i with
        | zero => simp at hi; simp [hi.1]
        | succ i => simpa using ih hr i target line (by simpa using hi)

/-- A finished unit holds all that has been built, and nothing more. -/
theorem finish_eq_ok {s : Emitting} {c : Code} (h : s.unit.finish = .ok c) :
    s.Within c ∧ c.instrs = s.unit.instrs.toList ∧ s.after c = [] := by
  cases ht : Builder.targetsFrom 0 s.unit.labels with
  | error e => simp [Builder.finish, ht, Except.map] at h
  | ok ts =>
    simp only [Builder.finish, ht, Except.map, Except.ok.injEq] at h
    subst h
    exact ⟨⟨List.prefix_refl _, targetsFrom_get ht⟩, rfl, by
      simp [Emitting.after, Code.instrs]⟩

theorem inOwnUnit_eq_ok {build : Emitter Unit} {code : Code} {s t : Emitting}
    (h : (inOwnUnit build).run s = .ok (code, t)) :
    ∃ r, build.run { s with unit := .empty } = .ok ((), r) ∧ r.unit.finish = .ok code ∧
      t = { r with unit := s.unit } := by
  obtain ⟨_, _, hget, h⟩ := Emitter.bind_eq_ok h
  cases hget
  obtain ⟨_, _, hmod, h⟩ := Emitter.bind_eq_ok h
  cases hmod
  obtain ⟨_, r, hb, h⟩ := Emitter.bind_eq_ok h
  obtain ⟨_, _, hget, h⟩ := Emitter.bind_eq_ok h
  cases hget
  obtain ⟨c, r', hf, h⟩ := Emitter.bind_eq_ok h
  obtain ⟨_, _, hmod, h⟩ := Emitter.bind_eq_ok h
  cases hmod
  cases h
  obtain ⟨hf, rfl⟩ := Emitter.lift_eq_ok hf
  exact ⟨_, hb, hf, rfl⟩

end MatchLang
