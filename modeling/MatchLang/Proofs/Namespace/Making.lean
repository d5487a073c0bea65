import MatchLang.Proofs.Namespace.Growth

/-! Making the namespaces of a path. They are made one after another, and a public one is refused where it
would come under a private one. One that has just been made is as public as the next ones are to be, so a
refusal comes before anything is made, and leaves the tree as it was. -/

namespace MatchLang

/-- A public namespace is asked for at a path, and one that stands before its end is private. -/
def Namespace.Refuses (ns : Namespace) (path : List String) (isPublic : Bool) : Prop :=
  isPublic = true ∧ ∃ q c, q <+: path ∧ q ≠ path ∧ ns.at? q = some c ∧ c.isPublic = false

/-- The missing namespaces of a path are there, with the visibility that was asked for, and nothing else has
changed. -/
structure Namespace.Makes (ns : Namespace) (path : List String) (isPublic : Bool)
    (after : Namespace) : Prop where
  spaces : ∀ q, (after.at? q).isSome ↔ (ns.at? q).isSome ∨ q <+: path
  new : ∀ q c, ns.at? q = none → after.at? q = some c → c.isPublic = isPublic
  kept : ∀ q c, ns.at? q = some c → ∃ d, after.at? q = some d ∧ d.isPublic = c.isPublic
  value : ∀ q n, after.valueAt? q n = ns.valueAt? q n
  type : ∀ q n, after.typeAt? q n = ns.typeAt? q n

namespace Namespace

section

variable {ns c d after : Namespace} {path whole q : List String} {name : String} {isPublic : Bool}
  {fault : Option Fault}

theorem setChild_eq_self (h : ns.child? name = some c) : ns.setChild name c = ns := by
  obtain ⟨isPublic, values, types, children⟩ := ns
  have hs : Table.set children name c = children := Table.set_eq_self h
  show mk isPublic values types (Table.set children name c) = _
  rw [hs]

/-- A namespace that is made is as public as the next ones are to be, and refuses none of them. -/
theorem not_refuses_empty : ¬ (empty isPublic).Refuses path isPublic := by
  rintro ⟨hi, q, c, -, -, hc, hp⟩
  obtain ⟨-, rfl⟩ := at?_empty hc
  cases hi.symm.trans hp

theorem Refuses.of_childOr (h : (ns.childOr name isPublic).Refuses path isPublic) :
    ∃ d, ns.child? name = some d ∧ d.Refuses path isPublic := by
  cases hd : ns.child? name with
  | some d => exact ⟨d, rfl, childOr_of_some hd ▸ h⟩
  | none =>
    rw [childOr_of_none hd] at h
    exact absurd h not_refuses_empty

theorem refuses_cons : ns.Refuses (name :: path) isPublic ↔
    (isPublic = true ∧ ns.isPublic = false) ∨ (ns.childOr name isPublic).Refuses path isPublic := by
  constructor
  · rintro ⟨hi, q, c, hq, hne, hc, hp⟩
    cases q with
    | nil =>
      cases hc
      exact .inl ⟨hi, hp⟩
    | cons m q =>
      obtain ⟨rfl, hrest⟩ := List.cons_prefix_cons.mp hq
      obtain ⟨d, hd, hc⟩ := Option.bind_eq_some_iff.mp hc
      refine .inr ⟨hi, q, c, hrest, fun h => hne (h ▸ rfl), ?_, hp⟩
      rw [childOr_of_some hd]
      exact hc
  · rintro (⟨hi, hp⟩ | h)
    · exact ⟨hi, [], ns, List.nil_prefix, nofun, rfl, hp⟩
    · obtain ⟨d, hd, hi, q, c, hq, hne, hc, hp⟩ := h.of_childOr
      refine ⟨hi, name :: q, c, List.cons_prefix_cons.mpr ⟨rfl, hq⟩,
        fun h => hne (List.cons.inj h).2, ?_, hp⟩
      rw [at?_cons, hd]
      exact hc

theorem makeWithin_private (hi : isPublic = true) (hp : ns.isPublic = false) :
    ns.makeWithin whole isPublic (name :: path) = (ns, some (.publicUnderPrivate (dotted whole))) := by
  rw [makeWithin, hi, hp]
  rfl

theorem makeWithin_cons (h : ¬ (isPublic = true ∧ ns.isPublic = false))
    (hc : (ns.childOr name isPublic).makeWithin whole isPublic path = (c, fault)) :
    ns.makeWithin whole isPublic (name :: path) = (ns.setChild name c, fault) := by
  have hv : (isPublic && !ns.isPublic) = false := by simpa using h
  rw [makeWithin, hv, hc]
  rfl

/-- A refusal leaves nothing behind. -/
theorem makeWithin_refused (h : ns.Refuses path isPublic) :
    ns.makeWithin whole isPublic path = (ns, some (.publicUnderPrivate (dotted whole))) := by
  induction path generalizing ns with
  | nil =>
    obtain ⟨-, q, _, hq, hne, -⟩ := h
    exact absurd (List.prefix_nil.mp hq) hne
  | cons name path ih =>
    by_cases hv : isPublic = true ∧ ns.isPublic = false
    · exact makeWithin_private hv.1 hv.2
    · have hr : (ns.childOr name isPublic).Refuses path isPublic := (refuses_cons.mp h).resolve_left hv
      -- The child was there before, since a new one refuses nothing.
      obtain ⟨d, hd, -⟩ := hr.of_childOr
      rw [makeWithin_cons hv (ih hr), childOr_of_some hd, setChild_eq_self hd]

theorem Makes.refl (ns : Namespace) (isPublic : Bool) : ns.Makes [] isPublic ns where
  spaces q := by
    refine ⟨.inl, fun h => h.elim id fun hq => ?_⟩
    rw [List.prefix_nil.mp hq]
    rfl
  new q c hn hc := by
    rw [hn] at hc
    cases hc
  kept q c hc := ⟨c, hc, rfl⟩
  value q n := rfl
  type q n := rfl

/-- What the new child finds is what the namespace finds below the name. -/
theorem setChild_look {look : Namespace → Option α} (he : ∀ isPublic, look (empty isPublic) = none)
    (hs : ∀ ns : Namespace, look (ns.setChild name c) = look ns)
    (hc : ∀ q, (c.at? q).bind look = ((ns.childOr name isPublic).at? q).bind look) :
    ((ns.setChild name c).at? q).bind look = (ns.at? q).bind look := by
  cases q with
  | nil => exact hs ns
  | cons m q =>
    rw [at?_setChild]
    by_cases hm : m = name
    · rw [if_pos hm, hc, childOr_look he, hm]
    · rw [if_neg hm]

theorem Makes.cons (h : (ns.childOr name isPublic).Makes path isPublic c) :
    ns.Makes (name :: path) isPublic (ns.setChild name c) where
  spaces q := by
    cases q with
    | nil => exact iff_of_true rfl (.inl rfl)
    | cons m q =>
      rw [List.cons_prefix_cons, at?_setChild]
      by_cases hm : m = name
      · subst hm
        have hnil : q = [] → q <+: path := fun hq => hq ▸ List.nil_prefix
        rw [if_pos rfl, h.spaces, childOr_isSome]
        constructor
        · rintro ((hq | hs) | hq)
          · exact .inr ⟨rfl, hnil hq⟩
          · exact .inl hs
          · exact .inr ⟨rfl, hq⟩
        · rintro (hs | ⟨-, hq⟩)
          · exact .inl (.inr hs)
          · exact .inr hq
      · rw [if_neg hm]
        exact ⟨.inl, fun hs => hs.elim id fun hq => absurd hq.1 hm⟩
  new q d hn hd := by
    cases q with
    | nil => cases hn
    | cons m q =>
      rw [at?_setChild] at hd
      by_cases hm : m = name
      · subst hm
        rw [if_pos rfl] at hd
        cases hq : (ns.childOr m isPublic).at? q with
        | none => exact h.new q d hq hd
        | some e =>
          obtain ⟨d', hd', hv⟩ := h.kept q e hq
          obtain rfl : d' = d := Option.some.inj (hd'.symm.trans hd)
          rw [hv, childOr_new hn hq]
          rfl
      · rw [if_neg hm] at hd
        cases hn.symm.trans hd
  kept q d hd := by
    cases q with
    | nil =>
      cases hd
      exact ⟨_, rfl, rfl⟩
    | cons m q =>
      rw [at?_setChild]
      by_cases hm : m = name
      · subst hm
        obtain ⟨b, hb, hd⟩ := Option.bind_eq_some_iff.mp hd
        rw [if_pos rfl]
        exact h.kept q d (childOr_of_some hb ▸ hd)
      · rw [if_neg hm]
        exact ⟨d, hd, rfl⟩
  value q n := setChild_look (fun _ => rfl) (fun _ => rfl) (h.value · n)
  type q n := setChild_look (fun _ => rfl) (fun _ => rfl) (h.type · n)

/-- What is not refused is made. -/
theorem makeWithin_makes (h : ¬ ns.Refuses path isPublic) :
    ∃ after, ns.makeWithin whole isPublic path = (after, none) ∧ ns.Makes path isPublic after := by
  induction path generalizing ns with
  | nil => exact ⟨ns, rfl, .refl ns isPublic⟩
  | cons name path ih =>
    rw [refuses_cons, not_or] at h
    obtain ⟨c, hc, hm⟩ := ih h.2
    exact ⟨_, makeWithin_cons h.1 hc, hm.cons⟩

/-- Where all is there already, nothing is made. -/
theorem makeWithin_again (h : ¬ ns.Refuses path isPublic) (hp : (ns.at? path).isSome) :
    ns.makeWithin whole isPublic path = (ns, none) := by
  induction path generalizing ns with
  | nil => rfl
  | cons name path ih =>
    rw [refuses_cons, not_or] at h
    rw [at?_cons] at hp
    cases hd : ns.child? name with
    | none => simp [hd] at hp
    | some d =>
      have hc : ns.childOr name isPublic = d := childOr_of_some hd
      rw [hd, Option.bind_some] at hp
      have hw : (ns.childOr name isPublic).makeWithin whole isPublic path = (d, none) := by
        rw [hc] at h ⊢
        exact ih h.2 hp
      rw [makeWithin_cons h.1 hw, setChild_eq_self hd]

/-- The namespaces on the way to one that has been made are as public as the making asked for, so the path
is not refused afterwards. -/
theorem Makes.not_refuses (h : ns.Makes path isPublic after) (hr : ¬ ns.Refuses path isPublic) :
    ¬ after.Refuses path isPublic := by
  rintro ⟨hi, q, c, hq, hne, hc, hp⟩
  cases hd : ns.at? q with
  | none =>
    have hv : c.isPublic = isPublic := h.new q c hd hc
    rw [hi, hp] at hv
    cases hv
  | some d =>
    obtain ⟨c', hc', hv⟩ := h.kept q d hd
    obtain rfl : c' = c := Option.some.inj (hc'.symm.trans hc)
    exact hr ⟨hi, q, d, hq, hne, hd, hv.symm.trans hp⟩

theorem refuses_of_fault {f : Fault} (h : ns.makeWithin whole isPublic path = (after, some f)) :
    ns.Refuses path isPublic := by
  by_cases hr : ns.Refuses path isPublic
  · exact hr
  · obtain ⟨_, he, -⟩ : ∃ made, ns.makeWithin whole isPublic path = (made, none) ∧ _ :=
      makeWithin_makes hr
    cases h.symm.trans he

theorem makeWithin_eq : ns.makeWithin whole isPublic path =
    match ns.make? isPublic path with
    | some after => (after, none)
    | none => (ns, some (.publicUnderPrivate (dotted whole))) := by
  induction path generalizing ns with
  | nil => rfl
  | cons name path ih =>
    by_cases hv : isPublic = true ∧ ns.isPublic = false
    · rw [makeWithin_private hv.1 hv.2, make?, hv.1, hv.2]
      rfl
    · have hp : (isPublic && !ns.isPublic) = false := by simpa using hv
      rw [make?, hp, if_neg Bool.false_ne_true]
      cases hm : (ns.childOr name isPublic).make? isPublic path with
      | some c =>
        have hw : (ns.childOr name isPublic).makeWithin whole isPublic path = (c, none) := by
          rw [ih, hm]
        exact makeWithin_cons hv hw
      | none =>
        have hw : (ns.childOr name isPublic).makeWithin whole isPublic path =
            (ns.childOr name isPublic, some (.publicUnderPrivate (dotted whole))) := by
          rw [ih, hm]
        exact makeWithin_refused (refuses_cons.mpr (.inr (refuses_of_fault hw)))

/-- Namespaces are made all or none, so it makes no difference that they are made one after another. -/
theorem makeAlong_eq : ns.makeAlong path isPublic =
    match ns.make path isPublic with
    | .ok after => (after, none)
    | .error f => (ns, some f) := by
  unfold makeAlong make
  rw [makeWithin_eq]
  cases ns.make? isPublic path <;> rfl

end

end Namespace

/-- A machine that makes namespaces changes its root to one that has them, or not at all. -/
theorem Machine.makeNamespace_eq {m : Machine} {path : List String} {isPublic : Bool} :
    m.makeNamespace path isPublic = m.declare fun ns => ns.make path isPublic := by
  unfold makeNamespace declare
  simp only [Namespace.makeAlong_eq]
  cases (m.store.root m.task.root).make path isPublic with
  | ok ns => rfl
  | error f =>
    simp only [updateStore, Store.setRoot_root]

namespace Namespace

/-- The namespaces of a path are refused exactly if a public one would come under a private one that is there, and
the tree is then as it was. Otherwise those that are missing are made, nothing else changes, and to make them
again changes nothing. -/
theorem making_is_atomic (ns : Namespace) (path : List String) (isPublic : Bool) :
    ((∃ after f, ns.makeAlong path isPublic = (after, some f)) ↔ ns.Refuses path isPublic) ∧
    (∀ after f, ns.makeAlong path isPublic = (after, some f) →
      f = .publicUnderPrivate (dotted path) ∧ after = ns) ∧
    ∀ after, ns.makeAlong path isPublic = (after, none) →
      ns.Makes path isPublic after ∧ (after.at? path).isSome ∧
        after.makeAlong path isPublic = (after, none) := by
  by_cases hr : ns.Refuses path isPublic
  · have he : ns.makeAlong path isPublic = (ns, some (.publicUnderPrivate (dotted path))) :=
      makeWithin_refused hr
    refine ⟨iff_of_true ⟨_, _, he⟩ hr, fun after f h => ?_, fun after h => ?_⟩
    · cases he.symm.trans h
      exact ⟨rfl, rfl⟩
    · cases he.symm.trans h
  · obtain ⟨made, he, hm⟩ : ∃ made, ns.makeAlong path isPublic = (made, none) ∧
      ns.Makes path isPublic made := makeWithin_makes hr
    have hend : (made.at? path).isSome := (hm.spaces path).mpr (.inr List.prefix_rfl)
    refine ⟨iff_of_false ?_ hr, fun after f h => ?_, fun after h => ?_⟩
    · rintro ⟨after, f, h⟩
      cases he.symm.trans h
    · cases he.symm.trans h
    · cases he.symm.trans h
      exact ⟨hm, hend, makeWithin_again (hm.not_refuses hr) hend⟩

/-- A public namespace, `open`, with a private one in it, `closed`. -/
def nestedRooms : Namespace :=
  { empty true with
    children := [("open", { empty true with children := [("closed", empty false)] })] }

/-- Two public namespaces are refused below `closed`, and made beside it. -/
theorem nestedRooms_grow_beside_closed :
    (∃ f, nestedRooms.makeAlong ["open", "closed", "a", "b"] true = (nestedRooms, some f)) ∧
      ∃ after, nestedRooms.makeAlong ["open", "a", "b"] true = (after, none) ∧
        nestedRooms.Makes ["open", "a", "b"] true after := by
  obtain ⟨hrefuses, hsame, -⟩ := making_is_atomic nestedRooms ["open", "closed", "a", "b"] true
  obtain ⟨-, -, hmade⟩ := making_is_atomic nestedRooms ["open", "a", "b"] true
  obtain ⟨after, f, h⟩ := hrefuses.mpr
    ⟨rfl, ["open", "closed"], _, by decide, by decide, rfl, rfl⟩
  obtain ⟨-, rfl⟩ := hsame after f h
  exact ⟨⟨f, h⟩, _, rfl, (hmade _ rfl).1⟩

end Namespace

end MatchLang
