import MatchLang.Proofs.Namespace.Entry

/-! Namespaces stay: whatever happens to a tree of names, a path that leads to a namespace goes on
leading to one, which is as public as before. A namespace that is added is public only where the one
around it is, so no public namespace ever stands in a private one. -/

namespace MatchLang

/-- No public namespace of the tree stands in a private one. -/
def Namespace.Covered (ns : Namespace) : Prop :=
  ∀ path c name d, ns.at? path = some c → c.child? name = some d → d.isPublic = true →
    c.isPublic = true

/-- One tree goes on as another. -/
structure Namespace.Extends (ns ns' : Namespace) : Prop where
  paths : ∀ path c, ns.at? path = some c → ∃ c', ns'.at? path = some c' ∧ c'.isPublic = c.isPublic
  covered : ns.Covered → ns'.Covered

namespace Namespace

variable {ns ns' c source target : Namespace} {path walked : List String} {name : String}

theorem covered_iff : ns.Covered ↔ ∀ n d, ns.child? n = some d →
    (d.isPublic = true → ns.isPublic = true) ∧ d.Covered := by
  constructor
  · intro h n d hd
    refine ⟨h [] ns n d rfl hd, fun path c name e hc => h (n :: path) c name e ?_⟩
    rw [at?_cons, hd]
    exact hc
  · intro h path c name d hc hd
    cases path with
    | nil =>
      cases hc
      exact (h name d hd).1
    | cons n path =>
      rw [at?_cons] at hc
      obtain ⟨e, he, hc⟩ := Option.bind_eq_some_iff.mp hc
      exact (h n e he).2 path c name d hc hd

theorem covered_empty (isPublic : Bool) : (empty isPublic).Covered :=
  covered_iff.mpr fun _ _ hd => nomatch hd

theorem at?_empty {isPublic : Bool} (h : (empty isPublic).at? path = some c) :
    path = [] ∧ c = empty isPublic := by
  cases path with
  | nil => exact ⟨rfl, (Option.some.inj h).symm⟩
  | cons n path => cases h

theorem childOr_of_some {isPublic : Bool} (h : ns.child? name = some c) :
    ns.childOr name isPublic = c := by
  rw [childOr, h, Option.getD_some]

theorem childOr_of_none {isPublic : Bool} (h : ns.child? name = none) :
    ns.childOr name isPublic = empty isPublic := by
  rw [childOr, h, Option.getD_none]

/-- What is found below a child is found below the namespace, also if the child is only now made. -/
theorem childOr_look {isPublic : Bool} {look : Namespace → Option α}
    (he : ∀ isPublic, look (empty isPublic) = none) :
    ((ns.childOr name isPublic).at? path).bind look = (ns.at? (name :: path)).bind look := by
  rw [at?_cons, childOr]
  cases ns.child? name with
  | some d => rfl
  | none =>
    cases hc : (empty isPublic).at? path with
    | none => simp [hc]
    | some c =>
      obtain ⟨-, rfl⟩ := at?_empty hc
      simp [hc, he]

theorem childOr_isSome {isPublic : Bool} :
    ((ns.childOr name isPublic).at? path).isSome ↔ path = [] ∨ (ns.at? (name :: path)).isSome := by
  rw [at?_cons, childOr]
  cases path with
  | nil => simp [at?]
  | cons n path =>
    cases ns.child? name with
    | some d => simp
    | none =>
      have hn : (empty isPublic).at? (n :: path) = none := rfl
      simp [hn]

/-- What stands below a child and not below the namespace is a child that is only now made. -/
theorem childOr_new {isPublic : Bool} (hn : ns.at? (name :: path) = none)
    (hc : (ns.childOr name isPublic).at? path = some c) : c = empty isPublic := by
  cases hd : ns.child? name with
  | some d =>
    rw [childOr_of_some hd] at hc
    rw [at?_cons, hd, Option.bind_some, hc] at hn
    cases hn
  | none =>
    rw [childOr_of_none hd] at hc
    exact (at?_empty hc).2

namespace Extends

theorem isPublic (h : ns.Extends ns') : ns'.isPublic = ns.isPublic := by
  obtain ⟨c, hc, hv⟩ := h.paths [] ns rfl
  cases hc
  exact hv

theorem isSome (h : ns.Extends ns') (hp : (ns.at? path).isSome) : (ns'.at? path).isSome := by
  obtain ⟨c, hc⟩ := Option.isSome_iff_exists.mp hp
  obtain ⟨c', hc', _⟩ := h.paths path c hc
  rw [hc']
  rfl

theorem refl (ns : Namespace) : ns.Extends ns :=
  ⟨fun _ c hc => ⟨c, hc, rfl⟩, id⟩

theorem trans (h : ns.Extends ns') (h' : ns'.Extends c) : ns.Extends c where
  paths path d hd := by
    obtain ⟨d', hd', hv⟩ := h.paths path d hd
    obtain ⟨e, he, hv'⟩ := h'.paths path d' hd'
    exact ⟨e, he, hv'.trans hv⟩
  covered hc := h'.covered (h.covered hc)

theorem of_child? (hv : ns'.isPublic = ns.isPublic)
    (h : ∀ n d, ns.child? n = some d → ∃ d', ns'.child? n = some d' ∧ d.Extends d')
    (hn : ∀ n d', ns'.child? n = some d' → ns.child? n = none →
      (d'.isPublic = true → ns.isPublic = true) ∧ d'.Covered) : ns.Extends ns' where
  paths path c hc := by
    cases path with
    | nil =>
      cases hc
      exact ⟨ns', rfl, hv⟩
    | cons n path =>
      rw [at?_cons] at hc
      obtain ⟨d, hd, hc⟩ := Option.bind_eq_some_iff.mp hc
      obtain ⟨d', hd', he⟩ := h n d hd
      rw [at?_cons, hd']
      exact he.paths path c hc
  covered hc := by
    refine covered_iff.mpr fun n d' hd' => ?_
    rw [hv]
    cases hd : ns.child? n with
    | none => exact hn n d' hd' hd
    | some d =>
      obtain ⟨e, he, hde⟩ := h n d hd
      obtain rfl : e = d' := Option.some.inj (he.symm.trans hd')
      obtain ⟨hp, hdc⟩ := covered_iff.mp hc n d hd
      rw [hde.isPublic]
      exact ⟨hp, hde.covered hdc⟩

theorem of_children (hv : ns'.isPublic = ns.isPublic) (h : ∀ n, ns'.child? n = ns.child? n) :
    ns.Extends ns' := by
  refine of_child? hv (fun n d hd => ⟨d, by rw [h, hd], .refl d⟩) fun n d' hd' hn => ?_
  rw [h, hn] at hd'
  cases hd'

/-- A child goes on, or is new and no more public than what is around it. -/
theorem setChild_childOr {isPublic : Bool} (hp : isPublic = true → ns.isPublic = true)
    (h : (ns.childOr name isPublic).Extends c) : ns.Extends (ns.setChild name c) := by
  refine of_child? rfl (fun n d hd => ?_) fun n d' hd' hn => ?_
  · rw [child?_setChild]
    by_cases he : n = name
    · subst he
      rw [childOr_of_some hd] at h
      exact ⟨c, if_pos rfl, h⟩
    · exact ⟨d, by rw [if_neg he, hd], .refl d⟩
  · rw [child?_setChild] at hd'
    by_cases he : n = name
    · subst he
      rw [childOr_of_none hn] at h
      rw [if_pos rfl, Option.some.injEq] at hd'
      subst hd'
      have hv : c.isPublic = isPublic := h.isPublic
      rw [hv]
      exact ⟨hp, h.covered (covered_empty isPublic)⟩
    · rw [if_neg he, hn] at hd'
      cases hd'

theorem setChild {d : Namespace} (hd : ns.child? name = some d) (h : d.Extends c) :
    ns.Extends (ns.setChild name c) := by
  refine @setChild_childOr ns c name false (fun h => absurd h Bool.false_ne_true) ?_
  rw [childOr_of_some hd]
  exact h

theorem updateAt {change : Namespace → Namespace} (h : ∀ c : Namespace, c.Extends (change c)) :
    ns.Extends (ns.updateAt change path) := by
  induction path generalizing ns with
  | nil => exact h ns
  | cons name path ih =>
    rw [Namespace.updateAt]
    cases hc : ns.child? name with
    | none => exact .refl ns
    | some d => exact setChild hc ih

end Extends

theorem extends_addFamily {cases : List Case} : ns.Extends (ns.addFamily name cases) := by
  have hf : ∀ (ks : List Case) (ns : Namespace), ns.Extends (ks.foldl addCase ns) := by
    intro ks
    induction ks with
    | nil => exact .refl
    | cons k ks ih =>
      intro ns
      have hk : ns.Extends (ns.addCase k) := .of_children rfl fun _ => rfl
      exact hk.trans (ih _)
  have ht : ns.Extends (ns.setType name (.family name cases)) := .of_children rfl fun _ => rfl
  exact ht.trans (hf cases _)

/-- A path that has been made is there. -/
theorem make?_eq_some {isPublic : Bool} (h : ns.make? isPublic path = some c) :
    ns.Extends c ∧ (c.at? path).isSome := by
  induction path generalizing ns c with
  | nil =>
    rw [make?, Option.some.injEq] at h
    exact h ▸ ⟨.refl ns, rfl⟩
  | cons name path ih =>
    rw [make?] at h
    split at h
    · cases h
    · rename_i hv
      obtain ⟨d, hd, rfl⟩ := Option.map_eq_some_iff.mp h
      obtain ⟨he, hp⟩ := ih hd
      refine ⟨.setChild_childOr (fun hi => by simpa [hi] using hv) he, ?_⟩
      rw [at?_setChild, if_pos rfl]
      exact hp

theorem make_eq_ok {isPublic : Bool} (h : ns.make path isPublic = .ok c) :
    ns.Extends c ∧ (c.at? path).isSome := by
  unfold make at h
  cases hm : ns.make? isPublic path with
  | none =>
    rw [hm] at h
    cases h
  | some d =>
    rw [hm, Except.ok.injEq] at h
    exact h ▸ make?_eq_some hm

end Namespace

mutual

theorem Namespace.extends_overlay :
    (source : Namespace) → {target : Namespace} → target.Extends (source.overlay target)
  | .mk _ values types children, target => by
    rw [Namespace.overlay]
    refine .trans ?_ (extends_overlayChildren children)
    exact .of_children rfl fun _ => rfl

theorem extends_overlayChildren : (cs : List (String × Namespace)) → {target : Namespace} →
    target.Extends (overlayChildren cs target)
  | [], target => .refl target
  | (name, .mk true vs ts cs) :: rest, target => by
    rw [overlayChildren]
    exact .trans (.setChild_childOr id (Namespace.extends_overlay (.mk true vs ts cs)))
      (extends_overlayChildren rest)
  | (_, .mk false _ _ _) :: rest, _ => by
    rw [overlayChildren]
    exact extends_overlayChildren rest

end

namespace Namespace

variable {source target : Namespace} {path : List String}

theorem extends_importEntry : target.Extends (source.importEntry target path).1 := by
  obtain ⟨part, h, -⟩ : ∃ part : Namespace, (source.importEntry target path).1 = _ ∧ _ :=
    importFrom_overlay
  rw [h]
  exact extends_overlay part

end Namespace

end MatchLang
