import MatchLang.Proofs.Namespace.Publish

/-! What an import of one entry takes of a tree: the namespaces on the way to the entry and the entry itself. This
part is laid over the target like a whole tree. If the entry may not be imported, the part is the way as far
as it is public. -/

namespace MatchLang

section

variable {α : Type} {t : List (String × α)} {name n : String}

/-- The entry of one name. -/
def Table.only (t : List (String × α)) (name : String) : List (String × α) :=
  match get? t name with
  | some a => [(name, a)]
  | none => []

theorem Table.get?_only : get? (only t name) n = if n = name then get? t name else none := by
  unfold only
  cases h : get? t name with
  | none => simp [get?_nil]
  | some a => rw [get?_cons, get?_nil]

end

namespace Namespace

/-- The namespace at a path, if all on the way to it are public. -/
def publicAt? : Namespace → List String → Option Namespace
  | ns, [] => some ns
  | ns, name :: path =>
    (ns.child? name).bind fun c => if c.isPublic then c.publicAt? path else none

/-- The child of a name, if it is public. -/
def publicChild? (ns : Namespace) (name : String) : Option Namespace :=
  (ns.child? name).filter (·.isPublic)

/-- A name stands for something, and not for a private namespace. -/
def importable (ns : Namespace) (name : String) : Bool :=
  ((ns.value? name).isSome || (ns.type? name).isSome || (ns.child? name).isSome) &&
    !(ns.child? name).any (!·.isPublic)

/-- What the import of an entry takes of a tree. -/
def entryPart : Namespace → List String → String → Namespace
  | ns, [], name =>
    if ns.importable name then
      { isPublic := ns.isPublic
        values := Table.only ns.values name
        types := Table.only ns.types name
        children := Table.only ns.children name }
    else empty ns.isPublic
  | ns, part :: path, name =>
    match ns.publicChild? part with
    | some c => { empty ns.isPublic with children := [(part, c.entryPart path name)] }
    | none => empty ns.isPublic

/-- A tree has a value, a type or a namespace at the end of a path, public namespaces on the way to it, and no
private one there. -/
def Offers (ns : Namespace) (path : List String) (name : String) : Prop :=
  ∃ c, ns.publicAt? path = some c ∧
    ((c.value? name).isSome ∨ (c.type? name).isSome ∨ (c.child? name).isSome) ∧
    ∀ d, c.child? name = some d → d.isPublic = true

section

variable {source target c ns : Namespace} {path walked q : List String} {name part n : String}

theorem publicChild?_eq_some :
    ns.publicChild? name = some c ↔ ns.child? name = some c ∧ c.isPublic = true :=
  Option.filter_eq_some_iff

theorem publicAt?_cons :
    ns.publicAt? (name :: q) = (ns.publicChild? name).bind (·.publicAt? q) := by
  rw [publicAt?, publicChild?]
  cases ns.child? name with
  | none => rfl
  | some c => cases hp : c.isPublic <;> simp [Option.filter, hp]

theorem at?_of_publicAt? (h : ns.publicAt? path = some c) : ns.at? path = some c := by
  induction path generalizing ns with
  | nil => exact h
  | cons n path ih =>
    rw [publicAt?] at h
    obtain ⟨d, hd, h⟩ := Option.bind_eq_some_iff.mp h
    split at h
    · rw [at?_cons, hd]
      exact ih h
    · cases h

theorem importable_iff : ns.importable name = true ↔ ns.Offers [] name := by
  have hpublic : (ns.child? name).any (!·.isPublic) = false ↔
      ∀ d, ns.child? name = some d → d.isPublic = true := by
    cases ns.child? name with
    | none => exact iff_of_true rfl nofun
    | some d => simp
  rw [importable, Bool.and_eq_true, Bool.or_eq_true, Bool.or_eq_true, Bool.not_eq_true', hpublic,
    or_assoc]
  exact ⟨fun h => ⟨ns, rfl, h⟩, fun ⟨_, hc, h⟩ => Option.some.inj hc ▸ h⟩

theorem offers_cons : ns.Offers (part :: path) name ↔
    ∃ c, ns.publicChild? part = some c ∧ c.Offers path name := by
  unfold Offers
  rw [publicAt?_cons]
  constructor
  · rintro ⟨c, hc, h⟩
    obtain ⟨d, hd, hc⟩ := Option.bind_eq_some_iff.mp hc
    exact ⟨d, hd, c, hc, h⟩
  · rintro ⟨d, hd, c, hc, h⟩
    exact ⟨c, Option.bind_eq_some_iff.mpr ⟨d, hd, hc⟩, h⟩

theorem entryPart_refused (h : ¬ ns.Offers [] name) : ns.entryPart [] name = empty ns.isPublic := by
  rw [entryPart, if_neg fun hi => h (importable_iff.mp hi)]

theorem overlay_empty {isPublic : Bool} : (empty isPublic).overlay target = target := by
  cases target
  rw [empty, overlay, overlayChildren]
  rfl

theorem overlay_single {isPublic : Bool} (hc : c.isPublic = true) :
    ({ empty isPublic with children := [(part, c)] } : Namespace).overlay target =
      target.setChild part (c.overlay (target.childOr part target.isPublic)) := by
  obtain ⟨p, vs, ts, cs⟩ := c
  obtain rfl : p = true := hc
  cases target
  rw [overlay, overlayChildren, overlayChildren]
  rfl

theorem entryPart_isPublic : (source.entryPart path name).isPublic = source.isPublic := by
  cases path with
  | nil =>
    rw [entryPart]
    split <;> rfl
  | cons part path =>
    rw [entryPart]
    split <;> rfl

theorem entryPart_cons_closed (hp : source.publicChild? part = none) :
    source.entryPart (part :: path) name = empty source.isPublic := by
  simp only [entryPart, hp]

theorem entryPart_cons_open (hp : source.publicChild? part = some c) :
    source.entryPart (part :: path) name =
      { empty source.isPublic with children := [(part, c.entryPart path name)] } := by
  simp only [entryPart, hp]

theorem entryPart_public (hp : source.publicChild? part = some c) :
    (c.entryPart path name).isPublic = true :=
  entryPart_isPublic.trans (publicChild?_eq_some.mp hp).2

/-- On the way to an entry a part of the source is laid over one child of the target. -/
theorem entryPart_overlay_open (hp : source.publicChild? part = some c) :
    (source.entryPart (part :: path) name).overlay target =
      target.setChild part
        ((c.entryPart path name).overlay (target.childOr part target.isPublic)) := by
  rw [entryPart_cons_open hp]
  exact overlay_single (entryPart_public hp)

/-- The value and the type of one name, if there are any of them. -/
def takeEntry (source target : Namespace) (name : String) : Namespace :=
  let target := match source.value? name with
    | some v => target.setValue name v
    | none => target
  match source.type? name with
  | some t => target.setType name t
  | none => target

theorem takeEntry_eq : source.takeEntry target name =
    { target with
      values := Table.overlay (Table.only source.values name) target.values
      types := Table.overlay (Table.only source.types name) target.types } := by
  cases target
  unfold takeEntry Table.only value? type?
  cases Table.get? source.values name <;> cases Table.get? source.types name <;> rfl

/-- The value, the type and the namespace of a name are laid over the target together. -/
theorem importName_ok (h : source.Offers [] name) :
    source.importName target walked name = .ok ((source.entryPart [] name).overlay target) := by
  have hi : source.importable name = true := importable_iff.mpr h
  obtain ⟨hfound, hpublic⟩ := Bool.and_eq_true_iff.mp hi
  rw [Bool.not_eq_true'] at hpublic
  have htaken : (source.entryPart [] name).overlay target =
      overlayChildren (Table.only source.children name) (source.takeEntry target name) := by
    rw [entryPart, if_pos hi, overlay, takeEntry_eq]
  rw [htaken]
  simp only [importName, hfound, hpublic, Bool.not_true, Bool.false_eq_true, if_false]
  unfold Table.only
  cases hc : source.child? name with
  | none =>
    have hget : Table.get? source.children name = none := hc
    rw [hget, overlayChildren]
    rfl
  | some c =>
    have hget : Table.get? source.children name = some c := hc
    obtain ⟨p, vs, ts, cs⟩ := c
    obtain rfl : p = true := by simpa [hc] using hpublic
    rw [hget, overlayChildren, overlayChildren]
    rfl

theorem importName_error (h : ¬ source.Offers [] name) :
    ∃ f, source.importName target walked name = .error f := by
  cases hn : source.importName target walked name with
  | error f => exact ⟨f, rfl⟩
  | ok c =>
    refine absurd (importable_iff.mp ?_) h
    unfold importName at hn
    simp only at hn
    split at hn
    · cases hn
    · rename_i hfound
      split at hn
      · cases hn
      · rename_i hpublic
        rw [Bool.not_eq_true, Bool.not_eq_false'] at hfound
        rw [importable, hfound, (Bool.not_eq_true _).mp hpublic]
        rfl

theorem importFrom_closed (hp : source.publicChild? part = none) (hne : path ≠ []) :
    ∃ f, source.importFrom walked target (part :: path) = (target, some f) := by
  rw [importFrom.eq_3 _ _ _ _ _ hne]
  cases hc : source.child? part with
  | none => exact ⟨_, rfl⟩
  | some c =>
    have hv : ¬ c.isPublic = true := fun hv => by
      rw [publicChild?_eq_some.mpr ⟨hc, hv⟩] at hp
      cases hp
    simp only [hv]
    exact ⟨_, rfl⟩

theorem importFrom_open (hp : source.publicChild? part = some c) (hne : path ≠ []) :
    source.importFrom walked target (part :: path) =
      (target.setChild part (c.importFrom (walked ++ [part])
          (target.childOr part target.isPublic) path).1,
        (c.importFrom (walked ++ [part]) (target.childOr part target.isPublic) path).2) := by
  obtain ⟨hc, hv⟩ := publicChild?_eq_some.mp hp
  rw [importFrom.eq_3 _ _ _ _ _ hne]
  simp only [hc, hv, if_true]

/-- An import of one entry lays its part of the source over the target, and meets no fault if the entry may be
imported. -/
theorem importFrom_concat :
    (source.importFrom walked target (path ++ [name])).1 =
        (source.entryPart path name).overlay target ∧
      ((source.importFrom walked target (path ++ [name])).2 = none ↔ source.Offers path name) := by
  induction path generalizing walked source target with
  | nil =>
    by_cases ho : source.Offers [] name
    · have he : source.importFrom walked target ([] ++ [name]) =
          ((source.entryPart [] name).overlay target, none) := by
        simp only [List.nil_append, importFrom, importName_ok ho]
      rw [he]
      exact ⟨rfl, iff_of_true rfl ho⟩
    · obtain ⟨f, hf⟩ : ∃ f, source.importName target (walked ++ [name]) name = .error f :=
        importName_error ho
      have he : source.importFrom walked target ([] ++ [name]) = (target, some f) := by
        simp only [List.nil_append, importFrom, hf]
      rw [he, entryPart_refused ho, overlay_empty]
      exact ⟨rfl, iff_of_false (Option.some_ne_none f) ho⟩
  | cons part path ih =>
    have hne : path ++ [name] ≠ [] :=
      List.append_ne_nil_of_right_ne_nil path (List.cons_ne_nil name [])
    rw [List.cons_append, offers_cons]
    cases hp : source.publicChild? part with
    | none =>
      obtain ⟨f, he⟩ : ∃ f, source.importFrom walked target (part :: (path ++ [name])) =
        (target, some f) := importFrom_closed hp hne
      rw [he, entryPart_cons_closed hp, overlay_empty]
      refine ⟨rfl, iff_of_false (Option.some_ne_none f) ?_⟩
      rintro ⟨_, hc, -⟩
      cases hc
    | some c =>
      obtain ⟨htree, hfault⟩ := @ih c (target.childOr part target.isPublic) (walked ++ [part])
      rw [importFrom_open hp hne, entryPart_overlay_open hp, htree]
      refine ⟨rfl, hfault.trans ⟨fun ho => ⟨c, rfl, ho⟩, ?_⟩⟩
      rintro ⟨d, hd, ho⟩
      exact Option.some.inj hd ▸ ho

/-- Whatever an import of one entry takes is laid over the target. -/
theorem importFrom_overlay :
    ∃ part : Namespace, (source.importFrom walked target path).1 = part.overlay target ∧
      (part = empty source.isPublic ∨ ∃ front name, part = source.entryPart front name) := by
  obtain rfl | ⟨front, name, rfl⟩ := path.eq_nil_or_concat
  · exact ⟨_, overlay_empty.symm, .inl rfl⟩
  · rw [List.concat_eq_append]
    exact ⟨_, importFrom_concat.1, .inr ⟨front, name, rfl⟩⟩

end

end Namespace

end MatchLang
