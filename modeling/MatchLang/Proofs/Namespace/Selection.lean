import MatchLang.Proofs.Namespace.Overlay

/-! Importing one entry. The target then has what the source has at the entry and below it, and nothing else of
the source but the namespaces on the way. If the entry may not be imported, the way as far as it is public is
all that has come to the target. -/

namespace MatchLang

section

variable {α : Type} {t : List (String × α)} {name n : String}

theorem Table.nodup_names_only : (names (only t name)).Nodup := by
  unfold only
  cases get? t name with
  | none => exact List.nodup_nil
  | some a => exact List.nodup_cons.mpr ⟨List.not_mem_nil, List.nodup_nil⟩

end

namespace Namespace

section

variable {source : Namespace} {path q : List String} {name part n : String} {c : Namespace}

theorem tidy_entryPart (hs : source.Offers path name → source.Tidy) :
    (source.entryPart path name).Tidy := by
  induction path generalizing source with
  | nil =>
    by_cases ho : source.Offers [] name
    · rw [entryPart, if_pos (importable_iff.mpr ho)]
      refine tidy_iff.mpr ⟨Table.nodup_names_only, fun n d hd => ?_⟩
      have hget : Table.get? (Table.only source.children name) n = some d := hd
      rw [Table.get?_only] at hget
      split at hget
      · exact (hs ho).child hget
      · cases hget
    · rw [entryPart_refused ho]
      exact tidy_of_nil rfl
  | cons part path ih =>
    cases hp : source.publicChild? part with
    | none =>
      rw [entryPart_cons_closed hp]
      exact tidy_of_nil rfl
    | some c =>
      rw [entryPart_cons_open hp]
      refine tidy_iff.mpr ⟨List.nodup_cons.mpr ⟨List.not_mem_nil, List.nodup_nil⟩, fun n d hd => ?_⟩
      have hget : Table.get? [(part, c.entryPart path name)] n = some d := hd
      rw [Table.get?_cons] at hget
      split at hget
      · cases hget
        exact ih fun ho => (hs (offers_cons.mpr ⟨c, hp, ho⟩)).publicChild hp
      · cases hget

theorem publicChild?_entryPart_nil (ho : source.Offers [] name) :
    (source.entryPart [] name).publicChild? n =
      if n = name then source.publicChild? name else none := by
  have hc : (source.entryPart [] name).child? n =
      if n = name then source.child? name else none := by
    rw [entryPart, if_pos (importable_iff.mpr ho)]
    exact Table.get?_only
  rw [publicChild?, hc]
  split <;> rfl

theorem publicChild?_entryPart_cons (hp : source.publicChild? part = some c) :
    (source.entryPart (part :: path) name).publicChild? n =
      if n = part then some (c.entryPart path name) else none := by
  have hc : (source.entryPart (part :: path) name).child? n =
      if n = part then some (c.entryPart path name) else none := by
    rw [entryPart_cons_open hp]
    exact Table.get?_cons ..
  rw [publicChild?, hc]
  split
  · simp [Option.filter, entryPart_public hp]
  · rfl

end

section

variable {α : Type} {look : Namespace → String → Option α} {source : Namespace}
  {path q : List String} {name n : String}

/-- What is found in a namespace, be it a value or a type: nothing in one that has just been made, whatever
namespaces it holds, and in the part of a name what stands there. -/
structure Looks (look : Namespace → String → Option α) : Prop where
  bare : ∀ isPublic children n, look { empty isPublic with children := children } n = none
  entry : ∀ ns name n, ns.Offers [] name →
    look (ns.entryPart [] name) n = if n = name then look ns name else none

theorem looks_value : Looks value? where
  bare _ _ _ := rfl
  entry ns name n ho := by
    rw [entryPart, if_pos (importable_iff.mpr ho)]
    exact Table.get?_only

theorem looks_type : Looks type? where
  bare _ _ _ := rfl
  entry ns name n ho := by
    rw [entryPart, if_pos (importable_iff.mpr ho)]
    exact Table.get?_only

theorem Looks.empty (hl : Looks look) (isPublic : Bool) :
    ((Namespace.empty isPublic).publicAt? q).bind (look · n) = none := by
  cases q with
  | nil => exact hl.bare isPublic [] n
  | cons m q => rfl

/-- The part of an entry has at and below the entry what the source has there. -/
theorem Looks.taken (hl : Looks look) (ho : source.Offers path name)
    (ht : path ++ [name] <+: q ++ [n]) :
    ((source.entryPart path name).publicAt? q).bind (look · n) =
      (source.publicAt? q).bind (look · n) := by
  induction path generalizing source q with
  | nil =>
    cases q with
    | nil =>
      obtain rfl : name = n := by simpa using ht
      exact (hl.entry source name name ho).trans (if_pos rfl)
    | cons m q =>
      obtain ⟨rfl, -⟩ := List.cons_prefix_cons.mp ht
      rw [publicAt?_cons, publicAt?_cons, publicChild?_entryPart_nil ho, if_pos rfl]
  | cons part path ih =>
    obtain ⟨c, hp, ho⟩ := offers_cons.mp ho
    cases q with
    | nil =>
      have hlen := ht.length_le
      simp at hlen
    | cons m q =>
      obtain ⟨rfl, hrest⟩ := List.cons_prefix_cons.mp ht
      rw [publicAt?_cons, publicAt?_cons, publicChild?_entryPart_cons hp, if_pos rfl, hp]
      exact ih ho hrest

theorem Looks.left (hl : Looks look)
    (ht : ¬ (source.Offers path name ∧ path ++ [name] <+: q ++ [n])) :
    ((source.entryPart path name).publicAt? q).bind (look · n) = none := by
  induction path generalizing source q with
  | nil =>
    by_cases ho : source.Offers [] name
    · cases q with
      | nil =>
        have hne : n ≠ name := by
          rintro rfl
          exact ht ⟨ho, List.prefix_rfl⟩
        exact (hl.entry source name n ho).trans (if_neg hne)
      | cons m q =>
        have hne : m ≠ name := by
          rintro rfl
          exact ht ⟨ho, List.cons_prefix_cons.mpr ⟨rfl, List.nil_prefix⟩⟩
        rw [publicAt?_cons, publicChild?_entryPart_nil ho, if_neg hne]
        rfl
    · rw [entryPart_refused ho]
      exact hl.empty source.isPublic
  | cons part path ih =>
    cases hp : source.publicChild? part with
    | none =>
      rw [entryPart_cons_closed hp]
      exact hl.empty source.isPublic
    | some c =>
      cases q with
      | nil =>
        rw [entryPart_cons_open hp]
        exact hl.bare source.isPublic _ n
      | cons m q =>
        rw [publicAt?_cons, publicChild?_entryPart_cons hp]
        by_cases hm : m = part
        · subst hm
          rw [if_pos rfl]
          exact ih fun h => ht ⟨offers_cons.mpr ⟨c, hp, h.1⟩, List.cons_prefix_cons.mpr ⟨rfl, h.2⟩⟩
        · rw [if_neg hm]
          rfl

/-- The part of an entry has the namespaces on the way to it and, if it may be imported, what is below it. -/
theorem entryPart_isSome : ((source.entryPart path name).publicAt? q).isSome ↔
    (q <+: path ∨ source.Offers path name ∧ path ++ [name] <+: q) ∧ (source.publicAt? q).isSome := by
  induction path generalizing source q with
  | nil =>
    cases q with
    | nil => exact iff_of_true rfl ⟨.inl List.nil_prefix, rfl⟩
    | cons m q =>
      have hway : ¬ m :: q <+: [] := fun h => nomatch List.prefix_nil.mp h
      rw [or_iff_right hway, List.nil_append]
      by_cases ho : source.Offers [] name
      · rw [publicAt?_cons, publicAt?_cons, publicChild?_entryPart_nil ho]
        by_cases hm : m = name
        · subst hm
          rw [if_pos rfl]
          exact (and_iff_right ⟨ho, List.cons_prefix_cons.mpr ⟨rfl, List.nil_prefix⟩⟩).symm
        · rw [if_neg hm]
          exact iff_of_false nofun fun h => hm (List.cons_prefix_cons.mp h.1.2).1.symm
      · rw [entryPart_refused ho]
        exact iff_of_false nofun fun h => ho h.1.1
  | cons part path ih =>
    cases q with
    | nil => exact iff_of_true rfl ⟨.inl List.nil_prefix, rfl⟩
    | cons m q =>
      have hat : source.publicAt? (m :: q) = (source.publicChild? m).bind (·.publicAt? q) :=
        publicAt?_cons
      rw [List.cons_append, List.cons_prefix_cons, List.cons_prefix_cons, hat]
      cases hp : source.publicChild? part with
      | none =>
        rw [entryPart_cons_closed hp]
        refine iff_of_false nofun ?_
        rintro ⟨⟨rfl, -⟩ | ⟨-, rfl, -⟩, h⟩ <;>
        · rw [hp] at h
          cases h
      | some c =>
        rw [publicAt?_cons, publicChild?_entryPart_cons hp]
        by_cases hm : m = part
        · subst hm
          have ho : source.Offers (m :: path) name ↔ c.Offers path name := by
            rw [offers_cons, hp]
            exact ⟨fun ⟨d, hd, h⟩ => Option.some.inj hd ▸ h, fun h => ⟨c, rfl, h⟩⟩
          rw [if_pos rfl, hp, ho, Option.bind_some, Option.bind_some, ih]
          simp only [true_and]
        · rw [if_neg hm]
          refine iff_of_false nofun ?_
          rintro ⟨⟨rfl, -⟩ | ⟨-, rfl, -⟩, -⟩ <;> exact hm rfl

end

section

variable {source target part after : Namespace} {entry space : List String → Prop}
  {path walked : List String} {name : String}

/-- What a target receives when one entry is imported, or only the way to it is walked. -/
theorem Receives.entryPart (hs : source.Offers path name → source.Tidy) (target : Namespace) :
    target.Receives source (fun p => source.Offers path name ∧ path ++ [name] <+: p)
      (fun q => q <+: path ∨ source.Offers path name ∧ path ++ [name] <+: q)
      ((source.entryPart path name).overlay target) where
  value q n ht := by
    rw [(Receives.overlay (tidy_entryPart hs) target).value q n trivial, publicValueAt?,
      looks_value.taken ht.1 ht.2]
    rfl
  type q n ht := by
    rw [(Receives.overlay (tidy_entryPart hs) target).type q n trivial, publicTypeAt?,
      looks_type.taken ht.1 ht.2]
    rfl
  otherValue q n ht := by
    rw [(Receives.overlay (tidy_entryPart hs) target).value q n trivial, publicValueAt?,
      looks_value.left ht]
    rfl
  otherType q n ht := by
    rw [(Receives.overlay (tidy_entryPart hs) target).type q n trivial, publicTypeAt?,
      looks_type.left ht]
    rfl
  spaces q := by
    rw [(Receives.overlay (tidy_entryPart hs) target).spaces q, true_and, entryPart_isSome]
  kept := (Receives.overlay (tidy_entryPart hs) target).kept
  new := (Receives.overlay (tidy_entryPart hs) target).new

/-- Nothing is received, and of the way only its beginning is walked, which is the target itself. -/
theorem Receives.none (target source : Namespace) :
    target.Receives source (fun _ => False) (· <+: []) target where
  value _ _ h := h.elim
  type _ _ h := h.elim
  otherValue _ _ _ := rfl
  otherType _ _ _ := rfl
  spaces q := by
    refine ⟨.inl, fun h => h.elim id fun hq => ?_⟩
    rw [List.prefix_nil.mp hq.1]
    rfl
  kept q c hc := ⟨c, hc, rfl⟩
  new q n c d hn _ hd := by cases hn.symm.trans hd

theorem Receives.congr {entry' space' : List String → Prop}
    (h : target.Receives source entry space after) (he : ∀ p, entry p ↔ entry' p)
    (hs : ∀ q, space q ↔ space' q) : target.Receives source entry' space' after := by
  obtain rfl : entry = entry' := funext fun p => propext (he p)
  obtain rfl : space = space' := funext fun q => propext (hs q)
  exact h

/-- Where the way to an entry is there already, to walk it changes nothing. -/
theorem entryPart_overlay_refused (ho : ¬ source.Offers path name)
    (hw : ∀ q, q <+: path → (source.publicAt? q).isSome → (target.at? q).isSome) :
    (source.entryPart path name).overlay target = target := by
  induction path generalizing source target with
  | nil => rw [entryPart_refused ho, overlay_empty]
  | cons part path ih =>
    cases hp : source.publicChild? part with
    | none => rw [entryPart_cons_closed hp, overlay_empty]
    | some c =>
      have hbelow : ∀ q, q <+: path → (c.publicAt? q).isSome → (target.at? (part :: q)).isSome := by
        intro q hq hc
        refine hw (part :: q) (List.cons_prefix_cons.mpr ⟨rfl, hq⟩) ?_
        rw [publicAt?_cons, hp]
        exact hc
      have hthere : ((target.child? part).bind (·.at? [])).isSome :=
        hbelow [] List.nil_prefix rfl
      cases hd : target.child? part with
      | none =>
        rw [hd] at hthere
        cases hthere
      | some d =>
        have hlow : target.childOr part target.isPublic = d := childOr_of_some hd
        have hsame : (c.entryPart path name).overlay d = d := by
          refine ih (fun h => ho (offers_cons.mpr ⟨c, hp, h⟩)) fun q hq hc => ?_
          have hq := hbelow q hq hc
          rw [at?_cons, hd] at hq
          exact hq
        rw [entryPart_overlay_open hp, hlow, hsame, setChild_eq_self hd]

end

end Namespace

/-- An import without a fault brings what it takes. -/
theorem Delivery.merge_brings {d : Delivery} {source target : Namespace} {path : List String}
    {name : String} (hn : source.Tidy) (hf : (d.merge source target).2 = none)
    (ht : d.Takes (path ++ [name])) (hp : (source.publicAt? path).isSome) :
    (∀ v, source.valueAt? path name = some v →
        (d.merge source target).1.valueAt? path name = some v) ∧
      ∀ t, source.typeAt? path name = some t →
        (d.merge source target).1.typeAt? path name = some t := by
  obtain ⟨entry, space, hr, he⟩ : ∃ entry space,
      target.Receives source entry space (d.merge source target).1 ∧ entry (path ++ [name]) := by
    cases d with
    | whole => exact ⟨_, _, .overlay hn target, trivial⟩
    | entry named =>
      cases named using List.reverseRecOn with
      | nil => cases hf
      | append_singleton front last =>
        obtain ⟨htree, hfault⟩ : (source.importEntry target (front ++ [last])).1 = _ ∧ _ :=
          Namespace.importFrom_concat
        rw [Delivery.merge, htree]
        exact ⟨_, _, .entryPart (fun _ => hn) target, hfault.mp hf, ht⟩
  refine ⟨fun v hv => ?_, fun t ht => ?_⟩
  · rw [hr.value path name he, Namespace.publicValueAt?_eq hp, hv]
    rfl
  · rw [hr.type path name he, Namespace.publicTypeAt?_eq hp, ht]
    rfl

/-- An import of one entry succeeds exactly if the source has the entry, with public namespaces on the way to it and
no private one at its place. The target then has the value, the type and what is public of the namespace of
the entry, at the same place, and the namespaces on the way; all else is as it was. -/
theorem selected_import_takes_the_entry {source : Namespace} (hs : source.Tidy) (target : Namespace)
    (path : List String) (name : String) :
    ((source.importEntry target (path ++ [name])).2 = none ↔ source.Offers path name) ∧
      (source.Offers path name →
        target.Receives source (path ++ [name] <+: ·)
          (fun q => q <+: path ∨ path ++ [name] <+: q)
          (source.importEntry target (path ++ [name])).1) ∧
      (Delivery.entry (path ++ [name])).Replaces source target
        (source.importEntry target (path ++ [name])).1
        (source.importEntry target (path ++ [name])).2 := by
  obtain ⟨htree, hfault⟩ : (source.importEntry target (path ++ [name])).1 = _ ∧ _ :=
    Namespace.importFrom_concat
  refine ⟨hfault, fun ho => ?_, (Delivery.entry _).merge_replaces source target⟩
  rw [htree]
  exact (Namespace.Receives.entryPart (fun _ => hs) target).congr
    (fun p => and_iff_right ho) fun q => or_congr_right (and_iff_right ho)

/-- What stands under the name `pair` in `manyFaced`: a namespace with a public and a private one in it. -/
def pairRoom : Namespace :=
  { isPublic := true
    values := [("first", .text "shown")]
    types := []
    children := [("inner", { Namespace.empty false with values := [("x", .text "hidden")] })] }

/-- A module in whose namespace `lib` one name is a value, a type and a namespace. -/
def manyFaced : Namespace :=
  { Namespace.empty true with
    children :=
      [("lib",
        { isPublic := true
          values := [("pair", .text "value"), ("other", .text "left")]
          types := [("pair", .text)]
          children := [("pair", pairRoom)] })] }

theorem manyFaced_tidy : manyFaced.Tidy := by
  refine Namespace.tidy_iff.mpr ⟨by decide, fun n d hd => ?_⟩
  have hm : (n, d) ∈ manyFaced.children := Table.mem_of_get? hd
  obtain ⟨-, rfl⟩ := Prod.mk.inj (List.mem_singleton.mp hm)
  refine Namespace.tidy_iff.mpr ⟨by decide, fun n d hd => ?_⟩
  have hm : (n, d) ∈ [("pair", pairRoom)] := Table.mem_of_get? hd
  obtain ⟨-, rfl⟩ := Prod.mk.inj (List.mem_singleton.mp hm)
  refine Namespace.tidy_iff.mpr ⟨by decide, fun n d hd => ?_⟩
  have hm : (n, d) ∈ pairRoom.children := Table.mem_of_get? hd
  obtain ⟨-, rfl⟩ := Prod.mk.inj (List.mem_singleton.mp hm)
  exact Namespace.tidy_of_nil rfl

/-- The name comes as all three, but not the private namespace below it, nor what stands beside it. -/
theorem manyFaced_gives_pair :
    let after := manyFaced.importEntry ownRoom ["lib", "pair"]
    after.2 = none ∧ after.1.valueAt? ["lib"] "pair" = some (.text "value") ∧
      after.1.typeAt? ["lib"] "pair" = some .text ∧
      after.1.valueAt? ["lib", "pair"] "first" = some (.text "shown") ∧
      ¬ (after.1.at? ["lib", "pair", "inner"]).isSome ∧
      after.1.valueAt? ["lib"] "other" = none ∧ after.1.valueAt? [] "top" = some (.text "old") := by
  obtain ⟨hok, hreceives, -⟩ := selected_import_takes_the_entry manyFaced_tidy ownRoom ["lib"] "pair"
  have ho : manyFaced.Offers ["lib"] "pair" :=
    ⟨_, rfl, .inl rfl, fun d hd => by cases hd; rfl⟩
  have hr := hreceives ho
  refine ⟨hok.mpr ho, (hr.value ["lib"] "pair" (by decide)).trans rfl,
    (hr.type ["lib"] "pair" (by decide)).trans rfl,
    (hr.value ["lib", "pair"] "first" (by decide)).trans rfl, fun h => ?_,
    (hr.otherValue ["lib"] "other" (by decide)).trans rfl,
    (hr.otherValue [] "top" (by decide)).trans rfl⟩
  rcases (hr.spaces ["lib", "pair", "inner"]).mp h with h | ⟨-, h⟩
  · cases h
  · cases h

/-- An import of one entry that fails leaves all values and types as they were, and adds the namespaces on the way to
the entry as far as they have been walked. The target is the same as before if all of these were there. -/
theorem refused_import_leaves_the_way {source target : Namespace} {path : List String} {f : Fault}
    (h : (source.importEntry target path).2 = some f) :
    target.Receives source (fun _ => False) (· <+: path.dropLast)
        (source.importEntry target path).1 ∧
      ((source.importEntry target path).1 = target ↔
        ∀ q, q <+: path.dropLast → (source.publicAt? q).isSome → (target.at? q).isSome) ∧
      (Delivery.entry path).Replaces source target (source.importEntry target path).1 (some f) := by
  have hreplaces : (Delivery.entry path).Replaces source target
      (source.importEntry target path).1 (some f) :=
    h ▸ (Delivery.entry path).merge_replaces source target
  suffices hr : target.Receives source (fun _ => False) (· <+: path.dropLast)
        (source.importEntry target path).1 ∧
      ((∀ q, q <+: path.dropLast → (source.publicAt? q).isSome → (target.at? q).isSome) →
        (source.importEntry target path).1 = target) by
    refine ⟨hr.1, ⟨fun he q hq hp => ?_, hr.2⟩, hreplaces⟩
    rw [← he]
    exact (hr.1.spaces q).mpr (.inr ⟨hq, hp⟩)
  cases path using List.reverseRecOn with
  | nil => exact ⟨.none target source, fun _ => rfl⟩
  | append_singleton path name =>
    obtain ⟨htree, hfault⟩ : (source.importEntry target (path ++ [name])).1 = _ ∧ _ :=
      Namespace.importFrom_concat
    have ho : ¬ source.Offers path name := by
      intro ho
      cases h.symm.trans (hfault.mpr ho)
    rw [List.dropLast_concat, htree]
    refine ⟨(Namespace.Receives.entryPart (absurd · ho) target).congr (fun p => ?_) fun q => ?_,
      Namespace.entryPart_overlay_refused ho⟩
    · exact iff_of_false (fun h => ho h.1) id
    · exact or_iff_left fun h => ho h.1

/-- A private namespace stops the import on its way; the public one before it has come. -/
theorem manyFaced_keeps_inner :
    let after := manyFaced.importEntry ownRoom ["lib", "pair", "inner", "x"]
    after.2 = some (.privateImport "lib.pair.inner") ∧ (after.1.at? ["lib", "pair"]).isSome ∧
      ¬ (after.1.at? ["lib", "pair", "inner"]).isSome ∧
      after.1.valueAt? ["lib"] "pair" = none := by
  have hf : (manyFaced.importEntry ownRoom ["lib", "pair", "inner", "x"]).2 =
      some (.privateImport "lib.pair.inner") := rfl
  obtain ⟨hr, -, -⟩ := refused_import_leaves_the_way hf
  refine ⟨hf, (hr.spaces _).mpr (.inr ⟨by decide, rfl⟩), fun h => ?_,
    (hr.otherValue ["lib"] "pair" id).trans rfl⟩
  rcases (hr.spaces ["lib", "pair", "inner"]).mp h with h | ⟨-, h⟩
  · cases h
  · cases h

/-- A module with nothing in it but a public namespace. -/
def bareRoom : Namespace :=
  { Namespace.empty true with children := [("open", .empty true)] }

/-- An importer asks for an entry that is missing in a public namespace: the import fails, and the importer has a
namespace that it did not have before. -/
theorem refused_import_leaves_a_namespace :
    (bareRoom.importEntry (.empty true) ["open", "x"]).2 = some (.importNotFound "open.x") ∧
      (bareRoom.importEntry (.empty true) ["open", "x"]).1 ≠ .empty true ∧
      ((bareRoom.importEntry (.empty true) ["open", "x"]).1.at? ["open"]).isSome ∧
      ((Namespace.empty true).at? ["open"]).isNone := by
  refine ⟨rfl, fun h => ?_, rfl, rfl⟩
  cases congrArg (fun ns => ns.at? ["open"]) h

end MatchLang
