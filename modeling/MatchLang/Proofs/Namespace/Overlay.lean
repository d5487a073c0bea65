import MatchLang.Proofs.Namespace.Handover
import MatchLang.Proofs.Namespace.Seed

/-! What an import leaves in the tree of the importer. Of the source it shows what is reached through public
namespaces only, in front of what the target holds; namespaces that are added are as public as what is
around them, and nothing else changes. -/

namespace MatchLang

namespace Namespace

/-- The value of a name in a namespace that is reached through public ones only. -/
def publicValueAt? (ns : Namespace) (path : List String) (name : String) : Option Value :=
  (ns.publicAt? path).bind (·.value? name)

def publicTypeAt? (ns : Namespace) (path : List String) (name : String) : Option DataType :=
  (ns.publicAt? path).bind (·.type? name)

/-- What an import makes of a target. It takes the entries of some paths and the namespaces of some, as far as
the source has them in public namespaces. -/
structure Receives (target source : Namespace) (entry space : List String → Prop)
    (after : Namespace) : Prop where
  value : ∀ q n, entry (q ++ [n]) →
    after.valueAt? q n = (source.publicValueAt? q n).or (target.valueAt? q n)
  type : ∀ q n, entry (q ++ [n]) →
    after.typeAt? q n = (source.publicTypeAt? q n).or (target.typeAt? q n)
  otherValue : ∀ q n, ¬ entry (q ++ [n]) → after.valueAt? q n = target.valueAt? q n
  otherType : ∀ q n, ¬ entry (q ++ [n]) → after.typeAt? q n = target.typeAt? q n
  spaces : ∀ q, (after.at? q).isSome ↔ (target.at? q).isSome ∨ space q ∧ (source.publicAt? q).isSome
  kept : ∀ q c, target.at? q = some c → ∃ d, after.at? q = some d ∧ d.isPublic = c.isPublic
  new : ∀ q n c d, target.at? (q ++ [n]) = none → after.at? q = some c →
    after.at? (q ++ [n]) = some d → d.isPublic = c.isPublic

end Namespace

mutual

/-- A tree without what stands in private namespaces. -/
def Namespace.publicPart : Namespace → Namespace
  | .mk isPublic values types children => .mk isPublic values types (publicChildren children)

def publicChildren : List (String × Namespace) → List (String × Namespace)
  | [] => []
  | (name, .mk true vs ts cs) :: rest =>
    (name, .mk true vs ts (publicChildren cs)) :: publicChildren rest
  | (_, .mk false _ _ _) :: rest => publicChildren rest

end

/-- Whichever machine imports from a root into that of its module, and has these two trees there: it has another
in place of the second, and all its other roots, that of the source among them, stay as they were. -/
def Delivery.Replaces (d : Delivery) (source target after : Namespace) (fault : Option Fault) :
    Prop :=
  ∀ (m : Machine) (i : Nat), m.store.root i = source → m.store.root m.task.root = target →
    m.task.root < m.store.roots.size →
      ∃ m' : Machine, m.deliver i d = m'.orRaise fault ∧ m'.store.root m.task.root = after ∧
        ∀ r, r ≠ m.task.root → m'.store.root r = m.store.root r

theorem Delivery.merge_replaces (d : Delivery) (source target : Namespace) :
    d.Replaces source target (d.merge source target).1 (d.merge source target).2 := by
  rintro m i rfl rfl hr
  refine ⟨m.received i d, Machine.deliver_eq, ?_, fun r hne => ?_⟩
  · show (m.store.setRoot _ _).root _ = _
    rw [Store.root_setRoot, if_pos ⟨rfl, hr⟩]
  · show (m.store.setRoot _ _).root _ = _
    rw [Store.root_setRoot, if_neg fun h => hne h.1]

namespace Namespace

section

variable {source target c d ns : Namespace} {q : List String} {name n : String}

theorem publicValueAt?_eq (h : (ns.publicAt? q).isSome) : ns.publicValueAt? q n = ns.valueAt? q n := by
  obtain ⟨c, hc⟩ := Option.isSome_iff_exists.mp h
  rw [publicValueAt?, valueAt?, hc, at?_of_publicAt? hc]

theorem publicTypeAt?_eq (h : (ns.publicAt? q).isSome) : ns.publicTypeAt? q n = ns.typeAt? q n := by
  obtain ⟨c, hc⟩ := Option.isSome_iff_exists.mp h
  rw [publicTypeAt?, typeAt?, hc, at?_of_publicAt? hc]

theorem Tidy.publicChild (hs : source.Tidy) (hc : source.publicChild? name = some c) : c.Tidy :=
  hs.child (publicChild?_eq_some.mp hc).1

theorem child?_overlay (hs : source.Tidy) :
    (source.overlay target).child? name =
      match source.publicChild? name with
      | some c => some (c.overlay (target.childOr name target.isPublic))
      | none => target.child? name := by
  obtain ⟨p, values, types, children⟩ := source
  have hget : (mk p values types children).child? name = Table.get? children name := rfl
  obtain ⟨-, -, hc⟩ := @overlayChildren_apply
    { target with
      values := Table.overlay values target.values
      types := Table.overlay types target.types } children (tidy_iff.mp hs).1
  rw [overlay, hc, publicChild?, hget]
  cases Table.get? children name with
  | none => rfl
  | some c => cases hp : c.isPublic <;> simp [Option.filter, hp] <;> rfl

theorem value?_overlay (hs : source.Tidy) :
    (source.overlay target).value? name = (source.value? name).or (target.value? name) := by
  rw [value?, (overlay_apply hs target).1]
  exact Table.get?_overlay ..

theorem type?_overlay (hs : source.Tidy) :
    (source.overlay target).type? name = (source.type? name).or (target.type? name) := by
  rw [type?, (overlay_apply hs target).2.1]
  exact Table.get?_overlay ..

/-- What is found at a path after an import is what the source shows there, or else what was found before. -/
theorem overlay_look {look : Namespace → Option α} (he : ∀ isPublic, look (empty isPublic) = none)
    (ho : ∀ source target : Namespace, source.Tidy →
      look (source.overlay target) = (look source).or (look target)) (hs : source.Tidy) :
    ((source.overlay target).at? q).bind look =
      ((source.publicAt? q).bind look).or ((target.at? q).bind look) := by
  induction q generalizing source target with
  | nil => exact ho source target hs
  | cons n q ih =>
    rw [at?_cons, child?_overlay hs, publicAt?_cons]
    cases hc : source.publicChild? n with
    | none => rfl
    | some c =>
      simp only [Option.bind_some]
      rw [ih (hs.publicChild hc), childOr_look he]

theorem overlay_isSome (hs : source.Tidy) :
    ((source.overlay target).at? q).isSome ↔
      (target.at? q).isSome ∨ (source.publicAt? q).isSome := by
  induction q generalizing source target with
  | nil => exact iff_of_true rfl (.inl rfl)
  | cons n q ih =>
    rw [at?_cons, child?_overlay hs, publicAt?_cons]
    cases hc : source.publicChild? n with
    | none => simp [at?_cons]
    | some c =>
      have hnil : q = [] → (c.publicAt? q).isSome := by
        rintro rfl
        rfl
      simp only [Option.bind_some]
      rw [ih (hs.publicChild hc), childOr_isSome]
      exact ⟨fun h => h.elim (fun h => h.elim (fun h => .inr (hnil h)) .inl) .inr,
        fun h => h.elim (fun h => .inl (.inr h)) .inr⟩

/-- A namespace that an import adds is as public as the one it stands in. -/
theorem overlay_new (hs : source.Tidy) (hn : target.at? (q ++ [n]) = none)
    (hc : (source.overlay target).at? q = some c)
    (hd : (source.overlay target).at? (q ++ [n]) = some d) : d.isPublic = c.isPublic := by
  induction q generalizing source target with
  | nil =>
    cases hc
    have htarget : target.child? n = none := by simpa [at?] using hn
    rw [List.nil_append, at?_cons, child?_overlay hs] at hd
    rw [(extends_overlay source).isPublic]
    cases hp : source.publicChild? n with
    | none => simp [hp, htarget] at hd
    | some e =>
      rw [hp] at hd
      cases hd
      rw [(extends_overlay e).isPublic, childOr_of_none htarget]
      rfl
  | cons m q ih =>
    rw [List.cons_append] at hn hd
    rw [at?_cons, child?_overlay hs] at hc hd
    cases hp : source.publicChild? m with
    | none =>
      rw [hp] at hd
      cases hn.symm.trans hd
    | some e =>
      rw [hp, Option.bind_some] at hc hd
      have hlow : (target.childOr m target.isPublic).at? (q ++ [n]) = none := by
        rw [← Option.not_isSome_iff_eq_none, childOr_isSome, hn]
        simp
      exact ih (hs.publicChild hp) hlow hc hd

/-- A whole import takes every entry and every namespace. -/
theorem Receives.overlay (hs : source.Tidy) (target : Namespace) :
    target.Receives source (fun _ => True) (fun _ => True) (source.overlay target) where
  value q n _ := overlay_look (fun _ => rfl) (fun _ _ h => value?_overlay h) hs
  type q n _ := overlay_look (fun _ => rfl) (fun _ _ h => type?_overlay h) hs
  otherValue q n h := absurd trivial h
  otherType q n h := absurd trivial h
  spaces q := by rw [overlay_isSome hs, true_and]
  kept := (extends_overlay source).paths
  new q n c d := overlay_new hs

end

end Namespace

mutual

/-- What stands in private namespaces has no part in an import. -/
theorem Namespace.publicPart_overlay : (source : Namespace) → (target : Namespace) →
    source.publicPart.overlay target = source.overlay target
  | .mk p vs ts cs, target => by
    rw [Namespace.publicPart, Namespace.overlay, Namespace.overlay]
    exact publicChildren_overlay cs _

theorem publicChildren_overlay : (cs : List (String × Namespace)) → (target : Namespace) →
    overlayChildren (publicChildren cs) target = overlayChildren cs target
  | [], target => by rw [publicChildren]
  | (name, .mk true vs ts cs) :: rest, target => by
    have hc := Namespace.publicPart_overlay (.mk true vs ts cs)
      (target.childOr name target.isPublic)
    rw [Namespace.publicPart] at hc
    rw [publicChildren, overlayChildren, overlayChildren, hc]
    exact publicChildren_overlay rest _
  | (name, .mk false vs ts cs) :: rest, target => by
    rw [publicChildren, overlayChildren]
    exact publicChildren_overlay rest target

end

namespace Namespace

theorem publicPart_isPublic {ns : Namespace} : ns.publicPart.isPublic = ns.isPublic := by
  cases ns
  rw [publicPart]

theorem get?_publicChildren {cs : List (String × Namespace)} {name : String} {d : Namespace}
    (h : Table.get? (publicChildren cs) name = some d) :
    ∃ c : Namespace, c.isPublic = true ∧ d = c.publicPart := by
  induction cs with
  | nil =>
    rw [publicChildren] at h
    cases h
  | cons e cs ih =>
    obtain ⟨n, p, vs, ts, ds⟩ := e
    cases p with
    | false =>
      rw [publicChildren] at h
      exact ih h
    | true =>
      rw [publicChildren, Table.get?_cons] at h
      split at h
      · cases h
        exact ⟨mk true vs ts ds, rfl, by rw [publicPart]⟩
      · exact ih h

/-- All namespaces of the public part of a tree are public, but for the one it is the part of. -/
theorem publicPart_public {ns c : Namespace} {q : List String} (hq : q ≠ [])
    (h : ns.publicPart.at? q = some c) : c.isPublic = true := by
  induction q generalizing ns with
  | nil => exact absurd rfl hq
  | cons name q ih =>
    obtain ⟨d, hd, h⟩ := Option.bind_eq_some_iff.mp h
    obtain ⟨e, he, rfl⟩ : ∃ e : Namespace, e.isPublic = true ∧ d = e.publicPart := by
      cases ns
      rw [publicPart] at hd
      exact get?_publicChildren hd
    cases q with
    | nil =>
      cases h
      rw [publicPart_isPublic, he]
    | cons m q => exact ih (List.cons_ne_nil m q) h

end Namespace

mutual

/-- An import that is repeated brings nothing new. -/
theorem Namespace.overlay_overlay : (source : Namespace) → source.Tidy → (target : Namespace) →
    source.overlay (source.overlay target) = source.overlay target
  | .mk p vs ts cs, hs, target => by
    obtain ⟨hn, hchild⟩ := Namespace.tidy_iff.mp hs
    obtain ⟨hv, ht, hc⟩ := Namespace.overlay_apply hs target
    generalize ha : (Namespace.mk p vs ts cs).overlay target = after at hv ht hc
    have hlower : { after with
        values := Table.overlay vs after.values
        types := Table.overlay ts after.types } = after := by
      rw [hv, ht, Table.overlay_overlay, Table.overlay_overlay, ← hv, ← ht]
      cases after
      rfl
    rw [Namespace.overlay, hlower]
    exact overlayChildren_again cs hn hchild after fun n c hget hp => ⟨_, hc n c hget hp⟩

/-- Children that have been taken bring nothing new. -/
theorem overlayChildren_again : (cs : List (String × Namespace)) → (Table.names cs).Nodup →
    (∀ n c, Table.get? cs n = some c → c.Tidy) → (target : Namespace) →
    (∀ n c, Table.get? cs n = some c → c.isPublic = true →
      ∃ low, target.child? n = some (c.overlay low)) → overlayChildren cs target = target
  | [], _, _, target, _ => by rw [overlayChildren]
  | (name, .mk true vs ts cs) :: rest, hn, hs, target, ht => by
    obtain ⟨hname, hn⟩ := List.nodup_cons.mp hn
    have hself : Table.get? ((name, Namespace.mk true vs ts cs) :: rest) name =
        some (.mk true vs ts cs) := by rw [Table.get?_cons, if_pos rfl]
    obtain ⟨low, hlow⟩ := ht name _ hself rfl
    have hc : (Namespace.mk true vs ts cs).overlay (target.childOr name target.isPublic) =
        (Namespace.mk true vs ts cs).overlay low := by
      rw [Namespace.childOr_of_some hlow]
      exact Namespace.overlay_overlay (.mk true vs ts cs) (hs name _ hself) low
    rw [overlayChildren, hc, Namespace.setChild_eq_self hlow]
    exact overlayChildren_again rest hn (fun n c h => hs n c (Table.get?_of_tail hname h)) target
      fun n c h => ht n c (Table.get?_of_tail hname h)
  | (name, .mk false vs ts cs) :: rest, hn, hs, target, ht => by
    obtain ⟨hname, hn⟩ := List.nodup_cons.mp hn
    rw [overlayChildren]
    exact overlayChildren_again rest hn (fun n c h => hs n c (Table.get?_of_tail hname h)) target
      fun n c h => ht n c (Table.get?_of_tail hname h)

end

/-- A whole import lays what the source shows in public namespaces over what the target holds, for a source as
all trees of a session are, in which no two children of a namespace have one name. A second import brings
nothing new, and what stands in private namespaces makes no difference. -/
theorem whole_import_is_the_public_overlay {source : Namespace} (hs : source.Tidy)
    (target : Namespace) :
    target.Receives source (fun _ => True) (fun _ => True) (source.overlay target) ∧
      Delivery.whole.Replaces source target (source.overlay target) none ∧
      source.overlay (source.overlay target) = source.overlay target ∧
      source.publicPart.overlay target = source.overlay target ∧
      ∀ q c, q ≠ [] → source.publicPart.at? q = some c → c.isPublic = true :=
  ⟨.overlay hs target, Delivery.whole.merge_replaces source target, source.overlay_overlay hs target,
    source.publicPart_overlay target, fun _ _ => Namespace.publicPart_public⟩

/-- A module with a public namespace, `open`, and a private one, `closed`. -/
def twoRooms : Namespace :=
  { isPublic := true
    values := [("top", .text "new")]
    types := []
    children :=
      [("open", { Namespace.empty true with values := [("x", .text "shown")] }),
        ("closed", { Namespace.empty false with values := [("y", .text "hidden")] })] }

/-- An importer whose own namespace `open` is private. -/
def ownRoom : Namespace :=
  { isPublic := true
    values := [("top", .text "old")]
    types := []
    children := [("open", { Namespace.empty false with values := [("z", .text "own")] })] }

theorem twoRooms_tidy : twoRooms.Tidy := by
  refine Namespace.tidy_iff.mpr ⟨by decide, fun n d hd => Namespace.tidy_of_nil ?_⟩
  have hm : (n, d) ∈ twoRooms.children := Table.mem_of_get? hd
  simp only [twoRooms, List.mem_cons, Prod.mk.injEq, List.not_mem_nil, or_false] at hm
  obtain ⟨-, rfl⟩ | ⟨-, rfl⟩ := hm <;> rfl

/-- The importer has both what it had in `open` and what is there in the module, but for a name at the root that the
module has too. Its own `open` stays private, and `closed` does not come. -/
theorem twoRooms_over_ownRoom :
    (twoRooms.overlay ownRoom).valueAt? ["open"] "x" = some (.text "shown") ∧
      (twoRooms.overlay ownRoom).valueAt? ["open"] "z" = some (.text "own") ∧
      (twoRooms.overlay ownRoom).valueAt? [] "top" = some (.text "new") ∧
      (∃ c, (twoRooms.overlay ownRoom).at? ["open"] = some c ∧ c.isPublic = false) ∧
      ¬ ((twoRooms.overlay ownRoom).at? ["closed"]).isSome := by
  obtain ⟨hr, -⟩ := whole_import_is_the_public_overlay twoRooms_tidy ownRoom
  refine ⟨(hr.value ["open"] "x" trivial).trans rfl, (hr.value ["open"] "z" trivial).trans rfl,
    (hr.value [] "top" trivial).trans rfl, hr.kept ["open"] _ rfl, fun h => ?_⟩
  rcases (hr.spaces ["closed"]).mp h with h | ⟨-, h⟩
  · cases h
  · cases h

end MatchLang
