import MatchLang.Proofs.Machine.Inversion
import MatchLang.Proofs.Namespace.Growth

/-! Trees of names in which no two children of a namespace have one name. Whatever is done to such a tree keeps
it so, and an import hands over each of its public children once. -/

namespace MatchLang

namespace Table

variable {α : Type} {t : List (String × α)} {n : String} {a : α}

theorem mem_names_set {m : String} (h : m ∈ names (set t n a)) : m = n ∨ m ∈ names t := by
  induction t with
  | nil => exact .inl (List.mem_singleton.mp h)
  | cons e t ih =>
    obtain ⟨k, b⟩ := e
    rw [set] at h
    split at h
    · rcases List.mem_cons.mp h with h | h
      · exact .inl h
      · exact .inr (List.mem_cons_of_mem _ h)
    · rcases List.mem_cons.mp h with h | h
      · exact .inr (h ▸ List.mem_cons_self)
      · exact (ih h).imp id (List.mem_cons_of_mem _)

theorem nodup_names_set (h : (names t).Nodup) : (names (set t n a)).Nodup := by
  induction t with
  | nil => exact List.nodup_cons.mpr ⟨List.not_mem_nil, List.nodup_nil⟩
  | cons e t ih =>
    obtain ⟨k, b⟩ := e
    obtain ⟨hk, ht⟩ := List.nodup_cons.mp h
    rw [set]
    split
    · rename_i he
      exact List.nodup_cons.mpr ⟨he ▸ hk, ht⟩
    · rename_i hne
      refine List.nodup_cons.mpr ⟨fun hmem => ?_, ih ht⟩
      rcases mem_names_set hmem with he | hmem
      · exact hne he
      · exact hk hmem

theorem get?_eq_none (h : n ∉ names t) : get? t n = none := by
  induction t with
  | nil => rfl
  | cons e t ih =>
    obtain ⟨k, b⟩ := e
    obtain ⟨hk, ht⟩ := not_or.mp fun he => h (List.mem_cons.mpr he)
    rw [get?_cons, if_neg hk]
    exact ih ht

theorem get?_of_tail {m : String} {b : α} (hn : n ∉ names t) (h : get? t m = some b) :
    get? ((n, a) :: t) m = some b := by
  have hne : m ≠ n := by
    rintro rfl
    cases (get?_eq_none hn).symm.trans h
  rw [get?_cons, if_neg hne, h]

end Table

/-- No two children of a namespace have one name, in the whole tree. -/
def Namespace.Tidy (ns : Namespace) : Prop :=
  ∀ path c, ns.at? path = some c → (Table.names c.children).Nodup

/-- An import takes the entry of a path, be it that the path is named or that one before it is. -/
def Delivery.Takes (path : List String) : Delivery → Prop
  | .whole => True
  | .entry named => named <+: path

namespace Namespace

variable {ns ns' c source target : Namespace} {path walked : List String} {name : String}
  {cs : List (String × Namespace)} {v : Value} {t : DataType}

theorem tidy_iff : ns.Tidy ↔
    (Table.names ns.children).Nodup ∧ ∀ n d, ns.child? n = some d → d.Tidy := by
  constructor
  · intro h
    refine ⟨h [] ns rfl, fun n d hd path c hc => h (n :: path) c ?_⟩
    rw [at?_cons, hd]
    exact hc
  · rintro ⟨hn, h⟩ path c hc
    cases path with
    | nil =>
      cases hc
      exact hn
    | cons n path =>
      rw [at?_cons] at hc
      obtain ⟨d, hd, hc⟩ := Option.bind_eq_some_iff.mp hc
      exact h n d hd path c hc

theorem tidy_of_nil (h : ns.children = []) : ns.Tidy := by
  refine tidy_iff.mpr ⟨h ▸ List.nodup_nil, fun n d hd => ?_⟩
  rw [child?, h] at hd
  cases hd

namespace Tidy

theorem of_children (h : ns.Tidy) (hc : ns'.children = ns.children) : ns'.Tidy := by
  obtain ⟨hn, hd⟩ := tidy_iff.mp h
  refine tidy_iff.mpr ⟨hc ▸ hn, fun n d hnd => hd n d ?_⟩
  rw [child?, ← hc]
  exact hnd

theorem child (h : ns.Tidy) (hc : ns.child? name = some c) : c.Tidy :=
  (tidy_iff.mp h).2 name c hc

theorem childOr {isPublic : Bool} (h : ns.Tidy) : (ns.childOr name isPublic).Tidy := by
  unfold Namespace.childOr
  cases hc : ns.child? name with
  | none => exact tidy_of_nil rfl
  | some c => exact h.child hc

theorem setChild (h : ns.Tidy) (hc : c.Tidy) : (ns.setChild name c).Tidy := by
  obtain ⟨hn, hd⟩ := tidy_iff.mp h
  refine tidy_iff.mpr ⟨Table.nodup_names_set hn, fun n d hnd => ?_⟩
  rw [child?_setChild] at hnd
  split at hnd
  · cases hnd
    exact hc
  · exact hd n d hnd

theorem updateAt {change : Namespace → Namespace} (hch : ∀ c, c.Tidy → (change c).Tidy)
    (h : ns.Tidy) : (ns.updateAt change path).Tidy := by
  induction path generalizing ns with
  | nil => exact hch ns h
  | cons name path ih =>
    rw [Namespace.updateAt]
    cases hc : ns.child? name with
    | none => exact h
    | some c => exact h.setChild (ih (h.child hc))

theorem addFamily {cases : List Case} (h : ns.Tidy) : (ns.addFamily name cases).Tidy := by
  have hf : ∀ (ks : List Case) (ns : Namespace), ns.Tidy → (ks.foldl addCase ns).Tidy := by
    intro ks
    induction ks with
    | nil => exact fun ns h => h
    | cons k ks ih => exact fun ns h => ih _ (h.of_children rfl)
  exact hf cases _ (h.of_children rfl)

theorem make? {isPublic : Bool} (h : ns.Tidy) (hm : ns.make? isPublic path = some c) :
    c.Tidy := by
  induction path generalizing ns c with
  | nil => exact Option.some.inj hm ▸ h
  | cons name path ih =>
    rw [Namespace.make?] at hm
    split at hm
    · cases hm
    · obtain ⟨d, hd, rfl⟩ := Option.map_eq_some_iff.mp hm
      exact h.setChild (ih h.childOr hd)

theorem declares (h : ns.Tidy) (hd : ns.Declares ns') : ns'.Tidy := by
  cases hd with
  | value path name v => exact h.updateAt fun c hc => hc.of_children rfl
  | family path name cases => exact h.updateAt fun c hc => hc.addFamily
  | space hm =>
    unfold make at hm
    split at hm
    · rename_i d hd
      cases hm
      exact h.make? hd
    · cases hm

end Tidy

end Namespace

mutual

theorem Namespace.Tidy.overlay : (source : Namespace) → {target : Namespace} → target.Tidy →
    (source.overlay target).Tidy
  | .mk _ values types children, target, h => by
    rw [Namespace.overlay]
    exact tidy_overlayChildren children (h.of_children rfl)

theorem tidy_overlayChildren : (cs : List (String × Namespace)) → {target : Namespace} →
    target.Tidy → (overlayChildren cs target).Tidy
  | [], _, h => h
  | (name, .mk true vs ts cs) :: rest, target, h => by
    rw [overlayChildren]
    have hc : ((Namespace.mk true vs ts cs).overlay (target.childOr name target.isPublic)).Tidy :=
      Namespace.Tidy.overlay (.mk true vs ts cs) h.childOr
    exact tidy_overlayChildren rest (h.setChild hc)
  | (_, .mk false _ _ _) :: rest, _, h => by
    rw [overlayChildren]
    exact tidy_overlayChildren rest h

end

namespace Namespace

variable {source target : Namespace} {cs : List (String × Namespace)}

theorem Tidy.merge {d : Delivery} (h : target.Tidy) : (d.merge source target).1.Tidy := by
  cases d with
  | whole => exact h.overlay source
  | entry named =>
    obtain ⟨part, he, -⟩ : ∃ part : Namespace, (source.importEntry target named).1 = _ ∧ _ :=
      importFrom_overlay
    rw [Delivery.merge, he]
    exact .overlay part h

theorem overlayChildren_apply (hn : (Table.names cs).Nodup) :
    (overlayChildren cs target).values = target.values ∧
      (overlayChildren cs target).types = target.types ∧
      ∀ n, (overlayChildren cs target).child? n =
        match Table.get? cs n with
        | some c => if c.isPublic then some (c.overlay (target.childOr n target.isPublic))
          else target.child? n
        | none => target.child? n := by
  induction cs generalizing target with
  | nil =>
    rw [overlayChildren]
    exact ⟨rfl, rfl, fun n => rfl⟩
  | cons e cs ih =>
    obtain ⟨name, c⟩ := e
    obtain ⟨hname, hcs⟩ := List.nodup_cons.mp hn
    have hnone : Table.get? cs name = none := Table.get?_eq_none hname
    obtain ⟨p, vs, ts, ds⟩ := c
    cases p with
    | true =>
      rw [overlayChildren]
      obtain ⟨hv, ht, hc⟩ := @ih (target.setChild name
        ((mk true vs ts ds).overlay (target.childOr name target.isPublic))) hcs
      refine ⟨hv, ht, fun n => ?_⟩
      rw [hc, Table.get?_cons]
      by_cases he : n = name
      -- No later child has the name, so what this one has made of it stays.
      · subst he
        rw [hnone, if_pos rfl]
        simp only [child?_setChild, if_true]
      · rw [if_neg he]
        have hchild : ∀ d, (target.setChild name d).child? n = target.child? n := fun d => by
          rw [child?_setChild, if_neg he]
        simp only [hchild, childOr]
        rfl
    | false =>
      rw [overlayChildren]
      obtain ⟨hv, ht, hc⟩ := @ih target hcs
      refine ⟨hv, ht, fun n => ?_⟩
      rw [hc, Table.get?_cons]
      by_cases he : n = name
      · subst he
        rw [hnone, if_pos rfl]
        rfl
      · rw [if_neg he]

theorem overlay_apply (hn : source.Tidy) (target : Namespace) :
    (source.overlay target).values = Table.overlay source.values target.values ∧
      (source.overlay target).types = Table.overlay source.types target.types ∧
      ∀ n c, source.child? n = some c → c.isPublic = true →
        (source.overlay target).child? n = some (c.overlay (target.childOr n target.isPublic)) := by
  obtain ⟨p, values, types, children⟩ := source
  let lower : Namespace :=
    { target with
      values := Table.overlay values target.values
      types := Table.overlay types target.types }
  have happly : (overlayChildren children lower).values = lower.values ∧ _ ∧ _ :=
    overlayChildren_apply (tidy_iff.mp hn).1
  obtain ⟨hv, ht, hc⟩ := happly
  rw [overlay]
  refine ⟨hv, ht, fun n c hcn hp => ?_⟩
  have hget : Table.get? children n = some c := hcn
  rw [hc, hget]
  exact if_pos hp

end Namespace

end MatchLang
