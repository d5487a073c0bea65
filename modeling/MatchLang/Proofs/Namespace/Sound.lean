import MatchLang.Proofs.Namespace.Seed

/-! Trees of names that hold well-formed values and types only. Everything that changes a tree keeps
it so, and keeps the namespaces that are there. -/

namespace MatchLang

namespace Table

variable {α : Type} {t upper lower : List (String × α)} {name : String} {a : α}
  {P : String × α → Prop}

theorem forall_mem_set (h : ∀ e ∈ t, P e) (ha : P (name, a)) : ∀ e ∈ set t name a, P e := by
  induction t with
  | nil =>
    intro e he
    rw [set, List.mem_singleton] at he
    exact he ▸ ha
  | cons d t ih =>
    obtain ⟨n, b⟩ := d
    intro e he
    rw [set] at he
    split at he
    · rcases List.mem_cons.mp he with rfl | he
      · exact ha
      · exact h e (List.mem_cons_of_mem _ he)
    · rcases List.mem_cons.mp he with rfl | he
      · exact h _ List.mem_cons_self
      · exact ih (fun e he => h e (List.mem_cons_of_mem _ he)) e he

theorem forall_mem_only (h : ∀ e ∈ t, P e) : ∀ e ∈ only t name, P e := by
  intro e he
  unfold only at he
  cases hg : get? t name with
  | none =>
    rw [hg] at he
    cases he
  | some a =>
    rw [hg, List.mem_singleton] at he
    exact he ▸ h _ (mem_of_get? hg)

theorem forall_mem_overlay (hu : ∀ e ∈ upper, P e) (hl : ∀ e ∈ lower, P e) :
    ∀ e ∈ overlay upper lower, P e := by
  induction upper with
  | nil => exact hl
  | cons d upper ih =>
    exact forall_mem_set (ih fun e he => hu e (List.mem_cons_of_mem _ he))
      (hu d List.mem_cons_self)

end Table

mutual

def Namespace.Sound (κ : Registry) (P : Closure → Prop) : Namespace → Prop
  | .mk _ values types children =>
    (∀ e ∈ values, e.2.Sound κ P) ∧ (∀ e ∈ types, e.2.Sound κ) ∧ ChildrenSound κ P children

def ChildrenSound (κ : Registry) (P : Closure → Prop) : List (String × Namespace) → Prop
  | [] => True
  | (_, ns) :: rest => ns.Sound κ P ∧ ChildrenSound κ P rest

end

section

variable {κ : Registry} {P : Closure → Prop} {ns c source target : Namespace}
  {cs : List (String × Namespace)} {path : List String} {name : String} {v : Value} {t : DataType}

theorem childrenSound_iff : ChildrenSound κ P cs ↔ ∀ e ∈ cs, e.2.Sound κ P := by
  induction cs with
  | nil => simp [ChildrenSound]
  | cons e cs ih => simp [ChildrenSound, ih]

theorem Namespace.sound_iff :
    ns.Sound κ P ↔ (∀ e ∈ ns.values, e.2.Sound κ P) ∧ (∀ e ∈ ns.types, e.2.Sound κ) ∧
      ∀ e ∈ ns.children, e.2.Sound κ P := by
  obtain ⟨isPublic, values, types, children⟩ := ns
  rw [Namespace.Sound, childrenSound_iff]

namespace Namespace

theorem empty_sound {isPublic : Bool} : (empty isPublic).Sound κ P :=
  sound_iff.mpr ⟨nofun, nofun, nofun⟩

namespace Sound

theorem value (h : ns.Sound κ P) (hv : ns.value? name = some v) : v.Sound κ P :=
  (sound_iff.mp h).1 _ (Table.mem_of_get? hv)

theorem type (h : ns.Sound κ P) (ht : ns.type? name = some t) : t.Sound κ :=
  (sound_iff.mp h).2.1 _ (Table.mem_of_get? ht)

theorem child (h : ns.Sound κ P) (hc : ns.child? name = some c) : c.Sound κ P :=
  (sound_iff.mp h).2.2 _ (Table.mem_of_get? hc)

theorem at? (h : ns.Sound κ P) (hc : ns.at? path = some c) : c.Sound κ P := by
  induction path generalizing ns with
  | nil => exact Option.some.inj hc ▸ h
  | cons name path ih =>
    obtain ⟨d, hd, hc⟩ := Option.bind_eq_some_iff.mp hc
    exact ih (h.child hd) hc

theorem findValue (h : ns.Sound κ P) (hv : ns.findValue path = .ok v) : v.Sound κ P := by
  obtain ⟨n, _, hv⟩ := findValue_eq_ok.mp hv
  obtain ⟨c, hc, hv⟩ := Option.bind_eq_some_iff.mp hv
  exact (h.at? hc).value hv

theorem findType (h : ns.Sound κ P) : SoundTypes κ ns.findType := by
  intro path t ht
  obtain ⟨n, _, ht⟩ := findType_eq_ok.mp ht
  obtain ⟨c, hc, ht⟩ := Option.bind_eq_some_iff.mp ht
  exact (h.at? hc).type ht

theorem setValue (h : ns.Sound κ P) (hv : v.Sound κ P) : (ns.setValue name v).Sound κ P := by
  obtain ⟨hvs, hts, hcs⟩ := sound_iff.mp h
  exact sound_iff.mpr ⟨Table.forall_mem_set hvs hv, hts, hcs⟩

theorem setType (h : ns.Sound κ P) (ht : t.Sound κ) : (ns.setType name t).Sound κ P := by
  obtain ⟨hvs, hts, hcs⟩ := sound_iff.mp h
  exact sound_iff.mpr ⟨hvs, Table.forall_mem_set hts ht, hcs⟩

theorem setChild (h : ns.Sound κ P) (hc : c.Sound κ P) : (ns.setChild name c).Sound κ P := by
  obtain ⟨hvs, hts, hcs⟩ := sound_iff.mp h
  exact sound_iff.mpr ⟨hvs, hts, Table.forall_mem_set hcs hc⟩

theorem childOr {isPublic : Bool} (h : ns.Sound κ P) : (ns.childOr name isPublic).Sound κ P := by
  unfold Namespace.childOr
  cases hc : ns.child? name with
  | none => exact empty_sound
  | some c => exact h.child hc

theorem addCase {k : Case} (h : ns.Sound κ P) (hk : κ.Has k) : (ns.addCase k).Sound κ P :=
  have ht : DataType.Sound κ (.case k) := hk
  (h.setType ht).setValue (Case.value_sound hk)

theorem addFamily {cases : List Case} (h : ns.Sound κ P) (hk : ∀ k ∈ cases, κ.Has k) :
    (ns.addFamily name cases).Sound κ P := by
  have hf : ∀ (ks : List Case) (ns : Namespace), ns.Sound κ P → (∀ k ∈ ks, κ.Has k) →
      (ks.foldl Namespace.addCase ns).Sound κ P := by
    intro ks
    induction ks with
    | nil => exact fun ns h _ => h
    | cons k ks ih =>
      intro ns h hks
      exact ih _ (h.addCase (hks k List.mem_cons_self)) fun k hk => hks k (List.mem_cons_of_mem _ hk)
  exact hf cases _ (h.setType hk) hk

theorem updateAt {change : Namespace → Namespace} (hch : ∀ c, c.Sound κ P → (change c).Sound κ P)
    (h : ns.Sound κ P) : (ns.updateAt change path).Sound κ P := by
  induction path generalizing ns with
  | nil => exact hch ns h
  | cons name path ih =>
    rw [Namespace.updateAt]
    cases hc : ns.child? name with
    | none => exact h
    | some c => exact h.setChild (ih (h.child hc))

theorem make? {isPublic : Bool} (h : ns.Sound κ P) (hm : ns.make? isPublic path = some c) :
    c.Sound κ P := by
  induction path generalizing ns c with
  | nil => exact Option.some.inj hm ▸ h
  | cons name path ih =>
    rw [Namespace.make?] at hm
    split at hm
    · cases hm
    · obtain ⟨d, hd, rfl⟩ := Option.map_eq_some_iff.mp hm
      exact h.setChild (ih h.childOr hd)

theorem make {isPublic : Bool} (h : ns.Sound κ P) (hm : ns.make path isPublic = .ok c) :
    c.Sound κ P := by
  unfold Namespace.make at hm
  split at hm
  · rename_i d hd
    cases hm
    exact h.make? hd
  · cases hm

end Sound

end Namespace

end

mutual

theorem Namespace.Sound.overlay {κ : Registry} {P : Closure → Prop} :
    {source : Namespace} → {target : Namespace} → source.Sound κ P → target.Sound κ P →
      (source.overlay target).Sound κ P
  | .mk _ values types children, target, hs, ht => by
    obtain ⟨hvs, hts, hcs⟩ := hs
    obtain ⟨hvt, htt, hct⟩ := Namespace.sound_iff.mp ht
    rw [Namespace.overlay]
    exact overlayChildren_sound hcs (Namespace.sound_iff.mpr
      ⟨Table.forall_mem_overlay hvs hvt, Table.forall_mem_overlay hts htt, hct⟩)

theorem overlayChildren_sound {κ : Registry} {P : Closure → Prop} :
    {cs : List (String × Namespace)} → {target : Namespace} → ChildrenSound κ P cs →
      target.Sound κ P → (overlayChildren cs target).Sound κ P
  | [], _, _, ht => ht
  | (name, .mk true vs ts cs) :: rest, target, hs, ht => by
    rw [overlayChildren]
    exact overlayChildren_sound hs.2 (ht.setChild (Namespace.Sound.overlay hs.1 ht.childOr))
  | (_, .mk false _ _ _) :: rest, target, hs, ht => by
    rw [overlayChildren]
    exact overlayChildren_sound hs.2 ht

end

section

variable {κ : Registry} {P : Closure → Prop} {source target : Namespace}

namespace Namespace.Sound

theorem entryPart (hs : source.Sound κ P) (path : List String) (name : String) :
    (source.entryPart path name).Sound κ P := by
  induction path generalizing source with
  | nil =>
    obtain ⟨hvs, hts, hcs⟩ := sound_iff.mp hs
    rw [Namespace.entryPart]
    split
    · exact sound_iff.mpr ⟨Table.forall_mem_only hvs, Table.forall_mem_only hts,
        Table.forall_mem_only hcs⟩
    · exact empty_sound
  | cons part path ih =>
    cases hp : source.publicChild? part with
    | none =>
      rw [entryPart_cons_closed hp]
      exact empty_sound
    | some c =>
      have hc : (c.entryPart path name).Sound κ P := ih (hs.child (publicChild?_eq_some.mp hp).1)
      rw [entryPart_cons_open hp]
      refine sound_iff.mpr ⟨fun _ he => absurd he List.not_mem_nil,
        fun _ he => absurd he List.not_mem_nil, fun e he => ?_⟩
      exact List.mem_singleton.mp he ▸ hc

theorem importEntry {path : List String} (hs : source.Sound κ P) (ht : target.Sound κ P) :
    (source.importEntry target path).1.Sound κ P := by
  obtain ⟨part, h, hpart⟩ : ∃ part : Namespace, (source.importEntry target path).1 = _ ∧ _ :=
    importFrom_overlay
  have hp : part.Sound κ P := by
    obtain rfl | ⟨front, name, rfl⟩ := hpart
    · exact empty_sound
    · exact hs.entryPart front name
  rw [h]
  exact hp.overlay ht

end Namespace.Sound

end

mutual

theorem Namespace.Sound.mono {κ κ' : Registry} {P Q : Closure → Prop}
    (hκ : ∀ c, κ.Has c → κ'.Has c) (hp : ∀ c, P c → Q c) :
    {ns : Namespace} → ns.Sound κ P → ns.Sound κ' Q
  | .mk _ _ _ _, h =>
    ⟨fun e he => (h.1 e he).mono hκ hp, fun e he => (h.2.1 e he).mono hκ,
      ChildrenSound.mono hκ hp h.2.2⟩

theorem ChildrenSound.mono {κ κ' : Registry} {P Q : Closure → Prop}
    (hκ : ∀ c, κ.Has c → κ'.Has c) (hp : ∀ c, P c → Q c) :
    {cs : List (String × Namespace)} → ChildrenSound κ P cs → ChildrenSound κ' Q cs
  | [], _ => trivial
  | (_, _) :: _, h => ⟨Namespace.Sound.mono hκ hp h.1, ChildrenSound.mono hκ hp h.2⟩

end

theorem seed_values_sound {e : String × Value}
    (h : e ∈ (builtins.seed (.empty true)).values) (P : Closure → Prop) :
    e.2.Sound builtinRegistry P := by
  have hv : (builtins.seed (.empty true)).values =
      [("Unit", .constant builtins.unit), ("::", .constructor builtins.cons),
        ("Empty", .constant builtins.empty), ("True", .constant builtins.yes),
        ("False", .constant builtins.no)] ++ Native.all.map fun f => (f.name, .native f) := rfl
  rw [hv] at h
  rcases List.mem_append.mp h with h | h
  · simp only [List.mem_cons, List.not_mem_nil, or_false] at h
    rcases h with rfl | rfl | rfl | rfl | rfl <;> exact ⟨rfl, by decide⟩
  · obtain ⟨f, _, rfl⟩ := List.mem_map.mp h
    trivial

theorem seed_sound (P : Closure → Prop) : (builtins.seed (.empty true)).Sound builtinRegistry P :=
  Namespace.sound_iff.mpr ⟨fun _ he => seed_values_sound he P, fun _ he => seed_types_sound he,
    fun e he => by rw [seed_children] at he; cases he⟩

end MatchLang
