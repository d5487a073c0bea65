import MatchLang.Namespace.Import
import MatchLang.Machine.Step
import MatchLang.Proofs.Namespace.Growth
import MatchLang.Proofs.Value.Like

/-! Trees of names that hold the same values and types but for the numbers in these. Whatever is done to two of
them gives two of them, or the same fault. -/

namespace MatchLang

/-- Both are missing, or both are there and related. -/
def Both {α β : Type} (r : α → β → Prop) (x : Option α) (y : Option β) : Prop :=
  (x = none ∧ y = none) ∨ ∃ a b, x = some a ∧ y = some b ∧ r a b

/-- The same names in the same order, for what is related. -/
inductive TableLike {α β : Type} (r : α → β → Prop) : List (String × α) → List (String × β) → Prop where
  | nil : TableLike r [] []
  | cons {a b t t'} (name : String) : r a b → TableLike r t t' →
    TableLike r ((name, a) :: t) ((name, b) :: t')

inductive Namespace.Like (ρ : Numbering) (A : Code → Prop) : Namespace → Namespace → Prop where
  | mk {isPublic values values' types types' children children'} :
    TableLike (Value.Like ρ A) values values' → TableLike (DataType.Like ρ) types types' →
    TableLike (Like ρ A) children children' →
    Like ρ A ⟨isPublic, values, types, children⟩ ⟨isPublic, values', types', children'⟩

section

variable {α β γ δ : Type} {r : α → β → Prop} {s : γ → δ → Prop} {x : Option α} {y : Option β}
  {t upper lower : List (String × α)} {t' upper' lower' : List (String × β)} {a : α} {b : β}

theorem Both.bind {f : α → Option γ} {g : β → Option δ} (h : Both r x y)
    (hf : ∀ a b, r a b → Both s (f a) (g b)) : Both s (x.bind f) (y.bind g) := by
  obtain ⟨rfl, rfl⟩ | ⟨a, b, rfl, rfl, hab⟩ := h
  · exact .inl ⟨rfl, rfl⟩
  · exact hf a b hab

theorem Both.map {f : α → γ} {g : β → δ} (h : Both r x y) (hf : ∀ a b, r a b → s (f a) (g b)) :
    Both s (x.map f) (y.map g) := by
  obtain ⟨rfl, rfl⟩ | ⟨a, b, rfl, rfl, hab⟩ := h
  · exact .inl ⟨rfl, rfl⟩
  · exact .inr ⟨_, _, rfl, rfl, hf a b hab⟩

theorem Both.imp {r' : α → β → Prop} (h : Both r x y) (hr : ∀ a b, r a b → r' a b) : Both r' x y :=
  Or.imp_right (fun ⟨a, b, ha, hb, hab⟩ => ⟨a, b, ha, hb, hr a b hab⟩) h

theorem Both.isSome_eq (h : Both r x y) : x.isSome = y.isSome := by
  obtain ⟨rfl, rfl⟩ | ⟨a, b, rfl, rfl, _⟩ := h <;> rfl

theorem Both.getD (h : Both r x y) (hab : r a b) : r (x.getD a) (y.getD b) := by
  obtain ⟨rfl, rfl⟩ | ⟨a', b', rfl, rfl, hr⟩ := h
  · exact hab
  · exact hr

namespace TableLike

theorem get? (h : TableLike r t t') (name : String) : Both r (Table.get? t name) (Table.get? t' name) := by
  induction h with
  | nil => exact .inl ⟨rfl, rfl⟩
  | cons n hab _ ih =>
    rw [Table.get?_cons, Table.get?_cons]
    split
    · exact .inr ⟨_, _, rfl, rfl, hab⟩
    · exact ih

theorem set (h : TableLike r t t') (name : String) (hab : r a b) :
    TableLike r (Table.set t name a) (Table.set t' name b) := by
  induction h with
  | nil => exact .cons name hab .nil
  | cons n hr ht ih =>
    rw [Table.set, Table.set]
    split
    · exact .cons name hab ht
    · exact .cons n hr ih

theorem overlay (hu : TableLike r upper upper') (hl : TableLike r lower lower') :
    TableLike r (Table.overlay upper lower) (Table.overlay upper' lower') := by
  induction hu with
  | nil => exact hl
  | cons n hr _ ih => exact ih.set n hr

theorem imp {r' : α → β → Prop} (h : TableLike r t t') (hr : ∀ a b, r a b → r' a b) :
    TableLike r' t t' := by
  induction h with
  | nil => exact .nil
  | cons n hab _ ih => exact .cons n (hr _ _ hab) ih

end TableLike

end

section

variable {ρ ρ' : Numbering} {A : Code → Prop} {ns ns' c c' source source' target target' : Namespace}
  {v v' : Value} {t t' : DataType} {n n' : Nat} {name : String} {path walked : List String}

theorem Namespace.empty_like (isPublic : Bool) : (empty isPublic).Like ρ A (empty isPublic) :=
  .mk .nil .nil .nil

namespace Namespace.Like

theorem isPublic_eq (h : ns.Like ρ A ns') : ns.isPublic = ns'.isPublic := by
  cases h
  rfl

theorem value? (h : ns.Like ρ A ns') (name : String) :
    Both (Value.Like ρ A) (ns.value? name) (ns'.value? name) := by
  cases h with
  | mk hvs _ _ => exact hvs.get? name

theorem type? (h : ns.Like ρ A ns') (name : String) :
    Both (DataType.Like ρ) (ns.type? name) (ns'.type? name) := by
  cases h with
  | mk _ hts _ => exact hts.get? name

theorem child? (h : ns.Like ρ A ns') (name : String) :
    Both (Namespace.Like ρ A) (ns.child? name) (ns'.child? name) := by
  cases h with
  | mk _ _ hcs => exact hcs.get? name

theorem setValue (h : ns.Like ρ A ns') (name : String) (hv : v.Like ρ A v') :
    (ns.setValue name v).Like ρ A (ns'.setValue name v') := by
  cases h with
  | mk hvs hts hcs => exact .mk (hvs.set name hv) hts hcs

theorem setType (h : ns.Like ρ A ns') (name : String) (ht : t.Like ρ t') :
    (ns.setType name t).Like ρ A (ns'.setType name t') := by
  cases h with
  | mk hvs hts hcs => exact .mk hvs (hts.set name ht) hcs

theorem setChild (h : ns.Like ρ A ns') (name : String) (hc : c.Like ρ A c') :
    (ns.setChild name c).Like ρ A (ns'.setChild name c') := by
  cases h with
  | mk hvs hts hcs => exact .mk hvs hts (hcs.set name hc)

theorem childOr (h : ns.Like ρ A ns') (name : String) (isPublic : Bool) :
    (ns.childOr name isPublic).Like ρ A (ns'.childOr name isPublic) :=
  (h.child? name).getD (empty_like isPublic)

theorem at? (h : ns.Like ρ A ns') (path : List String) :
    Both (Namespace.Like ρ A) (ns.at? path) (ns'.at? path) := by
  induction path generalizing ns ns' with
  | nil => exact .inr ⟨ns, ns', rfl, rfl, h⟩
  | cons name path ih => exact (h.child? name).bind fun _ _ hc => ih hc

theorem findValue (h : ns.Like ρ A ns') (path : List String) :
    Concord (Value.Like ρ A) (ns.findValue path) (ns'.findValue path) := by
  unfold Namespace.findValue
  cases path.getLast? with
  | none => exact .error _
  | some name =>
    have hv : Both (Value.Like ρ A) (ns.valueAt? path.dropLast name) (ns'.valueAt? path.dropLast name) :=
      (h.at? path.dropLast).bind fun _ _ hc => hc.value? name
    simp only [Option.bind_some]
    obtain ⟨h₁, h₂⟩ | ⟨v, v', h₁, h₂, hvv⟩ := hv
    · rw [h₁, h₂]
      exact .error _
    · rw [h₁, h₂]
      exact .ok hvv

theorem findType (h : ns.Like ρ A ns') : TypesAgree ρ ns.findType ns'.findType := by
  intro path
  unfold Namespace.findType
  cases path.getLast? with
  | none => exact .error _
  | some name =>
    have ht : Both (DataType.Like ρ) (ns.typeAt? path.dropLast name) (ns'.typeAt? path.dropLast name) :=
      (h.at? path.dropLast).bind fun _ _ hc => hc.type? name
    simp only [Option.bind_some]
    obtain ⟨h₁, h₂⟩ | ⟨t, t', h₁, h₂, htt⟩ := ht
    · rw [h₁, h₂]
      exact .error _
    · rw [h₁, h₂]
      exact .ok htt

theorem findFrom (h : ns.Like ρ A ns') (walked path : List String) :
    Concord (Namespace.Like ρ A) (ns.findFrom walked path) (ns'.findFrom walked path) := by
  induction path generalizing ns ns' walked with
  | nil => exact .ok h
  | cons name path ih =>
    simp only [Namespace.findFrom]
    obtain ⟨h₁, h₂⟩ | ⟨c, c', h₁, h₂, hc⟩ := h.child? name
    · rw [h₁, h₂]
      exact .error _
    · rw [h₁, h₂]
      exact ih hc _

theorem updateAt {change change' : Namespace → Namespace}
    (hch : ∀ c c' : Namespace, c.Like ρ A c' → (change c).Like ρ A (change' c'))
    (h : ns.Like ρ A ns') : (ns.updateAt change path).Like ρ A (ns'.updateAt change' path) := by
  induction path generalizing ns ns' with
  | nil => exact hch ns ns' h
  | cons name path ih =>
    rw [Namespace.updateAt, Namespace.updateAt]
    obtain ⟨h₁, h₂⟩ | ⟨c, c', h₁, h₂, hc⟩ := h.child? name
    · rw [h₁, h₂]
      exact h
    · rw [h₁, h₂]
      exact h.setChild name (ih hc)

theorem make? (h : ns.Like ρ A ns') (isPublic : Bool) (path : List String) :
    Both (Namespace.Like ρ A) (ns.make? isPublic path) (ns'.make? isPublic path) := by
  induction path generalizing ns ns' with
  | nil => exact .inr ⟨ns, ns', rfl, rfl, h⟩
  | cons name path ih =>
    rw [Namespace.make?, Namespace.make?, h.isPublic_eq]
    split
    · exact .inl ⟨rfl, rfl⟩
    · exact (ih (h.childOr name isPublic)).map fun _ _ hc => h.setChild name hc

theorem make (h : ns.Like ρ A ns') (path : List String) (isPublic : Bool) :
    Concord (Namespace.Like ρ A) (ns.make path isPublic) (ns'.make path isPublic) := by
  unfold Namespace.make
  obtain ⟨h₁, h₂⟩ | ⟨c, c', h₁, h₂, hc⟩ := h.make? isPublic path
  · rw [h₁, h₂]
    exact .error _
  · rw [h₁, h₂]
    exact .ok hc

theorem addCase {k k' : Case} (h : ns.Like ρ A ns') (hk : k.Like ρ k') :
    (ns.addCase k).Like ρ A (ns'.addCase k') := by
  have hv : k.value.Like ρ A k'.value := by
    rw [Case.value, Case.value, ← hk.arity]
    split
    · rename_i ha
      exact .constant hk ha
    · rename_i ha
      exact .constructor hk (Nat.pos_of_ne_zero ha)
  rw [Namespace.addCase, Namespace.addCase, ← hk.name]
  exact (h.setType k.name (.case hk)).setValue k.name hv

theorem addFamily {ks ks' : List Case} (h : ns.Like ρ A ns') (name : String)
    (hk : List.Forall₂ (Case.Like ρ) ks ks') :
    (ns.addFamily name ks).Like ρ A (ns'.addFamily name ks') := by
  have hfold : ∀ {js js' : List Case} {c c' : Namespace}, List.Forall₂ (Case.Like ρ) js js' →
      c.Like ρ A c' → (js.foldl Namespace.addCase c).Like ρ A (js'.foldl Namespace.addCase c') := by
    intro js js' c c' hj
    induction hj generalizing c c' with
    | nil => exact id
    | cons hk _ ih => exact fun hc => ih (hc.addCase hk)
  exact hfold hk (h.setType name (.family hk))

mutual

theorem overlay : {source source' target target' : Namespace} → source.Like ρ A source' →
    target.Like ρ A target' → (source.overlay target).Like ρ A (source'.overlay target')
  | .mk _ _ _ _, _, _, _, .mk hvs hts hcs, .mk hvs' hts' hcs' => by
    rw [Namespace.overlay, Namespace.overlay]
    exact overlayChildren_like hcs (.mk (hvs.overlay hvs') (hts.overlay hts') hcs')

theorem overlayChildren_like : {cs cs' : List (String × Namespace)} → {target target' : Namespace} →
    TableLike (Namespace.Like ρ A) cs cs' → target.Like ρ A target' →
      (overlayChildren cs target).Like ρ A (overlayChildren cs' target')
  | [], _, _, _, .nil, ht => ht
  | (_, .mk isPublic vs ts cs) :: rest, _, target, target', .cons name hc hrest, ht => by
    have ih := fun {c c' : Namespace} (hcc : c.Like ρ A c') => overlay hc hcc
    have hr := fun {c c' : Namespace} (hcc : c.Like ρ A c') => overlayChildren_like hrest hcc
    cases hc with
    | mk hvs hts hcs =>
      cases isPublic with
      | false =>
        rw [overlayChildren, overlayChildren]
        exact hr ht
      | true =>
        rw [overlayChildren, overlayChildren, ht.isPublic_eq]
        exact hr (ht.setChild _ (ih (ht.childOr _ _)))

end

theorem takeEntry (hs : source.Like ρ A source') (ht : target.Like ρ A target') (name : String) :
    (source.takeEntry target name).Like ρ A (source'.takeEntry target' name) := by
  unfold Namespace.takeEntry
  obtain ⟨hv₁, hv₂⟩ | ⟨v, v', hv₁, hv₂, hv⟩ := hs.value? name <;>
    obtain ⟨ht₁, ht₂⟩ | ⟨t, t', ht₁, ht₂, htt⟩ := hs.type? name <;> rw [hv₁, hv₂, ht₁, ht₂]
  · exact ht
  · exact ht.setType name htt
  · exact ht.setValue name hv
  · exact (ht.setValue name hv).setType name htt

theorem importName (hs : source.Like ρ A source') (ht : target.Like ρ A target')
    (path : List String) (name : String) :
    Concord (Namespace.Like ρ A) (source.importName target path name)
      (source'.importName target' path name) := by
  have htaken := hs.takeEntry ht name
  unfold Namespace.importName
  simp only [(hs.value? name).isSome_eq, (hs.type? name).isSome_eq, (hs.child? name).isSome_eq]
  split
  · exact .error _
  · obtain ⟨h₁, h₂⟩ | ⟨c, c', h₁, h₂, hc⟩ := hs.child? name
    · simp only [h₁, h₂, Option.any_none]
      exact .ok htaken
    · simp only [h₁, h₂, Option.any_some, hc.isPublic_eq]
      split
      · exact .error _
      · have hchild : ∀ {d d' : Namespace}, d.Like ρ A d' →
            (d.setChild name (c.overlay (d.childOr name d.isPublic))).Like ρ A
              (d'.setChild name (c'.overlay (d'.childOr name d'.isPublic))) := by
          intro d d' hd
          rw [hd.isPublic_eq]
          exact hd.setChild name (hc.overlay (hd.childOr name _))
        exact .ok (hchild htaken)

theorem importFrom (hs : source.Like ρ A source') (ht : target.Like ρ A target')
    (walked path : List String) :
    (source.importFrom walked target path).1.Like ρ A (source'.importFrom walked target' path).1 ∧
      (source.importFrom walked target path).2 = (source'.importFrom walked target' path).2 := by
  induction path generalizing source source' target target' walked with
  | nil => exact ⟨ht, rfl⟩
  | cons part path ih =>
    cases path with
    | nil =>
      rw [Namespace.importFrom, Namespace.importFrom]
      obtain ⟨c, c', h₁, h₂, hc⟩ | ⟨f, h₁, h₂⟩ := (hs.importName ht (walked ++ [part]) part).split
      · rw [h₁, h₂]
        exact ⟨hc, rfl⟩
      · rw [h₁, h₂]
        exact ⟨ht, rfl⟩
    | cons next path =>
      have hne : next :: path = [] → False := List.cons_ne_nil _ _
      rw [Namespace.importFrom.eq_3 _ _ _ _ _ hne, Namespace.importFrom.eq_3 _ _ _ _ _ hne]
      obtain ⟨h₁, h₂⟩ | ⟨c, c', h₁, h₂, hc⟩ := hs.child? part
      · simp only [h₁, h₂]
        exact ⟨ht, trivial⟩
      · simp only [h₁, h₂, hc.isPublic_eq, ht.isPublic_eq]
        split
        · obtain ⟨hn, hf⟩ := ih hc (ht.childOr part target'.isPublic) (walked ++ [part])
          exact ⟨ht.setChild part hn, hf⟩
        · exact ⟨ht, rfl⟩

end Namespace.Like

theorem Namespace.seed_like (hf : ρ.Fits n n') :
    (builtins.seed (.empty true)).Like ρ A (builtins.seed (.empty true)) := by
  have hcase : ∀ {k : Case}, k.id < Builtins.count → k.Like ρ k := fun hk => ⟨hf.builtin _ hk, rfl⟩
  have hnative : ∀ (fs : List Native) {c : Namespace}, c.Like ρ A c →
      (fs.foldl Builtins.addNative c).Like ρ A (fs.foldl Builtins.addNative c) := by
    intro fs
    induction fs with
    | nil => exact fun h => h
    | cons f fs ih => exact fun h => ih (h.setValue f.name (.native f))
  have hunit : List.Forall₂ (Case.Like ρ) builtins.unitCases builtins.unitCases :=
    .cons (hcase (by decide)) .nil
  have hlist : List.Forall₂ (Case.Like ρ) builtins.listCases builtins.listCases :=
    .cons (hcase (by decide)) (.cons (hcase (by decide)) .nil)
  have hbool : List.Forall₂ (Case.Like ρ) builtins.boolCases builtins.boolCases :=
    .cons (hcase (by decide)) (.cons (hcase (by decide)) .nil)
  have htypes : (((empty true).setType "Number" .number).setType "String" .text).Like ρ A _ :=
    ((empty_like true).setType "Number" .number).setType "String" .text
  exact hnative _ ((((htypes.setType "Function" .function).addFamily "UnitT" hunit).addFamily "List"
    hlist).addFamily "Bool" hbool)

open Machine in
theorem publishIn_agree (h : ns.Like ρ A ns') (path : List String) (name : String)
    (hv : v.Like ρ A v') :
    Concord (Namespace.Like ρ A) (publishIn ns path name v) (publishIn ns' path name v') := by
  unfold publishIn
  exact (h.findFrom [] path).map fun _ _ _ => h.updateAt fun _ _ hc => hc.setValue name hv

open Machine in
theorem defineIn_agree {ks ks' : List Case} (h : ns.Like ρ A ns') (path : List String) (name : String)
    (hk : List.Forall₂ (Case.Like ρ) ks ks') :
    Concord (Namespace.Like ρ A) (defineIn ns path name ks) (defineIn ns' path name ks') := by
  unfold defineIn
  exact (h.findFrom [] path).map fun _ _ _ => h.updateAt fun _ _ hc => hc.addFamily name hk

/-- The cases of a new data type have the next numbers on both sides. -/
theorem numberCases_like (ρ : Numbering) (n n' : Nat) (ss : List CaseShape) :
    List.Forall₂ (Case.Like (ρ.extend n n' ss.length)) (numberCases n ss) (numberCases n' ss) := by
  have hall : ∀ (i : Nat) (rest : List CaseShape), i + rest.length = ss.length →
      List.Forall₂ (Case.Like (ρ.extend n n' ss.length)) (numberCases (n + i) rest)
        (numberCases (n' + i) rest) := by
    intro i rest
    induction rest generalizing i with
    | nil => exact fun _ => .nil
    | cons s rest ih =>
      intro hl
      rw [List.length_cons] at hl
      have hi : ρ.extend n n' ss.length (n + i) (n' + i) := .inr ⟨i, by omega, rfl, rfl⟩
      exact .cons ⟨hi, rfl⟩ (ih (i + 1) (by omega))
  exact hall 0 ss (Nat.zero_add _)

mutual

theorem Namespace.Like.mono (hρ : ∀ i j, ρ i j → ρ' i j) :
    {ns ns' : Namespace} → ns.Like ρ A ns' → ns.Like ρ' A ns'
  | .mk _ _ _ _, _, .mk hvs hts hcs =>
    .mk (hvs.imp fun v _ hv => Value.Like.mono hρ v hv) (hts.imp fun _ _ => DataType.Like.mono hρ)
      (ChildrenLike.mono hρ hcs)

theorem ChildrenLike.mono (hρ : ∀ i j, ρ i j → ρ' i j) :
    {cs cs' : List (String × Namespace)} → TableLike (Namespace.Like ρ A) cs cs' →
      TableLike (Namespace.Like ρ' A) cs cs'
  | [], _, .nil => .nil
  | (_, _) :: _, _, .cons name hc hcs =>
    .cons name (Namespace.Like.mono hρ hc) (ChildrenLike.mono hρ hcs)

end

end

end MatchLang
