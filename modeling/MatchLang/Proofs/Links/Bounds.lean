import Mathlib.Data.List.Basic
import MatchLang.Links

/-! Slots are numbered as they are needed: a slot that a name is linked to has a number from the first one on
and below the next free one. -/

namespace MatchLang

/-- A slot with a number from `lo` on that has been given out. -/
def Slot.Between (lo hi : Nat) (slot : Slot) : Prop :=
  lo ≤ slot.id ∧ slot.id < hi

theorem Slot.Between.mono {lo hi hi' : Nat} {slot : Slot} (h : slot.Between lo hi) (hle : hi ≤ hi') :
    slot.Between lo hi' :=
  ⟨h.1, Nat.lt_of_lt_of_le h.2 hle⟩

/-- All slots linked so far and all those of some groups have been given out, from `lo` on. -/
structure Linking.Bounded (s : Linking) (lo : Nat) (groups : List Group) : Prop where
  le : lo ≤ s.nextSlot
  links : ∀ id slot, s.links.get? id = some slot → slot.Between lo s.nextSlot
  groups : ∀ g ∈ groups, ∀ e ∈ g, e.2.Between lo s.nextSlot

namespace Linking.Bounded

variable {s : Linking} {lo : Nat} {g : Group} {groups : List Group}

theorem insert {id : Nat} {slot : Slot} (h : s.Bounded lo groups) (hs : slot.Between lo s.nextSlot) :
    Bounded { s with links := s.links.insert id slot } lo groups where
  le := h.le
  links i t ht := by
    rw [Links.get?_insert] at ht
    split at ht
    · exact Option.some.inj ht ▸ hs
    · exact h.links i t ht
  groups := h.groups

/-- The groups around stay bounded as slots are given out. -/
theorem around (h : s.Bounded lo groups) {t : Linking} (ht : t.Bounded lo [])
    (hle : s.nextSlot ≤ t.nextSlot) : t.Bounded lo groups where
  le := ht.le
  links := ht.links
  groups g hg e he := (h.groups g hg e he).mono hle

theorem none (h : s.Bounded lo groups) : s.Bounded lo [] :=
  ⟨h.le, h.links, nofun⟩

end Linking.Bounded

section

variable {s : Linking} {lo : Nat} {g : Group} {groups : List Group}

theorem declareLeaf_bounded {id line : Nat} {name : String} (h : s.Bounded lo [g]) :
    (declareLeaf id name line g s).2.Bounded lo [(declareLeaf id name line g s).1] ∧
      s.nextSlot ≤ (declareLeaf id name line g s).2.nextSlot := by
  unfold declareLeaf
  cases hl : g.lookup name with
  | some slot =>
    have hm : (name, slot) ∈ g := by
      obtain ⟨_, _, rfl, _⟩ := List.lookup_eq_some_iff.mp hl
      simp
    exact ⟨h.insert (h.groups g List.mem_cons_self _ hm), Nat.le_refl _⟩
  | none =>
    have hnew : ∀ t : Slot, t.id = s.nextSlot → t.Between lo (s.nextSlot + 1) :=
      fun t ht => ⟨ht ▸ h.le, ht ▸ Nat.lt_succ_self _⟩
    refine ⟨⟨Nat.le_succ_of_le h.le, fun i t ht => ?_, fun g' hg e he => ?_⟩, Nat.le_succ _⟩
    · simp only [Links.get?_insert] at ht
      split at ht
      · cases ht
        exact hnew _ rfl
      · exact (h.links i t ht).mono (Nat.le_succ _)
    · rw [List.mem_singleton] at hg
      subst hg
      rcases List.mem_cons.mp he with rfl | he
      · exact hnew _ rfl
      · exact (h.groups g List.mem_cons_self e he).mono (Nat.le_succ _)

mutual

theorem declarePattern_bounded (p : Pattern) {s : Linking} {g : Group} (h : s.Bounded lo [g]) :
    (declarePattern p g s).2.Bounded lo [(declarePattern p g s).1] ∧
      s.nextSlot ≤ (declarePattern p g s).2.nextSlot := by
  match p with
  | .wildcard => exact ⟨h, Nat.le_refl _⟩
  | .name id name line => exact declareLeaf_bounded h
  | .literal _ _ => exact ⟨h, Nat.le_refl _⟩
  | .list items => exact declarePatterns_bounded items h
  | .type _ params => exact declarePatterns_bounded params h

theorem declarePatterns_bounded (ps : List Pattern) {s : Linking} {g : Group} (h : s.Bounded lo [g]) :
    (declarePatterns ps g s).2.Bounded lo [(declarePatterns ps g s).1] ∧
      s.nextSlot ≤ (declarePatterns ps g s).2.nextSlot := by
  match ps with
  | [] => exact ⟨h, Nat.le_refl _⟩
  | p :: ps =>
    obtain ⟨h₁, hle₁⟩ := declarePattern_bounded p h
    obtain ⟨h₂, hle₂⟩ := declarePatterns_bounded ps h₁
    exact ⟨h₂, Nat.le_trans hle₁ hle₂⟩

end

theorem enterGroup_bounded (ps : List Pattern) (h : s.Bounded lo groups) :
    (enterGroup ps groups s).2.Bounded lo (enterGroup ps groups s).1 ∧
      s.nextSlot ≤ (enterGroup ps groups s).2.nextSlot := by
  have hnil : s.Bounded lo [[]] := by
    refine ⟨h.le, h.links, fun g hg e he => ?_⟩
    rw [List.mem_singleton] at hg
    subst hg
    cases he
  obtain ⟨hd, hle⟩ := declarePatterns_bounded ps hnil
  refine ⟨⟨hd.le, hd.links, fun g hg e he => ?_⟩, hle⟩
  rcases List.mem_cons.mp hg with rfl | hg
  · exact hd.groups _ List.mem_cons_self e he
  · exact (h.groups g hg e he).mono hle

theorem linkName_bounded (n : QName) (h : s.Bounded lo groups) :
    (linkName groups n s).Bounded lo groups ∧ s.nextSlot ≤ (linkName groups n s).nextSlot := by
  unfold linkName
  cases hf : n.single?.bind (findSlot? groups) with
  | none => exact ⟨h, Nat.le_refl _⟩
  | some slot =>
    obtain ⟨name, _, hs⟩ := Option.bind_eq_some_iff.mp hf
    obtain ⟨g, hg, hl⟩ := List.exists_of_findSome?_eq_some hs
    have hm : (name, slot) ∈ g := by
      obtain ⟨_, _, rfl, _⟩ := List.lookup_eq_some_iff.mp hl
      simp
    exact ⟨h.insert (h.groups g hg _ hm), Nat.le_refl _⟩

mutual

theorem linkExpr_bounded (e : Expr) {groups : List Group} {s : Linking} (h : s.Bounded lo groups) :
    (linkExpr groups e s).Bounded lo groups ∧ s.nextSlot ≤ (linkExpr groups e s).nextSlot := by
  match e with
  | .call callee args _ =>
    obtain ⟨h₁, hle₁⟩ := linkExpr_bounded callee h
    obtain ⟨h₂, hle₂⟩ := linkArgs_bounded args h₁
    exact ⟨h₂, Nat.le_trans hle₁ hle₂⟩
  | .function params body _ =>
    obtain ⟨h₁, hle₁⟩ := enterGroup_bounded params h
    obtain ⟨h₂, hle₂⟩ := enterGroup_bounded body.patterns h₁
    obtain ⟨h₃, hle₃⟩ := linkBody_bounded body h₂
    have hle := Nat.le_trans hle₁ (Nat.le_trans hle₂ hle₃)
    exact ⟨h.around h₃.none hle, hle⟩
  | .list elements _ => exact linkElements_bounded elements h
  | .literal _ _ => exact ⟨h, Nat.le_refl _⟩
  | .name n => exact linkName_bounded n h
  | .self _ => exact ⟨h, Nat.le_refl _⟩

theorem linkArgs_bounded (es : List Expr) {groups : List Group} {s : Linking}
    (h : s.Bounded lo groups) :
    (linkArgs groups es s).Bounded lo groups ∧ s.nextSlot ≤ (linkArgs groups es s).nextSlot := by
  match es with
  | [] => exact ⟨h, Nat.le_refl _⟩
  | e :: es =>
    obtain ⟨h₁, hle₁⟩ := linkExpr_bounded e h
    obtain ⟨h₂, hle₂⟩ := linkArgs_bounded es h₁
    exact ⟨h₂, Nat.le_trans hle₁ hle₂⟩

theorem linkElements_bounded (bs : List Block) {groups : List Group} {s : Linking}
    (h : s.Bounded lo groups) :
    (linkElements groups bs s).Bounded lo groups ∧
      s.nextSlot ≤ (linkElements groups bs s).nextSlot := by
  match bs with
  | [] => exact ⟨h, Nat.le_refl _⟩
  | b :: bs =>
    obtain ⟨h₁, hle₁⟩ := enterGroup_bounded b.patterns h
    obtain ⟨h₂, hle₂⟩ := linkBody_bounded b h₁
    have hle := Nat.le_trans hle₁ hle₂
    obtain ⟨h₃, hle₃⟩ := linkElements_bounded bs (h.around h₂.none hle)
    exact ⟨h₃, Nat.le_trans hle hle₃⟩

theorem linkBody_bounded (b : Block) {groups : List Group} {s : Linking} (h : s.Bounded lo groups) :
    (linkBody groups b s).Bounded lo groups ∧ s.nextSlot ≤ (linkBody groups b s).nextSlot := by
  match b with
  | .result e => exact linkExpr_bounded e h
  | .bind _ value _ rest =>
    obtain ⟨h₁, hle₁⟩ := enterGroup_bounded value.patterns h
    obtain ⟨h₂, hle₂⟩ := linkBody_bounded value h₁
    have hle := Nat.le_trans hle₁ hle₂
    obtain ⟨h₃, hle₃⟩ := linkBody_bounded rest (h.around h₂.none hle)
    exact ⟨h₃, Nat.le_trans hle hle₃⟩

end

theorem linkBlock_bounded (b : Block) (h : s.Bounded lo groups) :
    (linkBlock groups b s).Bounded lo groups ∧ s.nextSlot ≤ (linkBlock groups b s).nextSlot := by
  obtain ⟨h₁, hle₁⟩ := enterGroup_bounded b.patterns h
  obtain ⟨h₂, hle₂⟩ := linkBody_bounded b h₁
  have hle := Nat.le_trans hle₁ hle₂
  exact ⟨h.around h₂.none hle, hle⟩

mutual

theorem linkDecls_bounded (ds : List Decl) {groups : List Group} {s : Linking}
    (h : s.Bounded lo groups) :
    (linkDecls groups ds s).Bounded lo groups ∧ s.nextSlot ≤ (linkDecls groups ds s).nextSlot := by
  match ds with
  | [] => exact ⟨h, Nat.le_refl _⟩
  | d :: ds =>
    obtain ⟨h₁, hle₁⟩ := linkDecl_bounded d h
    obtain ⟨h₂, hle₂⟩ := linkDecls_bounded ds h₁
    exact ⟨h₂, Nat.le_trans hle₁ hle₂⟩

theorem linkDecl_bounded (d : Decl) {groups : List Group} {s : Linking} (h : s.Bounded lo groups) :
    (linkDecl groups d s).Bounded lo groups ∧ s.nextSlot ≤ (linkDecl groups d s).nextSlot := by
  match d with
  | .space ns => exact linkNamespace_bounded ns h
  | .type _ _ _ (some ns) => exact linkNamespace_bounded ns h
  | .type _ _ _ none => exact ⟨h, Nat.le_refl _⟩
  | .binding _ value _ => exact linkBlock_bounded value h

theorem linkNamespace_bounded (ns : NamespaceDecl) {groups : List Group} {s : Linking}
    (h : s.Bounded lo groups) :
    (linkNamespace groups ns s).Bounded lo groups ∧
      s.nextSlot ≤ (linkNamespace groups ns s).nextSlot := by
  match ns with
  | .mk _ _ decls =>
    obtain ⟨h₁, hle₁⟩ := enterGroup_bounded (bindingPatterns decls) h
    obtain ⟨h₂, hle₂⟩ := linkDecls_bounded decls h₁
    have hle := Nat.le_trans hle₁ hle₂
    exact ⟨h.around h₂.none hle, hle⟩

end

/-- The slots of a program's names are given out while it is linked. -/
theorem link_between (p : Program) (n : Nat) :
    n ≤ (p.link n).nextSlot ∧
      ∀ id slot, (p.link n).links.get? id = some slot → slot.Between n (p.link n).nextSlot := by
  have hempty : (⟨.empty, n⟩ : Linking).Bounded n [] := ⟨Nat.le_refl _, nofun, nofun⟩
  obtain ⟨h₁, _⟩ := enterGroup_bounded (bindingPatterns p.root.decls) hempty
  obtain ⟨h₂, _⟩ := linkDecls_bounded p.root.decls h₁
  unfold Program.link
  cases hc : p.trailing with
  | none => exact ⟨h₂.le, h₂.links⟩
  | some c =>
    obtain ⟨h₃, _⟩ := linkExpr_bounded c.toExpr h₂
    exact ⟨h₃.le, h₃.links⟩

/-- The slots of a program's names come before those that are given out after linking. -/
theorem link_lt {p : Program} {n id : Nat} {slot : Slot}
    (h : (p.link n).links.get? id = some slot) : slot.id < (p.link n).nextSlot :=
  ((link_between p n).2 id slot h).2

end

end MatchLang
