import MatchLang.Proofs.Links.Resolution

/-! The binding groups of a program and the names that it uses, in the order in which they are linked.
Every leaf of a group is linked to a slot that the group has for its name and no other group has, and a
name that is used is linked to a slot of its own name if at all. -/

namespace MatchLang

/-- A leaf of a binding group, and whether what it binds is published. -/
structure Declared where
  leaf : Leaf
  isPublic : Bool

/-- The leaves of some patterns. -/
def declaredBy (isPublic : Bool) (ps : List Pattern) : List Declared :=
  (patternsLeaves ps).map fun leaf => { leaf, isPublic }

mutual

/-- The groups in an expression: parameters and blocks publish nothing. -/
def Expr.groups : Expr → List (List Declared)
  | .call callee args _ => callee.groups ++ exprsGroups args
  | .function params body _ =>
    declaredBy false params :: declaredBy false body.patterns :: body.innerGroups
  | .list elements _ => blocksGroups elements
  | .literal _ _ => []
  | .name _ => []
  | .self _ => []

def exprsGroups : List Expr → List (List Declared)
  | [] => []
  | e :: es => e.groups ++ exprsGroups es

def blocksGroups : List Block → List (List Declared)
  | [] => []
  | b :: bs => declaredBy false b.patterns :: (b.innerGroups ++ blocksGroups bs)

/-- The groups in a block but for its own. -/
def Block.innerGroups : Block → List (List Declared)
  | .result e => e.groups
  | .bind _ value _ rest =>
    declaredBy false value.patterns :: (value.innerGroups ++ rest.innerGroups)

end

/-- The group of a block, and those inside. -/
def Block.groups (b : Block) : List (List Declared) :=
  declaredBy false b.patterns :: b.innerGroups

mutual

/-- The names that an expression uses. -/
def Expr.uses : Expr → List QName
  | .call callee args _ => callee.uses ++ exprsUses args
  | .function _ body _ => body.uses
  | .list elements _ => blocksUses elements
  | .literal _ _ => []
  | .name n => [n]
  | .self _ => []

def exprsUses : List Expr → List QName
  | [] => []
  | e :: es => e.uses ++ exprsUses es

def blocksUses : List Block → List QName
  | [] => []
  | b :: bs => b.uses ++ blocksUses bs

def Block.uses : Block → List QName
  | .result e => e.uses
  | .bind _ value _ rest => value.uses ++ rest.uses

end

/-- The group of some declarations: the leaves of the bindings that stand directly among them. -/
def declsDeclared : List Decl → List Declared
  | [] => []
  | .binding p _ isPublic :: ds => declaredBy isPublic [p] ++ declsDeclared ds
  | _ :: ds => declsDeclared ds

mutual

def declsGroups : List Decl → List (List Declared)
  | [] => []
  | d :: ds => d.groups ++ declsGroups ds

def Decl.groups : Decl → List (List Declared)
  | .space ns => ns.groups
  | .type _ _ _ (some ns) => ns.groups
  | .type _ _ _ none => []
  | .binding _ value _ => value.groups

def NamespaceDecl.groups : NamespaceDecl → List (List Declared)
  | .mk _ _ decls => declsDeclared decls :: declsGroups decls

end

mutual

def declsUses : List Decl → List QName
  | [] => []
  | d :: ds => d.uses ++ declsUses ds

def Decl.uses : Decl → List QName
  | .space ns => ns.uses
  | .type _ _ _ (some ns) => ns.uses
  | .type _ _ _ none => []
  | .binding _ value _ => value.uses

def NamespaceDecl.uses : NamespaceDecl → List QName
  | .mk _ _ decls => declsUses decls

end

/-- All binding groups of a program. -/
def Program.groups (p : Program) : List (List Declared) :=
  p.root.groups ++ match p.trailing with
    | some c => c.toExpr.groups
    | none => []

/-- All names that a program uses. -/
def Program.uses (p : Program) : List QName :=
  p.root.uses ++ match p.trailing with
    | some c => c.toExpr.uses
    | none => []

@[simp] theorem map_leaf_declaredBy (isPublic : Bool) (ps : List Pattern) :
    (declaredBy isPublic ps).map Declared.leaf = patternsLeaves ps := by
  rw [declaredBy, List.map_map]
  exact List.map_id _

theorem map_leaf_declsDeclared (ds : List Decl) :
    (declsDeclared ds).map Declared.leaf = patternsLeaves (bindingPatterns ds) := by
  induction ds with
  | nil => rfl
  | cons d ds ih =>
    cases d with
    | binding p value isPublic =>
      rw [declsDeclared, List.map_append, map_leaf_declaredBy, ih]
      simp [bindingPatterns, patternsLeaves]
    | space _ | type _ _ _ _ => exact ih

/-- The slots of some groups are given out from stretches of numbers that follow each other. -/
def GroupsDeclared (l : Links) : List (List Declared) → Nat → Nat → Prop
  | [], a, b => a = b
  | g :: gs, a, b =>
    ∃ (group : Group) (m : Nat), group.Declares l (g.map Declared.leaf) a m ∧
      GroupsDeclared l gs m b

/-- Names that have a slot are those of their slots. -/
def UsesNamed (l : Links) (uses : List QName) : Prop :=
  ∀ n ∈ uses, ∀ slot, l.get? n.id = some slot → n.parts = [slot.name]

section

variable {l : Links} {gs hs : List (List Declared)} {g h : List Declared} {a b c : Nat}

theorem GroupsDeclared.append (hg : GroupsDeclared l gs a b) (hh : GroupsDeclared l hs b c) :
    GroupsDeclared l (gs ++ hs) a c := by
  induction gs generalizing a with
  | nil =>
    cases hg
    exact hh
  | cons g gs ih =>
    obtain ⟨group, m, hd, hrest⟩ := hg
    exact ⟨group, m, hd, ih hrest⟩

theorem GroupsDeclared.le (hg : GroupsDeclared l gs a b) : a ≤ b := by
  induction gs generalizing a with
  | nil => exact Nat.le_of_eq hg
  | cons g gs ih =>
    obtain ⟨group, m, hd, hrest⟩ := hg
    exact Nat.le_trans hd.le (ih hrest)

theorem GroupsDeclared.of_mem (hg : GroupsDeclared l gs a b) (hm : g ∈ gs) :
    ∃ (group : Group) (i j : Nat), a ≤ i ∧ j ≤ b ∧ group.Declares l (g.map Declared.leaf) i j := by
  induction gs generalizing a with
  | nil => cases hm
  | cons g' gs ih =>
    obtain ⟨group, m, hd, hrest⟩ := hg
    rcases List.mem_cons.mp hm with rfl | hm
    · exact ⟨group, a, m, Nat.le_refl a, GroupsDeclared.le hrest, hd⟩
    · obtain ⟨group', i, j, hi, hj, hd'⟩ := ih hrest hm
      exact ⟨group', i, j, Nat.le_trans hd.le hi, hj, hd'⟩

/-- The slot of a leaf has its name, and a number of the stretch. -/
theorem Group.Declares.slot {group : Group} {xs : List Leaf} (hd : group.Declares l xs a b)
    {x : Leaf} (hx : x ∈ xs) :
    ∃ slot, l.get? x.id = some slot ∧ slot.name = x.name ∧ a ≤ slot.id ∧ slot.id < b := by
  obtain ⟨slot, hs, hl⟩ := hd.leaf x hx
  obtain ⟨hn, ha, hb, _⟩ := hd.entry x.name slot hl
  exact ⟨slot, hs, hn, ha, hb⟩

theorem Group.Declares.same {group : Group} {xs : List Leaf} (hd : group.Declares l xs a b)
    {x x' : Leaf} (hx : x ∈ xs) (hx' : x' ∈ xs) (hn : x.name = x'.name) :
    l.get? x.id = l.get? x'.id := by
  obtain ⟨slot, hs, hl⟩ := hd.leaf x hx
  obtain ⟨slot', hs', hl'⟩ := hd.leaf x' hx'
  rw [hn, hl'] at hl
  rw [hs, hs', hl]

/-- Leaves of one slot belong to one group. -/
theorem GroupsDeclared.separate (hg : GroupsDeclared l gs a b) (hm : g ∈ gs) (hm' : h ∈ gs)
    {d e : Declared} (hd : d ∈ g) (he : e ∈ h) (heq : l.get? d.leaf.id = l.get? e.leaf.id) :
    g = h := by
  induction gs generalizing a with
  | nil => cases hm
  | cons first gs ih =>
    obtain ⟨group, m, hdecl, hrest⟩ := hg
    -- a leaf of the first group has a slot below `m`, one of a later group none below it
    have hfirst : ∀ d ∈ first, ∃ slot, l.get? d.leaf.id = some slot ∧ slot.id < m := by
      intro d hd
      obtain ⟨slot, hs, _, _, hlt⟩ := hdecl.slot (List.mem_map_of_mem hd)
      exact ⟨slot, hs, hlt⟩
    have hlater : ∀ g ∈ gs, ∀ d ∈ g, ∃ slot, l.get? d.leaf.id = some slot ∧ m ≤ slot.id := by
      intro g hg d hd
      obtain ⟨_, i, _, hi, _, hdecl'⟩ := GroupsDeclared.of_mem hrest hg
      obtain ⟨slot, hs, _, hle, _⟩ := hdecl'.slot (List.mem_map_of_mem hd)
      exact ⟨slot, hs, Nat.le_trans hi hle⟩
    have hapart : ∀ d ∈ first, ∀ g ∈ gs, ∀ e ∈ g, l.get? d.leaf.id ≠ l.get? e.leaf.id := by
      intro d hd g hg e he heq
      obtain ⟨slot, hs, hlt⟩ := hfirst d hd
      obtain ⟨slot', hs', hle⟩ := hlater g hg e he
      rw [hs, hs', Option.some.injEq] at heq
      rw [heq] at hlt
      exact absurd hle (Nat.not_le.mpr hlt)
    rcases List.mem_cons.mp hm with hg | hm <;> rcases List.mem_cons.mp hm' with hh | hm'
    · rw [hg, hh]
    · exact absurd heq (hapart d (hg ▸ hd) h hm' e he)
    · exact absurd heq.symm (hapart e (hh ▸ he) g hm d hd)
    · exact ih hrest hm hm'

end

/-- The slots of a group have the names that they are found under. -/
def Group.Named (g : Group) : Prop :=
  ∀ name slot, g.lookup name = some slot → slot.name = name

theorem declareLeaf_named (x : Leaf) {g : Group} (s : Linking) (h : g.Named) :
    (declareLeaf x.id x.name x.line g s).1.Named := by
  unfold declareLeaf
  cases g.lookup x.name with
  | some slot => exact h
  | none =>
    intro name slot hl
    by_cases hn : name = x.name
    · subst hn
      simp only [List.lookup_cons, beq_self_eq_true, Option.some.injEq] at hl
      rw [← hl]
    · have hb : (name == x.name) = false := by simp [hn]
      simp only [List.lookup_cons, hb] at hl
      exact h name slot hl

theorem declareLeaves_named (xs : List Leaf) {g : Group} (s : Linking) (h : g.Named) :
    (declareLeaves xs g s).1.Named := by
  induction xs generalizing g s with
  | nil => exact h
  | cons x xs ih => exact ih _ (declareLeaf_named x s h)

theorem enterGroup_named (ps : List Pattern) {gs : List Group} (s : Linking)
    (h : ∀ g ∈ gs, g.Named) : ∀ g ∈ (enterGroup ps gs s).1, g.Named := by
  have hnil : Group.Named [] := nofun
  have hnew := declareLeaves_named (patternsLeaves ps) s hnil
  rw [← declarePatterns_eq] at hnew
  exact List.forall_mem_cons.mpr ⟨hnew, h⟩

/-- What linking comes to: the groups in a form are given their slots one after another, and its uses are
linked to slots of their names. -/
def Links.Settles (l : Links) (groups : List (List Declared)) (uses : List QName) (a b : Nat) :
    Prop :=
  GroupsDeclared l groups a b ∧ UsesNamed l uses

section

variable {l : Links} {gs hs : List (List Declared)} {us vs : List QName} {a b c : Nat}

theorem Links.Settles.append (h : l.Settles gs us a b) (h' : l.Settles hs vs b c) :
    l.Settles (gs ++ hs) (us ++ vs) a c :=
  ⟨h.1.append h'.1, List.forall_mem_append.mpr ⟨h.2, h'.2⟩⟩

theorem Links.Settles.cons {group : Group} {g : List Declared}
    (hg : group.Declares l (g.map Declared.leaf) a b) (h : l.Settles hs vs b c) :
    l.Settles (g :: hs) vs a c :=
  ⟨⟨group, b, hg, h.1⟩, h.2⟩

end

theorem linkName_settles (n : QName) {gs : List Group} {s : Linking} (hgs : ∀ g ∈ gs, g.Named) :
    Linking.Resolves (fun l => l.Settles [] [n] s.nextSlot (linkName gs n s).nextSlot) [n.id] s
      (linkName gs n s) := by
  refine (linkName_resolves n).mono fun l ⟨he, hl⟩ => ⟨he, ?_⟩
  refine List.forall_mem_singleton.mpr fun slot hs => ?_
  rw [hl] at hs
  obtain ⟨name, hn, hf⟩ := Option.bind_eq_some_iff.mp hs
  obtain ⟨g, hg, hlookup⟩ := List.exists_of_findSome?_eq_some hf
  have hparts : n.parts = [name] := by
    unfold QName.single? at hn
    split at hn
    · rename_i hp
      cases hn
      exact hp
    · cases hn
  rw [hparts, hgs g hg name slot hlookup]

section

variable {gs : List Group} {s : Linking}

/-- A group in front of the form that sees it. -/
theorem enterGroup_settles {g : List Declared} (ps : List Pattern) {ids : List Nat}
    {groups : List (List Declared)} {uses : List QName} {t : Linking}
    (hg : g.map Declared.leaf = patternsLeaves ps)
    (h : Linking.Resolves (fun l => l.Settles groups uses (enterGroup ps gs s).2.nextSlot t.nextSlot)
      ids (enterGroup ps gs s).2 t) :
    Linking.Resolves (fun l => l.Settles (g :: groups) uses s.nextSlot t.nextSlot)
      (leafIds (patternsLeaves ps) ++ ids) s t := by
  obtain ⟨group, _, hd⟩ := enterGroup_resolves ps gs s
  exact (hd.seq h).mono fun l ⟨hdecl, hrest⟩ => ⟨⟨group, _, hg ▸ hdecl, hrest.1⟩, hrest.2⟩

theorem linkBlock_settles {b : Block} (hgs : ∀ g ∈ gs, g.Named)
    (hb : ∀ gs s, (∀ g ∈ gs, g.Named) → Linking.Resolves
      (fun l => l.Settles b.innerGroups b.uses s.nextSlot (linkBody gs b s).nextSlot)
      b.innerIds s (linkBody gs b s)) :
    Linking.Resolves (fun l => l.Settles b.groups b.uses s.nextSlot (linkBlock gs b s).nextSlot)
      b.ids s (linkBlock gs b s) := by
  have h := hb (enterGroup b.patterns gs s).1 (enterGroup b.patterns gs s).2
    (enterGroup_named b.patterns s hgs)
  exact (enterGroup_settles b.patterns (map_leaf_declaredBy false _) h).perm b.ids_perm

end

mutual

theorem linkExpr_settles (e : Expr) (gs : List Group) (s : Linking) (hgs : ∀ g ∈ gs, g.Named) :
    Linking.Resolves (fun l => l.Settles e.groups e.uses s.nextSlot (linkExpr gs e s).nextSlot)
      e.ids s (linkExpr gs e s) := by
  match e with
  | .call callee args line =>
    exact ((linkExpr_settles callee gs s hgs).seq
      (linkArgs_settles args gs (linkExpr gs callee s) hgs)).mono fun l h => h.1.append h.2
  | .function params body line =>
    have hnamed := enterGroup_named params s hgs
    have hbody := linkBlock_settles (s := (enterGroup params gs s).2) hnamed
      fun gs s => linkBody_settles body gs s
    exact enterGroup_settles params (map_leaf_declaredBy false _) hbody
  | .list elements line => exact linkElements_settles elements gs s hgs
  | .literal _ _ => exact .nil fun _ => ⟨rfl, nofun⟩
  | .name n => exact linkName_settles n hgs
  | .self _ => exact .nil fun _ => ⟨rfl, nofun⟩

theorem linkArgs_settles (es : List Expr) (gs : List Group) (s : Linking)
    (hgs : ∀ g ∈ gs, g.Named) :
    Linking.Resolves (fun l => l.Settles (exprsGroups es) (exprsUses es) s.nextSlot
      (linkArgs gs es s).nextSlot) (exprsIds es) s (linkArgs gs es s) := by
  match es with
  | [] => exact .nil fun _ => ⟨rfl, nofun⟩
  | e :: es =>
    exact ((linkExpr_settles e gs s hgs).seq
      (linkArgs_settles es gs (linkExpr gs e s) hgs)).mono fun l h => h.1.append h.2

theorem linkElements_settles (bs : List Block) (gs : List Group) (s : Linking)
    (hgs : ∀ g ∈ gs, g.Named) :
    Linking.Resolves (fun l => l.Settles (blocksGroups bs) (blocksUses bs) s.nextSlot
      (linkElements gs bs s).nextSlot) (blocksIds bs) s (linkElements gs bs s) := by
  match bs with
  | [] => exact .nil fun _ => ⟨rfl, nofun⟩
  | b :: bs =>
    have hb := linkBlock_settles (s := s) hgs fun gs s => linkBody_settles b gs s
    exact (hb.seq (linkElements_settles bs gs (linkBlock gs b s) hgs)).mono
      fun l h => h.1.append h.2

theorem linkBody_settles (b : Block) (gs : List Group) (s : Linking) (hgs : ∀ g ∈ gs, g.Named) :
    Linking.Resolves (fun l => l.Settles b.innerGroups b.uses s.nextSlot
      (linkBody gs b s).nextSlot) b.innerIds s (linkBody gs b s) := by
  match b with
  | .result e => exact linkExpr_settles e gs s hgs
  | .bind p value _ rest =>
    have hv := linkBlock_settles (s := s) hgs fun gs s => linkBody_settles value gs s
    exact (hv.seq (linkBody_settles rest gs (linkBlock gs value s) hgs)).mono
      fun l h => h.1.append h.2

end

mutual

theorem linkDecls_settles (ds : List Decl) (gs : List Group) (s : Linking)
    (hgs : ∀ g ∈ gs, g.Named) :
    Linking.Resolves (fun l => l.Settles (declsGroups ds) (declsUses ds) s.nextSlot
      (linkDecls gs ds s).nextSlot) (declsInnerIds ds) s (linkDecls gs ds s) := by
  match ds with
  | [] => exact .nil fun _ => ⟨rfl, nofun⟩
  | d :: ds =>
    exact ((linkDecl_settles d gs s hgs).seq
      (linkDecls_settles ds gs (linkDecl gs d s) hgs)).mono fun l h => h.1.append h.2

theorem linkDecl_settles (d : Decl) (gs : List Group) (s : Linking) (hgs : ∀ g ∈ gs, g.Named) :
    Linking.Resolves (fun l => l.Settles d.groups d.uses s.nextSlot (linkDecl gs d s).nextSlot)
      d.innerIds s (linkDecl gs d s) := by
  match d with
  | .space ns | .type _ _ _ (some ns) => exact linkNamespace_settles ns gs s hgs
  | .type _ _ _ none => exact .nil fun _ => ⟨rfl, nofun⟩
  | .binding _ value _ => exact linkBlock_settles hgs fun gs s => linkBody_settles value gs s

theorem linkNamespace_settles (ns : NamespaceDecl) (gs : List Group) (s : Linking)
    (hgs : ∀ g ∈ gs, g.Named) :
    Linking.Resolves (fun l => l.Settles ns.groups ns.uses s.nextSlot
      (linkNamespace gs ns s).nextSlot) ns.ids s (linkNamespace gs ns s) := by
  match ns with
  | .mk _ _ decls =>
    have hds := linkDecls_settles decls _ (enterGroup (bindingPatterns decls) gs s).2
      (enterGroup_named (bindingPatterns decls) s hgs)
    exact (enterGroup_settles (bindingPatterns decls) (map_leaf_declsDeclared decls) hds).perm
      (declsIds_perm decls)

end

/-- The group of the root, as a program is linked from `n` on. -/
def Program.rootGroup (p : Program) (n : Nat) : List Group :=
  (enterGroup (bindingPatterns p.root.decls) [] ⟨.empty, n⟩).1

/-- A program is linked as its root is, and then the call at its end in the group of the root. -/
theorem Program.link_eq (p : Program) (n : Nat) :
    p.link n = match p.trailing with
      | some c => linkExpr (p.rootGroup n) c.toExpr (linkNamespace [] p.root ⟨.empty, n⟩)
      | none => linkNamespace [] p.root ⟨.empty, n⟩ := by
  obtain ⟨_, ⟨_, _, decls⟩, _⟩ := p
  rfl

/-- Of a program whose occurrences are all different, the links have what linking the root gives them and
what linking the call at the end does. -/
theorem Program.link_has {P : Links → Prop} {Q : TrailingCall → Links → Prop} {p : Program} {n : Nat}
    (hp : p.ids.Nodup)
    (hroot : Linking.Resolves P p.root.ids ⟨.empty, n⟩ (linkNamespace [] p.root ⟨.empty, n⟩))
    (hcall : ∀ c, p.trailing = some c → Linking.Resolves (Q c) c.toExpr.ids
      (linkNamespace [] p.root ⟨.empty, n⟩)
      (linkExpr (p.rootGroup n) c.toExpr (linkNamespace [] p.root ⟨.empty, n⟩))) :
    P (p.link n).links ∧ ∀ c, p.trailing = some c → Q c (p.link n).links := by
  have hnone : ∀ id, (Links.empty).get? id = none := fun _ => rfl
  rw [p.link_eq]
  unfold Program.ids at hp
  cases ht : p.trailing with
  | none =>
    rw [ht, List.append_nil] at hp
    exact ⟨hroot.2 hp (fun id _ => hnone id) _ fun _ _ => rfl, nofun⟩
  | some c =>
    rw [ht] at hp
    obtain ⟨hP, hQ⟩ := (hroot.seq (hcall c ht)).2 hp (fun id _ => hnone id) _ fun _ _ => rfl
    refine ⟨hP, fun c' hc => ?_⟩
    cases hc
    exact hQ

theorem Program.rootGroup_named (p : Program) (n : Nat) : ∀ g ∈ p.rootGroup n, g.Named :=
  enterGroup_named _ _ nofun

/-- Linking a program whose occurrences are all different. -/
theorem Program.link_settles {p : Program} (n : Nat) (hp : p.ids.Nodup) :
    (p.link n).links.Settles p.groups p.uses n (p.link n).nextSlot := by
  obtain ⟨hroot, hcall⟩ := Program.link_has hp (linkNamespace_settles p.root [] ⟨.empty, n⟩ nofun)
    fun c _ => linkExpr_settles c.toExpr (p.rootGroup n) _ (p.rootGroup_named n)
  unfold Program.groups Program.uses
  cases ht : p.trailing with
  | none =>
    rw [List.append_nil, List.append_nil, p.link_eq, ht]
    rwa [p.link_eq, ht] at hroot
  | some c =>
    have hend := hcall c ht
    rw [p.link_eq, ht] at hroot hend ⊢
    exact hroot.append hend

end MatchLang
