import MatchLang.Proofs.Renaming.Groups

/-! Renaming a name in the tree of a program: some occurrences of it, told by their numbers, are spelled
otherwise, and the slot that they are linked to has the new name. -/

namespace MatchLang

section

variable (ids : List Nat) (name : String)

mutual

def Pattern.rename : Pattern → Pattern
  | .wildcard => .wildcard
  | .name id old line => .name id (if id ∈ ids then name else old) line
  | .literal value line => .literal value line
  | .list items => .list (patternsRename items)
  | .type n params => .type n (patternsRename params)

def patternsRename : List Pattern → List Pattern
  | [] => []
  | p :: ps => p.rename :: patternsRename ps

end

def QName.rename (n : QName) : QName :=
  if n.id ∈ ids then { n with parts := [name] } else n

mutual

def Expr.rename : Expr → Expr
  | .call callee args line => .call callee.rename (exprsRename args) line
  | .function params body line => .function (patternsRename ids name params) body.rename line
  | .list elements line => .list (blocksRename elements) line
  | .literal value line => .literal value line
  | .name n => .name (n.rename ids name)
  | .self line => .self line

def exprsRename : List Expr → List Expr
  | [] => []
  | e :: es => e.rename :: exprsRename es

def blocksRename : List Block → List Block
  | [] => []
  | b :: bs => b.rename :: blocksRename bs

def Block.rename : Block → Block
  | .result e => .result e.rename
  | .bind p value isPublic rest => .bind (p.rename ids name) value.rename isPublic rest.rename

end

mutual

def declsRename : List Decl → List Decl
  | [] => []
  | d :: ds => d.rename :: declsRename ds

def Decl.rename : Decl → Decl
  | .space ns => .space ns.rename
  | .type n isPublic cases (some ns) => .type n isPublic cases (some ns.rename)
  | .type n isPublic cases none => .type n isPublic cases none
  | .binding p value isPublic => .binding (p.rename ids name) (value.rename ids name) isPublic

def NamespaceDecl.rename : NamespaceDecl → NamespaceDecl
  | .mk n isPublic decls => .mk n isPublic (declsRename decls)

end

def TrailingCall.rename (c : TrailingCall) : TrailingCall where
  callee := c.callee.rename ids name
  args := exprsRename ids name c.args
  line := c.line

/-- The program with another name in the places of some occurrences. -/
def Program.rename (p : Program) : Program where
  imports := p.imports
  root := p.root.rename ids name
  trailing := p.trailing.map (·.rename ids name)

end

/-- The leaf with another name, if it is one of those. -/
def Leaf.rename (ids : List Nat) (name : String) (x : Leaf) : Leaf :=
  { x with name := if x.id ∈ ids then name else x.name }

/-- The occurrences of a name that a group of a program declares: the leaves of that name in the group, and
the uses that are linked to its slot. -/
def Program.occurrences (p : Program) (l : Links) (g : List Declared) (name : String) (slot : Slot) :
    List Nat :=
  leafIds ((g.map Declared.leaf).filter (·.name = name)) ++
    (p.uses.filter fun u => l.get? u.id = some slot).map QName.id

/-- The same slot, counted from another first one on. -/
def Slot.renumber (s : Slot) (n n' : Nat) : Slot :=
  { s with id := n' + s.id - n }

/-- The slot with another name, if it is the one. -/
def Slot.rename (s slot : Slot) (name : String) : Slot :=
  if s = slot then { s with name } else s

def Links.map (f : Slot → Slot) (l : Links) : Links :=
  ⟨l.entries.map fun e => (e.1, f e.2)⟩

@[simp] theorem Links.get?_map (f : Slot → Slot) (l : Links) (id : Nat) :
    (l.map f).get? id = (l.get? id).map f := by
  unfold Links.map Links.get?
  induction l.entries with
  | nil => rfl
  | cons e es ih =>
    rw [List.map_cons, List.lookup_cons, List.lookup_cons]
    cases id == e.1 with
    | true => rfl
    | false => exact ih

/-- The declaration that is renamed, its new name, and the occurrences that are spelled otherwise; and the
first slots of two compilations, of the program before and of the program after. -/
structure Renaming where
  slot : Slot
  name : String
  ids : List Nat
  first : Nat
  first' : Nat

namespace Renaming

variable (ρ : Renaming)

def number (i : Nat) : Nat :=
  ρ.first' + i - ρ.first

/-- What a slot is in the program after. -/
def image (s : Slot) : Slot :=
  (s.rename ρ.slot ρ.name).renumber ρ.first ρ.first'

def entry (e : String × Slot) : String × Slot :=
  (if e.2 = ρ.slot then ρ.name else e.1, ρ.image e.2)

def group (g : Group) : Group :=
  g.map ρ.entry

def linking (s : Linking) : Linking where
  links := s.links.map ρ.image
  nextSlot := ρ.number s.nextSlot

/-- The occurrences that are spelled otherwise are those of the declaration: a leaf or a use is one of them
if it is linked to the slot. The new name is not there before, no renamed leaf is public, and no use that
is renamed is a choice. -/
structure Marks (l : Links) (groups : List (List Declared)) (uses : List QName) : Prop where
  leaf : ∀ g ∈ groups, ∀ d ∈ g, (d.leaf.id ∈ ρ.ids ↔ l.get? d.leaf.id = some ρ.slot) ∧
    d.leaf.name ≠ ρ.name ∧ (d.isPublic = true → d.leaf.id ∉ ρ.ids)
  use : ∀ u ∈ uses, (u.id ∈ ρ.ids ↔ l.get? u.id = some ρ.slot) ∧ u.parts ≠ [ρ.name] ∧
    (u.id ∈ ρ.ids → u.parts ≠ [matchWord])

/-- Every name of a group is that of its slot, and none of them is the new name. -/
structure Tame (g : Group) : Prop where
  nodup : (g.map Prod.fst).Nodup
  entry : ∀ e ∈ g, e.1 = e.2.name ∧ e.1 ≠ ρ.name

/-- Linking has come to the same place in both programs. -/
structure Meets (gs gs' : List Group) (s s' : Linking) : Prop where
  tame : ∀ g ∈ gs, ρ.Tame g
  first : ρ.first ≤ s.nextSlot
  groups : gs' = gs.map ρ.group
  linking : s' = ρ.linking s

end Renaming

section

variable {ρ : Renaming} {l : Links} {gs hs : List (List Declared)} {us vs : List QName}

theorem Renaming.marks_append :
    ρ.Marks l (gs ++ hs) (us ++ vs) ↔ ρ.Marks l gs us ∧ ρ.Marks l hs vs := by
  constructor
  · rintro ⟨hl, hu⟩
    rw [List.forall_mem_append] at hl hu
    exact ⟨⟨hl.1, hu.1⟩, ⟨hl.2, hu.2⟩⟩
  · rintro ⟨h, h'⟩
    exact ⟨List.forall_mem_append.mpr ⟨h.leaf, h'.leaf⟩, List.forall_mem_append.mpr ⟨h.use, h'.use⟩⟩

theorem Renaming.Marks.tail {g : List Declared} (h : ρ.Marks l (g :: gs) us) : ρ.Marks l gs us :=
  ⟨(List.forall_mem_cons.mp h.leaf).2, h.use⟩

end

mutual

theorem Pattern.leaves_rename (ids : List Nat) (name : String) (p : Pattern) :
    (p.rename ids name).leaves = p.leaves.map (·.rename ids name) := by
  match p with
  | .wildcard | .literal _ _ => rfl
  | .name id old line => rfl
  | .list items => exact patternsLeaves_rename ids name items
  | .type _ params => exact patternsLeaves_rename ids name params

theorem patternsLeaves_rename (ids : List Nat) (name : String) (ps : List Pattern) :
    patternsLeaves (patternsRename ids name ps) = (patternsLeaves ps).map (·.rename ids name) := by
  match ps with
  | [] => rfl
  | p :: ps =>
    rw [patternsRename, patternsLeaves, patternsLeaves, List.map_append,
      Pattern.leaves_rename ids name p, patternsLeaves_rename ids name ps]

end

section

variable (ids : List Nat) (name : String)

theorem Block.patterns_rename (b : Block) :
    (b.rename ids name).patterns = patternsRename ids name b.patterns := by
  induction b using Block.patterns.induct with
  | case1 e => rfl
  | case2 p value isPublic rest ih => rw [Block.rename, patterns, patterns, patternsRename, ih]

theorem bindingPatterns_rename (ds : List Decl) :
    bindingPatterns (declsRename ids name ds) = patternsRename ids name (bindingPatterns ds) := by
  induction ds with
  | nil => rfl
  | cons d ds ih =>
    unfold bindingPatterns at ih ⊢
    cases d with
    | binding p value isPublic =>
      simp only [declsRename, Decl.rename, List.filterMap_cons, patternsRename, ih]
    | space ns => simp only [declsRename, Decl.rename, List.filterMap_cons, ih]
    | type n isPublic cases body =>
      cases body <;> simp only [declsRename, Decl.rename, List.filterMap_cons, ih]

theorem exprsRename_length (es : List Expr) : (exprsRename ids name es).length = es.length := by
  induction es with
  | nil => rfl
  | cons e es ih => rw [exprsRename, List.length_cons, List.length_cons, ih]

theorem patternsRename_length (ps : List Pattern) :
    (patternsRename ids name ps).length = ps.length := by
  induction ps with
  | nil => rfl
  | cons p ps ih => rw [patternsRename, List.length_cons, List.length_cons, ih]

end

end MatchLang
