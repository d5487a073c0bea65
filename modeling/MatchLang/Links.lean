import MatchLang.Program

/-! Which declaration a name means. The bindings directly in a namespace, a block or a parameter
list form a group; a group declares all its names before any of its bodies is looked at, and a name
of one part means the declaration of the innermost group that has it. Other names are left to be
looked up when the program runs. -/

namespace MatchLang

/-- A declared name with the number of its storage place. -/
structure Slot where
  id : Nat
  name : String
  line : Nat
  deriving DecidableEq, Inhabited, Repr

def Slot.text (s : Slot) : String :=
  s.name ++ "#" ++ toString s.id

/-- The slots of occurrences, by the number of the occurrence; a later link hides an earlier one. -/
structure Links where
  entries : List (Nat × Slot)

def Links.empty : Links := ⟨[]⟩

def Links.get? (l : Links) (id : Nat) : Option Slot :=
  l.entries.lookup id

def Links.insert (l : Links) (id : Nat) (s : Slot) : Links :=
  ⟨(id, s) :: l.entries⟩

/-- The occurrences that have a link, each once. -/
def Links.ids (l : Links) : List Nat :=
  (l.entries.map (·.1)).eraseDups

def Links.size (l : Links) : Nat :=
  l.ids.length

@[simp] theorem Links.get?_insert (l : Links) (i j : Nat) (s : Slot) :
    (l.insert i s).get? j = if j = i then some s else l.get? j := by
  by_cases h : j = i
  · simp [get?, insert, h]
  · have hb : (j == i) = false := by simp [h]
    simp [get?, insert, List.lookup_cons, h, hb]

/-- The names of one group. -/
abbrev Group := List (String × Slot)

/-- The links made so far and the next free slot. -/
structure Linking where
  links : Links
  nextSlot : Nat

/-- Link one leaf: the first of a name declares it, the others share it. -/
def declareLeaf (id : Nat) (name : String) (line : Nat) (g : Group) (s : Linking) :
    Group × Linking :=
  match g.lookup name with
  | some slot => (g, { s with links := s.links.insert id slot })
  | none =>
    let slot : Slot := { id := s.nextSlot, name, line }
    ((name, slot) :: g, { links := s.links.insert id slot, nextSlot := s.nextSlot + 1 })

mutual

def declarePattern : Pattern → Group → Linking → Group × Linking
  | .wildcard, g, s => (g, s)
  | .name id n line, g, s => declareLeaf id n line g s
  | .literal _ _, g, s => (g, s)
  | .list items, g, s => declarePatterns items g s
  | .type _ params, g, s => declarePatterns params g s

def declarePatterns : List Pattern → Group → Linking → Group × Linking
  | [], g, s => (g, s)
  | p :: ps, g, s =>
    let (g, s) := declarePattern p g s
    declarePatterns ps g s

end

/-- The group of some patterns in front of the groups around it. -/
def enterGroup (ps : List Pattern) (around : List Group) (s : Linking) : List Group × Linking :=
  let (g, s) := declarePatterns ps [] s
  (g :: around, s)

/-- The declaration of a name, innermost group first. -/
def findSlot? (groups : List Group) (name : String) : Option Slot :=
  groups.findSome? (·.lookup name)

def linkName (groups : List Group) (n : QName) (s : Linking) : Linking :=
  match n.single?.bind (findSlot? groups) with
  | some slot => { s with links := s.links.insert n.id slot }
  | none => s

mutual

def linkExpr (groups : List Group) : Expr → Linking → Linking
  | .call callee args _, s => linkArgs groups args (linkExpr groups callee s)
  | .function params body _, s =>
    let (groups, s) := enterGroup params groups s
    let (groups, s) := enterGroup body.patterns groups s
    linkBody groups body s
  | .list elements _, s => linkElements groups elements s
  | .literal _ _, s => s
  | .name n, s => linkName groups n s
  | .self _, s => s

def linkArgs (groups : List Group) : List Expr → Linking → Linking
  | [], s => s
  | e :: es, s => linkArgs groups es (linkExpr groups e s)

def linkElements (groups : List Group) : List Block → Linking → Linking
  | [], s => s
  | b :: bs, s =>
    let (inner, s) := enterGroup b.patterns groups s
    linkElements groups bs (linkBody inner b s)

/-- A block whose own group is already the innermost one. -/
def linkBody (groups : List Group) : Block → Linking → Linking
  | .result e, s => linkExpr groups e s
  | .bind _ value _ rest, s =>
    let (inner, s) := enterGroup value.patterns groups s
    linkBody groups rest (linkBody inner value s)

end

def linkBlock (groups : List Group) (b : Block) (s : Linking) : Linking :=
  let (inner, s) := enterGroup b.patterns groups s
  linkBody inner b s

mutual

/-- The declarations of a namespace whose own group is already the innermost one. -/
def linkDecls (groups : List Group) : List Decl → Linking → Linking
  | [], s => s
  | d :: ds, s => linkDecls groups ds (linkDecl groups d s)

def linkDecl (groups : List Group) : Decl → Linking → Linking
  | .space ns, s => linkNamespace groups ns s
  | .type _ _ _ (some ns), s => linkNamespace groups ns s
  | .type _ _ _ none, s => s
  | .binding _ value _, s => linkBlock groups value s

def linkNamespace (groups : List Group) : NamespaceDecl → Linking → Linking
  | .mk _ _ decls, s =>
    let (groups, s) := enterGroup (bindingPatterns decls) groups s
    linkDecls groups decls s

end

/-- The links of a program, whose slots are numbered from `nextSlot` on. The call at the end sees
the group of the root. -/
def Program.link (p : Program) (nextSlot : Nat) : Linking :=
  let (groups, s) := enterGroup (bindingPatterns p.root.decls) [] ⟨.empty, nextSlot⟩
  let s := linkDecls groups p.root.decls s
  match p.trailing with
  | some c => linkExpr groups c.toExpr s
  | none => s

end MatchLang
